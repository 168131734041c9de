import AetherMoE.Lib.Effect

/-!
# Two computations side by side

`Coupled P x y Q`: from states related by `P`, the computations `x` and `y` either both never
return, or have the same outcome, returned or thrown, and leave states related by `Q` of it. The
states may be of different types: one computation may run over a refinement of the other's.

* `Coupled`, `Coupled.of_eq`: the relation, and computations that end on both sides;
* `Coupled.pure`, `Coupled.liftExcept`, `Coupled.liftOption`: computations that leave the state;
* **`Coupled.bind`**: sequences, with one condition for a throw; `Coupled.bind_liftExcept`,
  `Coupled.bind_liftOption`: after a value that may be a throw, or undefined;
* `Coupled.attempt`: handlers.
-/

namespace Effect

variable {ε σ κ α β : Type}

/-- From states related by `P` the computations do the same, and leave states related by `Q`. -/
def Coupled (P : σ → κ → Prop) (x : Comp ε σ α) (y : Comp ε κ α)
    (Q : Except ε α → σ → κ → Prop) : Prop :=
  ∀ s t, P s t → Option.Rel (fun p q => p.1 = q.1 ∧ Q p.1 p.2 q.2) (exec x s) (exec y t)

namespace Coupled

variable {P : σ → κ → Prop} {Q : Except ε α → σ → κ → Prop} {x : Comp ε σ α} {y : Comp ε κ α}

/-- Both computations run to an end, by the same outcome. -/
theorem of_eq {out : Except ε α} {f : σ → σ} {g : κ → κ}
    (hx : ∀ s t, P s t → exec x s = some (out, f s))
    (hy : ∀ s t, P s t → exec y t = some (out, g t)) (hQ : ∀ s t, P s t → Q out (f s) (g t)) :
    Coupled P x y Q := by
  intro s t hst
  rw [hx s t hst, hy s t hst]
  exact .some ⟨rfl, hQ s t hst⟩

theorem pure {a : α} (h : ∀ s t, P s t → Q (.ok a) s t) :
    Coupled P (Pure.pure a : Comp ε σ α) (Pure.pure a : Comp ε κ α) Q :=
  fun s t hst => .some ⟨rfl, h s t hst⟩

theorem liftExcept {o : Except ε α} (h : ∀ s t, P s t → Q o s t) :
    Coupled P (liftM o : Comp ε σ α) (liftM o : Comp ε κ α) Q :=
  of_eq (fun s _ _ => exec_liftExcept o s) (fun _ t _ => exec_liftExcept o t) h

theorem liftOption {o : Option α} (h : ∀ a, o = some a → ∀ s t, P s t → Q (.ok a) s t) :
    Coupled P (liftM o : Comp ε σ α) (liftM o : Comp ε κ α) Q := by
  intro s t hst
  rw [exec_liftOption, exec_liftOption]
  cases o with
  | none => exact .none
  | some a => exact .some ⟨rfl, h a rfl s t hst⟩

/-- **Sequences.** What follows a returned value is coupled; a throw ends both sides. -/
theorem bind {f : α → Comp ε σ β} {g : α → Comp ε κ β} {Q'' : Except ε β → σ → κ → Prop}
    (h : Coupled P x y Q) (hf : ∀ a, Coupled (Q (.ok a)) (f a) (g a) Q'')
    (he : ∀ e s t, Q (.error e) s t → Q'' (.error e) s t) :
    Coupled P (x >>= f) (y >>= g) Q'' := by
  intro s t hst
  have hrel := h s t hst
  rw [exec_bind, exec_bind]
  generalize exec x s = a, exec y t = b at hrel ⊢
  cases hrel with
  | none => exact .none
  | @some p q hpq =>
    obtain ⟨o, s'⟩ := p
    obtain ⟨o', t'⟩ := q
    obtain ⟨rfl, hQ⟩ := hpq
    cases o with
    | error e => exact .some ⟨rfl, he e _ _ hQ⟩
    | ok a => exact hf a s' t' hQ

/-- A value that may be a throw, and what follows it. -/
theorem bind_liftExcept {o : Except ε α} {f : α → Comp ε σ β} {g : α → Comp ε κ β}
    {Q'' : Except ε β → σ → κ → Prop} (hf : ∀ a, Coupled P (f a) (g a) Q'')
    (he : ∀ e s t, P s t → Q'' (.error e) s t) :
    Coupled P ((liftM o : Comp ε σ α) >>= f) ((liftM o : Comp ε κ α) >>= g) Q'' :=
  bind (Q := fun _ => P) (liftExcept fun _ _ h => h) hf he

/-- A value that may be undefined, and what follows it. -/
theorem bind_liftOption {o : Option α} {f : α → Comp ε σ β} {g : α → Comp ε κ β}
    {Q'' : Except ε β → σ → κ → Prop} (hf : ∀ a, Coupled P (f a) (g a) Q'')
    (he : ∀ e s t, P s t → Q'' (.error e) s t) :
    Coupled P ((liftM o : Comp ε σ α) >>= f) ((liftM o : Comp ε κ α) >>= g) Q'' :=
  bind (Q := fun _ => P) (liftOption fun _ _ _ _ h => h) hf he

/-- **Handlers.** The outcome becomes a value. -/
theorem attempt (h : Coupled P x y Q) :
    Coupled P (Effect.attempt x) (Effect.attempt y) fun out s t => ∃ r, out = .ok r ∧ Q r s t := by
  intro s t hst
  have hrel := h s t hst
  rw [exec_attempt, exec_attempt]
  generalize exec x s = a, exec y t = b at hrel ⊢
  cases hrel with
  | none => exact .none
  | some hpq => exact .some ⟨congrArg Except.ok hpq.1, _, rfl, hpq.2⟩

end Coupled

end Effect
