import AetherMoE.Lib.Effect

/-!
# Pre- and postconditions

`Triple P x Q`: whenever `x` ends, from a state that meets `P`, its outcome and the state it leaves
meet `Q`.

* `Triple`: the relation;
* `Triple.pure`, `Triple.liftExcept`, `Triple.liftOption`: computations that leave the state;
* **`Triple.bind`**, `Triple.attempt`: sequences and handlers; `Triple.bind_liftExcept`,
  `Triple.bind_liftOption`.
-/

namespace Effect

variable {ε σ α β : Type}

/-- From a state that meets `P`, `x` does not end or leaves what `Q` says. -/
def Triple (P : σ → Prop) (x : Comp ε σ α) (Q : Except ε α → σ → Prop) : Prop :=
  ∀ s, P s → ∀ out s', exec x s = some (out, s') → Q out s'

namespace Triple

variable {P : σ → Prop} {Q : Except ε α → σ → Prop} {x : Comp ε σ α}

theorem pure {a : α} (h : ∀ s, P s → Q (.ok a) s) : Triple P (Pure.pure a : Comp ε σ α) Q := by
  rintro s hs out s' ⟨⟩
  exact h s hs

theorem liftExcept {o : Except ε α} (h : ∀ s, P s → Q o s) :
    Triple P (liftM o : Comp ε σ α) Q := by
  intro s hs out s' hexec
  rw [exec_liftExcept] at hexec
  cases hexec
  exact h s hs

theorem liftOption {o : Option α} (h : ∀ a, o = some a → ∀ s, P s → Q (.ok a) s) :
    Triple P (liftM o : Comp ε σ α) Q := by
  intro s hs out s' hexec
  rw [exec_liftOption] at hexec
  cases o with
  | none => cases hexec
  | some a =>
    cases hexec
    exact h a rfl s hs

/-- **Sequences.** -/
theorem bind {f : α → Comp ε σ β} {Q'' : Except ε β → σ → Prop} (h : Triple P x Q)
    (hf : ∀ a, Triple (Q (.ok a)) (f a) Q'') (he : ∀ e s, Q (.error e) s → Q'' (.error e) s) :
    Triple P (x >>= f) Q'' := by
  intro s hs out s' hexec
  rw [exec_bind] at hexec
  cases hx : exec x s with
  | none =>
    rw [hx] at hexec
    cases hexec
  | some p =>
    obtain ⟨o, t⟩ := p
    rw [hx] at hexec
    have hQ := h s hs o t hx
    cases o with
    | error e =>
      have hthrow : Except.error e = out ∧ t = s' := by simpa using hexec
      exact hthrow.1 ▸ hthrow.2 ▸ he e t hQ
    | ok a => exact hf a t hQ out s' hexec

theorem bind_liftExcept {o : Except ε α} {f : α → Comp ε σ β} {Q'' : Except ε β → σ → Prop}
    (hf : ∀ a, o = .ok a → Triple P (f a) Q'') (he : ∀ e s, P s → Q'' (.error e) s) :
    Triple P ((liftM o : Comp ε σ α) >>= f) Q'' := by
  intro s hs out s' hexec
  rw [exec_bind, exec_liftExcept] at hexec
  cases o with
  | error e =>
    cases hexec
    exact he e s hs
  | ok a => exact hf a rfl s hs out s' hexec

theorem bind_liftOption {o : Option α} {f : α → Comp ε σ β} {Q'' : Except ε β → σ → Prop}
    (hf : ∀ a, o = some a → Triple P (f a) Q'') :
    Triple P ((liftM o : Comp ε σ α) >>= f) Q'' := by
  intro s hs out s' hexec
  rw [exec_bind, exec_liftOption] at hexec
  cases o with
  | none => cases hexec
  | some a => exact hf a rfl s hs out s' hexec

/-- **Handlers.** The outcome becomes a value. -/
theorem attempt (h : Triple P x Q) :
    Triple P (Effect.attempt x) fun out s => ∃ r, out = .ok r ∧ Q r s := by
  intro s hs out s' hexec
  rw [exec_attempt, Option.map_eq_some_iff] at hexec
  obtain ⟨⟨o, t⟩, hx, heq⟩ := hexec
  cases heq
  exact ⟨o, rfl, h s hs o _ hx⟩

end Triple

end Effect
