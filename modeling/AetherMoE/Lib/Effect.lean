/-!
# Stateful computations that may throw or never return

`Comp ε σ α` threads a state `σ`, may throw an `ε` (the state at the throw is kept), and may fail
to return at all, which no handler can catch: the computation is stuck, or its next action is
undefined.

* `exec`: run a computation; `exec_pure`, `exec_bind`, `exec_liftExcept`,
  `exec_liftOption`;
* `attempt`: catch every exception;
* `exec_bind_ok`, `exec_bind_error`: the two ways through a bind;
  **`exec_bind_eq_ok`**: a sequence returns when both parts do.
-/

namespace Effect

variable {ε σ α β : Type}

/-- Computations over a state `σ` that may throw an `ε` or never return. -/
abbrev Comp (ε σ : Type) := ExceptT ε (StateT σ Option)

/-- Run a computation: `none` if it never returns. -/
def exec (x : Comp ε σ α) (s : σ) : Option (Except ε α × σ) := (ExceptT.run x).run s

/-- The computation with a given effect. -/
def ofExec (f : σ → Option (Except ε α × σ)) : Comp ε σ α := ExceptT.mk f

@[simp] theorem exec_ofExec (f : σ → Option (Except ε α × σ)) (s : σ) : exec (ofExec f) s = f s :=
  rfl

@[simp] theorem exec_pure (a : α) (s : σ) : exec (pure a : Comp ε σ α) s = some (.ok a, s) := rfl

@[simp] theorem exec_liftExcept (x : Except ε α) (s : σ) :
    exec (liftM x : Comp ε σ α) s = some (x, s) := rfl

@[simp] theorem exec_liftOption (x : Option α) (s : σ) :
    exec (liftM x : Comp ε σ α) s = x.map fun a => (.ok a, s) := by
  cases x <;> rfl

theorem exec_bind (x : Comp ε σ α) (f : α → Comp ε σ β) (s : σ) :
    exec (x >>= f) s = match exec x s with
      | none => none
      | some (.error e, s') => some (.error e, s')
      | some (.ok a, s') => exec (f a) s' := by
  change (((ExceptT.run x).run s).bind fun p => (ExceptT.bindCont f p.1).run p.2) = _
  unfold exec
  rcases (ExceptT.run x).run s with _ | ⟨_ | a, s'⟩ <;> rfl

/-- Run `x` and hand its outcome, returned or thrown, to what follows. -/
def attempt (x : Comp ε σ α) : Comp ε σ (Except ε α) :=
  ofExec fun s => (exec x s).map fun p => (.ok p.1, p.2)

@[simp] theorem exec_attempt (x : Comp ε σ α) (s : σ) :
    exec (attempt x) s = (exec x s).map fun p => (.ok p.1, p.2) := rfl

section Bind

variable {x : Comp ε σ α} {f : α → Comp ε σ β} {s s' s'' : σ} {a : α} {b : β} {e : ε}

theorem exec_bind_ok (h : exec x s = some (.ok a, s')) : exec (x >>= f) s = exec (f a) s' := by
  rw [exec_bind, h]

theorem exec_bind_error (h : exec x s = some (.error e, s')) :
    exec (x >>= f) s = some (.error e, s') := by
  rw [exec_bind, h]

/-- **A sequence returns when both parts do.** -/
theorem exec_bind_eq_ok : exec (x >>= f) s = some (.ok b, s'') ↔
    ∃ a s', exec x s = some (.ok a, s') ∧ exec (f a) s' = some (.ok b, s'') := by
  rw [exec_bind]
  rcases exec x s with _ | ⟨_ | a, s'⟩
  · simp
  · simp
  · simp [and_assoc]

end Bind

end Effect
