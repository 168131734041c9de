import AetherMoE.Lib.Fifo
import AetherMoE.Lib.Reach
import Mathlib.Logic.Function.Basic

/-!
# Atomic objects

An object shared by threads is atomic when every operation takes effect at one moment between its
call and its return. `Step` is the canonical such object: a thread calls, its operation takes
effect, and it returns with the reply it got then. Its traces of calls and returns are the
linearizable histories, so an implementation is linearizable when its traces are traces of `Step`.

An effect may look at what the other threads are in the middle of: this is how an object says
which replies overlapping operations excuse.

* `Phase`, `Event`, `Step`: the canonical atomic object;
* `QueueEffect`: a bounded queue that may refuse while an operation of the other kind has taken
  effect and not returned, with what each of its replies says.
-/

namespace AtomicObject

open Fifo

variable {τ ι ρ σ : Type}

/-- Where a thread is with its operation: the reply is fixed when the operation takes effect. -/
inductive Phase (ι ρ : Type)
  | idle
  | called (op : ι)
  | replied (reply : ρ)

/-- What the threads see of the object. -/
inductive Event (τ ι ρ : Type)
  | call (i : τ) (op : ι)
  | ret (i : τ) (reply : ρ)
  deriving Repr, DecidableEq

/-- The object and its threads. -/
structure Config (τ ι ρ σ : Type) where
  object : σ
  phases : τ → Phase ι ρ

/-- A call, an effect, or a return. -/
inductive Step [DecidableEq τ] (effect : (τ → Phase ι ρ) → σ → ι → ρ → σ → Prop) :
    Config τ ι ρ σ → List (Event τ ι ρ) → Config τ ι ρ σ → Prop
  | call (c : Config τ ι ρ σ) (i : τ) (op : ι) : c.phases i = .idle →
      Step effect c [.call i op] ⟨c.object, Function.update c.phases i (.called op)⟩
  | effect (c : Config τ ι ρ σ) (i : τ) (op : ι) (r : ρ) (o : σ) : c.phases i = .called op →
      effect c.phases c.object op r o →
      Step effect c [] ⟨o, Function.update c.phases i (.replied r)⟩
  | ret (c : Config τ ι ρ σ) (i : τ) (r : ρ) : c.phases i = .replied r →
      Step effect c [.ret i r] ⟨c.object, Function.update c.phases i .idle⟩

/-! ## The bounded queue -/

variable {α : Type}

/-- A bounded queue. It refuses an item when it is full, and has none to give when it is empty. It
may also do so while an operation of the other kind has taken effect and not returned. -/
inductive QueueEffect (cap : ℕ) (phases : τ → Phase (Op α) (Reply α)) :
    List α → Op α → Reply α → List α → Prop
  | push (q : List α) (v : α) : q.length < cap →
      QueueEffect cap phases q (.push v) (.pushed true) (q ++ [v])
  | full (q : List α) (v : α) :
      q.length = cap ∨ (∃ i x, phases i = .replied (.popped (some x))) →
      QueueEffect cap phases q (.push v) (.pushed false) q
  | pop (q : List α) (v : α) : QueueEffect cap phases (v :: q) .pop (.popped (some v)) q
  | empty (q : List α) : q = [] ∨ (∃ i, phases i = .replied (.pushed true)) →
      QueueEffect cap phases q .pop (.popped none) q

variable {cap : ℕ} {phases : τ → Phase (Op α) (Reply α)} {q q' : List α} {v : α}

theorem QueueEffect.push_true (h : QueueEffect cap phases q (.push v) (.pushed true) q') :
    q' = q ++ [v] ∧ q.length < cap := by
  cases h with
  | push _ _ hlt => exact ⟨rfl, hlt⟩

theorem QueueEffect.push_false (h : QueueEffect cap phases q (.push v) (.pushed false) q') :
    q' = q ∧ (q.length = cap ∨ ∃ i x, phases i = .replied (.popped (some x))) := by
  cases h with
  | full _ _ hq => exact ⟨rfl, hq⟩

theorem QueueEffect.pop_some (h : QueueEffect cap phases q .pop (.popped (some v)) q') :
    q = v :: q' := by
  cases h with
  | pop => rfl

theorem QueueEffect.pop_none (h : QueueEffect cap phases q .pop (.popped none) q') :
    q' = q ∧ (q = [] ∨ ∃ i, phases i = .replied (.pushed true)) := by
  cases h with
  | empty _ hq => exact ⟨rfl, hq⟩

/-- **A pop is always answered.** -/
theorem exists_pop (cap : ℕ) (phases : τ → Phase (Op α) (Reply α)) (q : List α) :
    ∃ out q', QueueEffect cap phases q .pop (.popped out) q' := by
  cases q with
  | nil => exact ⟨_, _, .empty [] (Or.inl rfl)⟩
  | cons v q => exact ⟨_, _, .pop q v⟩

end AtomicObject
