import Mathlib.Data.Nat.Notation
import Mathlib.Logic.Relation

/-!
# Invariants of transition systems

The reachable states of a step relation are those related to the initial state by Mathlib's
`Relation.ReflTransGen`; **`invariant`** is the induction rule every safety proof uses. A relation
whose steps also put out a list of labels has `Trace`s, with the labels in order. A measure that
every step counts down bounds how long a trace can put off a goal (**`Trace.countdown`**), and a
forward simulation carries the traces of one relation over to another (**`Trace.simulation`**).
-/

namespace Stepping

open Relation

variable {σ : Type} {r : σ → σ → Prop}

/-- **The invariant rule**: what holds initially and is kept by every step holds in every
reachable state. -/
theorem invariant {P : σ → Prop} {s₀ : σ} (h₀ : P s₀) (hstep : ∀ s t, P s → r s t → P t) {s : σ}
    (h : ReflTransGen r s₀ s) : P s := by
  induction h with
  | refl => exact h₀
  | tail _ hst ih => exact hstep _ _ ih hst

variable {ℓ : Type} {q : σ → List ℓ → σ → Prop} {s₀ : σ}

/-- `Trace q s₀ out s`: a chain of steps from `s₀` to `s` that puts out `out`. -/
inductive Trace (q : σ → List ℓ → σ → Prop) (s₀ : σ) : List ℓ → σ → Prop
  | nil : Trace q s₀ [] s₀
  | snoc {out ys : List ℓ} {s t : σ} (h : Trace q s₀ out s) (hst : q s ys t) :
      Trace q s₀ (out ++ ys) t

/-- The invariant rule for traces, with the labels put out so far. -/
theorem Trace.invariant {P : List ℓ → σ → Prop} (h₀ : P [] s₀)
    (hstep : ∀ out s ys t, P out s → q s ys t → P (out ++ ys) t) {out : List ℓ} {s : σ}
    (h : Trace q s₀ out s) : P out s := by
  induction h with
  | nil => exact h₀
  | snoc _ hst ih => exact hstep _ _ _ _ ih hst

theorem Trace.append {out ys : List ℓ} {s t : σ} (h : Trace q s₀ out s) (h' : Trace q s ys t) :
    Trace q s₀ (out ++ ys) t := by
  induction h' with
  | nil =>
    rw [List.append_nil]
    exact h
  | snoc _ hst ih =>
    rw [← List.append_assoc]
    exact ih.snoc hst

theorem Trace.single {ys : List ℓ} {t : σ} (h : q s₀ ys t) : Trace q s₀ ys t := Trace.nil.snoc h

/-- **The rule for bounded progress**: `P m` says that at most `m` labels `a` are left before `Q`.
If every step counts down, then so does every trace. -/
theorem Trace.countdown [DecidableEq ℓ] {a : ℓ} {P : ℕ → σ → Prop} {Q : σ → Prop}
    (hstep : ∀ m s ys t, P m s → q s ys t → Q t ∨ ∃ m', P m' t ∧ m' + ys.count a ≤ m)
    (hkeep : ∀ s ys t, Q s → q s ys t → Q t) {out : List ℓ} {s : σ} (h : Trace q s₀ out s) {m : ℕ}
    (h₀ : P m s₀) : Q s ∨ ∃ m', P m' s ∧ m' + out.count a ≤ m := by
  induction h with
  | nil => exact .inr ⟨m, h₀, Nat.le_refl _⟩
  | snoc _ hst ih =>
    rcases ih with hQ | ⟨m₁, hP, hle⟩
    · exact .inl (hkeep _ _ _ hQ hst)
    · rcases hstep _ _ _ _ hP hst with hQ | ⟨m₂, hP', hle'⟩
      · exact .inl hQ
      · refine .inr ⟨m₂, hP', ?_⟩
        rw [List.count_append]
        omega

variable {κ : Type} {p : κ → List ℓ → κ → Prop} {c₀ : κ}

/-- **The simulation rule**: if related states answer every step with a trace that puts out the
same labels, the two systems put out the same labels. `B` is a bound on the state that no step
takes back, such as a bound on a counter. -/
theorem Trace.simulation {B : σ → Prop} {R : σ → κ → Prop} (hB : ∀ s ys t, q s ys t → B t → B s)
    (h₀ : B s₀ → R s₀ c₀)
    (hstep : ∀ s ys t c, R s c → q s ys t → B t → ∃ c', Trace p c ys c' ∧ R t c') {out : List ℓ}
    {s : σ} (h : Trace q s₀ out s) (hs : B s) : ∃ c, Trace p c₀ out c ∧ R s c := by
  induction h with
  | nil => exact ⟨c₀, .nil, h₀ hs⟩
  | snoc _ hst ih =>
    obtain ⟨c, hc, hR⟩ := ih (hB _ _ _ hst hs)
    obtain ⟨c', hc', hR'⟩ := hstep _ _ _ _ hR hst hs
    exact ⟨c', hc.append hc', hR'⟩

end Stepping
