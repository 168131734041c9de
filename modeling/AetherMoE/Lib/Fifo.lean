import Mathlib.Algebra.GroupWithZero.Nat
import Mathlib.Data.List.Basic

/-!
# Machines that answer operations, and the bounded queue

A machine answers an operation with a reply and a new state, or never answers. **`runAll_refines`**
is the simulation rule: two machines that keep a relation between their states and answer alike
answer every list of operations alike.

The bounded queue is a machine over lists: `serve` appends while fewer than `cap` items wait, and
hands the oldest item out. `pushed_add_length` counts what went in against what came out.
-/

namespace Fifo

/-! ## Machines -/

section Machines

variable {ι ο σ τ : Type}

/-- Answer a list of operations one after the other. -/
def runAll (f : ι → σ → Option (ο × σ)) : List ι → σ → Option (List ο × σ)
  | [], s => some ([], s)
  | i :: is, s => (f i s).bind fun x => (runAll f is x.2).map fun y => (x.1 :: y.1, y.2)

variable {f : ι → σ → Option (ο × σ)} {g : ι → τ → Option (ο × τ)}

theorem runAll_cons {i : ι} {is : List ι} {s s' s'' : σ} {o : ο} {os : List ο}
    (h : f i s = some (o, s')) (h' : runAll f is s' = some (os, s'')) :
    runAll f (i :: is) s = some (o :: os, s'') := by
  simp only [runAll, h, Option.bind_some, h', Option.map_some]

theorem runAll_cons_inv {i : ι} {is : List ι} {s s'' : σ} {os : List ο}
    (h : runAll f (i :: is) s = some (os, s'')) :
    ∃ o s' os', f i s = some (o, s') ∧ runAll f is s' = some (os', s'') ∧ os = o :: os' := by
  simp only [runAll, Option.bind_eq_some_iff, Option.map_eq_some_iff] at h
  obtain ⟨⟨o, s'⟩, h1, ⟨os', t⟩, h2, h3⟩ := h
  cases h3
  exact ⟨o, s', os', h1, h2, rfl⟩

/-- **The invariant rule for runs**: what every answer keeps, every run keeps. The replies given
so far are part of what is kept. -/
theorem runAll_invariant {P : List ο → σ → Prop}
    (hstep : ∀ i s o s' os, P os s → f i s = some (o, s') → P (os ++ [o]) s') {is : List ι}
    {s s' : σ} {os os' : List ο} (h : P os s) (hrun : runAll f is s = some (os', s')) :
    P (os ++ os') s' := by
  induction is generalizing s os os' with
  | nil =>
    cases hrun
    rwa [List.append_nil]
  | cons i is ih =>
    obtain ⟨o, t, os'', h1, h2, rfl⟩ := runAll_cons_inv hrun
    have := ih (hstep i s o t os h h1) h2
    rwa [List.append_assoc] at this

/-- A machine that answers in every state of an invariant answers every list of operations. -/
theorem runAll_total {P : List ο → σ → Prop}
    (hstep : ∀ i s os, P os s → ∃ o s', f i s = some (o, s') ∧ P (os ++ [o]) s') (is : List ι)
    {s : σ} {os : List ο} (h : P os s) :
    ∃ os' s', runAll f is s = some (os', s') ∧ P (os ++ os') s' := by
  induction is generalizing s os with
  | nil => exact ⟨[], s, rfl, by rwa [List.append_nil]⟩
  | cons i is ih =>
    obtain ⟨o, t, hf, ht⟩ := hstep i s os h
    obtain ⟨os', s', hrun, hP⟩ := ih ht
    rw [List.append_assoc] at hP
    exact ⟨o :: os', s', runAll_cons hf hrun, hP⟩

/-- **The simulation rule**: machines that keep `R` and answer alike answer every list of
operations alike. -/
theorem runAll_refines {R : σ → τ → Prop}
    (hstep : ∀ i s t, R s t → ∃ o s' t', f i s = some (o, s') ∧ g i t = some (o, t') ∧ R s' t')
    (is : List ι) {s : σ} {t : τ} (h : R s t) :
    ∃ os s' t', runAll f is s = some (os, s') ∧ runAll g is t = some (os, t') ∧ R s' t' := by
  induction is generalizing s t with
  | nil => exact ⟨[], s, t, rfl, rfl, h⟩
  | cons i is ih =>
    obtain ⟨o, s₁, t₁, hf, hg, h₁⟩ := hstep i s t h
    obtain ⟨os, s₂, t₂, hfs, hgs, h₂⟩ := ih h₁
    exact ⟨o :: os, s₂, t₂, runAll_cons hf hfs, runAll_cons hg hgs, h₂⟩

end Machines

/-! ## The bounded queue -/

section Queue

variable {α : Type}

/-- What is asked of a queue. -/
inductive Op (α : Type)
  | push (item : α)
  | pop
  deriving Repr, DecidableEq

/-- What a queue answers: whether the item was taken, and the item handed out, if any. -/
inductive Reply (α : Type)
  | pushed (ok : Bool)
  | popped (item : Option α)
  deriving Repr, DecidableEq

/-- The bounded queue, oldest item first. -/
def serve (cap : ℕ) : Op α → List α → Option (Reply α × List α)
  | .push item, q => if q.length < cap then some (.pushed true, q ++ [item])
      else some (.pushed false, q)
  | .pop, [] => some (.popped none, [])
  | .pop, item :: q => some (.popped (some item), q)

/-- The items taken in. -/
def Reply.pushes : Reply α → ℕ
  | .pushed true => 1
  | _ => 0

/-- The items handed out. -/
def Reply.pops : Reply α → ℕ
  | .popped (some _) => 1
  | _ => 0

theorem serve_count {cap : ℕ} {op : Op α} {q q' : List α} {r : Reply α}
    (h : serve cap op q = some (r, q')) : q.length + r.pushes = q'.length + r.pops := by
  cases op with
  | push item =>
    simp only [serve] at h
    split at h <;> cases h <;> simp [Reply.pushes, Reply.pops]
  | pop =>
    cases q with
    | nil =>
      cases h
      rfl
    | cons a q =>
      cases h
      simp [Reply.pushes, Reply.pops]

/-- What went in is what came out and what still waits. -/
theorem pushed_add_length {cap : ℕ} {ops : List (Op α)} {q q' : List α} {rs : List (Reply α)}
    (h : runAll (serve cap) ops q = some (rs, q')) :
    q.length + (rs.map Reply.pushes).sum = q'.length + (rs.map Reply.pops).sum := by
  let P : List (Reply α) → List α → Prop := fun os s =>
    q.length + (os.map Reply.pushes).sum = s.length + (os.map Reply.pops).sum
  have hstep : ∀ op s r s' os, P os s → serve cap op s = some (r, s') → P (os ++ [r]) s' := by
    intro op s r s' os hos hs
    have := serve_count hs
    simp only [P, List.map_append, List.sum_append, List.map_cons, List.map_nil, List.sum_cons,
      List.sum_nil] at hos ⊢
    omega
  have h₀ : P [] q := rfl
  exact runAll_invariant hstep h₀ h

end Queue

end Fifo
