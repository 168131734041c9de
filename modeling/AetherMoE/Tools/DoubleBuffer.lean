import AetherMoE.Lib.Reach
import Mathlib.Data.Finset.Range
import Mathlib.Tactic.Linarith

/-!
# The double-buffered pipeline

`double_buffer_demo.mm` encodes, for every slice `i`, a transfer command buffer (a blit from the
staging area into `deviceInput[i % 2]`) on one queue and a compute command buffer (a kernel
reading `deviceInput[i % 2]`) on another. Each queue runs its command buffers in commit order, the
queues interleave freely, and both signal one shared event. A command buffer moves its elements
one at a time and in any order.

* `Demo`, `State`, `Step`: the pipeline as a step relation;
* `WritesAfterRead`, `ReadsOwnSlice`, `Safe`: what double buffering promises;
* **`inv_reach`**: with at most two slices no buffer is written twice, and the promise is kept;
* **`reach_overwrite`**: with three slices or more, `transfer(1)` signals `3`, which satisfies
  `transfer(2)`'s wait for `2` before `compute(0)` has started.
-/

namespace AetherMoE.DoubleBuffer

open Relation Stepping

variable {α : Type}

/-- The data of a run: the number of slices, their common positive length, and the staging area,
filled before the pipeline starts. -/
structure Demo (α : Type) where
  numSlices : ℕ
  elementsPerSlice : ℕ
  elements_pos : 0 < elementsPerSlice
  staging : ℕ → ℕ → α

/-- Where the current command buffer of a queue is: before its `encodeWaitForEvent`, or past it
with the elements it has moved. -/
inductive Stage
  | waiting
  | running (done : Finset ℕ)
  deriving DecidableEq

/-- The device: the event's value, the current command buffer of each queue, the two input
buffers, and what each compute command buffer has read. -/
structure State (α : Type) where
  event : ℕ
  transfer : ℕ
  transferStage : Stage
  compute : ℕ
  computeStage : Stage
  deviceInput : ℕ → ℕ → Option α
  read : ℕ → ℕ → Option α

/-- Nothing has run. -/
def State.init : State α where
  event := 0
  transfer := 0
  transferStage := .waiting
  compute := 0
  computeStage := .waiting
  deviceInput := fun _ _ => none
  read := fun _ _ => none

def transferDoneValue (i : ℕ) : ℕ := 2 * i + 1

def computeDoneValue (i : ℕ) : ℕ := 2 * i + 2

/-- One command of one queue. -/
inductive Step (d : Demo α) : State α → State α → Prop
  | transferWait (s : State α) : s.transfer < d.numSlices → s.transferStage = .waiting →
      (2 ≤ s.transfer → computeDoneValue (s.transfer - 2) ≤ s.event) →
      Step d s { s with transferStage := .running ∅ }
  | transferCopy (s : State α) (done : Finset ℕ) (j : ℕ) : s.transferStage = .running done →
      j < d.elementsPerSlice → j ∉ done →
      Step d s { s with
        transferStage := .running (insert j done)
        deviceInput := fun b k => if b = s.transfer % 2 ∧ k = j then
          some (d.staging s.transfer j) else s.deviceInput b k }
  | transferSignal (s : State α) (done : Finset ℕ) : s.transferStage = .running done →
      Finset.range d.elementsPerSlice ⊆ done →
      Step d s { s with
        event := max s.event (transferDoneValue s.transfer)
        transfer := s.transfer + 1
        transferStage := .waiting }
  | computeWait (s : State α) : s.compute < d.numSlices → s.computeStage = .waiting →
      transferDoneValue s.compute ≤ s.event →
      Step d s { s with computeStage := .running ∅ }
  | computeRead (s : State α) (done : Finset ℕ) (j : ℕ) : s.computeStage = .running done →
      j < d.elementsPerSlice → j ∉ done →
      Step d s { s with
        computeStage := .running (insert j done)
        read := fun i k => if i = s.compute ∧ k = j then
          s.deviceInput (s.compute % 2) j else s.read i k }
  | computeSignal (s : State α) (done : Finset ℕ) : s.computeStage = .running done →
      Finset.range d.elementsPerSlice ⊆ done →
      Step d s { s with
        event := max s.event (computeDoneValue s.compute)
        compute := s.compute + 1
        computeStage := .waiting }

/-! ## The promise -/

variable (d : Demo α)

/-- `compute(i)` has read all of its elements. -/
def FinishedReading (s : State α) (i : ℕ) : Prop :=
  i < s.compute ∨ s.compute = i ∧
    ∃ done, s.computeStage = .running done ∧ Finset.range d.elementsPerSlice ⊆ done

/-- No element of `deviceInput[i % 2]` is about to be overwritten by `transfer(i)` unless
`compute(i - 2)` has finished reading. -/
def WritesAfterRead (s : State α) : Prop :=
  ∀ done j, s.transferStage = .running done → j < d.elementsPerSlice → j ∉ done →
    2 ≤ s.transfer → FinishedReading d s (s.transfer - 2)

/-- What `compute(i)` has read, and is about to read, is slice `i`. -/
def ReadsOwnSlice (s : State α) : Prop :=
  (∀ i j v, s.read i j = some v → v = d.staging i j) ∧
  ∀ done j, s.computeStage = .running done → j < d.elementsPerSlice → j ∉ done →
    s.deviceInput (s.compute % 2) j = some (d.staging s.compute j)

/-- **The double-buffering promise**, over every interleaving of the two queues. -/
def Safe : Prop :=
  ∀ s, ReflTransGen (Step d) .init s → WritesAfterRead d s ∧ ReadsOwnSlice d s

/-! ## At most two slices -/

/-- With at most two slices: the event never runs ahead of the transfers, a compute command
buffer starts after its transfer, and a transferred slice stays in its buffer. -/
structure Inv (s : State α) : Prop where
  event_le : s.event ≤ 2 * s.transfer
  compute_le : s.compute ≤ s.transfer
  transfer_lt : ∀ done, s.transferStage = .running done → s.transfer < d.numSlices
  compute_lt : ∀ done, s.computeStage = .running done → s.compute < s.transfer
  slices_le : s.transfer ≤ d.numSlices
  copied : ∀ i < s.transfer, ∀ j < d.elementsPerSlice,
    s.deviceInput (i % 2) j = some (d.staging i j)
  copying : ∀ done, s.transferStage = .running done → ∀ j ∈ done,
    s.deviceInput (s.transfer % 2) j = some (d.staging s.transfer j)
  reads : ∀ i j v, s.read i j = some v → v = d.staging i j

variable {d}

theorem inv_init : Inv d (.init : State α) where
  event_le := le_rfl
  compute_le := le_rfl
  transfer_lt _ h := by cases h
  compute_lt _ h := by cases h
  slices_le := Nat.zero_le _
  copied _ h := absurd h (Nat.not_lt_zero _)
  copying _ h := by cases h
  reads _ _ _ h := by cases h

theorem inv_step (h2 : d.numSlices ≤ 2) {s t : State α} (h : Inv d s) (hst : Step d s t) :
    Inv d t := by
  obtain ⟨he, hc, htl, hcl, hsl, hcd, hcg, hrd⟩ := h
  cases hst with
  | transferWait hlt hw hev =>
    refine ⟨he, hc, fun _ _ => hlt, hcl, hsl, hcd, fun _ hd j hj => ?_, hrd⟩
    cases hd
    exact absurd hj (Finset.notMem_empty j)
  | transferCopy done j hs hj hnd =>
    have hlt := htl done hs
    refine ⟨he, hc, fun _ _ => hlt, hcl, hsl, fun i hi k hk => ?_, fun _ hd k hk => ?_, hrd⟩
    · have hne : i % 2 ≠ s.transfer % 2 := by
        change i < s.transfer at hi
        omega
      simp only [hne, false_and, if_false]
      exact hcd i hi k hk
    · cases hd
      simp only [true_and]
      split_ifs with hkj
      · rw [hkj]
      · exact hcg done hs k ((Finset.mem_insert.mp hk).resolve_left hkj)
  | transferSignal done hs hall =>
    have hlt := htl done hs
    refine ⟨?_, Nat.le_succ_of_le hc, fun _ hd => (by cases hd), fun dn hd => ?_, hlt,
      fun i hi k hk => ?_, fun _ hd => (by cases hd), hrd⟩
    · simp only [transferDoneValue]
      omega
    · exact Nat.lt_succ_of_lt (hcl dn hd)
    · rcases Nat.lt_succ_iff_lt_or_eq.mp hi with hi | rfl
      · exact hcd i hi k hk
      · exact hcg done hs k (hall (Finset.mem_range.mpr hk))
  | computeWait hlt hw hev =>
    refine ⟨he, hc, htl, fun _ _ => ?_, hsl, hcd, hcg, hrd⟩
    simp only [transferDoneValue] at hev
    change s.compute < s.transfer
    omega
  | computeRead done j hs hj hnd =>
    have hlt := hcl done hs
    refine ⟨he, hc, htl, fun _ _ => hlt, hsl, hcd, hcg, fun i k v hv => ?_⟩
    simp only at hv
    split_ifs at hv with hik
    · obtain ⟨rfl, rfl⟩ := hik
      rw [hcd _ hlt _ hj] at hv
      exact (Option.some.inj hv).symm
    · exact hrd i k v hv
  | computeSignal done hs hall =>
    have hlt := hcl done hs
    refine ⟨?_, hlt, htl, fun _ hd => (by cases hd), hsl, hcd, hcg, hrd⟩
    simp only [computeDoneValue]
    omega

/-- **Two buffers serve two slices.** -/
theorem safe_of_le_two (h2 : d.numSlices ≤ 2) : Safe d := by
  intro s hs
  have h : Inv d s := invariant inv_init (fun _ _ => inv_step h2) hs
  refine ⟨fun done _ hd _ _ h2' => ?_, h.reads, fun done j hd hj _ => ?_⟩
  · have := h.transfer_lt done hd
    omega
  · exact h.copied _ (h.compute_lt done hd) j hj

/-! ## Three slices -/

/-- A transfer whose wait is over can copy its first `k` elements. -/
theorem reach_copy {s : State α} (hs : s.transferStage = .running ∅) {k : ℕ}
    (hk : k ≤ d.elementsPerSlice) :
    ∃ t, ReflTransGen (Step d) s t ∧ t.transferStage = .running (Finset.range k) ∧
      t.event = s.event ∧ t.transfer = s.transfer ∧ t.compute = s.compute ∧
      t.computeStage = s.computeStage := by
  induction k with
  | zero => exact ⟨s, .refl, hs, rfl, rfl, rfl, rfl⟩
  | succ k ih =>
    obtain ⟨t, hr, ht, h1, h2, h3, h4⟩ := ih (by omega)
    refine ⟨_, hr.tail (.transferCopy t _ k ht (by omega) (by simp)), ?_, h1, h2, h3, h4⟩
    simp only [Finset.range_add_one]

/-- A transfer whose wait is satisfied can run to its signal while the compute queue is idle. -/
theorem reach_transfer {s : State α} (hw : s.transferStage = .waiting)
    (hlt : s.transfer < d.numSlices)
    (hev : 2 ≤ s.transfer → computeDoneValue (s.transfer - 2) ≤ s.event) :
    ∃ t, ReflTransGen (Step d) s t ∧ t.transferStage = .waiting ∧
      t.event = max s.event (transferDoneValue s.transfer) ∧ t.transfer = s.transfer + 1 ∧
      t.compute = s.compute ∧ t.computeStage = s.computeStage := by
  obtain ⟨t, hr, ht, h1, h2, h3, h4⟩ :=
    reach_copy (d := d) (s := { s with transferStage := .running ∅ }) rfl le_rfl
  refine ⟨_, ((ReflTransGen.single (.transferWait s hlt hw hev)).trans hr).tail
    (.transferSignal t _ ht subset_rfl), rfl, ?_, ?_, h3, h4⟩
  · simp only [h1, h2]
  · simp only [h2]

/-- **The single event counter lets `transfer(2)` start too early.** -/
theorem reach_overwrite (h3 : 3 ≤ d.numSlices) :
    ∃ s, ReflTransGen (Step d) .init s ∧ s.transfer = 2 ∧ s.transferStage = .running ∅ ∧
      s.compute = 0 ∧ s.computeStage = .waiting := by
  obtain ⟨s₁, r₁, w₁, e₁, t₁, c₁, g₁⟩ :=
    reach_transfer (d := d) (s := .init) rfl (by change 0 < _; omega)
      (fun h => absurd h (by change ¬ 2 ≤ 0; decide))
  have ht₁ : s₁.transfer = 1 := t₁
  obtain ⟨s₂, r₂, w₂, e₂, t₂, c₂, g₂⟩ := reach_transfer (d := d) w₁ (by omega)
    (fun h => absurd h (by omega))
  have ht₂ : s₂.transfer = 2 := by omega
  have he₂ : 2 ≤ s₂.event := by
    rw [e₂, ht₁]
    exact le_max_of_le_right (by decide)
  refine ⟨_, (r₁.trans r₂).tail (.transferWait s₂ (by omega) w₂ fun _ => ?_), ht₂, rfl, ?_, ?_⟩
  · rw [ht₂]
    exact he₂
  · exact c₂.trans c₁
  · exact g₂.trans g₁

theorem not_safe_of_three_le (h3 : 3 ≤ d.numSlices) : ¬ Safe d := by
  intro h
  obtain ⟨s, hr, ht, hs, hc, hg⟩ := reach_overwrite h3
  have hf := (h s hr).1 ∅ 0 hs d.elements_pos (Finset.notMem_empty 0) ht.ge
  rw [ht] at hf
  rcases hf with hlt | ⟨_, done, hd, _⟩
  · omega
  · rw [hg] at hd
    cases hd

/-- **Double buffering is safe exactly for pipelines of at most two slices.** -/
theorem safe_iff_numSlices_le_two (d : Demo α) : Safe d ↔ d.numSlices ≤ 2 := by
  constructor
  · intro h
    by_contra h2
    exact not_safe_of_three_le (by omega) h
  · exact safe_of_le_two

/-- The demo's eight slices, here of one element each. -/
theorem not_safe_eight :
    ¬ Safe (⟨8, 1, Nat.one_pos, fun i _ => i⟩ : Demo ℕ) :=
  not_safe_of_three_le (by decide)

end AetherMoE.DoubleBuffer
