import AetherMoE.Tools.DoubleBuffer
import Mathlib.Data.Finset.Card

/-!
# What the pipeline still does

The double-buffered pipeline of `double_buffer_demo.mm` with any number of slices. Its one event
lets a transfer start too early, but it lets nobody wait for ever, and a compute command buffer
still starts after its own transfer.

* `Newer`: an element of this slice or of a later one in the same buffer;
* `Flows`, **`flows_step`**: the invariant; `State.ran`, `ran_step`: the commands that have run;
* **`Flows.exists_step`**: until the last compute command buffer has signalled, a command can run;
* **`pipeline_ends`**: every run has the same number of commands, and at its end every element was
  read once, from its own slice or from a newer one; the last two slices are right.
-/

namespace AetherMoE.DoubleBuffer

open Stepping

variable {α : Type} {d : Demo α} {s t : State α}

/-- The value is element `j` of slice `i`, or of a later slice that has the same buffer. -/
def Newer (d : Demo α) (i j : ℕ) (v : α) : Prop :=
  ∃ i', i ≤ i' ∧ i' % 2 = i % 2 ∧ i' < d.numSlices ∧ v = d.staging i' j

/-- The elements that a command buffer has moved. -/
def Stage.done : Stage → Finset ℕ
  | .waiting => ∅
  | .running done => done

/-- The commands of a command buffer that have run: the wait and the elements moved. -/
def Stage.commands : Stage → ℕ
  | .waiting => 0
  | .running done => done.card + 1

/-- **The invariant** for any number of slices. -/
structure Flows (d : Demo α) (s : State α) : Prop where
  event_transfer : 2 * s.transfer ≤ s.event + 1
  event_le : s.event ≤ 2 * s.transfer
  compute_le : s.compute ≤ s.transfer
  slices_le : s.transfer ≤ d.numSlices
  transfer_lt : s.transferStage ≠ .waiting → s.transfer < d.numSlices
  compute_lt : s.computeStage ≠ .waiting → s.compute < s.transfer
  transfer_done : s.transferStage.done ⊆ Finset.range d.elementsPerSlice
  compute_done : s.computeStage.done ⊆ Finset.range d.elementsPerSlice
  buffers : ∀ i < s.transfer, ∀ j < d.elementsPerSlice,
    ∃ v, s.deviceInput (i % 2) j = some v ∧ Newer d i j v
  copying : ∀ j ∈ s.transferStage.done,
    s.deviceInput (s.transfer % 2) j = some (d.staging s.transfer j)
  reads : ∀ i < s.compute, ∀ j < d.elementsPerSlice, ∃ v, s.read i j = some v ∧ Newer d i j v
  reading : ∀ j ∈ s.computeStage.done, ∃ v, s.read s.compute j = some v ∧ Newer d s.compute j v

theorem flows_init (d : Demo α) : Flows d .init where
  event_transfer := Nat.zero_le _
  event_le := le_rfl
  compute_le := le_rfl
  slices_le := Nat.zero_le _
  transfer_lt h := absurd rfl h
  compute_lt h := absurd rfl h
  transfer_done := Finset.empty_subset _
  compute_done := Finset.empty_subset _
  buffers _ h := absurd h (Nat.not_lt_zero _)
  copying _ h := absurd h (Finset.notMem_empty _)
  reads _ h := absurd h (Nat.not_lt_zero _)
  reading _ h := absurd h (Finset.notMem_empty _)

/-- A copy replaces an element by a newer one. -/
theorem Flows.copy (h : Flows d s) (hlt : s.transfer < d.numSlices) (j : ℕ) :
    ∀ i < s.transfer, ∀ k < d.elementsPerSlice, ∃ v,
      (if i % 2 = s.transfer % 2 ∧ k = j then some (d.staging s.transfer j)
        else s.deviceInput (i % 2) k) = some v ∧ Newer d i k v := by
  intro i hi k hk
  split_ifs with hik
  · obtain ⟨hpar, rfl⟩ := hik
    exact ⟨_, rfl, s.transfer, hi.le, hpar.symm, hlt, rfl⟩
  · exact h.buffers i hi k hk

/-- **Every command keeps the invariant.** -/
theorem flows_step (h : Flows d s) (hst : Step d s t) : Flows d t := by
  have hev := h.event_transfer
  have hle := h.event_le
  have hcl := h.compute_le
  cases hst with
  | transferWait hlt hw hwait =>
    exact { h with
      transfer_lt := fun _ => hlt
      transfer_done := Finset.empty_subset _
      copying := fun j hj => absurd hj (Finset.notMem_empty j) }
  | transferCopy done j hs hj hnd =>
    have hlt := h.transfer_lt (by rw [hs]; exact fun hc => by cases hc)
    have hdone := h.transfer_done
    have hcopy := h.copying
    rw [hs] at hdone hcopy
    refine { h with
      transfer_lt := fun _ => hlt
      transfer_done := Finset.insert_subset (Finset.mem_range.2 hj) hdone
      buffers := h.copy hlt j
      copying := fun k hk => ?_ }
    show (if s.transfer % 2 = s.transfer % 2 ∧ k = j then some (d.staging s.transfer j)
      else s.deviceInput (s.transfer % 2) k) = _
    split_ifs with hkj
    · rw [hkj.2]
    · refine hcopy k ((Finset.mem_insert.1 hk).resolve_left fun hc => hkj ⟨rfl, hc⟩)
  | transferSignal done hs hall =>
    have hlt := h.transfer_lt (by rw [hs]; exact fun hc => by cases hc)
    have hcopy := h.copying
    rw [hs] at hcopy
    refine { h with
      event_transfer := ?_
      event_le := ?_
      compute_le := Nat.le_succ_of_le hcl
      slices_le := hlt
      transfer_lt := fun hc => absurd rfl hc
      compute_lt := fun hc => Nat.lt_succ_of_lt (h.compute_lt hc)
      transfer_done := Finset.empty_subset _
      buffers := fun i hi k hk => ?_
      copying := fun k hk => absurd hk (Finset.notMem_empty k) }
    · simp only [transferDoneValue]
      omega
    · simp only [transferDoneValue]
      omega
    · rcases Nat.lt_succ_iff_lt_or_eq.1 hi with hi | rfl
      · exact h.buffers i hi k hk
      · exact ⟨_, hcopy k (hall (Finset.mem_range.2 hk)), s.transfer, le_rfl, rfl, hlt, rfl⟩
  | computeWait hlt hw hwait =>
    refine { h with
      compute_lt := fun _ => ?_
      compute_done := Finset.empty_subset _
      reading := fun j hj => absurd hj (Finset.notMem_empty j) }
    show s.compute < s.transfer
    simp only [transferDoneValue] at hwait
    omega
  | computeRead done j hs hj hnd =>
    have hlt := h.compute_lt (by rw [hs]; exact fun hc => by cases hc)
    have hdone := h.compute_done
    have hread := h.reading
    rw [hs] at hdone hread
    refine { h with
      compute_lt := fun _ => hlt
      compute_done := Finset.insert_subset (Finset.mem_range.2 hj) hdone
      reads := fun i hi k hk => ?_
      reading := fun k hk => ?_ }
    · show ∃ v, (if i = s.compute ∧ k = j then s.deviceInput (s.compute % 2) j
        else s.read i k) = some v ∧ _
      rw [if_neg fun hc => (Nat.ne_of_lt hi) hc.1]
      exact h.reads i hi k hk
    · show ∃ v, (if s.compute = s.compute ∧ k = j then s.deviceInput (s.compute % 2) j
        else s.read s.compute k) = some v ∧ Newer d s.compute k v
      split_ifs with hkj
      · rw [hkj.2]
        exact h.buffers _ hlt j hj
      · exact hread k ((Finset.mem_insert.1 hk).resolve_left fun hc => hkj ⟨rfl, hc⟩)
  | computeSignal done hs hall =>
    have hlt := h.compute_lt (by rw [hs]; exact fun hc => by cases hc)
    have hread := h.reading
    rw [hs] at hread
    refine { h with
      event_transfer := ?_
      event_le := ?_
      compute_le := hlt
      compute_lt := fun hc => absurd rfl hc
      compute_done := Finset.empty_subset _
      reads := fun i hi k hk => ?_
      reading := fun k hk => absurd hk (Finset.notMem_empty k) }
    · simp only [computeDoneValue]
      omega
    · simp only [computeDoneValue]
      omega
    · rcases Nat.lt_succ_iff_lt_or_eq.1 hi with hi | rfl
      · exact h.reads i hi k hk
      · exact hread k (hall (Finset.mem_range.2 hk))

/-! ## The commands that have run -/

/-- The commands of both queues that have run. -/
def State.ran (d : Demo α) (s : State α) : ℕ :=
  s.transfer * (d.elementsPerSlice + 2) + s.transferStage.commands +
    (s.compute * (d.elementsPerSlice + 2) + s.computeStage.commands)

/-- A command buffer has at most its wait and one command for each element behind it. -/
theorem Stage.commands_le {stage : Stage} {len : ℕ} (h : stage.done ⊆ Finset.range len) :
    stage.commands ≤ len + 1 := by
  cases stage with
  | waiting => exact Nat.zero_le _
  | running done =>
    have hcard := Finset.card_le_card h
    rw [Finset.card_range] at hcard
    exact Nat.succ_le_succ hcard

/-- Before its signal a command buffer has moved every element, once. -/
theorem card_done {done : Finset ℕ} {len : ℕ} (h : done ⊆ Finset.range len)
    (hall : Finset.range len ⊆ done) : done.card = len := by
  rw [h.antisymm hall, Finset.card_range]

theorem ran_step (h : Flows d s) (hst : Step d s t) : t.ran d = s.ran d + 1 := by
  have htransfer := h.transfer_done
  have hcompute := h.compute_done
  cases hst with
  | transferWait hlt hw hwait =>
    rw [State.ran, State.ran, hw]
    dsimp only [Stage.commands, Finset.card_empty]
    omega
  | transferCopy done j hs hj hnd =>
    rw [State.ran, State.ran, hs]
    dsimp only [Stage.commands]
    rw [Finset.card_insert_of_notMem hnd]
    omega
  | transferSignal done hs hall =>
    rw [hs] at htransfer
    have hcard : done.card = d.elementsPerSlice := card_done htransfer hall
    rw [State.ran, State.ran, hs]
    dsimp only [Stage.commands]
    rw [hcard, Nat.succ_mul]
    omega
  | computeWait hlt hw hwait =>
    rw [State.ran, State.ran, hw]
    dsimp only [Stage.commands, Finset.card_empty]
    omega
  | computeRead done j hs hj hnd =>
    rw [State.ran, State.ran, hs]
    dsimp only [Stage.commands]
    rw [Finset.card_insert_of_notMem hnd]
    omega
  | computeSignal done hs hall =>
    rw [hs] at hcompute
    have hcard : done.card = d.elementsPerSlice := card_done hcompute hall
    rw [State.ran, State.ran, hs]
    dsimp only [Stage.commands]
    rw [hcard, Nat.succ_mul]
    omega

/-- What a queue has run, at slice `i` of `n`. -/
theorem queue_le {i n len commands : ℕ} (hi : i ≤ n) (hle : commands ≤ len + 1)
    (hwait : commands ≠ 0 → i < n) : i * (len + 2) + commands ≤ n * (len + 2) := by
  rcases Nat.eq_zero_or_pos commands with hzero | hpos
  · rw [hzero]
    exact Nat.mul_le_mul_right _ hi
  · have hnext := Nat.mul_le_mul_right (len + 2) (hwait hpos.ne')
    rw [Nat.succ_mul] at hnext
    omega

theorem Stage.commands_eq_zero {stage : Stage} : stage.commands = 0 ↔ stage = .waiting := by
  cases stage with
  | waiting => exact iff_of_true rfl rfl
  | running done => exact iff_of_false (Nat.succ_ne_zero _) fun hc => by cases hc

/-- **No more commands run than there are.** -/
theorem Flows.ran_le (h : Flows d s) :
    s.ran d ≤ 2 * (d.numSlices * (d.elementsPerSlice + 2)) := by
  have htransfer := queue_le h.slices_le (Stage.commands_le h.transfer_done) fun hne =>
    h.transfer_lt (mt Stage.commands_eq_zero.2 hne)
  have hcompute := queue_le (h.compute_le.trans h.slices_le) (Stage.commands_le h.compute_done)
    fun hne => (h.compute_lt (mt Stage.commands_eq_zero.2 hne)).trans_le h.slices_le
  rw [State.ran]
  omega

/-! ## Nobody waits for ever -/

/-- A command buffer that moves its elements has one left, or can signal. -/
theorem exists_notMem_or (done : Finset ℕ) (len : ℕ) :
    (∃ j < len, j ∉ done) ∨ Finset.range len ⊆ done := by
  by_cases hall : Finset.range len ⊆ done
  · exact .inr hall
  · obtain ⟨j, hj, hnd⟩ := Finset.not_subset.1 hall
    exact .inl ⟨j, Finset.mem_range.1 hj, hnd⟩

/-- **Until the last compute command buffer has signalled, a command can run.** The transfer queue
never waits at all: what it waits for is below its own last signal. -/
theorem Flows.exists_step (h : Flows d s) (hne : s.compute < d.numSlices) : ∃ t, Step d s t := by
  have hev := h.event_transfer
  cases hts : s.transferStage with
  | running done =>
    rcases exists_notMem_or done d.elementsPerSlice with ⟨j, hj, hnd⟩ | hall
    · exact ⟨_, .transferCopy s done j hts hj hnd⟩
    · exact ⟨_, .transferSignal s done hts hall⟩
  | waiting =>
    by_cases hlt : s.transfer < d.numSlices
    · refine ⟨_, .transferWait s hlt hts fun h2 => ?_⟩
      simp only [computeDoneValue]
      omega
    · cases hcs : s.computeStage with
      | running done =>
        rcases exists_notMem_or done d.elementsPerSlice with ⟨j, hj, hnd⟩ | hall
        · exact ⟨_, .computeRead s done j hcs hj hnd⟩
        · exact ⟨_, .computeSignal s done hcs hall⟩
      | waiting =>
        refine ⟨_, .computeWait s hne hcs ?_⟩
        simp only [transferDoneValue]
        omega

/-- Once the last compute command buffer has signalled everything has run. -/
theorem Flows.ran_eq (h : Flows d s) (heq : s.compute = d.numSlices) :
    s.ran d = 2 * (d.numSlices * (d.elementsPerSlice + 2)) := by
  have htransfer : s.transfer = d.numSlices := h.slices_le.antisymm (heq ▸ h.compute_le)
  have hidle : s.transferStage = .waiting := by
    by_contra hne
    exact absurd htransfer (h.transfer_lt hne).ne
  have hread : s.computeStage = .waiting := by
    by_contra hne
    exact absurd (heq.trans htransfer.symm) (h.compute_lt hne).ne
  rw [State.ran, hidle, hread, heq, htransfer]
  dsimp only [Stage.commands]
  omega

/-! ## The end -/

/-- A command, as one tick of a run. -/
def Tick (d : Demo α) (s : State α) (ticks : List Unit) (t : State α) : Prop :=
  ticks = [()] ∧ Step d s t

/-- No later slice shares its buffer with one of the last two. -/
theorem Newer.eq {i j : ℕ} {v : α} (h : Newer d i j v) (hlast : d.numSlices ≤ i + 2) :
    v = d.staging i j := by
  obtain ⟨i', hle, hpar, hlt, rfl⟩ := h
  obtain rfl : i = i' := by omega
  rfl

theorem flows_trace {run : List Unit} (h : Trace (Tick d) .init run s) :
    Flows d s ∧ run.length = s.ran d := by
  refine h.invariant (P := fun run s => Flows d s ∧ run.length = s.ran d) ⟨flows_init d, ?_⟩ ?_
  · simp [State.ran, State.init, Stage.commands]
  · rintro out u ticks v ⟨hflows, hlen⟩ ⟨rfl, hst⟩
    refine ⟨flows_step hflows hst, ?_⟩
    rw [List.length_append, hlen, ran_step hflows hst, List.length_singleton]

/-- **The pipeline ends.** In every run, however the two queues interleave: some command can run
next until compute command buffer `numSlices - 1` has signalled, the run has then exactly
`2 * numSlices * (elementsPerSlice + 2)` commands, and never more; and then every compute command
buffer has read each element from its own slice or from a later one in the same buffer, so that the
last two slices are computed right whatever the queues did. -/
theorem pipeline_ends (d : Demo α) {run : List Unit} {s : State α}
    (h : Trace (Tick d) .init run s) :
    run.length ≤ 2 * (d.numSlices * (d.elementsPerSlice + 2)) ∧
      ((∃ t, Step d s t) ↔ s.compute < d.numSlices) ∧
      (s.compute = d.numSlices ↔
        run.length = 2 * (d.numSlices * (d.elementsPerSlice + 2))) ∧
      ∀ i < s.compute, ∀ j < d.elementsPerSlice, ∃ v, s.read i j = some v ∧ Newer d i j v ∧
        (d.numSlices ≤ i + 2 → v = d.staging i j) := by
  obtain ⟨hflows, hlen⟩ := flows_trace h
  have hmore : (∃ t, Step d s t) → s.compute < d.numSlices := by
    rintro ⟨t, hst⟩
    by_contra hge
    have heq := hflows.ran_eq
      ((hflows.compute_le.trans hflows.slices_le).antisymm (Nat.not_lt.1 hge))
    have hle := (flows_step hflows hst).ran_le
    rw [ran_step hflows hst, heq] at hle
    exact absurd hle (Nat.not_succ_le_self _)
  refine ⟨hlen ▸ hflows.ran_le, ⟨hmore, hflows.exists_step⟩, ⟨fun heq => ?_, fun heq => ?_⟩,
    fun i hi j hj => ?_⟩
  · exact hlen.trans (hflows.ran_eq heq)
  · refine (hflows.compute_le.trans hflows.slices_le).eq_of_not_lt fun hlt => ?_
    obtain ⟨t, hst⟩ := hflows.exists_step hlt
    have hle := (flows_step hflows hst).ran_le
    rw [ran_step hflows hst, ← hlen, heq] at hle
    exact absurd hle (Nat.not_succ_le_self _)
  · obtain ⟨v, hread, hnewer⟩ := hflows.reads i hi j hj
    exact ⟨v, hread, hnewer, hnewer.eq⟩

/-- One slice of one element: six commands. -/
theorem pipeline_ends_one : ∃ s,
    Trace (Tick (⟨1, 1, Nat.one_pos, fun _ _ => 7⟩ : Demo ℕ)) .init [(), (), (), (), (), ()] s ∧
      s.compute = 1 ∧ s.read 0 0 = some 7 := by
  have transferred := ((Trace.single (q := Tick (⟨1, 1, Nat.one_pos, fun _ _ => 7⟩ : Demo ℕ))
    ⟨rfl, .transferWait .init Nat.one_pos rfl fun h => absurd h (by decide)⟩).snoc
    ⟨rfl, .transferCopy _ ∅ 0 rfl Nat.one_pos (Finset.notMem_empty 0)⟩).snoc
    ⟨rfl, .transferSignal _ {0} rfl (by decide)⟩
  have computed := ((transferred.snoc ⟨rfl, .computeWait _ Nat.one_pos rfl (by decide)⟩).snoc
    ⟨rfl, .computeRead _ ∅ 0 rfl Nat.one_pos (Finset.notMem_empty 0)⟩).snoc
    ⟨rfl, .computeSignal _ {0} rfl (by decide)⟩
  obtain ⟨-, -, -, hread⟩ := pipeline_ends _ computed
  obtain ⟨v, hv, -, hlast⟩ := hread 0 Nat.one_pos 0 Nat.one_pos
  exact ⟨_, computed, rfl, hv.trans (congrArg some (hlast (by decide)))⟩

end AetherMoE.DoubleBuffer
