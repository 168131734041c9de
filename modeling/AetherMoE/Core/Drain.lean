import AetherMoE.Core.Conservation
import AetherMoE.Core.Progress
import Mathlib.Algebra.Order.BigOperators.Group.List

/-!
# Draining a workload

The loop of the callers, `while (num_active() > 0 || num_waiting() > 0) step()`, over a workload
whose blocks the pool can hold all at once.

* `drain`: the loop; `Workload`: what is admitted before it; `DrainOutcome`: what it leaves;
* `work`, **`Turn.work`**: the tokens still to be processed, which every result lowers;
* `Housed`: only queued sequences have entries in the table, and only active ones own blocks;
* **`room_of_accounted`**, **`room_of_single`**: some request always fits, when the rounding to
  blocks is exact and when it wraps, so that every step makes progress;
* **`drain_outcome`**: the loop ends, and what it leaves does not depend on the settings.
-/

namespace AetherMoE

open Relation PagedKVCacheAllocator

namespace Sequence

/-- The prompt tokens still to be prefilled and the tokens still to be generated. -/
def remaining (s : Sequence) : ℕ :=
  (s.promptTokens.length - s.prefillCursor) + (s.quota - s.generatedTokens.length)

/-- A sequence at its end, but for the time of its last decode. -/
def ending (s : Sequence) :
    (UInt64 × List UInt32 × UInt32 × ℤ) × SequencePhase × ℕ × List UInt32 :=
  (s.identity, s.phase, s.prefillCursor, s.generatedTokens)

/-- How a sequence is to end: finished, with its prompt prefilled and its tokens generated. -/
def dueEnding (s : Sequence) :
    (UInt64 × List UInt32 × UInt32 × ℤ) × SequencePhase × ℕ × List UInt32 :=
  (s.identity, .finished, s.promptTokens.length,
    List.replicate s.maxNewTokens.toNat kPlaceholderToken)

end Sequence

namespace Scheduler

/-! ## The loop -/

/-- `num_active() == 0 && num_waiting() == 0`. -/
def Idle (S : Scheduler) : Prop := S.active = [] ∧ S.waiting = []

instance (S : Scheduler) : Decidable S.Idle := inferInstanceAs (Decidable (_ ∧ _))

/-- At most `fuel` rounds of the loop; `none` if it has not ended by then. -/
def drain (clock : ℕ → ℤ) : ℕ → Scheduler → Except IllegalTransition (Option Scheduler)
  | fuel, S =>
    if S.Idle then .ok (some S)
    else match fuel with
      | 0 => .ok none
      | fuel + 1 => do
        let (_, S) ← S.step clock
        drain clock fuel S

/-- A new scheduler, after `admit` of every sequence of a list. -/
def loaded (config : SchedulerConfig) (pt : PagedKVCacheAllocator) (seqs : List Sequence) :
    Scheduler :=
  seqs.foldl admitSequence { pageTable := pt, config := config }

/-- Fresh sequences with distinct ids, non-empty prompts and something to generate, whose blocks
the pool holds all at once. A `std::vector` of 32-bit words has fewer than `2 ^ 61` elements. -/
structure Workload (pt : PagedKVCacheAllocator) (seqs : List Sequence) : Prop where
  fresh : ∀ s ∈ seqs, ∃ seqId prompt maxNew now, s = Sequence.new seqId prompt maxNew now
  ids : (seqs.map Sequence.id).Nodup
  prompt : ∀ s ∈ seqs, s.promptTokens ≠ []
  prompt_lt : ∀ s ∈ seqs, s.promptTokens.length < 2 ^ 61
  maxNew : ∀ s ∈ seqs, 1 ≤ s.maxNewTokens.toNat
  blocks : (seqs.map fun s =>
    pt.blocksNeededFor (s.promptTokens.length + s.maxNewTokens.toNat)).sum ≤ pt.numBlocks

/-- What the loop leaves: the finished sequences and the free blocks, in any order, and the
table. -/
structure DrainOutcome where
  finished : Multiset
    ((UInt64 × List UInt32 × UInt32 × ℤ) × SequencePhase × ℕ × List UInt32)
  free : Multiset ℤ
  tables : BlockTables

/-- The outcome of a run that ends in `S`. -/
def outcomeOf (S : Scheduler) : DrainOutcome where
  finished := S.finished.map Sequence.ending
  free := S.pageTable.freeBlocks
  tables := S.pageTable.tables

/-- What it is to leave: every sequence at its end, every block in the free list, no entry in the
table. -/
def dueOutcome (pt : PagedKVCacheAllocator) (seqs : List Sequence) : DrainOutcome where
  finished := seqs.map Sequence.dueEnding
  free := blockIds pt.numBlocks
  tables := ∅

/-! ## The work left -/

/-- The tokens of all unfinished sequences still to be processed. -/
def work (S : Scheduler) : ℕ := ((S.active ++ S.waiting).map Sequence.remaining).sum

section Work

variable {clock : ℕ → ℤ} {S S' : Scheduler} {rs : List StepResult}

theorem remaining_prefilled {s : Sequence} {c : ℕ} (hc : c ≠ 0)
    (hle : s.prefillCursor + c ≤ s.promptTokens.length) :
    (s.prefilled c).remaining + 1 ≤ s.remaining := by
  unfold Sequence.prefilled
  split_ifs
  all_goals
    simp only [Sequence.remaining, Sequence.readied, Sequence.advanced, Sequence.quota]
    omega

/-- **Every result lowers the work.** -/
theorem Turn.work (hS : Orderly S) (h : Turn clock S rs S') :
    S'.work + rs.length ≤ S.work := by
  unfold Scheduler.work
  cases h with
  | refuse hs hfit => exact le_rfl
  | @decode l r s ha hphase hfit hmore =>
    simp only [ha, List.map_append, List.map_cons, List.sum_append, List.sum_cons,
      Sequence.remaining, Sequence.decoded, Sequence.quota, List.length_append, List.length_cons,
      List.length_nil]
    unfold Sequence.LastDecode at hmore
    omega
  | @retire l r s ha hphase hfit hlast =>
    have hgen := ((hS.active s (by simp [ha])).decoding hphase).2
    simp only [ha, List.map_append, List.map_cons, List.sum_append, List.sum_cons,
      Sequence.remaining, List.length_cons, List.length_nil]
    omega
  | @prefill l r s ha hphase hc b hchunk hfit =>
    have hle := s.chunk_le S.config b
    have hs := remaining_prefilled (s := s) hchunk (by
      unfold Sequence.prefillComplete at hc
      omega)
    simp only [ha, List.map_append, List.map_cons, List.sum_append, List.sum_cons,
      List.length_cons, List.length_nil]
    omega
  | @ready l r s ha hphase hc =>
    simp only [ha, List.map_append, List.map_cons, List.sum_append, List.sum_cons,
      Sequence.remaining, Sequence.readied, Sequence.quota, List.length_nil]
    omega
  | @start w s hw hc b hchunk hfit =>
    have hle := s.chunk_le S.config b
    have hs := remaining_prefilled (s := s) hchunk (by
      unfold Sequence.prefillComplete at hc
      omega)
    simp only [hw, List.map_append, List.map_cons, List.map_nil, List.sum_append, List.sum_cons,
      List.sum_nil, List.length_cons, List.length_nil]
    omega
  | @readyFront w s hw hc =>
    simp only [hw, List.map_append, List.map_cons, List.sum_append, List.sum_cons,
      Sequence.remaining, Sequence.readied, Sequence.quota, List.length_nil]
    omega

/-- The work done by the turns of a step is at least what it reports. -/
theorem Turns.work (hS : Orderly S) (h : Turns clock S rs S') :
    Orderly S' ∧ S'.work + rs.length ≤ S.work := by
  refine h.invariant (P := fun out T => Orderly T ∧ T.work + out.length ≤ S.work)
    ⟨hS, le_rfl⟩ ?_
  rintro out T ys T' ⟨hT, hle⟩ ht
  have hstep := ht.work hT
  refine ⟨hT.turn ht, ?_⟩
  rw [List.length_append]
  omega

end Work

/-! ## Who is in the table -/

/-- Only queued sequences have entries in the table, and only active ones own blocks. -/
structure Housed (S : Scheduler) : Prop where
  partitioned : S.pageTable.Partitioned
  others : ∀ i, i ∉ S.active.map Sequence.id → S.pageTable.blocksOf i = []
  keys : ∀ i ∈ S.pageTable.tables, i ∈ (S.active ++ S.waiting).map Sequence.id

section Housing

variable {clock : ℕ → ℤ} {S S' : Scheduler} {rs : List StepResult}

/-- A granted request of a sequence that is active after it. -/
theorem Housed.granted (hS : Housed S) {i : UInt64} {t : ℕ}
    (hpt : S'.pageTable = (S.pageTable.ensureCapacity i t).2)
    (hids : (S'.active ++ S'.waiting).map Sequence.id = (S.active ++ S.waiting).map Sequence.id)
    (hact : ∀ j, j ∈ S.active.map Sequence.id → j ∈ S'.active.map Sequence.id)
    (hi : i ∈ S'.active.map Sequence.id) : Housed S' where
  partitioned := by
    rw [hpt]
    exact hS.partitioned.ensureCapacity _ _
  others := by
    intro j hj
    have hne : j ≠ i := fun h => hj (h ▸ hi)
    rw [hpt, blocksOf_ensureCapacity_ne hne]
    exact hS.others j fun h => hj (hact j h)
  keys := by
    intro j hj
    rw [hpt] at hj
    rcases mem_tables_ensureCapacity hj with rfl | hj
    · rw [List.map_append]
      exact List.mem_append_left _ hi
    · rw [hids]
      exact hS.keys j hj

/-- **Every turn keeps strangers out of the table.** -/
theorem Housed.turn (hS : Housed S) (h : Turn clock S rs S') : Housed S' := by
  cases h with
  | @refuse s hs t hfit =>
    refine ⟨hS.partitioned.ensureCapacity _ _, fun i hi => ?_, fun i hi => ?_⟩
    · rw [blocksOf_refused hfit]
      exact hS.others i hi
    · rcases mem_tables_ensureCapacity hi with rfl | hi
      · exact List.mem_map_of_mem (by simpa [or_comm] using hs)
      · exact hS.keys i hi
  | decode ha hphase hfit hmore => exact hS.granted rfl (by simp [ha]) (by simp [ha]) (by simp)
  | @retire l r s ha hphase hfit hlast =>
    refine ⟨(hS.partitioned.ensureCapacity _ _).freeSequence _, fun i hi => ?_, fun i hi => ?_⟩
    · rw [blocksOf_freeSequence]
      split_ifs with his
      · rfl
      · rw [blocksOf_ensureCapacity_ne his]
        refine hS.others i ?_
        simp only [ha, List.map_append, List.map_cons, List.mem_append, List.mem_cons] at hi ⊢
        tauto
    · obtain ⟨hne, hi⟩ := mem_tables_freeSequence hi
      have hold := hS.keys i ((mem_tables_ensureCapacity hi).resolve_left hne)
      simp only [ha, List.map_append, List.map_cons, List.mem_append, List.mem_cons] at hold ⊢
      tauto
  | prefill ha hphase hc hchunk hfit =>
    exact hS.granted rfl (by simp [ha]) (by simp [ha]) (by simp)
  | ready ha hphase hc =>
    refine ⟨hS.partitioned, fun i hi => hS.others i ?_, fun i hi => ?_⟩
    · simpa [ha] using hi
    · simpa [ha] using hS.keys i hi
  | start hw hc hchunk hfit =>
    exact hS.granted rfl (by simp [hw]) (fun j hj => by simp at hj ⊢; exact .inl hj) (by simp)
  | readyFront hw hc =>
    refine ⟨hS.partitioned, hS.others, fun i hi => ?_⟩
    simpa [hw] using hS.keys i hi

/-- The free blocks and those of the active sequences are all there are. -/
theorem length_active (hS : Orderly S) (hp : S.pageTable.Partitioned)
    (hothers : ∀ i, i ∉ S.active.map Sequence.id → S.pageTable.blocksOf i = []) :
    S.pageTable.freeBlocks.length +
      (S.active.map fun s => (S.pageTable.blocksOf s.id).length).sum = S.pageTable.numBlocks := by
  have hnd : (S.active.map Sequence.id).Nodup := by
    refine hS.nodup.sublist (List.Sublist.map _ ?_)
    exact (List.sublist_append_right _ _).trans (List.sublist_append_left _ _)
  have hlen := hp.length hnd hothers
  rwa [List.map_map] at hlen

end Housing

/-! ## Room -/

section Room

variable {pt : PagedKVCacheAllocator} {seqs : List Sequence} {S : Scheduler}

/-- An active sequence with blocks for all its tokens can take its turn. -/
theorem room_of_active (hS : Orderly S) {s : Sequence} (hs : s ∈ S.active)
    (hfit : ∀ t ≤ s.promptTokens.length + s.quota, S.pageTable.Fits s.id t) : S.Room := by
  rcases hS.active s hs with ⟨hp, hcur, -⟩ | ⟨hp, -, hgen⟩
  · refine .inr (.inl ⟨s, hs, hp, hfit _ ?_⟩)
    have := s.chunk_le S.config S.config.maxBatchTokens
    omega
  · refine .inl ⟨s, hs, hp, hfit _ ?_⟩
    unfold Sequence.totalTokens
    omega

/-- So can the front of the waiting queue. -/
theorem room_of_front (hS : Orderly S) {s : Sequence} {w : List Sequence} (hw : S.waiting = s :: w)
    (hfit : ∀ t ≤ s.promptTokens.length + s.quota, S.pageTable.Fits s.id t) : S.Room := by
  refine .inr (.inr ⟨s, by rw [hw]; rfl, hfit _ ?_⟩)
  have hcur := (hS.waiting s (by simp [hw])).cursor
  have := s.chunk_le S.config S.config.maxBatchTokens
  omega

/-- One owner may take the whole of its limit if all limits together are within the pool. -/
theorem sum_exchange {f g : Sequence → ℕ} {l : List Sequence} (hle : ∀ x ∈ l, f x ≤ g x)
    {s : Sequence} (hs : s ∈ l) : (l.map f).sum + g s ≤ (l.map g).sum + f s := by
  obtain ⟨a, b, rfl⟩ := List.append_of_mem hs
  rw [List.forall_mem_append, List.forall_mem_cons] at hle
  have ha := List.sum_le_sum hle.1
  have hb := List.sum_le_sum hle.2.2
  simp only [List.map_append, List.map_cons, List.sum_append, List.sum_cons]
  omega

/-- The blocks a sequence may come to own. -/
def due (bs : ℕ) (s : Sequence) : ℕ := (s.promptTokens.length + s.quota) ⌈/⌉ bs

/-- **While the rounding is exact**, every active sequence has room for all its tokens, and so does
the front of the queue when nothing is active. -/
theorem room_of_accounted (hS : Accounted S)
    (hbound : ∀ s ∈ S.active ++ S.waiting,
      s.promptTokens.length + s.quota + S.pageTable.blockSize ≤ 2 ^ 64)
    (hsum : ((S.active ++ S.waiting).map (due S.pageTable.blockSize)).sum ≤ S.pageTable.numBlocks)
    (hidle : ¬ S.Idle) : S.Room := by
  set bs := S.pageTable.blockSize with hbs
  have hmono : ∀ {a b : ℕ}, a ≤ b → a ⌈/⌉ bs ≤ b ⌈/⌉ bs := fun h =>
    (gc_mul_ceilDiv S.pageTable.blockSize_pos).monotone_l h
  have hneed : ∀ s ∈ S.active ++ S.waiting, ∀ t ≤ s.promptTokens.length + s.quota,
      S.pageTable.blocksNeededFor t ≤ due bs s := by
    intro s hs t ht
    rw [blocksNeededFor_eq (by have := hbound s hs; omega)]
    exact hmono ht
  have hlen := length_active hS.toOrderly hS.partitioned hS.owns.others
  rw [List.map_append, List.sum_append] at hsum
  rcases hact : S.active with _ | ⟨s, l⟩
  · obtain ⟨s, w, hw⟩ := List.exists_cons_of_ne_nil fun hnil => hidle ⟨hact, hnil⟩
    refine room_of_front hS.toOrderly hw fun t ht => (hneed s (by simp [hw]) t ht).trans ?_
    rw [hact, List.map_nil, List.sum_nil] at hlen
    rw [hw, List.map_cons, List.sum_cons] at hsum
    omega
  · have hs : s ∈ S.active := by simp [hact]
    refine room_of_active hS.toOrderly hs fun t ht => (hneed s (by simp [hs]) t ht).trans ?_
    have howned : ∀ x ∈ S.active, (S.pageTable.blocksOf x.id).length ≤ due bs x := by
      intro x hx
      rw [hS.owns.exact x hx]
      refine hmono ?_
      rcases hS.active x hx with ⟨-, hcur, hg⟩ | ⟨-, hcur, hg⟩
      · rw [Sequence.tokens, hg, List.length_nil]
        omega
      · rw [Sequence.tokens]
        omega
    have := sum_exchange howned hs
    omega

/-- **When the rounding wraps**, a block holds more than half of what `size_t` counts, and every
request is for one block at most: its owner has it, or the free list does. -/
theorem room_of_single (hS : Orderly S) (hh : Housed S)
    (hbs : 2 ^ 64 < 2 * S.pageTable.blockSize) (hn : 0 < S.pageTable.numBlocks)
    (hidle : ¬ S.Idle) : S.Room := by
  have hneed : ∀ t, S.pageTable.blocksNeededFor t ≤ 1 := by
    intro t
    have hlt := Nat.mod_lt (t + S.pageTable.blockSize - 1) (Nat.two_pow_pos 64)
    exact Nat.lt_succ_iff.1 (Nat.div_lt_of_lt_mul (by omega))
  have hlen := length_active hS hh.partitioned hh.others
  by_cases hfree : S.pageTable.freeBlocks.length = 0
  · have hpos : (S.active.map fun s => (S.pageTable.blocksOf s.id).length).sum ≠ 0 := by omega
    rw [Ne, List.sum_eq_zero_iff] at hpos
    push Not at hpos
    obtain ⟨k, hk, hk0⟩ := hpos
    obtain ⟨s, hs, rfl⟩ := List.mem_map.1 hk
    refine room_of_active hS hs fun t _ => (hneed t).trans ?_
    omega
  · have hfit : ∀ (s : Sequence) (t : ℕ), S.pageTable.Fits s.id t := fun s t =>
      (hneed t).trans (by omega)
    rcases hact : S.active with _ | ⟨s, l⟩
    · obtain ⟨s, w, hw⟩ := List.exists_cons_of_ne_nil fun hnil => hidle ⟨hact, hnil⟩
      exact room_of_front hS hw fun t _ => hfit s t
    · exact room_of_active hS (s := s) (by simp [hact]) fun t _ => hfit s t

end Room

/-! ## The run -/

section Run

variable {clock : ℕ → ℤ} {config : SchedulerConfig} {pt : PagedKVCacheAllocator}
  {seqs : List Sequence} {S S' : Scheduler} {rs : List StepResult}

theorem drain_of_idle (clock : ℕ → ℤ) (fuel : ℕ) (h : S.Idle) :
    drain clock fuel S = .ok (some S) := by
  unfold drain
  rw [if_pos h]

theorem drain_succ (fuel : ℕ) (h : ¬ S.Idle) (hok : S.step clock = .ok (rs, S')) :
    drain clock (fuel + 1) S = drain clock fuel S' := by
  rw [drain, if_neg h, hok]
  rfl

/-- **The rule for draining**: if every turn keeps `P` and every state of `P` that is not idle has
room, then the loop ends, after at most as many rounds as there are tokens, in a state of `P`. -/
theorem drain_ends (clock : ℕ → ℤ) {P : Scheduler → Prop} (hord : ∀ S, P S → Orderly S)
    (hprompt : ∀ S, P S → ∀ s ∈ S.waiting, s.promptTokens ≠ [])
    (hbatch : ∀ S, P S → 1 ≤ S.config.maxBatchTokens)
    (hchunk : ∀ S, P S → 1 ≤ S.config.maxPrefillChunk)
    (hroom : ∀ S, P S → ¬ S.Idle → S.Room)
    (hturn : ∀ S rs S', P S → Turn clock S rs S' → P S') (fuel : ℕ) (S : Scheduler) (hS : P S)
    (hfuel : S.work ≤ fuel) :
    ∃ S', drain clock fuel S = .ok (some S') ∧ P S' ∧ S'.Idle := by
  have hround : ∀ T, P T → ¬ T.Idle →
      ∃ rs T', T.step clock = .ok (rs, T') ∧ P T' ∧ T'.work < T.work := by
    intro T hT hidle
    obtain ⟨rs, T', hok, hturns⟩ := step_turns clock fun s hs =>
      ((hord T hT).waiting s hs).ne_finished
    have hne : rs ≠ [] := (results_ne_nil_iff (hord T hT) (hprompt T hT) (hbatch T hT)
      (hchunk T hT) hok).2 (hroom T hT hidle)
    have hwork := (hturns.work (hord T hT)).2
    have hlen := List.length_pos_iff.2 hne
    refine ⟨rs, T', hok, ?_, by omega⟩
    exact hturns.keeps hturn hT
  induction fuel generalizing S with
  | zero =>
    by_cases hidle : S.Idle
    · exact ⟨S, drain_of_idle clock 0 hidle, hS, hidle⟩
    · obtain ⟨rs, S', -, -, hlt⟩ := hround S hS hidle
      omega
  | succ fuel ih =>
    by_cases hidle : S.Idle
    · exact ⟨S, drain_of_idle clock _ hidle, hS, hidle⟩
    · obtain ⟨rs, S', hok, hS', hlt⟩ := hround S hS hidle
      rw [drain_succ fuel hidle hok]
      exact ih S' hS' (by omega)

/-- What the run from a workload keeps. -/
structure Draining (config : SchedulerConfig) (pt : PagedKVCacheAllocator) (seqs : List Sequence)
    (S : Scheduler) : Prop extends InOrder seqs S where
  config_eq : S.config = config
  blockSize : S.pageTable.blockSize = pt.blockSize
  numBlocks : S.pageTable.numBlocks = pt.numBlocks
  housed : Housed S
  placeholder : ∀ s ∈ S.sequences, ∀ t ∈ s.generatedTokens, t = kPlaceholderToken

/-- Every generated token is the placeholder. -/
theorem Turn.placeholder (h : Turn clock S rs S')
    (hS : ∀ s ∈ S.sequences, ∀ t ∈ s.generatedTokens, t = kPlaceholderToken) :
    ∀ s ∈ S'.sequences, ∀ t ∈ s.generatedTokens, t = kPlaceholderToken := by
  unfold sequences at hS ⊢
  cases h with
  | refuse hs hfit => exact hS
  | decode ha hphase hfit hmore =>
    simp only [ha, List.forall_mem_append, List.forall_mem_cons, Sequence.decoded,
      List.not_mem_nil, false_imp_iff, implies_true, and_true] at hS ⊢
    exact hS
  | retire ha hphase hfit hlast =>
    simp only [ha, List.forall_mem_append, List.forall_mem_cons, Sequence.retired,
      Sequence.decoded, List.not_mem_nil, false_imp_iff, implies_true, and_true] at hS ⊢
    tauto
  | prefill ha hphase hc hchunk hfit =>
    simp only [ha, List.forall_mem_append, List.forall_mem_cons,
      Sequence.generatedTokens_prefilled] at hS ⊢
    exact hS
  | ready ha hphase hc =>
    simp only [ha, List.forall_mem_append, List.forall_mem_cons, Sequence.readied] at hS ⊢
    exact hS
  | start hw hc hchunk hfit =>
    simp only [hw, List.forall_mem_append, List.forall_mem_cons,
      Sequence.generatedTokens_prefilled, List.not_mem_nil, false_imp_iff, implies_true,
      and_true] at hS ⊢
    tauto
  | readyFront hw hc =>
    simp only [hw, List.forall_mem_append, List.forall_mem_cons, Sequence.readied] at hS ⊢
    exact hS

theorem Draining.turn (hS : Draining config pt seqs S) (h : Turn clock S rs S') :
    Draining config pt seqs S' where
  toInOrder := hS.toInOrder.turn h
  config_eq := h.sizes.2.2.trans hS.config_eq
  blockSize := h.sizes.1.trans hS.blockSize
  numBlocks := h.sizes.2.1.trans hS.numBlocks
  housed := hS.housed.turn h
  placeholder := h.placeholder hS.placeholder

/-- What holds of the identities of the workload holds of the queued sequences. -/
theorem InOrder.forall_queued {p : Sequence → Prop} (hp : ∀ s s', s.identity = s'.identity →
      p s → p s') (hS : InOrder seqs S) (h : ∀ s ∈ seqs, p s) :
    ∀ s ∈ S.active ++ S.waiting, p s := by
  intro s hs
  obtain ⟨s₀, hs₀, heq⟩ := List.mem_map.1 (hS.order.subset (List.mem_map_of_mem hs))
  exact hp s₀ s heq (h s₀ hs₀)

theorem loaded_eq (config : SchedulerConfig) (pt : PagedKVCacheAllocator) (seqs : List Sequence) :
    loaded config pt seqs = { pageTable := pt, config := config, waiting := seqs } := by
  have hfold : ∀ (S : Scheduler), seqs.foldl admitSequence S =
      { S with waiting := S.waiting ++ seqs } := by
    induction seqs with
    | nil => intro S; rw [List.append_nil]; rfl
    | cons s seqs ih => intro S; rw [List.foldl_cons, ih, admitSequence]; simp
  exact hfold _

theorem Workload.queued (hw : Workload pt seqs) : ∀ s ∈ seqs, s.Queued := by
  intro s hs
  obtain ⟨seqId, prompt, maxNew, now, rfl⟩ := hw.fresh s hs
  exact Sequence.queued_new ..

theorem Workload.quota (hw : Workload pt seqs) {s : Sequence} (hs : s ∈ seqs) :
    s.quota = s.maxNewTokens.toNat := max_eq_right (hw.maxNew s hs)

theorem draining_loaded {bs n : UInt64} (hpt : create bs n = some pt) (hw : Workload pt seqs)
    (config : SchedulerConfig) : Draining config pt seqs (loaded config pt seqs) := by
  rw [loaded_eq]
  refine
    { nodup := ?_
      waiting := hw.queued
      active := List.forall_mem_nil _
      finished := List.forall_mem_nil _
      perm := ?_
      order := List.Sublist.refl _
      config_eq := rfl
      blockSize := rfl
      numBlocks := rfl
      housed := ⟨partitioned_create hpt, fun i _ => blocksOf_create hpt i, fun i hi => ?_⟩
      placeholder := ?_ }
  · simpa [sequences] using hw.ids
  · simp [sequences]
  · rw [(sizes_create hpt).2.2] at hi
    exact absurd hi (AList.notMem_empty i)
  · intro s hs t ht
    rw [(hw.queued s (by simpa [sequences] using hs)).generated] at ht
    cases ht

theorem accounted_loaded {bs n : UInt64} (hpt : create bs n = some pt)
    (hord : Orderly (loaded config pt seqs))
    (hbound : ∀ s ∈ seqs, s.promptTokens.length + s.quota + pt.blockSize ≤ 2 ^ 64) :
    Accounted (loaded config pt seqs) := by
  rw [loaded_eq] at hord ⊢
  refine
    { toOrderly := hord
      partitioned := partitioned_create hpt
      owns := ⟨List.forall_mem_nil _, fun i _ => blocksOf_create hpt i⟩
      bounded := ?_ }
  intro s hs
  rw [List.append_nil] at hs
  have := hbound s hs
  unfold Sequence.Bounded
  change s.promptTokens.length + (s.quota - 1) + pt.blockSize ≤ 2 ^ 64
  omega

/-- The pool backs the queued sequences of a workload. -/
theorem Draining.room (hw : Workload pt seqs) (hS : Draining config pt seqs S)
    (hbound : ∀ s ∈ seqs, s.promptTokens.length + s.quota + pt.blockSize ≤ 2 ^ 64)
    (hacc : Accounted S) (hidle : ¬ S.Idle) : S.Room := by
  have hdue : seqs.map (due pt.blockSize) = seqs.map fun s =>
      pt.blocksNeededFor (s.promptTokens.length + s.maxNewTokens.toNat) := by
    apply List.map_congr_left
    intro s hs
    have hb := hbound s hs
    rw [due, ← blocksNeededFor_eq hb, hw.quota hs]
  refine room_of_accounted hacc ?_ ?_ hidle
  · rw [hS.blockSize]
    refine hS.toInOrder.forall_queued (fun s s' hid hb => ?_) hbound
    obtain ⟨hprompt, hmax⟩ := Sequence.eq_of_identity hid
    rwa [Sequence.quota, hprompt, hmax] at hb
  · rw [hS.blockSize, hS.numBlocks]
    refine le_trans ?_ hw.blocks
    rw [← hdue]
    -- what is due depends on the identity only
    let g : UInt64 × List UInt32 × UInt32 × ℤ → ℕ := fun i =>
      (i.2.1.length + max 1 i.2.2.1.toNat) ⌈/⌉ pt.blockSize
    have hsub := hS.order.map g
    rw [List.map_map, List.map_map] at hsub
    exact hsub.sum_le_sum fun _ _ => Nat.zero_le _

/-- A retired sequence with the identity of one of the workload ends as that one is to end. -/
theorem ending_eq {s s₀ : Sequence} (hr : s.Retired) (hid : s.identity = s₀.identity)
    (hmax : 1 ≤ s₀.maxNewTokens.toNat) (hgen : ∀ t ∈ s.generatedTokens, t = kPlaceholderToken) :
    s.ending = s₀.dueEnding := by
  obtain ⟨hprompt, hmaxNew⟩ := Sequence.eq_of_identity hid
  have hquota : s.quota = s₀.maxNewTokens.toNat := by
    unfold Sequence.quota
    rw [hmaxNew, max_eq_right hmax]
  have htokens : s.generatedTokens = List.replicate s₀.maxNewTokens.toNat kPlaceholderToken := by
    rw [List.eq_replicate_iff]
    exact ⟨hr.generated.trans hquota, hgen⟩
  rw [Sequence.ending, Sequence.dueEnding, hid, hr.phase, hr.cursor, hprompt, htokens]

/-- The endings of the retired sequences are those due. -/
theorem endings_eq {f : List Sequence} (hr : ∀ s ∈ f, s.Retired)
    (hgen : ∀ s ∈ f, ∀ t ∈ s.generatedTokens, t = kPlaceholderToken)
    (hmax : ∀ s ∈ seqs, 1 ≤ s.maxNewTokens.toNat)
    (hperm : (f.map Sequence.identity).Perm (seqs.map Sequence.identity)) :
    (f.map Sequence.ending).Perm (seqs.map Sequence.dueEnding) := by
  let last : UInt64 × List UInt32 × UInt32 × ℤ →
      (UInt64 × List UInt32 × UInt32 × ℤ) × SequencePhase × ℕ × List UInt32 := fun i =>
    (i, .finished, i.2.1.length, List.replicate i.2.2.1.toNat kPlaceholderToken)
  have hlast : f.map Sequence.ending = (f.map Sequence.identity).map last := by
    rw [List.map_map]
    apply List.map_congr_left
    intro s hs
    have hmem := hperm.subset (List.mem_map_of_mem hs)
    obtain ⟨s₀, hs₀, hid⟩ := List.mem_map.1 hmem
    rw [ending_eq (hr s hs) hid.symm (hmax s₀ hs₀) (hgen s hs), Function.comp_apply, ← hid]
    rfl
  have hdue : seqs.map Sequence.dueEnding = (seqs.map Sequence.identity).map last := by
    rw [List.map_map]
    rfl
  rw [hlast, hdue]
  exact hperm.map last

/-- An idle state of the run leaves what is due. -/
theorem Draining.outcome (hw : Workload pt seqs) (hS : Draining config pt seqs S)
    (hidle : S.Idle) : outcomeOf S = dueOutcome pt seqs := by
  have hseqs : S.sequences = S.finished := by
    rw [sequences, hidle.1, hidle.2]
    rfl
  have hperm := hS.perm
  have hgen := hS.placeholder
  rw [hseqs] at hperm hgen
  have htables : S.pageTable.tables = ∅ := by
    refine AList.ext (List.eq_nil_iff_forall_not_mem.2 fun e he => ?_)
    have hk := hS.housed.keys e.1 (List.mem_map_of_mem he)
    rw [hidle.1, hidle.2] at hk
    cases hk
  have hfree := hS.housed.partitioned
  rw [Partitioned, htables, hS.numBlocks] at hfree
  simp only [held, AList.empty_entries, List.flatMap_nil, List.append_nil] at hfree
  unfold outcomeOf dueOutcome
  rw [htables, Multiset.coe_eq_coe.2 (endings_eq hS.finished hgen hw.maxNew hperm),
    Multiset.coe_eq_coe.2 hfree]

/-- **Draining a workload**: for every workload that fits the pool, every clock and all settings of
at least one, the loop ends with every sequence finished as it is to be, every block free and the
table empty. -/
theorem drain_outcome {bs n : UInt64} (hpt : create bs n = some pt) (hw : Workload pt seqs)
    (config : SchedulerConfig) (hbatch : 1 ≤ config.maxBatchTokens)
    (hchunk : 1 ≤ config.maxPrefillChunk) (clock : ℕ → ℤ) :
    ∃ fuel S, drain clock fuel (loaded config pt seqs) = .ok (some S) ∧ S.Idle ∧
      outcomeOf S = dueOutcome pt seqs := by
  have hprompt : ∀ S, Draining config pt seqs S → ∀ s ∈ S.waiting, s.promptTokens ≠ [] := by
    intro S hS s hs
    refine hS.toInOrder.forall_queued (p := fun s => s.promptTokens ≠ []) ?_ hw.prompt s
      (List.mem_append_right _ hs)
    intro s s' hid
    rw [(Sequence.eq_of_identity hid).1]
    exact id
  have hloaded := draining_loaded hpt hw config
  have hbatch' : ∀ S, Draining config pt seqs S → 1 ≤ S.config.maxBatchTokens := fun S hS =>
    hS.config_eq ▸ hbatch
  have hchunk' : ∀ S, Draining config pt seqs S → 1 ≤ S.config.maxPrefillChunk := fun S hS =>
    hS.config_eq ▸ hchunk
  by_cases hbound : ∀ s ∈ seqs, s.promptTokens.length + s.quota + pt.blockSize ≤ 2 ^ 64
  · obtain ⟨S, hrun, hS, hidle⟩ := drain_ends clock
      (P := fun S => Draining config pt seqs S ∧ Accounted S)
      (fun S hS => hS.2.toOrderly) (fun S hS => hprompt S hS.1) (fun S hS => hbatch' S hS.1)
      (fun S hS => hchunk' S hS.1) (fun S hS => hS.1.room hw hbound hS.2)
      (fun _ _ _ hS ht => ⟨hS.1.turn ht, hS.2.turn ht⟩) _ _
      ⟨hloaded, accounted_loaded hpt hloaded.toOrderly hbound⟩ le_rfl
    exact ⟨_, S, hrun, hidle, hS.1.outcome hw hidle⟩
  · have hbs : 2 ^ 64 < 2 * pt.blockSize := by
      push Not at hbound
      obtain ⟨s, hs, hlt⟩ := hbound
      have := hw.prompt_lt s hs
      have := s.maxNewTokens.toNat_lt
      rw [hw.quota hs] at hlt
      omega
    obtain ⟨S, hrun, hS, hidle⟩ := drain_ends clock (P := Draining config pt seqs)
      (fun S hS => hS.toOrderly) hprompt hbatch' hchunk'
      (fun S hS => room_of_single hS.toOrderly hS.housed (hS.blockSize ▸ hbs)
        (hS.numBlocks ▸ numBlocks_pos_of_create hpt))
      (fun _ _ _ hS ht => hS.turn ht) _ _ hloaded le_rfl
    exact ⟨_, S, hrun, hidle, hS.outcome hw hidle⟩

end Run

section Examples

/-- Two prompts, of three tokens and of one. -/
def twoPrompts : List Sequence := [Sequence.new 1 [7, 8, 9] 2 0, Sequence.new 2 [7] 3 0]

/-- Nine blocks of one token. -/
def nineBlocks : PagedKVCacheAllocator := (create 1 9).get rfl

theorem workload_twoPrompts : Workload nineBlocks twoPrompts where
  fresh := by
    simp only [twoPrompts, List.forall_mem_cons]
    exact ⟨⟨_, _, _, _, rfl⟩, ⟨_, _, _, _, rfl⟩, List.forall_mem_nil _⟩
  ids := by decide
  prompt := by decide
  prompt_lt := by decide
  maxNew := by decide
  blocks := by decide

/-- With a budget of one token a step and chunks of one token, the nine blocks are enough. -/
theorem drain_outcome_two : ∃ fuel S,
    drain (fun _ => 0) fuel (loaded ⟨1, 1⟩ nineBlocks twoPrompts) = .ok (some S) ∧ S.Idle ∧
      outcomeOf S = dueOutcome nineBlocks twoPrompts :=
  drain_outcome (show create 1 9 = some nineBlocks from rfl) workload_twoPrompts ⟨1, 1⟩
    (by decide) (by decide) _

end Examples

end Scheduler

end AetherMoE
