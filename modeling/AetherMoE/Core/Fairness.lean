import AetherMoE.Core.DecodeFirst
import AetherMoE.Core.Drain
import AetherMoE.Core.Reports
import Mathlib.Algebra.BigOperators.Ring.List

/-!
# No sequence starves

The scheduler under an admission control that the code leaves to its callers: a sequence is
admitted only if the pool holds at once all that it and the unfinished ones may come to own. Then
no request of a step is refused, and what is left to wait for is the token budget. Decodes go
first, and a later arrival with a short prompt can overtake an earlier one with a long prompt, so a
step need not serve whoever is in front.

* `Backed`: the scheduler under that control; **`Backed.fits`**: every request fits;
* `InFront`: some sequences come before all others; `workOf`, `decodeWork`: the tokens they have
  left, and those that the decoding sequences have left;
* **`step_serves`**: a step serves one of those in front, or is used up by decodes;
* `burden`, **`burden_step`**: what every step lowers;
* **`finished_within`**: a sequence is finished within a number of steps that depends on what is in
  front of it and on the size of the pool only, whatever is admitted behind it.
-/

namespace AetherMoE

open Sweeping Stepping PagedKVCacheAllocator

namespace Sequence

/-- The tokens a sequence comes to hold: its prompt and those it generates. -/
def size (s : Sequence) : ℕ := s.promptTokens.length + s.quota

theorem fixed_size : Fixed size :=
  ⟨fun _ _ => rfl, fun _ _ => rfl, fun _ => rfl, fun _ _ => rfl⟩

theorem remaining_le_size (s : Sequence) : s.remaining ≤ s.size := by
  unfold remaining size
  omega

/-- A sequence that has not finished has something left. -/
theorem InFlight.remaining_pos {s : Sequence} (h : s.InFlight) : 0 < s.remaining := by
  unfold remaining
  rcases h with ⟨-, hlt, -⟩ | ⟨-, -, hlt⟩
  · omega
  · omega

/-- A decode that is not the last leaves one token less. -/
theorem remaining_decoded (s : Sequence) (hmore : ¬ s.LastDecode) (now : ℤ) :
    (s.decoded now).remaining + 1 ≤ s.remaining := by
  unfold LastDecode at hmore
  simp only [remaining, decoded, quota, List.length_append, List.length_singleton]
  omega

theorem Queued.remaining_pos {s : Sequence} (h : s.Queued) : 0 < s.remaining := by
  unfold remaining quota
  rw [h.generated, List.length_nil]
  omega

end Sequence

namespace Scheduler

/-- The unfinished sequences, in the order of admission. -/
def unfinished (S : Scheduler) : List Sequence := S.active ++ S.waiting

/-- The tokens the pool has room for. -/
def capacity (S : Scheduler) : ℕ := S.pageTable.numBlocks * S.pageTable.blockSize

section Queues

variable {clock : ℕ → ℤ} {S S' : Scheduler} {rs : List StepResult}

theorem Turn.capacity (h : Turn clock S rs S') : S'.capacity = S.capacity := by
  unfold Scheduler.capacity
  rw [h.sizes.1, h.sizes.2.1]

theorem mem_unfinished {s : Sequence} : s ∈ S.unfinished ↔ s ∈ S.active ∨ s ∈ S.waiting :=
  List.mem_append

theorem mem_sequences_of_unfinished {s : Sequence} (hs : s ∈ S.unfinished) : s ∈ S.sequences := by
  have h := mem_unfinished.1 hs
  rw [mem_sequences]
  tauto

theorem Orderly.nodup_unfinished (hS : Orderly S) : (S.unfinished.map Sequence.id).Nodup := by
  refine (List.Perm.map Sequence.id List.perm_append_comm).nodup_iff.1 ?_
  exact hS.nodup.sublist ((List.sublist_append_left _ _).map _)

theorem Orderly.remaining_pos (hS : Orderly S) {s : Sequence} (hs : s ∈ S.unfinished) :
    0 < s.remaining := by
  rcases mem_unfinished.1 hs with ha | hw
  · exact (hS.active s ha).remaining_pos
  · exact (hS.waiting s hw).remaining_pos

end Queues

/-! ## Backed schedulers -/

/-- The pool holds at once all that the unfinished sequences may come to own. -/
structure Backed (S : Scheduler) : Prop extends Accounted S where
  prompts : ∀ s ∈ S.waiting, s.promptTokens ≠ []
  rounding : ∀ s ∈ S.unfinished, s.size + S.pageTable.blockSize ≤ 2 ^ 64
  blocks : (S.unfinished.map (due S.pageTable.blockSize)).sum ≤ S.pageTable.numBlocks

section Backed

variable {clock : ℕ → ℤ} {S S' : Scheduler} {rs : List StepResult} {s : Sequence}

theorem fixed_due (bs : ℕ) : Sequence.Fixed (due bs) :=
  ⟨fun _ _ => rfl, fun _ _ => rfl, fun _ => rfl, fun _ _ => rfl⟩

/-- **Every turn keeps the scheduler backed.** -/
theorem Backed.turn (hS : Backed S) (h : Turn clock S rs S') : Backed S' := by
  obtain ⟨hbs, hn, -⟩ := h.sizes
  refine { hS.toAccounted.turn h with
    prompts := h.prompts hS.prompts, rounding := ?_, blocks := ?_ }
  · intro s hs
    have hmem := (h.sublist Sequence.fixed_size).subset (List.mem_map_of_mem hs)
    obtain ⟨s₀, hs₀, heq⟩ := List.mem_map.1 hmem
    rw [← heq, hbs]
    exact hS.rounding s₀ hs₀
  · rw [hbs, hn]
    refine le_trans ?_ hS.blocks
    exact (h.sublist (fixed_due _)).sum_le_sum fun _ _ => Nat.zero_le _

theorem Backed.turns (hS : Backed S) (h : Turns clock S rs S') : Backed S' :=
  h.keeps (fun _ _ _ hS ht => hS.turn ht) hS

/-- **Every request of an unfinished sequence fits.** -/
theorem Backed.fits (hS : Backed S) (hs : s ∈ S.unfinished) {t : ℕ} (ht : t ≤ s.size) :
    S.pageTable.Fits s.id t := by
  have hmono : ∀ {a b : ℕ}, a ≤ b → a ⌈/⌉ S.pageTable.blockSize ≤ b ⌈/⌉ S.pageTable.blockSize :=
    fun h => (gc_mul_ceilDiv S.pageTable.blockSize_pos).monotone_l h
  let owned : Sequence → ℕ := fun x => (S.pageTable.blocksOf x.id).length
  have hwait : ∀ x ∈ S.waiting, owned x = 0 := fun x hx =>
    List.length_eq_zero_iff.2 (hS.owns.others _ (hS.notMem_active hx))
  have howned : ∀ x ∈ S.unfinished, owned x ≤ due S.pageTable.blockSize x := by
    intro x hx
    rcases mem_unfinished.1 hx with ha | hw
    · refine (hS.owns.exact x ha).le.trans (hmono ?_)
      rcases hS.active x ha with ⟨-, hcur, hg⟩ | ⟨-, hcur, hg⟩
      · rw [Sequence.tokens, hg, List.length_nil]
        omega
      · rw [Sequence.tokens]
        omega
    · rw [hwait x hw]
      exact Nat.zero_le _
  have hneed : S.pageTable.blocksNeededFor t ≤ due S.pageTable.blockSize s := by
    rw [blocksNeededFor_eq (by have := hS.rounding s hs; omega)]
    exact hmono ht
  -- the free blocks and those of the unfinished sequences are all there are
  have hlen := length_active hS.toOrderly hS.partitioned hS.owns.others
  have hsum : (S.unfinished.map owned).sum = (S.active.map owned).sum := by
    rw [unfinished, List.map_append, List.sum_append,
      List.sum_eq_zero (l := S.waiting.map owned) (by simpa using hwait), Nat.add_zero]
  have hexchange := sum_exchange howned hs
  have hblocks := hS.blocks
  unfold Fits
  change S.pageTable.freeBlocks.length + (S.active.map owned).sum = _ at hlen
  change _ ≤ owned s + _
  omega

/-- All tokens together fit the pool. -/
theorem Backed.size_le (hS : Backed S) : (S.unfinished.map Sequence.size).sum ≤ S.capacity := by
  have hle : ∀ x ∈ S.unfinished,
      Sequence.size x ≤ due S.pageTable.blockSize x * S.pageTable.blockSize := by
    intro x _
    rw [mul_comm, ← ceilDiv_le_iff_le_mul S.pageTable.blockSize_pos]
    exact le_rfl
  refine (List.sum_le_sum hle).trans ?_
  rw [List.sum_map_mul_right, capacity]
  exact Nat.mul_le_mul_right _ hS.blocks

end Backed

/-! ## The work left -/

/-- What is left of a sequence, if it is one of these. -/
def share (ids : List UInt64) (s : Sequence) : ℕ := if s.id ∈ ids then s.remaining else 0

/-- What is left of the sequences with these ids. -/
def workOf (ids : List UInt64) (S : Scheduler) : ℕ := (S.unfinished.map (share ids)).sum

/-- What is left of a sequence, if it is decoding. -/
def decodeShare (s : Sequence) : ℕ := if s.phase = .decode then s.remaining else 0

/-- What is left of the decoding sequences. -/
def decodeWork (S : Scheduler) : ℕ := (S.active.map decodeShare).sum

section Work

variable {clock : ℕ → ℤ} {S S' : Scheduler} {rs : List StepResult} {s s' : Sequence}
  {ids : List UInt64}

/-- How many of the results are about the sequences with these ids. -/
def resultsOf (ids : List UInt64) (rs : List StepResult) : ℕ := rs.countP fun r => r.seqId ∈ ids

theorem share_of_step (ids : List UInt64) {r : StepResult} (hr : r.seqId = s.id)
    (hid : s'.id = s.id) (hle : s'.remaining + 1 ≤ s.remaining) :
    share ids s' + resultsOf ids [r] ≤ share ids s := by
  unfold share resultsOf
  rw [List.countP_singleton, hid, hr]
  by_cases h : s.id ∈ ids
  · simpa [h] using hle
  · simp [h]

theorem share_of_last (ids : List UInt64) {r : StepResult} (hr : r.seqId = s.id)
    (hpos : 0 < s.remaining) :
    resultsOf ids [r] ≤ share ids s := by
  unfold share resultsOf
  rw [List.countP_singleton, hr]
  by_cases h : s.id ∈ ids
  · simpa [h] using Nat.succ_le_of_lt hpos
  · simp [h]

/-- **Every result about one of them lowers what is left of them.** -/
theorem Turn.workOf (ids : List UInt64) (hS : Orderly S) (h : Turn clock S rs S') :
    S'.workOf ids + resultsOf ids rs ≤ S.workOf ids := by
  unfold Scheduler.workOf unfinished
  cases h with
  | refuse hs hfit => exact le_rfl
  | @decode l r s ha hphase hfit hmore =>
    have hshare := share_of_step ids (s := s) (r := ⟨s.id, false, 1, s.phase⟩) rfl
      (s.id_decoded (clock S.ticks)) (s.remaining_decoded hmore _)
    simp only [ha, List.map_append, List.map_cons, List.sum_append, List.sum_cons]
    omega
  | @retire l r s ha hphase hfit hlast =>
    have hpos := hS.remaining_pos (s := s) (mem_unfinished.2 (.inl (by simp [ha])))
    have hshare := share_of_last ids (r := ⟨s.id, false, 1, .finished⟩) rfl hpos
    simp only [ha, List.map_append, List.map_cons, List.sum_append, List.sum_cons]
    omega
  | @prefill l r s ha hphase hc b hchunk hfit =>
    have hle := s.chunk_le S.config b
    unfold Sequence.prefillComplete at hc
    have hstep := remaining_prefilled (s := s) hchunk (by omega)
    have hshare := share_of_step ids (r := ⟨(s.prefilled (s.chunk S.config b)).id, true,
      s.chunk S.config b, (s.prefilled (s.chunk S.config b)).phase⟩) (s.id_prefilled _)
      (s.id_prefilled _) hstep
    simp only [ha, List.map_append, List.map_cons, List.sum_append, List.sum_cons]
    omega
  | @ready l r s ha hphase hc =>
    have hact := hS.active s (by simp [ha])
    exact absurd hc (not_le.2 (hact.prefilling hphase).1)
  | @start w s hw hc b hchunk hfit =>
    have hle := s.chunk_le S.config b
    unfold Sequence.prefillComplete at hc
    have hstep := remaining_prefilled (s := s) hchunk (by omega)
    have hshare := share_of_step ids (r := ⟨(s.prefilled (s.chunk S.config b)).id, true,
      s.chunk S.config b, (s.prefilled (s.chunk S.config b)).phase⟩) (s.id_prefilled _)
      (s.id_prefilled _) hstep
    simp only [hw, List.map_append, List.map_cons, List.map_nil, List.sum_append, List.sum_cons,
      List.sum_nil]
    omega
  | @readyFront w s hw hc =>
    have hshare : share ids s.readied = share ids s := rfl
    simp only [hw, List.map_append, List.map_cons, List.sum_append, List.sum_cons, hshare]
    exact le_rfl

/-- Decodes alone lower what is left of the decoding sequences. -/
theorem Turn.decodeWork (hS : Orderly S) (h : Turn clock S rs S')
    (hrs : ∀ r ∈ rs, r.wasPrefillChunk = false) :
    S'.decodeWork + rs.length ≤ S.decodeWork := by
  unfold Scheduler.decodeWork
  cases h with
  | refuse hs hfit => exact le_rfl
  | @decode l r s ha hphase hfit hmore =>
    have hold : decodeShare s = s.remaining := if_pos hphase
    have hnew : decodeShare (s.decoded (clock S.ticks)) = (s.decoded (clock S.ticks)).remaining :=
      if_pos hphase
    have hle := s.remaining_decoded hmore (clock S.ticks)
    simp only [ha, List.map_append, List.map_cons, List.sum_append, List.sum_cons, hold, hnew,
      List.length_singleton]
    omega
  | @retire l r s ha hphase hfit hlast =>
    have hold : decodeShare s = s.remaining := if_pos hphase
    have hpos := hS.remaining_pos (s := s) (mem_unfinished.2 (.inl (by simp [ha])))
    simp only [ha, List.map_append, List.map_cons, List.sum_append, List.sum_cons, hold,
      List.length_singleton]
    omega
  | prefill | start => cases hrs _ List.mem_cons_self
  | @ready l r s ha hphase hc =>
    have hact := hS.active s (by simp [ha])
    exact absurd hc (not_le.2 (hact.prefilling hphase).1)
  | readyFront hw hc => exact le_rfl

theorem Turns.workOf (ids : List UInt64) (hS : Orderly S) (h : Turns clock S rs S') :
    S'.workOf ids + resultsOf ids rs ≤ S.workOf ids := by
  refine (h.invariant (P := fun out T => Orderly T ∧
    T.workOf ids + resultsOf ids out ≤ S.workOf ids) ⟨hS, le_rfl⟩ ?_).2
  rintro out T ys T' ⟨hT, hle⟩ ht
  have hturn := ht.workOf ids hT
  refine ⟨hT.turn ht, ?_⟩
  rw [resultsOf, List.countP_append]
  unfold resultsOf at hle hturn
  omega

theorem Turns.decodeWork (hS : Orderly S) (h : Turns clock S rs S')
    (hrs : ∀ r ∈ rs, r.wasPrefillChunk = false) :
    S'.decodeWork + rs.length ≤ S.decodeWork := by
  refine (h.invariant (P := fun out T => Orderly T ∧
    ((∀ r ∈ out, r.wasPrefillChunk = false) → T.decodeWork + out.length ≤ S.decodeWork))
    ⟨hS, fun _ => le_rfl⟩ ?_).2 hrs
  rintro out T ys T' ⟨hT, hle⟩ ht
  refine ⟨hT.turn ht, fun hout => ?_⟩
  rw [List.forall_mem_append] at hout
  have hturn := ht.decodeWork hT hout.2
  have hold := hle hout.1
  rw [List.length_append]
  omega

theorem Backed.decodeWork_le (hS : Backed S) : S.decodeWork ≤ S.capacity := by
  have hle : (S.active.map decodeShare).sum ≤ (S.active.map Sequence.size).sum := by
    refine List.sum_le_sum fun s _ => ?_
    unfold decodeShare
    split_ifs
    · exact s.remaining_le_size
    · exact Nat.zero_le _
  have hsize := hS.size_le
  rw [unfinished, List.map_append, List.sum_append] at hsize
  unfold Scheduler.decodeWork
  omega

end Work

/-! ## Who is in front -/

/-- The sequences with these ids come before all others. -/
def InFront (ids : List UInt64) (S : Scheduler) : Prop :=
  (S.unfinished.map Sequence.id).Pairwise fun a b => b ∈ ids → a ∈ ids

section Front

variable {clock : ℕ → ℤ} {S S' : Scheduler} {rs : List StepResult} {s c : Sequence}
  {ids : List UInt64} {pre post l : List Sequence}

theorem InFront.turns (hS : InFront ids S) (h : Turns clock S rs S') : InFront ids S' :=
  h.keeps (fun _ _ _ hS ht => hS.sublist (ht.sublist Sequence.fixed_id)) hS

/-- Whoever comes before one of them is one of them. -/
theorem InFront.of_split (hS : InFront ids S) (pre post : List Sequence)
    (hsplit : S.unfinished = pre ++ c :: post) (hs : s ∈ c :: post) (hid : s.id ∈ ids) :
    c.id ∈ ids := by
  rcases List.mem_cons.1 hs with rfl | hs
  · exact hid
  · unfold InFront at hS
    rw [hsplit, List.map_append, List.map_cons, List.pairwise_append, List.pairwise_cons] at hS
    exact hS.2.1.1 _ (List.mem_map_of_mem hs) hid

/-- The first sequence in some phase. -/
theorem exists_first {p : SequencePhase} (hs : s ∈ l) (hp : s.phase = p) :
    ∃ pre c post, l = pre ++ c :: post ∧ c.phase = p ∧ (∀ x ∈ pre, x.phase ≠ p) ∧
      s ∈ c :: post := by
  have hsome : (l.find? fun x => x.phase = p).isSome := by
    rw [List.find?_isSome]
    exact ⟨s, hs, decide_eq_true hp⟩
  obtain ⟨c, hc⟩ := Option.isSome_iff_exists.1 hsome
  obtain ⟨hcp, pre, post, rfl, hpre⟩ := List.find?_eq_some_iff_append.1 hc
  have hpre' : ∀ x ∈ pre, x.phase ≠ p := fun x hx => by simpa using hpre x hx
  refine ⟨pre, c, post, rfl, by simpa using hcp, hpre', ?_⟩
  exact (List.mem_append.1 hs).resolve_left fun h => hpre' s h hp

/-! ## The loops -/

/-- Somebody with this id is in the results. -/
def Serves (i : UInt64) (rs : List StepResult) : Prop := ∃ r ∈ rs, r.seqId = i

variable {it it' : Iteration} {a a' : List Sequence}

theorem Serves.append {i : UInt64} {out : List StepResult} (h : Serves i out)
    (rs : List StepResult) : Serves i (out ++ rs) := by
  obtain ⟨r, hr, hi⟩ := h
  exact ⟨r, List.mem_append_left _ hr, hi⟩

theorem Serves.appendsPrefills {i : UInt64} {out : List StepResult} (h : Serves i out)
    (hp : AppendsPrefills out rs) : Serves i rs := by
  obtain ⟨ps, rfl, -⟩ := hp
  exact h.append ps

/-- The decode loop as a part of the step: a chain of turns, which does not touch the sequences in
other phases. -/
theorem decodeLoop_turns (h : sweep exhausted (decodeTurn clock) S.active S.opening = .ok (a, it)) :
    Turns clock S it.results (place S.config it S.waiting a) ∧
      ∀ x ∈ S.active, x.phase ≠ .decode → x ∈ a := by
  obtain ⟨mid, rest, it', hrun, ⟨hturns, hmem⟩, -⟩ := sweep_spec exhausted (decodeTurn clock)
    (I := fun pre it post => Turns clock S it.results (place S.config it S.waiting (pre ++ post)) ∧
      ∀ x ∈ S.active, x.phase ≠ .decode → x ∈ pre ++ post)
    (fun pre s post it hI _ => by
      obtain ⟨s', it', hv, hturns⟩ := decodeTurn_turns hI.1
      refine ⟨s', it', hv, hturns, fun x hx hp => ?_⟩
      have hold := hI.2 x hx hp
      rw [List.mem_append, List.mem_cons] at hold
      rw [List.append_assoc, List.mem_append, List.mem_append]
      refine hold.imp_right fun hold => hold.imp_left fun hxs => ?_
      rw [hxs] at hp ⊢
      rw [decodeTurn_skip hp] at hv
      cases hv
      exact List.mem_singleton_self s)
    S.active [] S.opening ⟨Trace.nil, fun x hx _ => hx⟩
  cases h.symm.trans hrun
  exact ⟨hturns, hmem⟩

/-- The first decoding sequence is served. -/
theorem decodeLoop_serves_front (hS : Backed S) (hbatch : 1 ≤ S.config.maxBatchTokens)
    (ha : S.active = pre ++ c :: post) (hpre : ∀ x ∈ pre, x.phase ≠ .decode)
    (hc : c.phase = .decode)
    (h : sweep exhausted (decodeTurn clock) S.active S.opening = .ok (a, it)) :
    Serves c.id it.results := by
  have hmem : c ∈ S.active := by simp [ha]
  have hfit : S.pageTable.Fits c.id (c.totalTokens + 1) := by
    refine hS.fits (mem_unfinished.2 (.inl hmem)) ?_
    have hgen := ((hS.active c hmem).decoding hc).2
    unfold Sequence.totalTokens Sequence.size
    omega
  rw [ha] at h
  refine sweep_first exhausted (decodeTurn clock) (Q := fun it => Serves c.id it.results)
    (fun x hx => decodeTurn_skip (hpre x hx)) ?_ ?_ ?_ h
  · exact beq_eq_false_iff_ne.2 (Nat.one_le_iff_ne_zero.1 hbatch)
  · intro c' it' hv
    cases decodeTurn_cases hv with
    | skip hphase => exact absurd hc hphase
    | refused hphase hno => exact absurd hfit hno
    | kept | retired => exact ⟨_, List.mem_append_right _ (List.mem_singleton_self _), rfl⟩
  · intro x it₁ x' it₂ _ hv hserves
    cases decodeTurn_cases hv with
    | skip | refused => exact hserves
    | kept | retired => exact hserves.append _

/-- The first prefilling sequence is served, if there is some budget left. -/
theorem prefillLoop_serves_front (hS : Backed (place S.config it S.waiting a))
    (hchunk : 1 ≤ S.config.maxPrefillChunk) (hbudget : it.budget ≠ 0)
    (ha : a = pre ++ c :: post) (hpre : ∀ x ∈ pre, x.phase ≠ .prefill) (hc : c.phase = .prefill)
    (h : sweep exhausted (prefillTurn S.config) a it = .ok (a', it')) :
    Serves c.id it'.results := by
  have hmem : c ∈ (place S.config it S.waiting a).active := by
    change c ∈ a
    simp [ha]
  have hleft := ((hS.active c hmem).prefilling hc).1
  have hne : ¬ c.prefillComplete := not_le.2 hleft
  have hfit : it.pageTable.Fits c.id (c.prefillCursor + c.chunk S.config it.budget) := by
    refine hS.fits (mem_unfinished.2 (.inl hmem)) ?_
    have hle := c.chunk_le S.config it.budget
    unfold Sequence.size
    omega
  rw [ha] at h
  refine sweep_first exhausted (prefillTurn S.config) (Q := fun it => Serves c.id it.results)
    (fun x hx => prefillTurn_skip (hpre x hx)) (beq_eq_false_iff_ne.2 hbudget) ?_ ?_ h
  · intro c' it' hv
    cases prefillTurn_cases hv with
    | skip hphase => exact absurd hc hphase
    | complete hphase hcomplete => exact absurd hcomplete hne
    | idle hphase hcomplete hidle => exact absurd hidle (chunk_ne_zero hne hchunk hbudget)
    | refused hphase hcomplete hn hno => exact absurd hfit hno
    | granted => exact ⟨_, List.mem_append_right _ (List.mem_singleton_self _), c.id_prefilled _⟩
  · intro x it₁ x' it₂ _ hv hserves
    exact hserves.appendsPrefills (prefillTurn_appends hv)

/-- If no active sequence is prefilling, the front of the waiting queue is served. -/
theorem admitLoop_serves_front {w w' ad : List Sequence} {it'' : Iteration}
    (hS : Backed (place S.config it (c :: w) a)) (hchunk : 1 ≤ S.config.maxPrefillChunk)
    (hbudget : it.budget ≠ 0) (hpre : ∀ x ∈ a, x.phase ≠ .prefill)
    (h : sweep exhausted (prefillTurn S.config) a it = .ok (a', it'))
    (h' : admitLoop S.config (c :: w) it' = .ok (w', ad, it'')) : Serves c.id it''.results := by
  have hskip := sweep_skip exhausted (prefillTurn S.config) (s := it)
    (fun x hx => prefillTurn_skip (hpre x hx)) []
  rw [List.append_nil, h] at hskip
  obtain ⟨-, rfl⟩ := Prod.mk.inj (Except.ok.inj hskip)
  have hwait := hS.waiting c List.mem_cons_self
  have hprompt := hS.prompts c List.mem_cons_self
  have hne : ¬ c.prefillComplete := by
    unfold Sequence.prefillComplete
    rw [hwait.cursor, Nat.le_zero, List.length_eq_zero_iff]
    exact hprompt
  have hn := chunk_ne_zero hne hchunk hbudget
  have hfit : it'.pageTable.Fits c.id (c.prefillCursor + c.chunk S.config it'.budget) := by
    refine hS.fits (mem_unfinished.2 (.inr List.mem_cons_self)) ?_
    have hle := c.chunk_le S.config it'.budget
    have hcur := hwait.cursor
    unfold Sequence.size
    omega
  rw [admitLoop_granted hbudget w hn
    (doPrefillChunk_granted hne hn hwait.ne_finished hfit)] at h'
  obtain ⟨⟨w₁, l₁, it₁⟩, hloop, h'⟩ := bind_eq_ok.1 h'
  cases h'
  have hserves : Serves c.id (spend it' (c.chunk S.config it'.budget)
      (c.prefilled (c.chunk S.config it'.budget))
      (it'.pageTable.ensureCapacity c.id
        (c.prefillCursor + c.chunk S.config it'.budget)).2).results :=
    ⟨_, List.mem_append_right _ (List.mem_singleton_self _), c.id_prefilled _⟩
  have hw : ∀ x ∈ w, x.phase ≠ .finished := fun x hx =>
    (hS.waiting x (List.mem_cons_of_mem _ hx)).ne_finished
  exact hserves.appendsPrefills (admitLoop_chunks hw hloop).results

/-- **A step serves one of the sequences in front, or is used up by decodes.** -/
theorem step_serves (hS : Backed S) (hbatch : 1 ≤ S.config.maxBatchTokens)
    (hchunk : 1 ≤ S.config.maxPrefillChunk) (hfront : InFront ids S) (hs : s ∈ S.unfinished)
    (hid : s.id ∈ ids) (h : S.step clock = .ok (rs, S')) :
    (∃ i ∈ ids, Serves i rs) ∨ (rs ≠ [] ∧ ∀ r ∈ rs, r.wasPrefillChunk = false) := by
  obtain ⟨a₁, it₁, a₂, it₂, w, ad, it₃, h₁, h₂, h₃, rfl, -⟩ := loops_of_step h
  have hfin : ∀ x ∈ S.waiting, x.phase ≠ .finished := fun x hx => (hS.waiting x hx).ne_finished
  have hchunks := (prefillLoop_chunks h₂).trans (admitLoop_chunks hfin h₃)
  by_cases hbudget : it₁.budget = 0
  · -- the decode loop has used up the budget
    right
    obtain ⟨_, _, hrun, hserve⟩ := decodeLoop_serves_first clock hS.nodup_active
    cases h₁.symm.trans hrun
    rw [hchunks.idle hbudget]
    refine ⟨fun hnil => ?_, hserve.decodes⟩
    have hsum := hserve.budget
    rw [hnil, List.length_nil] at hsum
    omega
  left
  by_cases hdec : ∃ x ∈ S.active, x.phase = .decode ∧ x.id ∈ ids
  · obtain ⟨x, hx, hp, hxid⟩ := hdec
    obtain ⟨pre, c, post, ha, hc, hpre, hmem⟩ := exists_first hx hp
    have hcid : c.id ∈ ids := by
      refine hfront.of_split pre (post ++ S.waiting) ?_
        (List.mem_append_left S.waiting hmem) hxid
      rw [unfinished, ha, List.append_assoc]
      rfl
    exact ⟨c.id, hcid,
      (decodeLoop_serves_front hS hbatch ha hpre hc h₁).appendsPrefills hchunks.results⟩
  obtain ⟨hturns, hkept⟩ := decodeLoop_turns h₁
  have hT := hS.turns hturns
  have hfrontT := hfront.turns hturns
  -- whoever is prefilling first is in front of `s`
  have hprefill : ∀ x ∈ a₁, x.phase = .prefill → (∀ pre c post, a₁ = pre ++ c :: post →
      x ∈ c :: post → s ∈ c :: (post ++ S.waiting)) → ∃ i ∈ ids, Serves i it₃.results := by
    intro x hx hp hbehind
    obtain ⟨pre, c, post, ha, hc, hpre, hmem⟩ := exists_first hx hp
    have hcid : c.id ∈ ids := by
      refine hfrontT.of_split pre (post ++ S.waiting) ?_
        (hbehind pre c post ha hmem) hid
      change a₁ ++ S.waiting = _
      rw [ha, List.append_assoc]
      rfl
    exact ⟨c.id, hcid, (prefillLoop_serves_front hT hchunk hbudget ha hpre hc h₂).appendsPrefills
      (admitLoop_chunks hfin h₃).results⟩
  rcases mem_unfinished.1 hs with ha | hw
  · have hp : s.phase = .prefill := by
      rcases hS.active s ha with ⟨hp, -⟩ | ⟨hp, -⟩
      · exact hp
      · exact absurd ⟨s, ha, hp, hid⟩ hdec
    refine hprefill s (hkept s ha (by rw [hp]; decide)) hp fun pre c post _ hmem => ?_
    exact List.mem_append_left S.waiting hmem
  · by_cases hpre : ∃ x ∈ a₁, x.phase = .prefill
    · obtain ⟨x, hx, hp⟩ := hpre
      refine hprefill x hx hp fun pre c post _ _ => ?_
      exact List.mem_cons_of_mem _ (List.mem_append_right _ hw)
    · push Not at hpre
      obtain ⟨c, w', hwait⟩ := List.exists_cons_of_ne_nil (List.ne_nil_of_mem hw)
      rw [hwait] at h₃ hw
      have hT' : Backed (place S.config it₁ (c :: w') a₁) := by rwa [hwait] at hT
      have hcid : c.id ∈ ids := by
        refine hfrontT.of_split a₁ w' ?_ hw hid
        change a₁ ++ S.waiting = _
        rw [hwait]
      exact ⟨c.id, hcid, admitLoop_serves_front hT' hchunk hbudget hpre h₂ h₃⟩

end Front

/-! ## The burden -/

/-- What every step lowers while one of the sequences with these ids is unfinished: the steps that
serve none of them are used up by decodes, of which the pool bounds the number. -/
def burden (ids : List UInt64) (S : Scheduler) : ℕ :=
  S.workOf ids * (S.capacity + 1) + S.decodeWork

/-- All sequences with these ids are finished. -/
def Done (ids : List UInt64) (S : Scheduler) : Prop := ∀ s ∈ S.unfinished, s.id ∉ ids

/-- The pool holds what `s` and the unfinished sequences may come to own. -/
structure Holds (S : Scheduler) (s : Sequence) : Prop where
  prompt : s.promptTokens ≠ []
  rounding : s.size + S.pageTable.blockSize ≤ 2 ^ 64
  blocks : ((S.unfinished ++ [s]).map fun x => S.pageTable.blocksNeededFor x.size).sum ≤
    S.pageTable.numBlocks

/-- A backed scheduler that can do something in a step, with sequences in front of all others. -/
structure Fair (ids : List UInt64) (S : Scheduler) : Prop extends Backed S where
  batch : 1 ≤ S.config.maxBatchTokens
  chunk : 1 ≤ S.config.maxPrefillChunk
  front : InFront ids S
  known : ∀ i ∈ ids, i ∈ S.sequences.map Sequence.id

section Burden

variable {clock : ℕ → ℤ} {S S' : Scheduler} {rs : List StepResult} {s : Sequence}
  {ids : List UInt64} {before behind : List Sequence}

/-- While something is left of them, the burden is more than the pool. -/
theorem Fair.lt_burden (hS : Fair ids S) (hleft : ¬ Done ids S) : S.capacity < S.burden ids := by
  unfold Done at hleft
  push Not at hleft
  obtain ⟨s, hs, hid⟩ := hleft
  have hshare : 0 < share ids s := by
    rw [share, if_pos hid]
    exact hS.remaining_pos hs
  have hone : 1 ≤ S.workOf ids :=
    hshare.trans_le (List.single_le_sum (fun _ _ => Nat.zero_le _) _ (List.mem_map_of_mem hs))
  have hmul := Nat.mul_le_mul_right (S.capacity + 1) hone
  unfold burden
  omega

theorem Fair.turns (hS : Fair ids S) (h : Turns clock S rs S') : Fair ids S' := by
  have hcfg : S'.config = S.config :=
    h.keeps (P := fun T => T.config = S.config) (fun _ _ _ hT ht => ht.sizes.2.2.trans hT) rfl
  have hids : (S'.sequences.map Sequence.id).Perm (S.sequences.map Sequence.id) :=
    h.keeps (P := fun T => (T.sequences.map Sequence.id).Perm (S.sequences.map Sequence.id))
      (fun _ _ _ hT ht => (ht.perm Sequence.fixed_id).trans hT) (List.Perm.refl _)
  refine { hS.toBacked.turns h with
    batch := hcfg ▸ hS.batch
    chunk := hcfg ▸ hS.chunk
    front := hS.front.turns h
    known := fun i hi => hids.mem_iff.2 (hS.known i hi) }

theorem Fair.step (hS : Fair ids S) (h : S.step clock = .ok (rs, S')) : Fair ids S' :=
  hS.turns (turns_of_step (fun s hs => (hS.waiting s hs).ne_finished) h)

/-- A step finishes them for good. -/
theorem Done.step (hdone : Done ids S) (hS : Fair ids S) (h : S.step clock = .ok (rs, S')) :
    Done ids S' := by
  have hturns := turns_of_step (fun s hs => (hS.waiting s hs).ne_finished) h
  have hsub : (S'.unfinished.map Sequence.id).Sublist (S.unfinished.map Sequence.id) :=
    hturns.keeps
      (P := fun T => (T.unfinished.map Sequence.id).Sublist (S.unfinished.map Sequence.id))
      (fun _ _ _ hT ht => (ht.sublist Sequence.fixed_id).trans hT) (List.Sublist.refl _)
  intro s hs
  obtain ⟨s₀, hs₀, heq⟩ := List.mem_map.1 (hsub.subset (List.mem_map_of_mem hs))
  rw [← heq]
  exact hdone s₀ hs₀

/-- **Every step lowers the burden.** -/
theorem burden_step (hS : Fair ids S) (hleft : ¬ Done ids S)
    (h : S.step clock = .ok (rs, S')) : S'.burden ids + 1 ≤ S.burden ids := by
  have hturns := turns_of_step (fun s hs => (hS.waiting s hs).ne_finished) h
  have hcap : S'.capacity = S.capacity :=
    hturns.keeps (P := fun T => T.capacity = S.capacity) (fun _ _ _ hT ht => ht.capacity.trans hT)
      rfl
  have hwork := hturns.workOf ids hS.toOrderly
  have hdecode := (hS.step h).decodeWork_le
  unfold Done at hleft
  push Not at hleft
  obtain ⟨s, hs, hid⟩ := hleft
  unfold burden
  rw [hcap] at hdecode ⊢
  rcases step_serves hS.toBacked hS.batch hS.chunk hS.front hs hid h with
    ⟨i, hi, r, hr, hri⟩ | ⟨hne, hall⟩
  · have hone : 1 ≤ resultsOf ids rs := by
      refine List.countP_pos_iff.2 ⟨r, hr, decide_eq_true ?_⟩
      rwa [hri]
    have hmul : (S'.workOf ids + 1) * (S.capacity + 1) ≤ S.workOf ids * (S.capacity + 1) :=
      Nat.mul_le_mul_right _ (by omega)
    rw [Nat.add_mul, Nat.one_mul] at hmul
    omega
  · have hless := hturns.decodeWork hS.toOrderly hall
    have hlen := List.length_pos_iff.2 hne
    have hmul : S'.workOf ids * (S.capacity + 1) ≤ S.workOf ids * (S.capacity + 1) :=
      Nat.mul_le_mul_right _ (by omega)
    omega

theorem unfinished_admitSequence (S : Scheduler) (s : Sequence) :
    (S.admitSequence s).unfinished = S.unfinished ++ [s] := (List.append_assoc _ _ _).symm

theorem mem_sequences_admitSequence {x : Sequence} (hx : x ∈ S.sequences) (s : Sequence) :
    x ∈ (S.admitSequence s).sequences := by
  rw [mem_sequences] at hx ⊢
  exact hx.imp_left (List.mem_append_left _)

/-- An admission under the control. -/
theorem Backed.admitSequence (hS : Backed S) (hs : s.Queued)
    (hid : s.id ∉ S.sequences.map Sequence.id) (hroom : S.Holds s) :
    Backed (S.admitSequence s) := by
  have hround : ∀ x ∈ S.unfinished ++ [s], x.size + S.pageTable.blockSize ≤ 2 ^ 64 :=
    List.forall_mem_append.2 ⟨hS.rounding, List.forall_mem_singleton.2 hroom.rounding⟩
  refine { hS.toOrderly.arrive hs hid with
    partitioned := hS.partitioned
    owns := hS.owns
    bounded := ?_
    prompts := List.forall_mem_append.2 ⟨hS.prompts, List.forall_mem_singleton.2 hroom.prompt⟩
    rounding := ?_
    blocks := ?_ }
  · intro x hx
    have hmem : x ∈ S.unfinished ++ [s] := by
      rw [← unfinished_admitSequence]
      exact mem_unfinished.2 (List.mem_append.1 hx).symm
    have hle := hround x hmem
    unfold Sequence.size at hle
    unfold Sequence.Bounded
    change _ + S.pageTable.blockSize ≤ _
    omega
  · rw [unfinished_admitSequence]
    exact hround
  · rw [unfinished_admitSequence]
    refine le_of_eq_of_le (congrArg List.sum (List.map_congr_left fun x hx => ?_)) hroom.blocks
    exact (blocksNeededFor_eq (hround x hx)).symm

theorem Fair.admitSequence (hS : Fair ids S) (hs : s.Queued)
    (hid : s.id ∉ S.sequences.map Sequence.id) (hroom : S.Holds s) :
    Fair ids (S.admitSequence s) := by
  refine { hS.toBacked.admitSequence hs hid hroom with
    batch := hS.batch, chunk := hS.chunk, front := ?_, known := fun i hi => ?_ }
  · rw [InFront, unfinished_admitSequence, List.map_append, List.pairwise_append]
    refine ⟨hS.front, List.pairwise_singleton _ _, fun i _ j hj hjd => ?_⟩
    obtain rfl := List.mem_singleton.1 hj
    exact absurd (hS.known _ hjd) hid
  · obtain ⟨x, hx, rfl⟩ := List.mem_map.1 (hS.known i hi)
    exact List.mem_map_of_mem (mem_sequences_admitSequence hx s)

/-- It adds nothing to the burden. -/
theorem burden_admitSequence (hS : Fair ids S) (hid : s.id ∉ S.sequences.map Sequence.id) :
    (S.admitSequence s).burden ids = S.burden ids := by
  have hshare : share ids s = 0 := if_neg fun h => hid (hS.known _ h)
  have hwork : (S.admitSequence s).workOf ids = S.workOf ids := by
    rw [workOf, unfinished_admitSequence, List.map_append, List.sum_append, List.map_singleton,
      List.sum_singleton, hshare, Nat.add_zero, workOf]
  rw [burden, hwork]
  rfl

theorem Done.admitSequence (hdone : Done ids S) (hS : Fair ids S)
    (hid : s.id ∉ S.sequences.map Sequence.id) : Done ids (S.admitSequence s) := by
  unfold Done
  rw [unfinished_admitSequence]
  refine List.forall_mem_append.2 ⟨hdone, List.forall_mem_singleton.2 fun h => ?_⟩
  exact hid (hS.known _ h)

/-- A prefix of the queue is in front. -/
theorem Fair.of_split (hS : Fair [] S) (hsplit : S.unfinished = before ++ behind) :
    Fair (before.map Sequence.id) S := by
  refine { hS.toBacked with batch := hS.batch, chunk := hS.chunk, front := ?_, known := ?_ }
  · have hnd := hS.nodup_unfinished
    rw [hsplit, List.map_append, List.nodup_append] at hnd
    rw [InFront, hsplit, List.map_append]
    refine List.pairwise_append.2 ⟨?_, ?_, fun i hi j _ _ => hi⟩
    · exact List.pairwise_of_forall_mem_list fun i hi j _ _ => hi
    · refine List.pairwise_of_forall_mem_list fun i _ j hj hjd => ?_
      exact absurd rfl (hnd.2.2 j hjd j hj)
  · intro i hi
    obtain ⟨x, hx, rfl⟩ := List.mem_map.1 hi
    refine List.mem_map_of_mem (mem_sequences_of_unfinished ?_)
    rw [hsplit]
    exact List.mem_append_left _ hx

/-- What is left of it. -/
theorem workOf_of_split (hS : Orderly S) (hsplit : S.unfinished = before ++ behind) :
    S.workOf (before.map Sequence.id) = (before.map Sequence.remaining).sum := by
  have hnd := hS.nodup_unfinished
  rw [hsplit, List.map_append, List.nodup_append] at hnd
  have hfront : before.map (share (before.map Sequence.id)) = before.map Sequence.remaining :=
    List.map_congr_left fun x hx => if_pos (List.mem_map_of_mem hx)
  have hback : (behind.map (share (before.map Sequence.id))).sum = 0 := by
    refine List.sum_eq_zero fun k hk => ?_
    obtain ⟨x, hx, rfl⟩ := List.mem_map.1 hk
    exact if_neg fun h => hnd.2.2 _ h _ (List.mem_map_of_mem hx) rfl
  rw [workOf, hsplit, List.map_append, List.sum_append, hfront, hback, Nat.add_zero]

end Burden

/-! ## Runs -/

/-- Which call it is. -/
inductive CallKind
  | arrive
  | step
  deriving Repr, DecidableEq

/-- The calls under the admission control: `admit` of a fresh sequence with an unused id that the
pool holds next to all others, or `step`. -/
inductive BackedCall (clock : ℕ → ℤ) : Scheduler → List CallKind → Scheduler → Prop
  | arrive {S : Scheduler} (seqId : UInt64) (prompt : List UInt32) (maxNew : UInt32) (now : ℤ)
      (hid : seqId ∉ S.sequences.map Sequence.id)
      (hroom : S.Holds (Sequence.new seqId prompt maxNew now)) :
      BackedCall clock S [.arrive] (S.admitSequence (Sequence.new seqId prompt maxNew now))
  | step {S S' : Scheduler} {rs : List StepResult} (h : S.step clock = .ok (rs, S')) :
      BackedCall clock S [.step] S'

section Runs

variable {clock : ℕ → ℤ} {config : SchedulerConfig} {pt : PagedKVCacheAllocator}
  {S S' : Scheduler} {ids : List UInt64} {calls out : List CallKind}

theorem fair_init {bs n : UInt64} (hpt : create bs n = some pt)
    (hbatch : 1 ≤ config.maxBatchTokens) (hchunk : 1 ≤ config.maxPrefillChunk) :
    Fair [] { pageTable := pt, config := config } where
  toOrderly := orderly_init
  partitioned := partitioned_create hpt
  owns := ⟨List.forall_mem_nil _, fun i _ => blocksOf_create hpt i⟩
  bounded := List.forall_mem_nil _
  prompts := List.forall_mem_nil _
  rounding := List.forall_mem_nil _
  blocks := Nat.zero_le _
  batch := hbatch
  chunk := hchunk
  front := List.Pairwise.nil
  known := List.forall_mem_nil _

theorem Fair.call (hS : Fair ids S) (h : BackedCall clock S calls S') : Fair ids S' := by
  cases h with
  | arrive seqId prompt maxNew now hid hroom =>
    exact hS.admitSequence (Sequence.queued_new ..) hid hroom
  | step h => exact hS.step h

theorem Done.call (hdone : Done ids S) (hS : Fair ids S) (h : BackedCall clock S calls S') :
    Done ids S' := by
  cases h with
  | arrive seqId prompt maxNew now hid hroom => exact hdone.admitSequence hS hid
  | step h => exact hdone.step hS h

/-- Every call of `step` is paid for by the burden. -/
theorem Fair.call_pays {m : ℕ} (hS : Fair ids S ∧ S.burden ids ≤ m)
    (h : BackedCall clock S calls S') : Fair ids S' ∧ Done ids S' ∨
      ∃ m', (Fair ids S' ∧ S'.burden ids ≤ m') ∧ m' + calls.count .step ≤ m := by
  have hS' := hS.1.call h
  by_cases hdone : Done ids S
  · exact .inl ⟨hS', hdone.call hS.1 h⟩
  · refine .inr ⟨S'.burden ids, ⟨hS', le_rfl⟩, ?_⟩
    cases h with
    | arrive seqId prompt maxNew now hid hroom =>
      rw [burden_admitSequence hS.1 hid]
      exact hS.2
    | step h => exact (burden_step hS.1 hdone h).trans hS.2

/-- The pool keeps its size, and no sequence is lost. -/
theorem Fair.kept (hS : Fair [] S) (h : Trace (BackedCall clock) S out S') :
    Fair [] S' ∧ S'.capacity = S.capacity ∧
      ∀ s ∈ S.sequences, s.identity ∈ S'.sequences.map Sequence.identity := by
  refine h.invariant (P := fun _ T => Fair [] T ∧ T.capacity = S.capacity ∧
    ∀ s ∈ S.sequences, s.identity ∈ T.sequences.map Sequence.identity)
    ⟨hS, rfl, fun s hs => List.mem_map_of_mem hs⟩ ?_
  rintro out T calls T' ⟨hT, hcap, hkept⟩ hcall
  refine ⟨hT.call hcall, ?_, fun s hs => ?_⟩
  · cases hcall with
    | arrive => exact hcap
    | step hstep =>
      have hturns := turns_of_step (fun s hs => (hT.waiting s hs).ne_finished) hstep
      exact hturns.keeps (P := fun U => U.capacity = S.capacity)
        (fun _ _ _ hU ht => ht.capacity.trans hU) hcap
  · have hold := hkept s hs
    cases hcall with
    | arrive =>
      obtain ⟨x, hx, heq⟩ := List.mem_map.1 hold
      rw [← heq]
      exact List.mem_map_of_mem (mem_sequences_admitSequence hx _)
    | step hstep =>
      have hturns := turns_of_step (fun s hs => (hT.waiting s hs).ne_finished) hstep
      exact hturns.keeps (P := fun U => s.identity ∈ U.sequences.map Sequence.identity)
        (fun _ _ _ hU ht => (ht.perm Sequence.fixed_identity).mem_iff.2 hU) hold

/-- A sequence that is known and not unfinished is finished. -/
theorem finished_of_done {s : Sequence} (hS : Orderly S) (hdone : Done ids S) (hid : s.id ∈ ids)
    (hs : s.identity ∈ S.sequences.map Sequence.identity) :
    ∃ s' ∈ S.finished, s'.identity = s.identity ∧ s'.phase = .finished ∧
      s'.generatedTokens.length = s.quota := by
  obtain ⟨s', hs', heq⟩ := List.mem_map.1 hs
  have hid' : s'.id = s.id := congrArg Prod.fst heq
  have hfin : s' ∈ S.finished := by
    rcases mem_sequences.1 hs' with hw | ha | hf
    · exact absurd (hid'.symm ▸ hid) (hdone s' (mem_unfinished.2 (.inr hw)))
    · exact absurd (hid'.symm ▸ hid) (hdone s' (mem_unfinished.2 (.inl ha)))
    · exact hf
  have hret := hS.finished s' hfin
  refine ⟨s', hfin, heq, hret.phase, hret.generated.trans ?_⟩
  rw [Sequence.quota, Sequence.quota, (Sequence.eq_of_identity heq).2]

/-- **No sequence starves.** In every run in which a sequence is admitted only if the pool holds
all that it and the unfinished sequences may come to own: whatever is admitted behind it, a
sequence is finished, with all its tokens generated, after as many steps as there are tokens left
of it and of the sequences in front of it, times one more than the tokens the pool holds. -/
theorem finished_within {bs n : UInt64} (hpt : create bs n = some pt)
    (hbatch : 1 ≤ config.maxBatchTokens) (hchunk : 1 ≤ config.maxPrefillChunk)
    (hreach : Trace (BackedCall clock) { pageTable := pt, config := config } calls S)
    {before behind : List Sequence} {s : Sequence} (hs : S.unfinished = before ++ s :: behind)
    (hrun : Trace (BackedCall clock) S out S')
    (hlong : ((before ++ [s]).map Sequence.remaining).sum * (n.toNat * bs.toNat + 1) ≤
      out.count .step) :
    ∃ s' ∈ S'.finished, s'.identity = s.identity ∧ s'.phase = .finished ∧
      s'.generatedTokens.length = s.quota := by
  obtain ⟨hS, hcap, -⟩ := (fair_init hpt hbatch hchunk).kept hreach
  have hcap' : S.capacity = n.toNat * bs.toNat := by
    rw [hcap, capacity, (sizes_create hpt).1, (sizes_create hpt).2.1]
  have hsplit : S.unfinished = (before ++ [s]) ++ behind := by
    rw [hs, List.append_assoc]
    rfl
  have hfair := hS.of_split hsplit
  have hwork := workOf_of_split hS.toOrderly hsplit
  obtain ⟨hS', hcapS', hkept⟩ := hS.kept hrun
  have hdone : Done ((before ++ [s]).map Sequence.id) S' := by
    rcases hrun.countdown (a := .step)
      (P := fun m T => Fair ((before ++ [s]).map Sequence.id) T ∧
        T.burden ((before ++ [s]).map Sequence.id) ≤ m)
      (Q := fun T => Fair ((before ++ [s]).map Sequence.id) T ∧
        Done ((before ++ [s]).map Sequence.id) T)
      (fun m T calls T' hT hcall => Fair.call_pays hT hcall)
      (fun T calls T' hT hcall => ⟨hT.1.call hcall, hT.2.call hT.1 hcall⟩)
      ⟨hfair, le_rfl⟩ with ⟨-, hdone⟩ | ⟨m, ⟨hfair', hm⟩, hle⟩
    · exact hdone
    · by_contra hleft
      -- the burden that is left is more than the pool, which the decodes do not make up for
      have hlt := hfair'.lt_burden hleft
      have hdec := hS.decodeWork_le
      rw [hcapS'] at hlt
      rw [burden, hwork, hcap'] at hle
      rw [hcap'] at hlt hdec
      omega
  refine finished_of_done hS'.toOrderly hdone ?_ (hkept s ?_)
  · exact List.mem_map_of_mem (by simp)
  · exact mem_sequences_of_unfinished (by rw [hs]; simp)

/-- A step can always be taken. -/
theorem Fair.steps (clock : ℕ → ℤ) (hS : Fair ids S) (k : ℕ) :
    ∃ S', Trace (BackedCall clock) S (List.replicate k .step) S' := by
  induction k with
  | zero => exact ⟨S, .nil⟩
  | succ k ih =>
    obtain ⟨S', h⟩ := ih
    have hS' : Fair ids S' := h.invariant (P := fun _ => Fair ids) hS fun _ _ _ _ hT => hT.call
    obtain ⟨rs, S'', hok, -⟩ := step_turns clock fun s hs => (hS'.waiting s hs).ne_finished
    refine ⟨S'', ?_⟩
    rw [List.replicate_succ']
    exact h.snoc (.step hok)

end Runs

section Examples

/-- One prompt of one token waits, and another one comes behind it: the first is finished after ten
steps. -/
theorem finished_within_ten : ∃ S S',
    Trace (BackedCall fun _ => 0) S (.arrive :: List.replicate 10 .step) S' ∧
    S.unfinished = [Sequence.new 1 [7] 1 0] ∧
    ∃ s' ∈ S'.finished, s'.identity = (Sequence.new 1 [7] 1 0).identity ∧
      s'.phase = .finished ∧ s'.generatedTokens.length = 1 := by
  have hpt : create 1 4 = some ((create 1 4).get isSome_create_four) := rfl
  let S₀ : Scheduler := { pageTable := (create 1 4).get isSome_create_four, config := {} }
  have h₁ : Trace (BackedCall fun _ => 0) S₀ [.arrive] _ :=
    .single (.arrive 1 [7] 1 0 (by decide) ⟨by decide, by decide, by decide⟩)
  have h₂ : Trace (BackedCall fun _ => 0) (S₀.admitSequence (Sequence.new 1 [7] 1 0))
      [.arrive] _ := .single (.arrive 2 [8] 1 0 (by decide) ⟨by decide, by decide, by decide⟩)
  have hfair := (((fair_init hpt (by decide) (by decide)).kept h₁).1.kept h₂).1
  obtain ⟨S', h₃⟩ := hfair.steps (fun _ => 0) 10
  have hsplit : (S₀.admitSequence (Sequence.new 1 [7] 1 0)).unfinished =
      [] ++ Sequence.new 1 [7] 1 0 :: [] := rfl
  exact ⟨_, S', h₂.append h₃, rfl,
    finished_within hpt (by decide) (by decide) h₁ hsplit (h₂.append h₃) (by decide)⟩

end Examples

end Scheduler

end AetherMoE
