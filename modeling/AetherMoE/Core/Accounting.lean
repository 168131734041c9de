import AetherMoE.Core.Orderly

/-!
# Exact accounting of the KV-cache blocks

* `Accounted`: every active sequence owns exactly the blocks its tokens fill, nothing else owns
  any, and the physical blocks are partitioned; **`Accounted.turn`**: kept by every turn of
  sequences whose token counts stay in the range where `blocksNeededFor` does not wrap;
* **`exactAccounting_of_reachable`**: the accounting in every reachable state.
-/

namespace AetherMoE

open Relation PagedKVCacheAllocator

namespace Sequence

/-- The tokens that occupy slots of the cache. -/
def tokens (s : Sequence) : ℕ := s.prefillCursor + s.generatedTokens.length

/-- The largest number of tokens `s` holds between calls can be rounded up to blocks of
`blockSize` in 64 bits. -/
def Bounded (blockSize : ℕ) (s : Sequence) : Prop :=
  s.promptTokens.length + (s.quota - 1) + blockSize ≤ 2 ^ 64

theorem tokens_prefilled (s : Sequence) (c : ℕ) (hg : s.generatedTokens = []) :
    (s.prefilled c).tokens = s.prefillCursor + c := by
  unfold prefilled
  split_ifs
  · simp [tokens, readied, advanced, hg]
  · simp [tokens, advanced, hg]

end Sequence

namespace Scheduler

/-! ## The blocks -/

/-- The sequences `xs` own exactly the blocks their tokens fill, and nobody else owns any. -/
structure Owns (pt : PagedKVCacheAllocator) (xs : List Sequence) : Prop where
  exact : ∀ s ∈ xs, (pt.blocksOf s.id).length = s.tokens ⌈/⌉ pt.blockSize
  others : ∀ i, i ∉ xs.map Sequence.id → pt.blocksOf i = []

theorem Owns.refused {pt : PagedKVCacheAllocator} {xs : List Sequence} (h : Owns pt xs)
    {i : UInt64} {t : ℕ} (hfit : ¬ pt.Fits i t) : Owns (pt.ensureCapacity i t).2 xs := by
  refine ⟨fun s hs => ?_, fun j hj => ?_⟩
  · rw [blocksOf_refused hfit, blockSize_ensureCapacity]
    exact h.exact s hs
  · rw [blocksOf_refused hfit]
    exact h.others j hj

/-- A granted request of `s`, whose tokens then fill the blocks asked for; `xs'` is `xs` with `s`
put in or put in place of its earlier state. -/
theorem Owns.granted {pt : PagedKVCacheAllocator} {xs xs' : List Sequence} (h : Owns pt xs)
    {s : Sequence} (hfit : pt.Fits s.id s.tokens) (hbound : s.tokens + pt.blockSize ≤ 2 ^ 64)
    (hle : (pt.blocksOf s.id).length ≤ s.tokens ⌈/⌉ pt.blockSize)
    (hmem : ∀ x ∈ xs', x = s ∨ x ∈ xs ∧ x.id ≠ s.id)
    (hids : ∀ i, i ∉ xs'.map Sequence.id → i ∉ xs.map Sequence.id ∧ i ≠ s.id) :
    Owns (pt.ensureCapacity s.id s.tokens).2 xs' := by
  refine ⟨fun x hx => ?_, fun i hi => ?_⟩
  · rw [blockSize_ensureCapacity]
    obtain rfl | ⟨hx', hne⟩ := hmem x hx
    · rw [← blocksNeededFor_eq hbound] at hle ⊢
      exact length_blocksOf_ensureCapacity hfit hle
    · rw [blocksOf_ensureCapacity_ne hne]
      exact h.exact x hx'
  · obtain ⟨hi', hne⟩ := hids i hi
    rw [blocksOf_ensureCapacity_ne hne]
    exact h.others i hi'

/-- The exact state of the memory between calls. -/
structure Accounted (S : Scheduler) : Prop extends Orderly S where
  partitioned : S.pageTable.Partitioned
  owns : Owns S.pageTable S.active
  bounded : ∀ s ∈ S.waiting ++ S.active, s.Bounded S.pageTable.blockSize

section Turns

variable {clock : ℕ → ℤ} {S S' : Scheduler} {rs : List StepResult}

/-- An active sequence replaced by a later state of itself with no fewer tokens. -/
theorem Accounted.owns_replace (hS : Accounted S) {l r : List Sequence} {s s' : Sequence} {t : ℕ}
    (ha : S.active = l ++ s :: r) (hid : s'.id = s.id) (ht : s'.tokens = t) (hle : s.tokens ≤ t)
    (hfit : S.pageTable.Fits s.id t) (hbound : t + S.pageTable.blockSize ≤ 2 ^ 64) :
    Owns (S.pageTable.ensureCapacity s.id t).2 (l ++ s' :: r) := by
  subst ht
  rw [← hid] at hfit ⊢
  refine hS.owns.granted hfit hbound ?_ ?_ ?_
  · rw [hid, hS.owns.exact s (by simp [ha])]
    exact (gc_mul_ceilDiv S.pageTable.blockSize_pos).monotone_l hle
  · intro x hx
    rw [List.mem_append, List.mem_cons, or_left_comm, ← List.mem_append] at hx
    refine hx.imp_right fun hx => ⟨?_, ?_⟩
    · rw [ha, List.mem_append, List.mem_cons, or_left_comm, ← List.mem_append]
      exact Or.inr hx
    · rw [hid]
      exact hS.ne_of_split ha x hx
  · intro i hi
    rw [List.map_append, List.map_cons, hid] at hi
    refine ⟨by rwa [ha, List.map_append, List.map_cons], fun h => hi ?_⟩
    rw [h, hid]
    simp

/-- A sequence that leaves gives all its blocks back. -/
theorem Accounted.owns_retire (hS : Accounted S) {l r : List Sequence} {s : Sequence}
    (ha : S.active = l ++ s :: r) (t : ℕ) :
    Owns ((S.pageTable.ensureCapacity s.id t).2.freeSequence s.id) (l ++ r) := by
  constructor
  · intro x hx
    have hx' : x ∈ S.active := by
      rw [ha]
      exact (List.Sublist.append_left (List.sublist_cons_self s r) l).subset hx
    rw [blocksOf_freeSequence, if_neg (hS.ne_of_split ha x hx), blockSize_freeSequence,
      blockSize_ensureCapacity, blocksOf_ensureCapacity_ne (hS.ne_of_split ha x hx)]
    exact hS.owns.exact x hx'
  · intro i hi
    rw [blocksOf_freeSequence]
    split_ifs with his
    · rfl
    · rw [blocksOf_ensureCapacity_ne his]
      refine hS.owns.others i ?_
      simp only [List.map_append, List.mem_append] at hi
      simp only [ha, List.map_append, List.map_cons, List.mem_append, List.mem_cons]
      tauto

/-- The front of the waiting queue, which owns nothing, gets the blocks of its first chunk. -/
theorem Accounted.owns_start (hS : Accounted S) {w : List Sequence} {s : Sequence}
    (hw : S.waiting = s :: w) {b : ℕ}
    (hfit : S.pageTable.Fits s.id (s.prefillCursor + s.chunk S.config b)) :
    Owns (S.pageTable.ensureCapacity s.id (s.prefillCursor + s.chunk S.config b)).2
      (S.active ++ [s.prefilled (s.chunk S.config b)]) := by
  have hwait := hS.waiting s (by simp [hw])
  have hnot := hS.notMem_active (s := s) (by simp [hw])
  have hb : s.promptTokens.length + (max 1 s.maxNewTokens.toNat - 1) +
      S.pageTable.blockSize ≤ 2 ^ 64 := hS.bounded s (by simp [hw])
  have hle := s.chunk_le S.config b
  have hcur := hwait.cursor
  have ht := s.tokens_prefilled (s.chunk S.config b) hwait.generated
  rw [← ht, ← s.id_prefilled (s.chunk S.config b)] at hfit ⊢
  refine hS.owns.granted hfit (by omega) ?_ ?_ ?_
  · rw [s.id_prefilled, hS.owns.others _ hnot]
    exact Nat.zero_le _
  · intro x hx
    rw [List.mem_append, List.mem_singleton] at hx
    refine hx.symm.imp_right fun hx => ⟨hx, fun h => hnot ?_⟩
    rw [← s.id_prefilled, ← h]
    exact List.mem_map_of_mem hx
  · intro i hi
    rw [List.map_append, List.map_singleton, List.mem_append, List.mem_singleton] at hi
    exact not_or.1 hi

/-- The bound is about fields no turn writes. -/
theorem Accounted.bounded_replace (hS : Accounted S) {l r : List Sequence} {s s' : Sequence}
    (ha : S.active = l ++ s :: r) (hprompt : s'.promptTokens = s.promptTokens)
    (hmax : s'.maxNewTokens = s.maxNewTokens) :
    ∀ x ∈ S.waiting ++ (l ++ s' :: r), x.Bounded S.pageTable.blockSize := by
  have hb := hS.bounded
  simp only [ha, List.forall_mem_append, List.forall_mem_cons] at hb ⊢
  refine ⟨hb.1, hb.2.1, ?_, hb.2.2.2⟩
  unfold Sequence.Bounded Sequence.quota
  rw [hprompt, hmax]
  exact hb.2.2.1

/-- **Every turn keeps the accounting exact.** -/
theorem Accounted.turn (hS : Accounted S) (h : Turn clock S rs S') : Accounted S' := by
  have hord := hS.toOrderly.turn h
  cases h with
  | @refuse s hs t hfit =>
    refine { hord with
      partitioned := hS.partitioned.ensureCapacity _ _
      owns := hS.owns.refused hfit
      bounded := ?_ }
    intro x hx
    rw [blockSize_ensureCapacity]
    exact hS.bounded x hx
  | @decode l r s ha hphase hfit hmore =>
    obtain ⟨hcur, hgen⟩ := (hS.active s (by simp [ha])).decoding hphase
    have hb : s.promptTokens.length + (max 1 s.maxNewTokens.toNat - 1) +
        S.pageTable.blockSize ≤ 2 ^ 64 := hS.bounded s (by simp [ha])
    have ht : (s.decoded (clock S.ticks)).tokens = s.totalTokens + 1 := by
      simp [Sequence.tokens, Sequence.decoded, Sequence.totalTokens, hcur, Nat.add_assoc]
    unfold Sequence.LastDecode at hmore
    refine { hord with
      partitioned := hS.partitioned.ensureCapacity _ _
      owns := hS.owns_replace ha rfl ht ?_ hfit ?_
      bounded := ?_ }
    · unfold Sequence.tokens Sequence.totalTokens
      omega
    · unfold Sequence.totalTokens
      omega
    · rw [blockSize_ensureCapacity]
      exact hS.bounded_replace ha rfl rfl
  | @retire l r s ha hphase hfit hlast =>
    refine { hord with
      partitioned := (hS.partitioned.ensureCapacity _ _).freeSequence _
      owns := hS.owns_retire ha _
      bounded := ?_ }
    rw [blockSize_freeSequence, blockSize_ensureCapacity]
    have hb := hS.bounded
    simp only [ha, List.forall_mem_append, List.forall_mem_cons] at hb ⊢
    exact ⟨hb.1, hb.2.1, hb.2.2.2⟩
  | @prefill l r s ha hphase hc b hchunk hfit =>
    obtain ⟨hcur, hg⟩ := (hS.active s (by simp [ha])).prefilling hphase
    have hb : s.promptTokens.length + (max 1 s.maxNewTokens.toNat - 1) +
        S.pageTable.blockSize ≤ 2 ^ 64 := hS.bounded s (by simp [ha])
    have hle := s.chunk_le S.config b
    refine { hord with
      partitioned := hS.partitioned.ensureCapacity _ _
      owns := hS.owns_replace ha (s.id_prefilled _) (s.tokens_prefilled _ hg) ?_ hfit ?_
      bounded := ?_ }
    · unfold Sequence.tokens
      rw [hg]
      exact Nat.le_add_right _ _
    · omega
    · rw [blockSize_ensureCapacity]
      exact hS.bounded_replace ha (s.promptTokens_prefilled _) (s.maxNewTokens_prefilled _)
  | @ready l r s ha hphase hc =>
    have hact := hS.active s (by simp [ha])
    exact absurd hc (not_le.2 (hact.prefilling hphase).1)
  | @start w s hw hc b hchunk hfit =>
    refine { hord with
      partitioned := hS.partitioned.ensureCapacity _ _
      owns := hS.owns_start hw hfit
      bounded := ?_ }
    rw [blockSize_ensureCapacity]
    have hb := hS.bounded
    simp only [hw, List.forall_mem_append, List.forall_mem_cons] at hb ⊢
    refine ⟨hb.1.2, hb.2, ?_, List.forall_mem_nil _⟩
    unfold Sequence.Bounded Sequence.quota
    rw [s.promptTokens_prefilled, s.maxNewTokens_prefilled]
    exact hb.1.1
  | @readyFront w s hw hc =>
    refine { hord with partitioned := hS.partitioned, owns := hS.owns, bounded := ?_ }
    have hb := hS.bounded
    simp only [hw, List.forall_mem_append, List.forall_mem_cons] at hb ⊢
    exact ⟨⟨hb.1.1, hb.1.2⟩, hb.2⟩

end Turns

/-! ## Runs -/

section Runs

variable {clock : ℕ → ℤ} {Fresh : Sequence → Prop} {config : SchedulerConfig}
  {pt : PagedKVCacheAllocator} {S S' : Scheduler}

/-- The accounting of a run over an allocator of `bs`-token blocks. -/
structure AccountedRun (bs n : ℕ) (S : Scheduler) : Prop extends Accounted S where
  blockSize : S.pageTable.blockSize = bs
  numBlocks : S.pageTable.numBlocks = n

theorem AccountedRun.of_reachable {bs n : UInt64} (hpt : create bs n = some pt)
    (h : Reachable clock (Sequence.Bounded bs.toNat) config pt S) :
    AccountedRun bs.toNat n.toNat S := by
  obtain ⟨hbs, hn, htab⟩ := sizes_create hpt
  refine h.induction (fun _ hS => hS.toOrderly) ?_ ?_ ?_
  · refine { orderly_init with
      partitioned := partitioned_create hpt
      owns := ⟨List.forall_mem_nil _, fun i _ => ?_⟩
      bounded := List.forall_mem_nil _
      blockSize := hbs
      numBlocks := hn }
    simp [blocksOf, htab]
  · intro S s hS hs hfresh hid
    refine { hS.toOrderly.arrive hs hid with
      partitioned := hS.partitioned
      owns := hS.owns
      bounded := ?_
      blockSize := hS.blockSize
      numBlocks := hS.numBlocks }
    have hb := hS.bounded
    have hs' : s.Bounded S.pageTable.blockSize := by rwa [hS.blockSize]
    simp only [admitSequence, List.forall_mem_append, List.forall_mem_singleton] at hb ⊢
    exact ⟨⟨hb.1, hs'⟩, hb.2⟩
  · intro S rs S' hS ht
    refine { hS.toAccounted.turn ht with
      blockSize := ht.sizes.1.trans hS.blockSize
      numBlocks := ht.sizes.2.1.trans hS.numBlocks }

/-- **Exact accounting** of `n` blocks of `bs` tokens: the active sequences own what their tokens
fill, waiting and finished ones own nothing, no block has two owners, the free list and the owned
blocks are all the blocks, and less than a block is wasted per active sequence. -/
structure ExactAccounting (bs n : ℕ) (S : Scheduler) : Prop where
  active : ∀ s ∈ S.active, (S.pageTable.blocksOf s.id).length =
    (s.prefillCursor + s.generatedTokens.length) ⌈/⌉ bs
  waiting : ∀ s ∈ S.waiting, S.pageTable.blocksOf s.id = []
  finished : ∀ s ∈ S.sequences, s.phase = .finished → S.pageTable.blocksOf s.id = []
  unshared : ∀ i j b, b ∈ S.pageTable.blocksOf i → b ∈ S.pageTable.blocksOf j → i = j
  blocks : (S.pageTable.freeBlocks ++ held S.pageTable.tables).Perm ((List.range n).map Nat.cast)
  tight : ∀ s ∈ S.active, (S.pageTable.blocksOf s.id).length * bs ≤
    s.prefillCursor + s.generatedTokens.length + (bs - 1)

/-- **Exact accounting in every reachable state**, over every interleaving of `admit` and `step`,
as long as rounding up the token counts of the admitted sequences stays in 64 bits. -/
theorem exactAccounting_of_reachable (bs n : UInt64) (hn : n.toNat ≤ 2 ^ 31)
    (hpt : create bs n = some pt)
    (h : Reachable clock (Sequence.Bounded bs.toNat) config pt S) :
    ExactAccounting bs.toNat n.toNat S := by
  have hS := AccountedRun.of_reachable hpt h
  have hpos := S.pageTable.blockSize_pos
  have hn' : S.pageTable.numBlocks ≤ 2 ^ 31 := by rwa [hS.numBlocks]
  have hactive : ∀ s ∈ S.active, (S.pageTable.blocksOf s.id).length =
      (s.prefillCursor + s.generatedTokens.length) ⌈/⌉ bs.toNat := by
    intro s hs
    rw [hS.owns.exact s hs, hS.blockSize]
    rfl
  refine ⟨hactive, ?_, ?_, ?_, ?_, ?_⟩
  · intro s hs
    exact hS.owns.others _ (hS.notMem_active hs)
  · intro s hs hp
    refine hS.owns.others _ fun hmem => ?_
    obtain ⟨x, hx, hxid⟩ := List.mem_map.1 hmem
    -- two sequences with one id are one sequence, and an active one is not finished
    have hxs : x = s := List.inj_on_of_nodup_map hS.nodup
      (List.mem_append_left _ (List.mem_append_right _ hx)) hs hxid
    rw [← hxs] at hp
    obtain ⟨h1, -⟩ | ⟨h1, -⟩ := hS.active x hx <;> rw [h1] at hp <;> cases hp
  · intro i j b hi hj
    exact hS.partitioned.unshared hn' hi hj
  · rw [← blockIds_eq hn, ← hS.numBlocks]
    exact hS.partitioned
  · intro s hs
    rw [hactive s hs, Nat.ceilDiv_eq_add_pred_div]
    rw [hS.blockSize] at hpos
    have := Nat.div_mul_le_self (s.prefillCursor + s.generatedTokens.length + bs.toNat - 1) bs.toNat
    omega

end Runs

section Examples

/-- The scheduler after admitting a prompt of two tokens and one step. -/
def twoTokens (pt : PagedKVCacheAllocator) : Scheduler :=
  (({ pageTable := pt, config := {} } : Scheduler).admitSequence
    (Sequence.new 1 [7, 8] 1 0)).advance fun _ => 0

theorem reachable_twoTokens {Fresh : Sequence → Prop} (pt : PagedKVCacheAllocator)
    (hfresh : Fresh (Sequence.new 1 [7, 8] 1 0)) :
    Reachable (fun _ => 0) Fresh {} pt (twoTokens pt) :=
  Reachable.advance (ReflTransGen.single (Next.arrive 1 [7, 8] 1 0 hfresh (by simp [sequences])))

/-- Two tokens of prompt in blocks of 16. -/
theorem exactAccounting_of_reachable_sixteen : ∃ pt, create 16 4 = some pt ∧
    Reachable (fun _ => 0) (Sequence.Bounded 16) {} pt (twoTokens pt) ∧
    ExactAccounting 16 4 (twoTokens pt) := by
  have hb : (Sequence.new 1 [7, 8] 1 0).Bounded 16 := by unfold Sequence.Bounded; decide
  refine ⟨_, rfl, reachable_twoTokens _ hb, ?_⟩
  exact exactAccounting_of_reachable 16 4 (by decide) rfl (reachable_twoTokens _ hb)

/-- With blocks of `2 ^ 64 - 1` tokens the rounding wraps: a sequence with two tokens in the cache
owns no block. -/
theorem not_exactAccounting_wrapped : ∃ pt, create 0xFFFFFFFFFFFFFFFF 1 = some pt ∧
    Reachable (fun _ => 0) (fun _ => True) {} pt (twoTokens pt) ∧
    ¬ ExactAccounting (2 ^ 64 - 1) 1 (twoTokens pt) := by
  refine ⟨_, rfl, reachable_twoTokens _ trivial, fun h => ?_⟩
  have hs : { Sequence.new 1 [7, 8] 1 0 with phase := .decode, prefillCursor := 2 } ∈
      (twoTokens ((create 0xFFFFFFFFFFFFFFFF 1).get rfl)).active := by decide
  have := h.active _ hs
  revert this
  decide

end Examples

end Scheduler

end AetherMoE
