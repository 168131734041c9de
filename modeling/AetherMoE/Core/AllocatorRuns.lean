import AetherMoE.Core.PageTable
import Mathlib.Data.UInt
import Mathlib.Tactic.NormNum

/-!
# Runs of the allocator

The allocator under any sequence of calls; threads that share it take its mutex in some order, and
that order is the sequence.

* `Call`, `run`: the calls that change the allocator;
* `KeepsApart`: what one allocator state promises about its blocks and about the next call;
  **`allocator_partitioned`**: every state of every run keeps it;
* `RealCapacity`: a grant is a decision about the integers; **`realCapacity_iff`**;
* `RefusalInert`: a refused call changes nothing; **`refusalInert_iff`**,
  `internalFragmentationRatio_refused`: what it changes.
-/

namespace AetherMoE.PagedKVCacheAllocator

/-- A call that may change the allocator. -/
inductive Call
  | ensureCapacity (seqId : UInt64) (tokenCount : UInt64)
  | freeSequence (seqId : UInt64)
  deriving Repr, DecidableEq

/-- The allocator after a call. -/
def Call.apply (pt : PagedKVCacheAllocator) : Call → PagedKVCacheAllocator
  | ensureCapacity seqId tokenCount => (pt.ensureCapacity seqId tokenCount.toNat).2
  | freeSequence seqId => pt.freeSequence seqId

/-- The allocator after a sequence of calls. -/
def run (pt : PagedKVCacheAllocator) (calls : List Call) : PagedKVCacheAllocator :=
  calls.foldl Call.apply pt

variable {pt : PagedKVCacheAllocator}

/-- What every call keeps holds after every run. -/
theorem run_invariant {P : PagedKVCacheAllocator → Prop} (h₀ : P pt)
    (hens : ∀ pt seqId tokenCount, P pt → P (pt.ensureCapacity seqId tokenCount).2)
    (hfree : ∀ pt seqId, P pt → P (pt.freeSequence seqId)) (calls : List Call) :
    P (pt.run calls) := by
  induction calls generalizing pt with
  | nil => exact h₀
  | cons c calls ih =>
    apply ih
    cases c with
    | ensureCapacity seqId tokenCount => exact hens pt seqId tokenCount.toNat h₀
    | freeSequence seqId => exact hfree pt seqId h₀

@[simp] theorem numBlocks_run (calls : List Call) : (pt.run calls).numBlocks = pt.numBlocks := by
  refine run_invariant (P := fun s => s.numBlocks = pt.numBlocks) rfl ?_ ?_ calls
  · intro s seqId tokenCount h
    rw [numBlocks_ensureCapacity, h]
  · intro s seqId h
    rw [numBlocks_freeSequence, h]

theorem partitioned_run (h : pt.Partitioned) (calls : List Call) : (pt.run calls).Partitioned :=
  run_invariant h (fun _ seqId tokenCount h => h.ensureCapacity seqId tokenCount)
    (fun _ seqId h => h.freeSequence seqId) calls

/-! ## The blocks stay apart -/

/-- The free list and the lists of all sequences hold every id below `n` once; a call of
`ensure_capacity` only appends to the list of its sequence, and one of `free_sequence` only empties
it. -/
structure KeepsApart (n : ℕ) (pt : PagedKVCacheAllocator) : Prop where
  once : (pt.freeBlocks ++ held pt.tables).Perm ((List.range n).map Nat.cast)
  appends : ∀ seqId tokenCount, ∃ new,
    (pt.ensureCapacity seqId tokenCount).2.blocksOf seqId = pt.blocksOf seqId ++ new
  growsAlone : ∀ seqId tokenCount, ∀ i ≠ seqId,
    (pt.ensureCapacity seqId tokenCount).2.blocksOf i = pt.blocksOf i
  empties : ∀ seqId, (pt.freeSequence seqId).blocksOf seqId = []
  freesAlone : ∀ seqId, ∀ i ≠ seqId, (pt.freeSequence seqId).blocksOf i = pt.blocksOf i

theorem exists_blocksOf_ensureCapacity (pt : PagedKVCacheAllocator) (seqId : UInt64)
    (tokenCount : ℕ) : ∃ new,
      (pt.ensureCapacity seqId tokenCount).2.blocksOf seqId = pt.blocksOf seqId ++ new := by
  by_cases h : pt.Fits seqId tokenCount
  · exact ⟨_, blocksOf_ensureCapacity h⟩
  · exact ⟨[], by rw [blocksOf_refused h, List.append_nil]⟩

theorem Partitioned.keepsApart (hp : pt.Partitioned) (hn : pt.numBlocks ≤ 2 ^ 31) :
    KeepsApart pt.numBlocks pt where
  once := by
    rw [← blockIds_eq hn]
    exact hp
  appends := exists_blocksOf_ensureCapacity pt
  growsAlone _ _ _ hi := blocksOf_ensureCapacity_ne hi
  empties seqId := by rw [blocksOf_freeSequence, if_pos rfl]
  freesAlone seqId i hi := by rw [blocksOf_freeSequence, if_neg hi]

/-- **The blocks stay apart in every run**: for every block size, every pool of up to `2 ^ 31`
blocks and every sequence of calls. -/
theorem allocator_partitioned {blockSizeTokens numPhysicalBlocks : UInt64}
    (hbs : blockSizeTokens ≠ 0) (hpos : numPhysicalBlocks ≠ 0)
    (hn : numPhysicalBlocks.toNat ≤ 2 ^ 31) :
    ∃ pt, create blockSizeTokens numPhysicalBlocks = some pt ∧
      ∀ calls, KeepsApart numPhysicalBlocks.toNat (pt.run calls) := by
  obtain ⟨pt, hpt⟩ : ∃ pt, create blockSizeTokens numPhysicalBlocks = some pt :=
    ⟨_, dif_neg (not_or.2 ⟨hbs, hpos⟩)⟩
  refine ⟨pt, hpt, fun calls => ?_⟩
  have hnum : (pt.run calls).numBlocks = numPhysicalBlocks.toNat := by
    rw [numBlocks_run, (sizes_create hpt).2.1]
  rw [← hnum]
  refine (partitioned_run (partitioned_create hpt) calls).keepsApart ?_
  rw [hnum]
  exact hn

/-- Four blocks of 16 tokens. -/
theorem allocator_partitioned_four : ∃ pt, create 16 4 = some pt ∧
    ∀ calls, KeepsApart (4 : UInt64).toNat (pt.run calls) :=
  allocator_partitioned (by decide) (by decide) (by decide)

/-! ## What a grant means -/

/-- The call grants exactly the requests whose blocks, counted over the integers, are owned or
free, and the sequence owns them afterwards. -/
structure RealCapacity (pt : PagedKVCacheAllocator) (seqId : UInt64) (tokenCount : ℕ) : Prop where
  granted_iff : (pt.ensureCapacity seqId tokenCount).1 = true ↔
    tokenCount ⌈/⌉ pt.blockSize ≤ (pt.blocksOf seqId).length + pt.freeBlockCount
  owned : (pt.ensureCapacity seqId tokenCount).1 = true → tokenCount ⌈/⌉ pt.blockSize ≤
    ((pt.ensureCapacity seqId tokenCount).2.blocksOf seqId).length

/-- A granted sequence owns what the request was rounded to. -/
theorem blocksNeededFor_le_owned {seqId : UInt64} {tokenCount : ℕ}
    (h : pt.Fits seqId tokenCount) : pt.blocksNeededFor tokenCount ≤
      ((pt.ensureCapacity seqId tokenCount).2.blocksOf seqId).length := by
  rw [blocksOf_ensureCapacity h, List.length_append, List.length_take]
  unfold Fits at h
  unfold extra
  omega

/-- A sum that wraps rounds to no block at all. -/
theorem blocksNeededFor_eq_zero {tokenCount : ℕ} (ht : tokenCount < 2 ^ 64)
    (h : 2 ^ 64 < tokenCount + pt.blockSize) : pt.blocksNeededFor tokenCount = 0 := by
  have hbs := pt.blockSize_lt
  have hsum : (tokenCount + pt.blockSize - 1) % 2 ^ 64 =
      tokenCount + pt.blockSize - 1 - 2 ^ 64 := by
    rw [Nat.mod_eq_sub_mod (by omega), Nat.mod_eq_of_lt (by omega)]
  rw [blocksNeededFor, hsum]
  exact Nat.div_eq_of_lt (by omega)

/-- So the request is granted, and nothing is allocated. -/
theorem ensureCapacity_of_wraps (seqId : UInt64) {tokenCount : ℕ} (ht : tokenCount < 2 ^ 64)
    (h : 2 ^ 64 < tokenCount + pt.blockSize) :
    (pt.ensureCapacity seqId tokenCount).1 = true ∧
      (pt.ensureCapacity seqId tokenCount).2.blocksOf seqId = pt.blocksOf seqId := by
  have hzero : pt.blocksNeededFor tokenCount = 0 := blocksNeededFor_eq_zero ht h
  have hfits : pt.Fits seqId tokenCount := by
    rw [Fits, hzero]
    exact Nat.zero_le _
  refine ⟨ensureCapacity_fst.2 hfits, ?_⟩
  rw [blocksOf_ensureCapacity hfits, extra, hzero, Nat.zero_sub, List.take_zero, List.append_nil]

theorem realCapacity_of_le {seqId : UInt64} {tokenCount : ℕ}
    (h : tokenCount + pt.blockSize ≤ 2 ^ 64) : pt.RealCapacity seqId tokenCount := by
  have hneeded : pt.blocksNeededFor tokenCount = tokenCount ⌈/⌉ pt.blockSize := blocksNeededFor_eq h
  constructor
  · rw [ensureCapacity_fst, Fits, hneeded, freeBlockCount]
  · intro hgrant
    rw [← hneeded]
    exact blocksNeededFor_le_owned (ensureCapacity_fst.1 hgrant)

/-- A request that wraps is granted, whatever the sequence owns. -/
theorem not_realCapacity {seqId : UInt64} {tokenCount : ℕ} (ht : tokenCount < 2 ^ 64)
    (hwrap : 2 ^ 64 < tokenCount + pt.blockSize)
    (hfew : (pt.blocksOf seqId).length < tokenCount ⌈/⌉ pt.blockSize) :
    ¬ pt.RealCapacity seqId tokenCount := by
  intro h
  obtain ⟨hgrant, hsame⟩ := ensureCapacity_of_wraps seqId ht hwrap
  have howned := h.owned hgrant
  rw [hsame] at howned
  exact absurd hfew (not_lt.2 howned)

/-- **A grant is real exactly if the rounding does not wrap**, or the sequence owns enough already:
for every allocator state, every sequence and every token count. -/
theorem realCapacity_iff (pt : PagedKVCacheAllocator) (seqId tokenCount : UInt64) :
    pt.RealCapacity seqId tokenCount.toNat ↔
      tokenCount.toNat + pt.blockSize ≤ 2 ^ 64 ∨
      tokenCount.toNat ⌈/⌉ pt.blockSize ≤ (pt.blocksOf seqId).length := by
  by_cases hwrap : tokenCount.toNat + pt.blockSize ≤ 2 ^ 64
  · exact iff_of_true (realCapacity_of_le hwrap) (.inl hwrap)
  · rw [or_iff_right hwrap]
    constructor
    · intro h
      by_contra hfew
      exact not_realCapacity tokenCount.toNat_lt (not_le.1 hwrap) (not_le.1 hfew) h
    · intro h
      have ⟨hgrant, hsame⟩ := ensureCapacity_of_wraps seqId tokenCount.toNat_lt (not_le.1 hwrap)
      refine ⟨iff_of_true hgrant (h.trans (Nat.le_add_right _ _)), fun _ => ?_⟩
      rwa [hsame]

/-- **A request for `2 ^ 64 - 1` tokens of 16 to a block**, in a pool of one block: it is granted,
and the sequence owns nothing. -/
theorem not_realCapacity_huge : ∃ pt, create 16 1 = some pt ∧ ¬ pt.RealCapacity 7 (2 ^ 64 - 1) := by
  refine ⟨_, rfl, not_realCapacity (by omega) ?_ ?_⟩
  · change 2 ^ 64 < 2 ^ 64 - 1 + 16
    omega
  · change 0 < (2 ^ 64 - 1) ⌈/⌉ 16
    rw [Nat.ceilDiv_eq_add_pred_div]
    omega

/-! ## What a refusal changes -/

/-- A refused call leaves the allocator, and everything that can be read from it, as it was. -/
def RefusalInert (pt : PagedKVCacheAllocator) (seqId : UInt64) (tokenCount : ℕ) : Prop :=
  (pt.ensureCapacity seqId tokenCount).1 = false →
    (pt.ensureCapacity seqId tokenCount).2 = pt ∧
    (pt.ensureCapacity seqId tokenCount).2.freeBlockCount = pt.freeBlockCount ∧
    (∀ i, (pt.ensureCapacity seqId tokenCount).2.blocksOf i = pt.blocksOf i) ∧
    ∀ usage, (pt.ensureCapacity seqId tokenCount).2.internalFragmentationRatio usage =
      pt.internalFragmentationRatio usage

theorem tables_refused {seqId : UInt64} {tokenCount : ℕ} (h : ¬ pt.Fits seqId tokenCount) :
    (pt.ensureCapacity seqId tokenCount).2.tables = pt.touch seqId := by
  rw [ensureCapacity_of_not_fits h]

/-- A refused call for a new sequence enters it into the table. -/
theorem not_refusalInert {seqId : UInt64} {tokenCount : ℕ} (hfits : ¬ pt.Fits seqId tokenCount)
    (hnew : seqId ∉ pt.tables) : ¬ pt.RefusalInert seqId tokenCount := by
  intro h
  have hrefused : (pt.ensureCapacity seqId tokenCount).1 = false := by
    rw [← Bool.not_eq_true, ensureCapacity_fst]
    exact hfits
  have htables := tables_refused hfits
  rw [(h hrefused).1, touch, if_neg hnew] at htables
  rw [htables] at hnew
  exact hnew ((AList.mem_insert _).2 (.inl rfl))

/-- **A refused call is inert exactly if the table knows the sequence.** -/
theorem refusalInert_iff (pt : PagedKVCacheAllocator) (seqId : UInt64) (tokenCount : ℕ) :
    pt.RefusalInert seqId tokenCount ↔ pt.Fits seqId tokenCount ∨ seqId ∈ pt.tables := by
  constructor
  · intro h
    by_contra hcond
    rw [not_or] at hcond
    exact not_refusalInert hcond.1 hcond.2 h
  · rintro hcond hrefused
    have hfits : ¬ pt.Fits seqId tokenCount := by
      rw [← ensureCapacity_fst, hrefused]
      exact Bool.false_ne_true
    have hsame : (pt.ensureCapacity seqId tokenCount).2 = pt := by
      rw [ensureCapacity_of_not_fits hfits, touch, if_pos (hcond.resolve_left hfits)]
    rw [hsame]
    exact ⟨rfl, rfl, fun _ => rfl, fun _ => rfl⟩

section Slots

variable (pt) (usage : AList fun _ : UInt64 => UInt64)

theorem internalFragmentationRatio_eq {allocated used : UInt64}
    (h : pt.slots usage = (allocated, used)) (hne : allocated ≠ 0) :
    pt.internalFragmentationRatio usage = 1 - (used.toNat : ℚ) / (allocated.toNat : ℚ) := by
  rw [internalFragmentationRatio, h]
  exact if_neg hne

/-- A loop that keeps two counts. -/
theorem foldl_counts {ι : Type} (f g : ι → UInt64) (entries : List ι) (acc : UInt64 × UInt64) :
    entries.foldl (fun acc entry => (acc.1 + f entry, acc.2 + g entry)) acc =
      (acc.1 + (entries.map f).sum, acc.2 + (entries.map g).sum) := by
  induction entries generalizing acc with
  | nil => simp
  | cons entry entries ih =>
    rw [List.foldl_cons, ih]
    simp [UInt64.add_assoc]

/-- The two counts are sums over the table. -/
theorem slots_eq_sum : pt.slots usage =
    ((pt.tables.entries.map fun entry =>
        UInt64.ofNat entry.2.length * UInt64.ofNat pt.blockSize).sum,
      (pt.tables.entries.map fun entry => (usage.lookup entry.1).getD 0).sum) := by
  refine (foldl_counts (ι := Sigma fun _ : UInt64 => List ℤ) _ _ _ (0, 0)).trans ?_
  rw [UInt64.zero_add, UInt64.zero_add]

variable {pt} {seqId : UInt64} {tokenCount : ℕ}

/-- A refused call for a new sequence makes its tokens count, without any block. -/
theorem slots_refused (hfits : ¬ pt.Fits seqId tokenCount) (hnew : seqId ∉ pt.tables) :
    (pt.ensureCapacity seqId tokenCount).2.slots usage =
      ((pt.slots usage).1, (usage.lookup seqId).getD 0 + (pt.slots usage).2) := by
  have hentries : (pt.touch seqId).entries = ⟨seqId, []⟩ :: pt.tables.entries := by
    rw [touch, if_neg hnew, AList.entries_insert, List.kerase_of_notMem_keys hnew]
  rw [slots_eq_sum, slots_eq_sum, blockSize_ensureCapacity, tables_refused hfits, hentries]
  simp

/-- **What a refusal for a new sequence does to the ratio**: nothing exactly if no block is
allocated or the caller counts no tokens for the sequence. -/
theorem internalFragmentationRatio_refused (hfits : ¬ pt.Fits seqId tokenCount)
    (hnew : seqId ∉ pt.tables) :
    (pt.ensureCapacity seqId tokenCount).2.internalFragmentationRatio usage =
        pt.internalFragmentationRatio usage ↔
      (pt.slots usage).1 = 0 ∨ (usage.lookup seqId).getD 0 = 0 := by
  rw [internalFragmentationRatio, internalFragmentationRatio, slots_refused usage hfits hnew]
  generalize pt.slots usage = counts
  generalize (usage.lookup seqId).getD 0 = extra
  obtain ⟨allocated, used⟩ := counts
  dsimp only
  split_ifs with h
  · exact iff_of_true rfl (.inl h)
  · have hne : (allocated.toNat : ℚ) ≠ 0 := by
      rw [Nat.cast_ne_zero]
      exact fun h0 => h (UInt64.toNat_inj.1 h0)
    rw [or_iff_right h, sub_right_inj, div_left_inj' hne, Nat.cast_inj, UInt64.toNat_inj]
    exact UInt64.add_eq_right

end Slots

section Examples

/-- The blocks of a full pool, and the tokens of its two sequences and of a third. -/
def threeUsers : AList fun _ : UInt64 => UInt64 :=
  ((∅ : AList fun _ : UInt64 => UInt64).insert 1 16 |>.insert 2 16).insert 3 17

/-- **A third sequence is refused in a full pool of two blocks**: the ratio falls from zero to
`-17 / 32`. -/
theorem not_refusalInert_full :
    ∃ pt, (create 16 2).map (run · [.ensureCapacity 1 16, .ensureCapacity 2 16]) = some pt ∧
      ¬ pt.RefusalInert 3 17 ∧ pt.internalFragmentationRatio threeUsers = 0 ∧
      (pt.ensureCapacity 3 17).2.internalFragmentationRatio threeUsers = -17 / 32 := by
  have h32 : UInt64.toNat 32 = 32 := rfl
  have h49 : UInt64.toNat 49 = 49 := rfl
  refine ⟨_, rfl, not_refusalInert (by decide) (by decide), ?_, ?_⟩
  · rw [internalFragmentationRatio_eq _ _ (by decide : _ = ((32 : UInt64), (32 : UInt64)))
      (by decide), h32]
    norm_num
  · rw [internalFragmentationRatio_eq _ _ (by decide : _ = ((32 : UInt64), (49 : UInt64)))
      (by decide), h32, h49]
    norm_num

end Examples

end AetherMoE.PagedKVCacheAllocator
