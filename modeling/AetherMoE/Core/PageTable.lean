import Mathlib.Algebra.Order.Floor.Div
import Mathlib.Algebra.Field.Rat
import Mathlib.Data.List.AList
import Mathlib.Data.List.Nodup
import Mathlib.Data.Multiset.AddSub
import Mathlib.Tactic.Abel

/-!
# The paged KV-cache allocator

`PagedKVCacheAllocator` of `page_table.hpp`. Every member function takes the mutex, so a call is
one atomic operation on the state. A `size_t` is a natural number; the one expression that can
leave 64 bits, the rounding in `blocksNeededFor`, wraps explicitly. The free list is a stack with
its top first, the table an association list from sequence ids to their blocks.

* `create`, `blocksNeededFor`, `ensureCapacity`, `freeSequence`, `blocksOf`, `freeBlockCount`,
  `internalFragmentationRatio`;
* `Fits`: the free list can serve a request; **`ensureCapacity_fst`**: exactly those requests are
  granted, and `blocksOf_ensureCapacity`, `freeBlocks_ensureCapacity` say what a call moves;
* `Partitioned`: the free list and the blocks of all sequences are the physical block ids, each
  once; **`Partitioned.ensureCapacity`**, **`Partitioned.freeSequence`**;
* `blocksNeededFor_eq`: the rounding is exact while it does not wrap.
-/

namespace AetherMoE

/-- The block table: sequence id to owned physical blocks. -/
abbrev BlockTables := AList fun _ : UInt64 => List ℤ

/-- `PagedKVCacheAllocator`. The two bounds are what its constructor and `size_t` enforce. -/
structure PagedKVCacheAllocator where
  blockSize : ℕ
  numBlocks : ℕ
  freeBlocks : List ℤ
  tables : BlockTables
  blockSize_pos : 0 < blockSize
  blockSize_lt : blockSize < 2 ^ 64

namespace PagedKVCacheAllocator

/-! ## The operations -/

/-- `static_cast<int>` of a `size_t`. -/
def toInt (i : ℕ) : ℤ := Int.bmod i (2 ^ 32)

/-- The constructor; `none` is its `std::invalid_argument`. The ids are pushed in descending
order, so block `0` ends up on top of the stack. -/
def create (blockSizeTokens numPhysicalBlocks : UInt64) : Option PagedKVCacheAllocator :=
  if h : blockSizeTokens = 0 ∨ numPhysicalBlocks = 0 then none
  else some
    { blockSize := blockSizeTokens.toNat
      numBlocks := numPhysicalBlocks.toNat
      freeBlocks := (List.range numPhysicalBlocks.toNat).map toInt
      tables := ∅
      blockSize_pos := Nat.pos_of_ne_zero fun h0 => h (Or.inl (UInt64.toNat_inj.1 h0))
      blockSize_lt := blockSizeTokens.toNat_lt }

variable (pt : PagedKVCacheAllocator)

/-- `blocks_needed_for`, in 64-bit arithmetic. -/
def blocksNeededFor (tokenCount : ℕ) : ℕ :=
  (tokenCount + pt.blockSize - 1) % 2 ^ 64 / pt.blockSize

/-- `blocks_of`. -/
def blocksOf (seqId : UInt64) : List ℤ := (pt.tables.lookup seqId).getD []

/-- `tables_[seq_id]`: the table with an empty entry for `seqId` if it had none. -/
def touch (seqId : UInt64) : BlockTables :=
  if seqId ∈ pt.tables then pt.tables else pt.tables.insert seqId []

/-- `ensure_capacity`. -/
def ensureCapacity (seqId : UInt64) (tokenCount : ℕ) : Bool × PagedKVCacheAllocator :=
  let owned := pt.blocksOf seqId
  let needed := pt.blocksNeededFor tokenCount
  if needed ≤ owned.length then (true, { pt with tables := pt.touch seqId })
  else
    let toAllocate := needed - owned.length
    -- the refused call has already created the entry
    if pt.freeBlocks.length < toAllocate then (false, { pt with tables := pt.touch seqId })
    else (true, { pt with
      freeBlocks := pt.freeBlocks.drop toAllocate
      tables := pt.tables.insert seqId (owned ++ pt.freeBlocks.take toAllocate) })

/-- `free_sequence`: the blocks are pushed back one by one, and the entry goes. -/
def freeSequence (seqId : UInt64) : PagedKVCacheAllocator :=
  match pt.tables.lookup seqId with
  | none => pt
  | some owned => { pt with
      freeBlocks := owned.foldl (fun free b => b :: free) pt.freeBlocks
      tables := pt.tables.erase seqId }

/-- `free_block_count`. -/
def freeBlockCount : ℕ := pt.freeBlocks.length

/-- The loop of `internal_fragmentation_ratio`, in 64-bit arithmetic: `allocated_slots` and
`used_slots`. -/
def slots (seqTokenCounts : AList fun _ : UInt64 => UInt64) : UInt64 × UInt64 :=
  pt.tables.entries.foldl (fun acc entry =>
    (acc.1 + UInt64.ofNat entry.2.length * UInt64.ofNat pt.blockSize,
      acc.2 + (seqTokenCounts.lookup entry.1).getD 0)) (0, 0)

/-- `internal_fragmentation_ratio`, with the quotient exact. -/
def internalFragmentationRatio (seqTokenCounts : AList fun _ : UInt64 => UInt64) : ℚ :=
  let (allocatedSlots, usedSlots) := pt.slots seqTokenCounts
  if allocatedSlots = 0 then 0 else 1 - (usedSlots.toNat : ℚ) / (allocatedSlots.toNat : ℚ)

/-! ## What a call does -/

/-- The free list can serve a request for `tokenCount` tokens of `seqId`. -/
def Fits (seqId : UInt64) (tokenCount : ℕ) : Prop :=
  pt.blocksNeededFor tokenCount ≤ (pt.blocksOf seqId).length + pt.freeBlocks.length

instance (seqId : UInt64) (tokenCount : ℕ) : Decidable (pt.Fits seqId tokenCount) :=
  inferInstanceAs (Decidable (_ ≤ _))

/-- The blocks a request takes from the free list. -/
def extra (seqId : UInt64) (tokenCount : ℕ) : ℕ :=
  pt.blocksNeededFor tokenCount - (pt.blocksOf seqId).length

variable {pt} {seqId : UInt64} {tokenCount : ℕ}

theorem lookup_touch (i : UInt64) :
    ((pt.touch seqId).lookup i).getD [] = pt.blocksOf i := by
  unfold touch blocksOf
  split_ifs with h
  · rfl
  · by_cases hi : i = seqId
    · subst hi
      rw [AList.lookup_insert, AList.lookup_eq_none.2 h]
      rfl
    · rw [AList.lookup_insert_ne hi]

/-- **A request is granted exactly when it fits.** -/
theorem ensureCapacity_fst : (pt.ensureCapacity seqId tokenCount).1 = true ↔
    pt.Fits seqId tokenCount := by
  unfold ensureCapacity Fits
  dsimp only
  split_ifs with h1 h2
  · simp only [true_iff]
    omega
  · simp only [false_iff]
    omega
  · simp only [true_iff]
    omega

theorem blocksOf_ensureCapacity (h : pt.Fits seqId tokenCount) :
    (pt.ensureCapacity seqId tokenCount).2.blocksOf seqId =
      pt.blocksOf seqId ++ pt.freeBlocks.take (pt.extra seqId tokenCount) := by
  unfold ensureCapacity extra
  unfold Fits at h
  dsimp only
  split_ifs with h1 h2
  · rw [Nat.sub_eq_zero_of_le h1, List.take_zero, List.append_nil]
    exact lookup_touch seqId
  · omega
  · simp only [blocksOf, AList.lookup_insert, Option.getD_some]

theorem freeBlocks_ensureCapacity (h : pt.Fits seqId tokenCount) :
    (pt.ensureCapacity seqId tokenCount).2.freeBlocks =
      pt.freeBlocks.drop (pt.extra seqId tokenCount) := by
  unfold ensureCapacity extra
  unfold Fits at h
  dsimp only
  split_ifs with h1 h2
  · rw [Nat.sub_eq_zero_of_le h1, List.drop_zero]
  · omega
  · rfl

/-- A call leaves the blocks of every other sequence alone. -/
theorem blocksOf_ensureCapacity_ne {i : UInt64} (hi : i ≠ seqId) :
    (pt.ensureCapacity seqId tokenCount).2.blocksOf i = pt.blocksOf i := by
  unfold ensureCapacity
  dsimp only
  split_ifs with h1 h2
  · exact lookup_touch i
  · exact lookup_touch i
  · simp only [blocksOf, AList.lookup_insert_ne hi]

/-- A refused call moves no block. -/
theorem ensureCapacity_of_not_fits (h : ¬ pt.Fits seqId tokenCount) :
    pt.ensureCapacity seqId tokenCount = (false, { pt with tables := pt.touch seqId }) := by
  unfold ensureCapacity
  unfold Fits at h
  dsimp only
  rw [if_neg (by omega), if_pos (by omega)]

theorem blocksOf_refused (h : ¬ pt.Fits seqId tokenCount) (i : UInt64) :
    (pt.ensureCapacity seqId tokenCount).2.blocksOf i = pt.blocksOf i := by
  rw [ensureCapacity_of_not_fits h]
  exact lookup_touch i

theorem freeBlocks_refused (h : ¬ pt.Fits seqId tokenCount) :
    (pt.ensureCapacity seqId tokenCount).2.freeBlocks = pt.freeBlocks := by
  rw [ensureCapacity_of_not_fits h]

/-- A granted request that asks for no less than before ends with exactly the blocks asked for. -/
theorem length_blocksOf_ensureCapacity (h : pt.Fits seqId tokenCount)
    (hle : (pt.blocksOf seqId).length ≤ pt.blocksNeededFor tokenCount) :
    ((pt.ensureCapacity seqId tokenCount).2.blocksOf seqId).length =
      pt.blocksNeededFor tokenCount := by
  rw [blocksOf_ensureCapacity h, List.length_append, List.length_take]
  unfold Fits at h
  unfold extra
  omega

@[simp] theorem blockSize_ensureCapacity :
    (pt.ensureCapacity seqId tokenCount).2.blockSize = pt.blockSize := by
  unfold ensureCapacity
  dsimp only
  split_ifs <;> rfl

@[simp] theorem numBlocks_ensureCapacity :
    (pt.ensureCapacity seqId tokenCount).2.numBlocks = pt.numBlocks := by
  unfold ensureCapacity
  dsimp only
  split_ifs <;> rfl

@[simp] theorem blockSize_freeSequence : (pt.freeSequence seqId).blockSize = pt.blockSize := by
  unfold freeSequence
  split <;> rfl

@[simp] theorem numBlocks_freeSequence : (pt.freeSequence seqId).numBlocks = pt.numBlocks := by
  unfold freeSequence
  split <;> rfl

theorem blocksOf_freeSequence (i : UInt64) :
    (pt.freeSequence seqId).blocksOf i = if i = seqId then [] else pt.blocksOf i := by
  unfold freeSequence
  split
  · next h =>
    split_ifs with hi
    · rw [hi, blocksOf, h]
      rfl
    · rfl
  · next owned h =>
    split_ifs with hi
    · subst hi
      simp only [blocksOf, AList.lookup_erase, Option.getD_none]
    · simp only [blocksOf, AList.lookup_erase_ne hi]

theorem mem_touch {i : UInt64} (h : i ∈ pt.touch seqId) : i = seqId ∨ i ∈ pt.tables := by
  unfold touch at h
  split_ifs at h with hs
  · exact Or.inr h
  · exact (AList.mem_insert _).1 h

/-- A call enters no sequence but its own into the table. -/
theorem mem_tables_ensureCapacity {i : UInt64}
    (h : i ∈ (pt.ensureCapacity seqId tokenCount).2.tables) : i = seqId ∨ i ∈ pt.tables := by
  unfold ensureCapacity at h
  dsimp only at h
  split_ifs at h
  · exact mem_touch h
  · exact mem_touch h
  · exact (AList.mem_insert _).1 h

theorem mem_tables_freeSequence {i : UInt64} (h : i ∈ (pt.freeSequence seqId).tables) :
    i ≠ seqId ∧ i ∈ pt.tables := by
  unfold freeSequence at h
  split at h
  · next hnone =>
    refine ⟨fun hi => ?_, h⟩
    rw [hi] at h
    exact AList.lookup_eq_none.1 hnone h
  · exact AList.mem_erase.1 h

/-- The rounding is exact while it stays in 64 bits. -/
theorem blocksNeededFor_eq (h : tokenCount + pt.blockSize ≤ 2 ^ 64) :
    pt.blocksNeededFor tokenCount = tokenCount ⌈/⌉ pt.blockSize := by
  have hpos := pt.blockSize_pos
  unfold blocksNeededFor
  rw [Nat.mod_eq_of_lt (by omega), Nat.ceilDiv_eq_add_pred_div]

/-! ## The partition of the physical blocks -/

/-- The blocks owned by all sequences together. -/
def held (t : BlockTables) : List ℤ := t.entries.flatMap Sigma.snd

theorem held_insert (t : BlockTables) (i : UInt64) (bs : List ℤ) :
    held (t.insert i bs) = bs ++ held (t.erase i) := by
  unfold held
  rw [AList.entries_insert, List.flatMap_cons]
  rfl

/-- The entry of `i` taken out of the table. -/
theorem held_perm_erase (t : BlockTables) (i : UInt64) :
    (held t).Perm ((t.lookup i).getD [] ++ held (t.erase i)) := by
  cases h : t.lookup i with
  | none =>
    have hi : i ∉ t := AList.lookup_eq_none.1 h
    have : (t.erase i).entries = t.entries := List.kerase_of_notMem_keys hi
    simp only [held, this, Option.getD_none, List.nil_append, List.Perm.refl]
  | some bs =>
    rw [Option.getD_some, ← held_insert]
    refine List.Perm.flatMap_right _ (List.lookup_ext t.nodupKeys (t.insert i bs).nodupKeys ?_)
    intro x y
    change y ∈ t.lookup x ↔ y ∈ (t.insert i bs).lookup x
    by_cases hx : x = i
    · subst hx
      rw [AList.lookup_insert, h]
    · rw [AList.lookup_insert_ne hx]

theorem held_touch : (held (pt.touch seqId)).Perm (held pt.tables) := by
  unfold touch
  split_ifs with h
  · exact List.Perm.refl _
  · rw [held_insert]
    have := held_perm_erase pt.tables seqId
    rw [AList.lookup_eq_none.2 h] at this
    exact this.symm

theorem held_eq_nil {t : BlockTables} (h : ∀ i, (t.lookup i).getD [] = []) : held t = [] := by
  unfold held
  rw [List.flatMap_eq_nil_iff]
  rintro ⟨i, bs⟩ hmem
  have hi := h i
  rwa [AList.mem_lookup_iff.2 hmem, Option.getD_some] at hi

/-- The blocks held are those of the sequences that own any. -/
theorem held_perm_flatMap (ids : List UInt64) (hnd : ids.Nodup) (t : BlockTables)
    (h : ∀ i, i ∉ ids → (t.lookup i).getD [] = []) :
    (held t).Perm (ids.flatMap fun i => (t.lookup i).getD []) := by
  induction ids generalizing t with
  | nil => rw [held_eq_nil fun i => h i List.not_mem_nil, List.flatMap_nil]
  | cons i ids ih =>
    rw [List.nodup_cons] at hnd
    have hother : ∀ j, j ≠ i → (t.erase i).lookup j = t.lookup j := fun j hj =>
      AList.lookup_erase_ne hj
    have hrest : (held (t.erase i)).Perm (ids.flatMap fun j => ((t.erase i).lookup j).getD []) := by
      refine ih hnd.2 (t.erase i) fun j hj => ?_
      by_cases hji : j = i
      · rw [hji, AList.lookup_erase, Option.getD_none]
      · rw [hother j hji]
        exact h j (by simp [hji, hj])
    have hsame : (ids.flatMap fun j => ((t.erase i).lookup j).getD []) =
        ids.flatMap fun j => (t.lookup j).getD [] := by
      apply List.flatMap_congr
      intro j hj
      rw [hother j fun hji => hnd.1 (hji ▸ hj)]
    rw [List.flatMap_cons, ← hsame]
    exact (held_perm_erase t i).trans (hrest.append_left _)

/-- The ids the constructor puts on the free list. -/
def blockIds (n : ℕ) : List ℤ := (List.range n).map toInt

/-- Up to `2 ^ 31` blocks, an id survives the cast to `int`. -/
theorem blockIds_eq {n : ℕ} (hn : n ≤ 2 ^ 31) : blockIds n = (List.range n).map Nat.cast := by
  refine List.map_congr_left fun i hi => ?_
  have hi' := List.mem_range.1 hi
  exact Int.bmod_eq_of_le (by omega) (by omega)

theorem nodup_blockIds {n : ℕ} (hn : n ≤ 2 ^ 31) : (blockIds n).Nodup := by
  rw [blockIds_eq hn]
  exact List.nodup_range.map Nat.cast_injective

/-- **Every physical block is in the free list or owned by one sequence, once.** -/
def Partitioned (pt : PagedKVCacheAllocator) : Prop :=
  (pt.freeBlocks ++ held pt.tables).Perm (blockIds pt.numBlocks)

theorem sizes_create {bs n : UInt64} (h : create bs n = some pt) :
    pt.blockSize = bs.toNat ∧ pt.numBlocks = n.toNat ∧ pt.tables = ∅ := by
  unfold create at h
  split_ifs at h
  obtain rfl := Option.some.inj h
  exact ⟨rfl, rfl, rfl⟩

theorem numBlocks_pos_of_create {bs n : UInt64} (h : create bs n = some pt) :
    0 < pt.numBlocks := by
  rw [(sizes_create h).2.1]
  unfold create at h
  split_ifs at h with hz
  exact Nat.pos_of_ne_zero fun h0 => hz (Or.inr (UInt64.toNat_inj.1 h0))

theorem blocksOf_create {bs n : UInt64} (h : create bs n = some pt) (i : UInt64) :
    pt.blocksOf i = [] := by
  rw [blocksOf, (sizes_create h).2.2]
  rfl

theorem partitioned_create {bs n : UInt64} (h : create bs n = some pt) : pt.Partitioned := by
  unfold create at h
  split_ifs at h
  obtain rfl := Option.some.inj h
  simp only [Partitioned, held, AList.empty_entries, List.flatMap_nil, List.append_nil]
  exact List.Perm.refl _

/-- The blocks in the free list and those of the owners are all there are. -/
theorem Partitioned.length (hp : pt.Partitioned) {ids : List UInt64} (hnd : ids.Nodup)
    (h : ∀ i, i ∉ ids → pt.blocksOf i = []) :
    pt.freeBlocks.length + (ids.map fun i => (pt.blocksOf i).length).sum = pt.numBlocks := by
  have hlen := hp.length_eq
  have hheld : (held pt.tables).length = (ids.map fun i => (pt.blocksOf i).length).sum := by
    rw [(held_perm_flatMap ids hnd pt.tables h).length_eq, List.length_flatMap]
    rfl
  rw [List.length_append, hheld, blockIds, List.length_map, List.length_range] at hlen
  exact hlen

theorem mem_blocksOf {b : ℤ} {i : UInt64} (h : b ∈ pt.blocksOf i) :
    ∃ bs, (⟨i, bs⟩ : Sigma fun _ : UInt64 => List ℤ) ∈ pt.tables.entries ∧ b ∈ bs := by
  unfold blocksOf at h
  cases hl : pt.tables.lookup i with
  | none =>
    rw [hl] at h
    cases h
  | some bs =>
    rw [hl] at h
    exact ⟨bs, AList.mem_lookup_iff.1 hl, h⟩

/-- No block has two owners. -/
theorem Partitioned.unshared (hp : pt.Partitioned) (hn : pt.numBlocks ≤ 2 ^ 31) {i j : UInt64}
    {b : ℤ} (hi : b ∈ pt.blocksOf i) (hj : b ∈ pt.blocksOf j) : i = j := by
  have hnd : (held pt.tables).Nodup :=
    (List.nodup_append.1 (hp.nodup_iff.2 (nodup_blockIds hn))).2.1
  obtain ⟨bs, hbs, hb⟩ := mem_blocksOf hi
  obtain ⟨cs, hcs, hc⟩ := mem_blocksOf hj
  by_contra hne
  have hdis := (List.nodup_flatMap.1 hnd).2
  have : Std.Symm (Function.onFun List.Disjoint
      (Sigma.snd : (Sigma fun _ : UInt64 => List ℤ) → List ℤ)) := ⟨fun _ _ h => h.symm⟩
  have hneq : (⟨i, bs⟩ : Sigma fun _ : UInt64 => List ℤ) ≠ ⟨j, cs⟩ := by
    intro h
    exact hne (congrArg Sigma.fst h)
  exact hdis.forall hbs hcs hneq hb hc

theorem Partitioned.ensureCapacity (hp : pt.Partitioned) (seqId : UInt64) (tokenCount : ℕ) :
    (pt.ensureCapacity seqId tokenCount).2.Partitioned := by
  have touched : ({ pt with tables := pt.touch seqId } : PagedKVCacheAllocator).Partitioned :=
    (List.Perm.append_left _ held_touch).trans hp
  unfold PagedKVCacheAllocator.ensureCapacity
  dsimp only
  split_ifs with h1 h2
  · exact touched
  · exact touched
  · refine List.Perm.trans ?_ hp
    set k := pt.blocksNeededFor tokenCount - (pt.blocksOf seqId).length
    have hsplit : (pt.freeBlocks.drop k ++ ((pt.blocksOf seqId ++ pt.freeBlocks.take k) ++
        held (pt.tables.erase seqId))).Perm
        ((pt.freeBlocks.take k ++ pt.freeBlocks.drop k) ++
          (pt.blocksOf seqId ++ held (pt.tables.erase seqId))) := by
      rw [← Multiset.coe_eq_coe]
      simp only [← Multiset.coe_add]
      abel
    rw [List.take_append_drop] at hsplit
    change (_ ++ held (pt.tables.insert _ _)).Perm _
    rw [held_insert]
    exact hsplit.trans (List.Perm.append_left _ (held_perm_erase pt.tables seqId).symm)

theorem Partitioned.freeSequence (hp : pt.Partitioned) (seqId : UInt64) :
    (pt.freeSequence seqId).Partitioned := by
  unfold PagedKVCacheAllocator.freeSequence
  split
  · exact hp
  · next owned h =>
    refine List.Perm.trans ?_ hp
    have hfold : owned.foldl (fun free b => b :: free) pt.freeBlocks =
        owned.reverse ++ pt.freeBlocks := by
      rw [List.foldl_flip_cons_eq_append']
    have hheld := held_perm_erase pt.tables seqId
    rw [h, Option.getD_some] at hheld
    dsimp only
    rw [hfold]
    refine List.Perm.trans ?_ (List.Perm.append_left _ hheld.symm)
    rw [← Multiset.coe_eq_coe]
    simp only [← Multiset.coe_add, Multiset.coe_reverse]
    abel

/-- Four blocks of one token can be made. -/
theorem isSome_create_four : (create 1 4).isSome = true := rfl

end PagedKVCacheAllocator

end AetherMoE
