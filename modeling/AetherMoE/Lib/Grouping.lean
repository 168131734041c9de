import Mathlib.Data.List.Dedup
import Mathlib.Data.List.Nodup
import Mathlib.Data.List.Sort

/-!
# Grouping positions by key

A list of keys splits the positions of the list into groups, one for each key.

* `indicesOf`: the positions that hold a key, in order;
* `filterMap_indicesOf`, `foldlM_indicesOf`: the elements at these positions, and a loop over them;
* **`flatMap_indicesOf_perm`**: over the distinct keys, in any order, the groups are all the
  positions, once each; `flatMap_filter_perm`: and their elements all the elements;
* **`countP_lt_getElem`**: in a strictly sorted list, the rank of an element is the number of
  smaller ones; **`countP_rank_lt`**: of elements with distinct keys, as many as there are up to
  `k` have a rank below `k`.
-/

namespace Grouping

variable {κ : Type} [DecidableEq κ]

/-- The positions of `ks` that hold `k`. -/
def indicesOf (ks : List κ) (k : κ) : List ℕ :=
  (List.range ks.length).filter fun i => ks[i]? = some k

variable {ks : List κ} {k : κ} {i : ℕ}

@[simp] theorem mem_indicesOf : i ∈ indicesOf ks k ↔ ks[i]? = some k := by
  simp only [indicesOf, List.mem_filter, List.mem_range, decide_eq_true_eq, and_iff_right_iff_imp]
  intro h
  exact (List.getElem?_eq_some_iff.1 h).1

theorem nodup_indicesOf (ks : List κ) (k : κ) : (indicesOf ks k).Nodup :=
  List.nodup_range.filter _

theorem lt_of_mem_indicesOf (h : i ∈ indicesOf ks k) : i < ks.length :=
  (List.getElem?_eq_some_iff.1 (mem_indicesOf.1 h)).1

section Elements

variable {α β : Type}

theorem filterMap_range_getElem? (l : List α) :
    ((List.range l.length).filterMap fun i => l[i]?) = l := by
  induction l with
  | nil => rfl
  | cons a l ih =>
    rw [List.length_cons, List.range_succ_eq_map, List.filterMap_cons, List.filterMap_map]
    simpa [Function.comp_def] using ih

/-- The elements at the positions of a key are those with the key. -/
theorem filterMap_indicesOf (l : List α) (key : α → κ) (k : κ) :
    ((indicesOf (l.map key) k).filterMap fun i => l[i]?) = l.filter fun a => key a = k := by
  conv_rhs => rw [← filterMap_range_getElem? l]
  rw [indicesOf, List.length_map, List.filterMap_filter, List.filter_filterMap]
  refine List.filterMap_congr fun i _ => ?_
  rw [List.getElem?_map]
  cases l[i]? with
  | none => rfl
  | some a => by_cases h : key a = k <;> simp [Option.filter, h]

/-- A loop over the positions of a key that reads its element is a loop over the elements. -/
theorem foldlM_indicesOf {m : Type → Type} [Monad m] (l : List α) (key : α → κ) (k : κ)
    {g : β → ℕ → m β} (g' : β → α → m β) (hg : ∀ b i a, l[i]? = some a → g b i = g' b a) (b : β) :
    (indicesOf (l.map key) k).foldlM g b = (l.filter fun a => key a = k).foldlM g' b := by
  rw [← filterMap_indicesOf]
  have hlt : ∀ i ∈ indicesOf (l.map key) k, i < l.length := by
    intro i hi
    simpa using lt_of_mem_indicesOf hi
  generalize indicesOf (l.map key) k = is at hlt
  induction is generalizing b with
  | nil => rfl
  | cons i is ih =>
    rw [List.forall_mem_cons] at hlt
    have hi := List.getElem?_eq_getElem hlt.1
    rw [List.foldlM_cons, List.filterMap_cons_some hi, List.foldlM_cons, hg b i _ hi]
    exact congrArg _ (funext fun b => ih b hlt.2)

end Elements

/-- **The groups of the distinct keys are all the positions.** -/
theorem flatMap_indicesOf_perm {l : List κ} (hl : l.Perm ks.dedup) :
    (l.flatMap (indicesOf ks)).Perm (List.range ks.length) := by
  have hnd : (l.flatMap (indicesOf ks)).Nodup := by
    refine List.nodup_flatMap.2 ⟨fun k _ => nodup_indicesOf ks k, ?_⟩
    refine List.Pairwise.imp ?_ (hl.nodup_iff.2 (List.nodup_dedup ks))
    intro k k' hne i hi hi'
    rw [mem_indicesOf] at hi hi'
    exact hne (Option.some.inj (hi.symm.trans hi'))
  refine (List.perm_ext_iff_of_nodup hnd List.nodup_range).2 fun i => ?_
  simp only [List.mem_flatMap, mem_indicesOf, List.mem_range]
  constructor
  · rintro ⟨k, -, hi⟩
    exact (List.getElem?_eq_some_iff.1 hi).1
  · intro hi
    refine ⟨ks[i], ?_, List.getElem?_eq_getElem hi⟩
    rw [hl.mem_iff, List.mem_dedup]
    exact List.getElem_mem hi

/-- The elements with each of the distinct keys are all the elements. -/
theorem flatMap_filter_perm {α : Type} (as : List α) (key : α → κ) {l : List κ}
    (hl : l.Perm (as.map key).dedup) :
    (l.flatMap fun k => as.filter fun a => key a = k).Perm as := by
  have h := (flatMap_indicesOf_perm hl).filterMap fun i => as[i]?
  rw [List.length_map, filterMap_range_getElem?, List.filterMap_flatMap] at h
  simpa only [filterMap_indicesOf] using h

/-- **The rank of an element of a strictly sorted list.** -/
theorem countP_lt_getElem {α : Type} (key : α → ℕ) {l : List α}
    (hl : l.Pairwise fun a b => key a < key b) {j : ℕ} (hj : j < l.length) :
    l.countP (fun a => key a < key l[j]) = j := by
  induction l generalizing j with
  | nil => cases hj
  | cons a l ih =>
    rw [List.pairwise_cons] at hl
    cases j with
    | zero =>
      rw [List.countP_eq_zero]
      intro b hb
      obtain rfl | hb := List.mem_cons.1 hb
      · simp
      · simpa using Nat.le_of_lt (hl.1 b hb)
    | succ j =>
      have hj' : j < l.length := Nat.lt_of_succ_lt_succ hj
      have ha : key a < key l[j] := hl.1 _ (List.getElem_mem hj')
      rw [List.getElem_cons_succ, List.countP_cons_of_pos (by simpa using ha), ih hl.2 hj']

/-- Counting over the positions of a list is counting over the list. -/
theorem countP_range_getElem? {α : Type} (p : α → Bool) (l : List α) :
    (List.range l.length).countP (fun i => l[i]?.any p) = l.countP p := by
  have hmap : (List.range l.length).map (fun i => l[i]?.any p) = l.map p := by
    refine List.ext_getElem (by simp) fun i h₁ h₂ => ?_
    have hi : i < l.length := by simpa using h₂
    simp [List.getElem?_eq_getElem hi]
  have := congrArg (List.countP id) hmap
  simpa [List.countP_map] using this

theorem countP_range_lt (n k : ℕ) : (List.range n).countP (fun i => i < k) = min n k := by
  induction n with
  | zero => simp
  | succ n ih =>
    rw [List.range_succ, List.countP_append, ih, List.countP_singleton]
    by_cases hn : n < k <;> simp [hn] <;> omega

/-- **As many elements as there are, up to `k`, have a rank below `k`.** -/
theorem countP_rank_lt {α : Type} (key : α → ℕ) {l : List α} (hl : (l.map key).Nodup) (k : ℕ) :
    l.countP (fun a => l.countP (fun b => key b < key a) < k) = min l.length k := by
  have hperm := l.perm_insertionSort fun a b => key a ≤ key b
  have hsorted : (l.insertionSort fun a b => key a ≤ key b).Pairwise fun a b => key a < key b := by
    have : Std.Total fun a b : α => key a ≤ key b := ⟨fun a b => Nat.le_total (key a) (key b)⟩
    have : IsTrans α fun a b => key a ≤ key b := ⟨fun _ _ _ => Nat.le_trans⟩
    have hle := List.pairwise_insertionSort (fun a b => key a ≤ key b) l
    have hne := List.pairwise_map.1 ((hperm.map key).nodup_iff.2 hl)
    exact (hle.and hne).imp fun h => lt_of_le_of_ne h.1 h.2
  generalize (l.insertionSort fun a b => key a ≤ key b) = s at hperm hsorted
  rw [← hperm.length_eq, ← hperm.countP_eq, ← countP_range_getElem?, ← countP_range_lt]
  refine List.countP_congr fun i hi => ?_
  have hi' := List.mem_range.1 hi
  rw [List.getElem?_eq_getElem hi', Option.any_some, ← hperm.countP_eq,
    countP_lt_getElem key hsorted hi']

end Grouping
