import Mathlib.Data.Finset.Card
import Mathlib.Data.List.Nodup
import Mathlib.Data.Prod.Lex
import Mathlib.Order.MinMax

/-!
# Selecting largest elements

Indices are picked one after another, each with a largest value among those left. Ties can be
broken in any way.

* `Greedy`: such a selection; **`Greedy.of_sorted`**: the indices in descending order are one;
* **`Greedy.map_eq`**: two selections of one length have the same values, in the same order;
* **`Greedy.toFinset_eq`**: if the last value picked differs from the next one, they also pick the
  same indices;
* `byValue`: the order in which ties go to the first index; **`Greedy.eq`**: a selection by it is
  unique.
-/

namespace Selection

variable {ι α : Type} [DecidableEq ι] [LinearOrder α] {f : ι → α}

/-- `Greedy f s l`: each index of `l` has a largest value among the indices of `s` left. -/
def Greedy (f : ι → α) : Finset ι → List ι → Prop
  | _, [] => True
  | s, i :: l => i ∈ s ∧ (∀ j ∈ s, f j ≤ f i) ∧ Greedy f (s.erase i) l

theorem Greedy.subset {s : Finset ι} {l : List ι} (h : Greedy f s l) : ∀ i ∈ l, i ∈ s := by
  induction l generalizing s with
  | nil => exact List.forall_mem_nil _
  | cons i l ih =>
    obtain ⟨hi, -, hl⟩ := h
    exact List.forall_mem_cons.2 ⟨hi, fun j hj => Finset.mem_of_mem_erase (ih hl j hj)⟩

theorem Greedy.nodup {s : Finset ι} {l : List ι} (h : Greedy f s l) : l.Nodup := by
  induction l generalizing s with
  | nil => exact List.nodup_nil
  | cons i l ih =>
    obtain ⟨-, -, hl⟩ := h
    refine List.nodup_cons.2 ⟨fun hi => ?_, ih hl⟩
    exact Finset.notMem_erase i s (hl.subset i hi)

/-- A selection of as many indices as there are has them all. -/
theorem Greedy.toFinset_eq_of_card {s : Finset ι} {l : List ι} (h : Greedy f s l)
    (hcard : s.card ≤ l.length) : l.toFinset = s := by
  refine Finset.eq_of_subset_of_card_le (fun i hi => h.subset i (List.mem_toFinset.1 hi)) ?_
  rwa [List.toFinset_card_of_nodup h.nodup]

/-- Selecting on, from what is left. -/
theorem greedy_append {s : Finset ι} {l r : List ι} :
    Greedy f s (l ++ r) ↔ Greedy f s l ∧ Greedy f (s \ l.toFinset) r := by
  induction l generalizing s with
  | nil => simp [Greedy]
  | cons i l ih =>
    have hset : s \ (i :: l).toFinset = s.erase i \ l.toFinset := by
      ext j
      simp only [List.toFinset_cons, Finset.mem_sdiff, Finset.mem_insert, Finset.mem_erase]
      tauto
    rw [List.cons_append, Greedy, Greedy, ih, hset]
    tauto

/-- Indices in descending order of their values are a selection. -/
theorem Greedy.of_sorted {l : List ι} (hnd : l.Nodup) (hl : l.Pairwise fun i j => f j ≤ f i) :
    Greedy f l.toFinset l := by
  induction l with
  | nil => trivial
  | cons i l ih =>
    rw [List.nodup_cons] at hnd
    rw [List.pairwise_cons] at hl
    have hset : (i :: l).toFinset.erase i = l.toFinset := by
      rw [List.toFinset_cons, Finset.erase_insert]
      rw [List.mem_toFinset]
      exact hnd.1
    refine ⟨by simp, ?_, ?_⟩
    · intro j hj
      rw [List.mem_toFinset, List.mem_cons] at hj
      rcases hj with rfl | hj
      · exact le_rfl
      · exact hl.1 j hj
    · rw [hset]
      exact ih hnd.2 hl.2

/-- What is not selected is no larger than what is. -/
theorem Greedy.le {s : Finset ι} {l : List ι} (h : Greedy f s l) {i j : ι} (hi : i ∈ l)
    (hj : j ∈ s) (hjl : j ∉ l) : f j ≤ f i := by
  induction l generalizing s with
  | nil => cases hi
  | cons x l ih =>
    obtain ⟨-, hmax, hl⟩ := h
    rw [List.mem_cons, not_or] at hjl
    rcases List.mem_cons.1 hi with rfl | hi
    · exact hmax j hj
    · exact ih hl hi (Finset.mem_erase.2 ⟨hjl.1, hj⟩) hjl.2

/-- What is selected first is no smaller. -/
theorem Greedy.sorted {s : Finset ι} {l : List ι} (h : Greedy f s l) :
    l.Pairwise fun i j => f j ≤ f i := by
  induction l generalizing s with
  | nil => exact List.Pairwise.nil
  | cons i l ih =>
    obtain ⟨-, hmax, hl⟩ := h
    refine List.pairwise_cons.2 ⟨fun j hj => hmax j ?_, ih hl⟩
    exact Finset.mem_of_mem_erase (hl.subset j hj)

/-- Two selections, from index sets with the same values, have the same values. -/
theorem Greedy.map_eq_of_values {s t : Finset ι} {l r : List ι} (hl : Greedy f s l)
    (hr : Greedy f t r) (hlen : l.length = r.length) (hval : s.val.map f = t.val.map f) :
    l.map f = r.map f := by
  induction l generalizing s t r with
  | nil =>
    rw [List.length_eq_zero_iff.1 hlen.symm]
  | cons i l ih =>
    cases r with
    | nil => cases hlen
    | cons j r =>
      obtain ⟨hi, himax, hl⟩ := hl
      obtain ⟨hj, hjmax, hr⟩ := hr
      have hle : ∀ {u v : Finset ι} {a b : ι}, u.val.map f = v.val.map f → a ∈ u →
          (∀ x ∈ v, f x ≤ f b) → f a ≤ f b := by
        intro u v a b huv ha hb
        have hmem : f a ∈ v.val.map f := huv ▸ Multiset.mem_map_of_mem f ha
        obtain ⟨x, hx, hxa⟩ := Multiset.mem_map.1 hmem
        exact hxa ▸ hb x hx
      have hij : f i = f j := le_antisymm (hle hval hi hjmax) (hle hval.symm hj himax)
      have herase : (s.erase i).val.map f = (t.erase j).val.map f := by
        rw [Finset.erase_val, Finset.erase_val, Multiset.map_erase_of_mem f _ hi,
          Multiset.map_erase_of_mem f _ hj, hval, hij]
      rw [List.map_cons, List.map_cons, hij, ih hl hr (Nat.succ.inj hlen) herase]

/-- **The values selected do not depend on how ties are broken.** -/
theorem Greedy.map_eq {s : Finset ι} {l r : List ι} (hl : Greedy f s l) (hr : Greedy f s r)
    (hlen : l.length = r.length) : l.map f = r.map f :=
  hl.map_eq_of_values hr hlen rfl

/-- **Nor do the indices, unless there is a tie at the end**: `x` is the last index of one
selection and `y` could be the next, with another value. -/
theorem Greedy.toFinset_eq {s : Finset ι} {l a : List ι} {x y : ι} (hl : Greedy f s l)
    (hr : Greedy f s ((a ++ [x]) ++ [y])) (hlen : l.length = (a ++ [x]).length)
    (hxy : f x ≠ f y) : l.toFinset = (a ++ [x]).toFinset := by
  obtain ⟨hax, hy, hymax, -⟩ := greedy_append.1 hr
  obtain ⟨ha, hx, -⟩ := greedy_append.1 hax
  rw [Finset.mem_sdiff, List.mem_toFinset] at hx hy
  have hcard : l.toFinset.card = (a ++ [x]).toFinset.card := by
    rw [List.toFinset_card_of_nodup hl.nodup, List.toFinset_card_of_nodup hax.nodup, hlen]
  by_contra hne
  obtain ⟨j, hj, hjl⟩ : ∃ j ∈ (a ++ [x]).toFinset, j ∉ l.toFinset := by
    by_contra h
    push Not at h
    exact hne (Finset.eq_of_subset_of_card_le h hcard.le).symm
  obtain ⟨i, hi, hia⟩ : ∃ i ∈ l.toFinset, i ∉ (a ++ [x]).toFinset := by
    by_contra h
    push Not at h
    exact hne (Finset.eq_of_subset_of_card_le h hcard.ge)
  rw [List.mem_toFinset] at hj hjl hi hia
  have hxj : f x ≤ f j := by
    rcases List.mem_append.1 hj with hj | hj
    · exact ha.le hj hx.1 hx.2
    · rw [List.mem_singleton.1 hj]
  have hji : f j ≤ f i := hl.le hi (hax.subset j hj) hjl
  have hiy : f i ≤ f y := by
    refine hymax i (Finset.mem_sdiff.2 ⟨hl.subset i hi, ?_⟩)
    rwa [List.mem_toFinset]
  have hyx : f y ≤ f x := hax.le (by simp) hy.1 hy.2
  exact hxy (le_antisymm (hxj.trans (hji.trans hiy)) hyx)

/-! ## Ties to the first -/

section First

/-- By value, and the first of equal values first. -/
def byValue (f : ι → α) (i : ι) : α ×ₗ ιᵒᵈ := toLex (f i, OrderDual.toDual i)

/-- **A selection by distinct values is unique.** -/
theorem Greedy.eq {s : Finset ι} {l r : List ι} (hf : Function.Injective f) (hl : Greedy f s l)
    (hr : Greedy f s r) (hlen : l.length = r.length) : l = r :=
  hf.list_map (hl.map_eq hr hlen)

variable [LinearOrder ι]

omit [DecidableEq ι] in
theorem byValue_le_iff {i j : ι} :
    byValue f j ≤ byValue f i ↔ f j < f i ∨ f j = f i ∧ i ≤ j :=
  Prod.Lex.le_iff

end First

end Selection
