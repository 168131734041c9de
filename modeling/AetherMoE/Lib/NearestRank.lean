import Mathlib.Algebra.Order.Floor.Semiring
import Mathlib.Data.Rat.Floor

/-!
# Nearest-rank quantiles

The `p`-quantile of a list is the least of its elements that at least a share `p` of them do not
exceed.

* `IsQuantile`; **`IsQuantile.unique`**, **`IsQuantile.mono`**, `IsQuantile.perm`;
* **`lt_countP_iff`**: in a sorted list, counting up to a value and looking up an index are
  adjoint;
* **`exists_isQuantile`**: the quantile of a sorted list is at index `⌈p * n⌉ - 1`.
-/

namespace NearestRank

variable {α : Type} [LinearOrder α]

/-- The number of elements that do not exceed `v`. -/
def countUpTo (l : List α) (v : α) : ℕ := l.countP fun x => decide (x ≤ v)

/-- `v` is the least element of `l` such that at least `p * l.length` elements do not exceed it. -/
structure IsQuantile (p : ℚ) (l : List α) (v : α) : Prop where
  mem : v ∈ l
  enough : p * l.length ≤ countUpTo l v
  least : ∀ w ∈ l, p * l.length ≤ countUpTo l w → v ≤ w

variable {p q : ℚ} {l l' s : List α} {v w : α}

theorem IsQuantile.unique (hv : IsQuantile p l v) (hw : IsQuantile p l w) : v = w :=
  le_antisymm (hv.least w hw.mem hw.enough) (hw.least v hv.mem hv.enough)

/-- A larger share has a larger quantile. -/
theorem IsQuantile.mono (hv : IsQuantile p l v) (hw : IsQuantile q l w) (hpq : p ≤ q) : v ≤ w := by
  apply hv.least w hw.mem
  exact (mul_le_mul_of_nonneg_right hpq (Nat.cast_nonneg _)).trans hw.enough

/-- The order of the elements does not matter. -/
theorem IsQuantile.perm (hv : IsQuantile p l v) (h : l.Perm l') : IsQuantile p l' v := by
  have hcount : ∀ w, countUpTo l' w = countUpTo l w := fun w => (h.countP_eq _).symm
  constructor
  · exact h.mem_iff.1 hv.mem
  · rw [hcount, ← h.length_eq]
    exact hv.enough
  · intro w hw hle
    rw [hcount, ← h.length_eq] at hle
    exact hv.least w (h.mem_iff.2 hw) hle

/-! ## Sorted lists -/

/-- **Counting and looking up**: more than `i` elements of a sorted list do not exceed `w` exactly
if the one at index `i` does not. -/
theorem lt_countP_iff (hs : s.Pairwise (· ≤ ·)) {i : ℕ} (hi : i < s.length) (w : α) :
    i < countUpTo s w ↔ s[i] ≤ w := by
  induction s generalizing i with
  | nil => cases hi
  | cons x s ih =>
    rw [List.pairwise_cons] at hs
    rw [countUpTo, List.countP_cons]
    by_cases hx : x ≤ w
    · rw [if_pos (decide_eq_true hx)]
      cases i with
      | zero => exact iff_of_true (Nat.succ_pos _) hx
      | succ i =>
        rw [Nat.add_lt_add_iff_right, List.getElem_cons_succ]
        exact ih hs.2 (Nat.lt_of_succ_lt_succ hi)
    · -- every later element exceeds `w` too
      have hlater : ∀ y ∈ x :: s, ¬ y ≤ w := by
        refine List.forall_mem_cons.2 ⟨hx, fun y hy hyw => hx ?_⟩
        exact (hs.1 y hy).trans hyw
      have hzero : s.countP (fun y => decide (y ≤ w)) = 0 := by
        rw [List.countP_eq_zero]
        intro y hy
        simpa using hlater y (List.mem_cons_of_mem x hy)
      rw [hzero, if_neg (by simpa using hx)]
      exact iff_of_false (Nat.not_lt_zero i) (hlater _ (List.getElem_mem hi))

/-- **The quantile of a sorted list.** -/
theorem exists_isQuantile (hs : s.Pairwise (· ≤ ·)) (hne : s ≠ []) (hp : 0 < p) (hp1 : p ≤ 1) :
    1 ≤ ⌈p * s.length⌉₊ ∧ ⌈p * s.length⌉₊ ≤ s.length ∧
      ∃ v, s[⌈p * s.length⌉₊ - 1]? = some v ∧ IsQuantile p s v := by
  have hn : 0 < s.length := List.length_pos_of_ne_nil hne
  have hlow : 1 ≤ ⌈p * s.length⌉₊ := Nat.ceil_pos.2 (mul_pos hp (Nat.cast_pos.2 hn))
  have hhigh : ⌈p * s.length⌉₊ ≤ s.length :=
    Nat.ceil_le.2 (mul_le_of_le_one_left (Nat.cast_nonneg _) hp1)
  have hi : ⌈p * s.length⌉₊ - 1 < s.length := by omega
  have hcount : ∀ w, p * s.length ≤ countUpTo s w ↔ s[⌈p * s.length⌉₊ - 1] ≤ w := by
    intro w
    rw [← lt_countP_iff hs hi, ← Nat.ceil_le]
    omega
  refine ⟨hlow, hhigh, _, List.getElem?_eq_getElem hi, List.getElem_mem hi, ?_, fun w _ hw => ?_⟩
  · exact (hcount _).2 le_rfl
  · exact (hcount w).1 hw

end NearestRank
