import Mathlib.Algebra.Order.Group.Defs
import Mathlib.Algebra.BigOperators.Group.List.Basic
import Mathlib.Tactic.Abel

/-!
# Gaps between consecutive readings

* `gaps`: the differences of consecutive values of a list;
* `gaps_concat`: one more value is one more gap, from the last value;
* **`sum_gaps`**: the gaps add up to the whole distance;
* `gaps_nonneg`: the gaps of a sorted list are non-negative.
-/

namespace Telescoping

variable {α : Type}

/-- The differences of consecutive values, starting from `t`. -/
def gaps [Sub α] : α → List α → List α
  | _, [] => []
  | t, u :: us => (u - t) :: gaps u us

@[simp] theorem length_gaps [Sub α] (t : α) (us : List α) : (gaps t us).length = us.length := by
  induction us generalizing t with
  | nil => rfl
  | cons u us ih => rw [gaps, List.length_cons, ih, List.length_cons]

/-- One more value adds the gap from the last one. -/
theorem gaps_concat [Sub α] (t u : α) (us : List α) :
    gaps t (us ++ [u]) = gaps t us ++ [u - us.getLastD t] := by
  induction us generalizing t with
  | nil => rfl
  | cons v us ih =>
    change (v - t) :: gaps v (us ++ [u]) = (v - t) :: (gaps v us ++ [u - (v :: us).getLastD t])
    rw [ih, List.getLastD_cons]

/-- A gap is the difference of two of the values. -/
theorem mem_gaps [Sub α] {t d : α} {us : List α} (h : d ∈ gaps t us) :
    ∃ a ∈ t :: us, ∃ b ∈ us, d = b - a := by
  induction us generalizing t with
  | nil => cases h
  | cons u us ih =>
    obtain rfl | h := List.mem_cons.1 h
    · exact ⟨t, List.mem_cons_self, u, List.mem_cons_self, rfl⟩
    · obtain ⟨a, ha, b, hb, rfl⟩ := ih h
      exact ⟨a, List.mem_cons_of_mem _ ha, b, List.mem_cons_of_mem _ hb, rfl⟩

/-- **The gaps add up to the distance from the first value to the last.** -/
theorem sum_gaps [AddCommGroup α] (t : α) (us : List α) : (gaps t us).sum = us.getLastD t - t := by
  induction us generalizing t with
  | nil => exact (sub_self t).symm
  | cons u us ih =>
    rw [gaps, List.sum_cons, ih, List.getLastD_cons]
    abel

/-- The gaps of a sorted list are non-negative. -/
theorem gaps_nonneg [AddCommGroup α] [PartialOrder α] [IsOrderedAddMonoid α] {t : α} {us : List α}
    (h : (t :: us).Pairwise (· ≤ ·)) : ∀ d ∈ gaps t us, 0 ≤ d := by
  induction us generalizing t with
  | nil => exact List.forall_mem_nil _
  | cons u us ih =>
    obtain ⟨hle, hrest⟩ := List.pairwise_cons.1 h
    exact List.forall_mem_cons.2 ⟨sub_nonneg.2 (hle u List.mem_cons_self), ih hrest⟩

end Telescoping
