import AetherMoE.Lib.Buffers
import AetherMoE.Lib.Selection
import Mathlib.Algebra.Order.Ring.Defs
import Mathlib.Algebra.Field.Defs
import Mathlib.Data.List.Sort
import Mathlib.Data.Matrix.Mul

/-!
# Reference gating

`reference_gating` of `reference_gating.py`, over a type `R` of numbers and an exponential. The
array operations of MLX are what its documentation says: `@` is the matrix product, `argsort` some
permutation that sorts, `softmax` the quotient of exponentials.

* `Argsort`, `softmax`, `gatingLogits`, `referenceGating`;
* `nthLargest`: the values of a row in descending order;
* **`Argsort.greedy`**: the first indices of the order are a selection of largest logits.
-/

namespace AetherMoE.Kernels

open Selection Buffers

/-! ## The operations -/

/-- `mx.argsort` of a row: some permutation of its indices that sorts its values ascending. -/
structure Argsort (R : Type) [LinearOrder R] where
  order : List R → List ℕ
  perm : ∀ l, (order l).Perm (List.range l.length)
  sorted : ∀ l, ((order l).filterMap fun i => l[i]?).Pairwise (· ≤ ·)

section Definitions

variable {R : Type} [Field R] {N D E : ℕ}

/-- `mx.softmax` of a row. -/
def softmax (exp : R → R) (xs : List R) : List R := xs.map fun x => exp x / (xs.map exp).sum

/-- A row of `hidden @ gate_weight + gate_bias`. -/
def gatingLogits (hidden : Matrix (Fin N) (Fin D) R) (gateWeight : Matrix (Fin D) (Fin E) R)
    (gateBias : Fin E → R) (n : Fin N) : List R :=
  List.ofFn fun e => (hidden * gateWeight) n e + gateBias e

@[simp] theorem length_gatingLogits (hidden : Matrix (Fin N) (Fin D) R)
    (gateWeight : Matrix (Fin D) (Fin E) R) (gateBias : Fin E → R) (n : Fin N) :
    (gatingLogits hidden gateWeight gateBias n).length = E := List.length_ofFn

/-- `mx.take_along_axis` of a row. -/
def takeAlong (xs : List R) (idx : List ℕ) : List R := idx.filterMap fun i => xs[i]?

variable [LinearOrder R]

/-- `reference_gating`: a row of `topk_idx` and a row of `topk_val`. -/
def referenceGating (exp : R → R) (argsort : Argsort R) (hidden : Matrix (Fin N) (Fin D) R)
    (gateWeight : Matrix (Fin D) (Fin E) R) (gateBias : Fin E → R) (k : ℕ) (n : Fin N) :
    List ℤ × List R :=
  let logits := gatingLogits hidden gateWeight gateBias n
  let order := argsort.order (logits.map fun x => -x)
  let topkIdx := order.take k
  let topkLogits := takeAlong logits topkIdx
  (topkIdx.map Int.ofNat, softmax exp topkLogits)

/-- The `j`-th largest value of a row, from `0` on. -/
def nthLargest (xs : List R) (j : ℕ) : Option R := (xs.mergeSort fun a b => decide (b ≤ a))[j]?

end Definitions

/-! ## The order of a row -/

section Order

variable {R : Type} [Field R]

/-- The value of a row at an index. -/
def valueAt (xs : List R) (i : ℕ) : R := xs[i]?.getD 0

theorem getElem?_eq_valueAt {xs : List R} {i : ℕ} (h : i < xs.length) :
    xs[i]? = some (valueAt xs i) := by
  rw [valueAt, List.getElem?_eq_getElem h, Option.getD_some]

theorem takeAlong_eq {xs : List R} {idx : List ℕ} (h : ∀ i ∈ idx, i < xs.length) :
    takeAlong xs idx = idx.map (valueAt xs) := by
  exact filterMap_eq_map fun i hi => getElem?_eq_valueAt (h i hi)

theorem map_valueAt_range (xs : List R) : (List.range xs.length).map (valueAt xs) = xs := by
  apply List.ext_getElem?
  intro i
  rw [List.getElem?_map]
  by_cases h : i < xs.length
  · rw [List.getElem?_range h, getElem?_eq_valueAt h]
    rfl
  · rw [List.getElem?_eq_none (by simpa using h), List.getElem?_eq_none (not_lt.1 h)]
    rfl

variable [LinearOrder R]

/-- The order of a merge sort. -/
def Argsort.ofMergeSort : Argsort R where
  order xs := (List.range xs.length).mergeSort fun i j => decide (valueAt xs i ≤ valueAt xs j)
  perm xs := List.mergeSort_perm _ _
  sorted xs := by
    have hlt : ∀ i ∈ (List.range xs.length).mergeSort
        (fun i j => decide (valueAt xs i ≤ valueAt xs j)), xs[i]? = some (valueAt xs i) := by
      intro i hi
      exact getElem?_eq_valueAt (List.mem_range.1 (List.mem_mergeSort.1 hi))
    rw [filterMap_eq_map hlt, List.pairwise_map]
    have hsorted := @List.pairwise_mergeSort _ (fun i j => decide (valueAt xs i ≤ valueAt xs j))
      (fun i j l hij hjl => by simpa using (of_decide_eq_true hij).trans (of_decide_eq_true hjl))
      (fun i j => by simpa using le_total (valueAt xs i) (valueAt xs j)) (List.range xs.length)
    exact hsorted.imp fun h => of_decide_eq_true h

variable (argsort : Argsort R) (xs : List R)

/-- `argsort(-logits)`. -/
def Argsort.descending : List ℕ := argsort.order (xs.map fun x => -x)

theorem Argsort.descending_perm : (argsort.descending xs).Perm (List.range xs.length) := by
  have h := argsort.perm (xs.map fun x => -x)
  rwa [List.length_map] at h

@[simp] theorem Argsort.length_descending : (argsort.descending xs).length = xs.length := by
  rw [(argsort.descending_perm xs).length_eq, List.length_range]

theorem Argsort.descending_lt : ∀ i ∈ argsort.descending xs, i < xs.length := by
  intro i hi
  exact List.mem_range.1 ((argsort.descending_perm xs).subset hi)

variable [IsStrictOrderedRing R]

/-- The values of a row in this order descend. -/
theorem Argsort.descending_sorted :
    ((argsort.descending xs).map (valueAt xs)).Pairwise (· ≥ ·) := by
  have hneg : (argsort.descending xs).filterMap (fun i => (xs.map fun x => -x)[i]?) =
      ((argsort.descending xs).map (valueAt xs)).map fun x => -x := by
    rw [List.map_map]
    apply filterMap_eq_map
    intro i hi
    rw [List.getElem?_map, getElem?_eq_valueAt (argsort.descending_lt xs i hi)]
    rfl
  have hsorted := argsort.sorted (xs.map fun x => -x)
  rw [← Argsort.descending, hneg, List.pairwise_map] at hsorted
  exact hsorted.imp fun h => neg_le_neg_iff.1 h

/-- **The order is a selection of largest values.** -/
theorem Argsort.greedy :
    Greedy (valueAt xs) (Finset.range xs.length) (argsort.descending xs) := by
  have hperm := argsort.descending_perm xs
  have hset : (argsort.descending xs).toFinset = Finset.range xs.length := by
    ext i
    rw [List.mem_toFinset, hperm.mem_iff, List.mem_range, Finset.mem_range]
  rw [← hset]
  refine Greedy.of_sorted (hperm.nodup_iff.2 List.nodup_range) ?_
  exact List.pairwise_map.1 (argsort.descending_sorted xs)

/-- So are the first `k` of it. -/
theorem Argsort.greedy_take (k : ℕ) :
    Greedy (valueAt xs) (Finset.range xs.length) ((argsort.descending xs).take k) := by
  have h := argsort.greedy xs
  rw [← List.take_append_drop k (argsort.descending xs)] at h
  exact (greedy_append.1 h).1

theorem Argsort.nthLargest_eq (j : ℕ) :
    nthLargest xs j = (argsort.descending xs)[j]?.map (valueAt xs) := by
  have hperm : ((argsort.descending xs).map (valueAt xs)).Perm xs := by
    have h := (argsort.descending_perm xs).map (valueAt xs)
    rwa [map_valueAt_range] at h
  have heq : xs.mergeSort (fun a b => decide (b ≤ a)) =
      (argsort.descending xs).map (valueAt xs) := by
    refine List.Perm.eq_of_pairwise' (List.pairwise_mergeSort' (· ≥ ·) xs)
      (argsort.descending_sorted xs) ?_
    exact (List.mergeSort_perm xs _).trans hperm.symm
  rw [nthLargest, heq, List.getElem?_map]

end Order

end AetherMoE.Kernels
