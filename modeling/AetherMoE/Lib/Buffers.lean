import Mathlib.Data.List.Basic
import Mathlib.Data.List.OfFn
import Mathlib.LinearAlgebra.Matrix.Defs

/-!
# Flat buffers

* `rowMajor`: a matrix laid out row after row; **`getElem?_rowMajor`**: the cell of an entry;
* `Array2`: a matrix with its shape;
* `range_mul`: the cells of a buffer, row by row;
* `mapM_eq_map`, `mapM_eq_none`, `filterMap_eq_map`: a list of reads, and whether each succeeds.
-/

namespace Buffers

variable {α β : Type}

/-- The entries of a matrix, row after row. -/
def rowMajor {m n : ℕ} (M : Matrix (Fin m) (Fin n) α) : List α :=
  List.ofFn fun i : Fin (m * n) => M i.divNat i.modNat

@[simp] theorem length_rowMajor {m n : ℕ} (M : Matrix (Fin m) (Fin n) α) :
    (rowMajor M).length = m * n := List.length_ofFn

/-- A matrix with its shape. -/
structure Array2 (α : Type) where
  rows : ℕ
  cols : ℕ
  entries : Matrix (Fin rows) (Fin cols) α

/-- The transpose, as an array of its own. -/
def Array2.transpose (A : Array2 α) : Array2 α := ⟨A.cols, A.rows, A.entries.transpose⟩

theorem Array2.transpose_injective : Function.Injective (transpose : Array2 α → Array2 α) := by
  intro A B h
  exact congrArg transpose h

/-- A row and a column make a cell. -/
theorem cell_lt {m n i j : ℕ} (hi : i < m) (hj : j < n) : i * n + j < m * n :=
  calc i * n + j < i * n + n := Nat.add_lt_add_left hj _
    _ = (i + 1) * n := (Nat.succ_mul i n).symm
    _ ≤ m * n := Nat.mul_le_mul_right n hi

theorem getElem?_rowMajor {m n : ℕ} (M : Matrix (Fin m) (Fin n) α) (i : Fin m) (j : Fin n) :
    (rowMajor M)[(i : ℕ) * n + j]? = some (M i j) := by
  have hn : 0 < n := Nat.pos_of_ne_zero fun h => by subst h; exact j.elim0
  rw [rowMajor, List.getElem?_ofFn, dif_pos (cell_lt i.2 j.2)]
  congr 2
  · ext
    change ((i : ℕ) * n + j) / n = i
    rw [Nat.mul_comm, Nat.mul_add_div hn, Nat.div_eq_of_lt j.2, Nat.add_zero]
  · ext
    change ((i : ℕ) * n + j) % n = j
    rw [Nat.mul_comm, Nat.mul_add_mod, Nat.mod_eq_of_lt j.2]

/-- The cells of `m` rows of `n` cells each. -/
theorem range_mul (m n : ℕ) :
    (List.range m).flatMap (fun i => (List.range n).map fun j => i * n + j) =
      List.range (m * n) := by
  induction m with
  | zero => rw [Nat.zero_mul]; rfl
  | succ m ih =>
    rw [List.range_succ, List.flatMap_append, ih, Nat.succ_mul, List.range_add,
      List.flatMap_singleton]

theorem mapM_eq_map {l : List α} {f : α → Option β} {g : α → β} (h : ∀ a ∈ l, f a = some (g a)) :
    l.mapM f = some (l.map g) := by
  induction l with
  | nil => rfl
  | cons a l ih =>
    rw [List.forall_mem_cons] at h
    rw [List.mapM_cons, h.1, ih h.2]
    rfl

theorem filterMap_eq_map {l : List α} {f : α → Option β} {g : α → β}
    (h : ∀ a ∈ l, f a = some (g a)) : l.filterMap f = l.map g := by
  rw [← List.filterMap_eq_map]
  exact List.filterMap_congr h

theorem mapM_eq_none {l : List α} {f : α → Option β} {a : α} (ha : a ∈ l) (h : f a = none) :
    l.mapM f = none := by
  induction l with
  | nil => cases ha
  | cons b l ih =>
    rw [List.mapM_cons]
    rcases List.mem_cons.1 ha with rfl | ha
    · rw [h]
      rfl
    · rw [ih ha]
      cases f b <;> rfl

end Buffers
