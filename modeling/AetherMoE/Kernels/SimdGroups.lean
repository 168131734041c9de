import AetherMoE.Lib.Buffers
import AetherMoE.Lib.Strided
import Mathlib.Algebra.BigOperators.Fin
import Mathlib.Algebra.Order.Floor.Div
import Mathlib.Algebra.Ring.Defs

/-!
# SIMD groups

What the two Metal kernels share. A threadgroup has `SIMDGROUPS_PER_TG` SIMD groups of 32 lanes: the
thread with local index `i` is lane `i % 32` of group `i / 32`. A group owns one column at a time;
its lanes split the dot product of the column between them. Counters and offsets are 32-bit `uint`s.
A thread that does not leave its loop, or reads where nothing is, leaves its group without a result.

* `lanePartial`, `simdDot`: one lane's share of a dot product, and the sum over the lanes;
* `simdGroup`: the columns of one group; `columns`: those of a threadgroup; `dispatch`;
* **`simdDot_eq`**, **`simdDot_eq_none`**: the dot product, exactly if no lane's counter wraps;
* **`columns_eq`**, **`columns_eq_none`**: every column is computed once, unless one has no result
  or a group's counter wraps;
* `getElem?_row`, `getElem?_cell`: what a lane reads.
-/

namespace AetherMoE.Kernels

open Strided Buffers

/-- `SIMDGROUPS_PER_TG`, of both kernels. -/
def SIMDGROUPS_PER_TG : ℕ := 8

/-- The width of a SIMD group. -/
def simdWidth : ℕ := 32

/-- The values of a `uint`. -/
def uintSize : ℕ := 2 ^ 32

/-- A number as a `uint`. -/
def uint (n : ℕ) : ℕ := n % uintSize

theorem uint_eq {n : ℕ} (h : n < uintSize) : uint n = n := Nat.mod_eq_of_lt h

section Dot

variable {R : Type} [Semiring R]

/-- `for (uint d = lane; d < D; d += 32u) partial += ...`. -/
def lanePartial (fuel D : ℕ) (term : ℕ → Option R) (lane : ℕ) : Option R :=
  loop uintSize simdWidth D (fun d acc => do let t ← term d; return acc + t) fuel lane 0

/-- `simd_sum(partial)`, which waits for every lane. -/
def simdDot (fuel D : ℕ) (term : ℕ → Option R) : Option R := do
  let partials ← (List.range simdWidth).mapM (lanePartial fuel D term)
  return partials.sum

/-- The sum of a list of reads. -/
theorem foldlM_add {l : List ℕ} {term : ℕ → Option R} {g : ℕ → R}
    (h : ∀ d ∈ l, term d = some (g d)) (acc : R) :
    l.foldlM (fun acc d => do let t ← term d; return acc + t) acc = some (acc + (l.map g).sum) := by
  induction l generalizing acc with
  | nil => simp
  | cons d l ih =>
    rw [List.forall_mem_cons] at h
    rw [List.foldlM_cons, h.1, List.map_cons, List.sum_cons, ← add_assoc]
    exact ih h.2 (acc + g d)

/-- **The lanes together compute the dot product.** -/
theorem simdDot_eq {fuel D : ℕ} (hD : D + simdWidth ≤ uintSize) (hfuel : D < fuel)
    {term : ℕ → Option R} {g : ℕ → R} (h : ∀ d < D, term d = some (g d)) :
    simdDot fuel D term = some ((List.range D).map g).sum := by
  have hw : 0 < simdWidth := by decide
  have hlane : ∀ lane ∈ List.range simdWidth,
      lanePartial fuel D term lane = some ((visits simdWidth D lane).map g).sum := by
    intro lane hlane
    rw [lanePartial, loop_eq hw hD (by omega), foldlM_add (g := g), zero_add]
    intro d hd
    exact h d ((mem_visits hw (List.mem_range.1 hlane)).1 hd).1
  rw [simdDot, mapM_eq_map hlane]
  have hperm := (flatMap_visits_perm hw D).map g
  rw [List.map_flatMap] at hperm
  change some _ = some _
  rw [← hperm.sum_eq, List.flatMap_def, List.sum_flatten, List.map_map]
  rfl

/-- The dot product, as a sum over the indices of a row. -/
theorem simdDot_eq_sum {fuel D : ℕ} (hD : D + simdWidth ≤ uintSize) (hfuel : D < fuel)
    {term : ℕ → Option R} {f : Fin D → R} (h : ∀ d : Fin D, term d = some (f d)) :
    simdDot fuel D term = some (∑ d, f d) := by
  let g : ℕ → R := fun d => if hd : d < D then f ⟨d, hd⟩ else 0
  have hg : ∀ d : Fin D, g d = f d := fun d => dif_pos d.2
  have hterm : ∀ d < D, term d = some (g d) := by
    intro d hd
    rw [h ⟨d, hd⟩, hg ⟨d, hd⟩]
  rw [simdDot_eq hD hfuel hterm, ← List.sum_ofFn]
  congr 2
  apply List.ext_getElem
  · simp
  · intro d hd hd'
    simp [← hg]

/-- A lane whose counter wraps keeps its group waiting. -/
theorem simdDot_eq_none {D : ℕ} (hD : uintSize < D + simdWidth) (fuel : ℕ)
    (term : ℕ → Option R) : simdDot fuel D term = none := by
  have hw : 0 < simdWidth := by decide
  have hlane : lanePartial fuel D term ((D - 1) % simdWidth) = none := by
    refine loop_diverges (by decide) hD fuel ?_ (Nat.mod_modEq _ _) 0
    exact (Nat.mod_lt _ hw).trans (by decide)
  rw [simdDot, mapM_eq_none (List.mem_range.2 (Nat.mod_lt (D - 1) hw)) hlane]
  rfl

end Dot

section Columns

variable {β : Type}

/-- A dispatch of `grid` threads in groups of `group`: the writes of all threadgroups. -/
def dispatch (grid group : ℕ) (threadgroup : ℕ → Option (List β)) : Option (List β) := do
  let groups ← (List.range (grid ⌈/⌉ group)).mapM threadgroup
  return groups.flatten

/-- `for (uint e = sg; e < E; e += SIMDGROUPS_PER_TG)`: the results that lane 0 of a SIMD group
writes, with their columns. -/
def simdGroup (fuel E : ℕ) (column : ℕ → Option β) (sg : ℕ) : Option (List (ℕ × β)) :=
  loop uintSize SIMDGROUPS_PER_TG E
    (fun e ws => do let x ← column e; return ws ++ [(e, x)]) fuel sg []

/-- The results that the SIMD groups of a threadgroup write. -/
def columns (fuel E : ℕ) (column : ℕ → Option β) : Option (List (ℕ × β)) := do
  let groups ← (List.range SIMDGROUPS_PER_TG).mapM (simdGroup fuel E column)
  return groups.flatten

theorem foldlM_snoc {l : List ℕ} {column : ℕ → Option β} {g : ℕ → β}
    (h : ∀ e ∈ l, column e = some (g e)) (ws : List (ℕ × β)) :
    l.foldlM (fun ws e => do let x ← column e; return ws ++ [(e, x)]) ws =
      some (ws ++ l.map fun e => (e, g e)) := by
  induction l generalizing ws with
  | nil => simp
  | cons e l ih =>
    rw [List.forall_mem_cons] at h
    rw [List.foldlM_cons, h.1, List.map_cons, List.append_cons]
    exact ih h.2 (ws ++ [(e, g e)])

/-- **Every column is computed once**, in some order. -/
theorem columns_eq {fuel E : ℕ} (hE : E + SIMDGROUPS_PER_TG ≤ uintSize) (hfuel : E < fuel)
    {column : ℕ → Option β} {g : ℕ → β} (h : ∀ e < E, column e = some (g e)) :
    ∃ ws, columns fuel E column = some ws ∧
      ws.Perm ((List.range E).map fun e => (e, g e)) := by
  have hw : 0 < SIMDGROUPS_PER_TG := by decide
  have hgroup : ∀ sg ∈ List.range SIMDGROUPS_PER_TG, simdGroup fuel E column sg =
      some ((visits SIMDGROUPS_PER_TG E sg).map fun e => (e, g e)) := by
    intro sg hsg
    rw [simdGroup, loop_eq hw hE (by omega), foldlM_snoc (g := g), List.nil_append]
    intro e he
    exact h e ((mem_visits hw (List.mem_range.1 hsg)).1 he).1
  refine ⟨_, by rw [columns, mapM_eq_map hgroup]; rfl, ?_⟩
  rw [← List.flatMap_def, ← List.map_flatMap]
  exact (flatMap_visits_perm hw E).map _

/-- A column without a result leaves the threadgroup without one. -/
theorem columns_eq_none {E : ℕ} (hE : 0 < E) (fuel : ℕ) {column : ℕ → Option β}
    (h : column 0 = none) : columns fuel E column = none := by
  have hgroup : simdGroup fuel E column 0 = none := by
    cases fuel with
    | zero => rfl
    | succ fuel =>
      rw [simdGroup, loop, if_pos hE, h]
      rfl
  rw [columns, mapM_eq_none (List.mem_range.2 (by decide)) hgroup]
  rfl

/-- So does a column counter that wraps. -/
theorem columns_eq_none_of_lt {E : ℕ} (hE : uintSize < E + SIMDGROUPS_PER_TG) (fuel : ℕ)
    (column : ℕ → Option β) : columns fuel E column = none := by
  have hw : 0 < SIMDGROUPS_PER_TG := by decide
  have hgroup : simdGroup fuel E column ((E - 1) % SIMDGROUPS_PER_TG) = none := by
    refine loop_diverges (by decide) hE fuel ?_ (Nat.mod_modEq _ _) []
    exact (Nat.mod_lt _ hw).trans (by decide)
  rw [columns, mapM_eq_none (List.mem_range.2 (Nat.mod_lt (E - 1) hw)) hgroup]
  rfl

/-- The grid of both kernels has one threadgroup for each row. -/
theorem dispatch_eq (N : ℕ) (threadgroup : ℕ → Option (List β)) :
    dispatch (N * SIMDGROUPS_PER_TG * simdWidth) (SIMDGROUPS_PER_TG * simdWidth) threadgroup =
      (do let groups ← (List.range N).mapM threadgroup; return groups.flatten) := by
  have hcount : (N * SIMDGROUPS_PER_TG * simdWidth) ⌈/⌉ (SIMDGROUPS_PER_TG * simdWidth) = N := by
    rw [Nat.ceilDiv_eq_add_pred_div]
    unfold SIMDGROUPS_PER_TG simdWidth
    omega
  rw [dispatch, hcount]

end Columns

section Reads

variable {α : Type} {N D E : ℕ}

/-- An entry of the row of a threadgroup. -/
theorem getElem?_row (x : Matrix (Fin N) (Fin D) α) (hND : N * D < uintSize) (n : Fin N)
    (d : Fin D) : (rowMajor x)[uint (n * D) + d]? = some (x n d) := by
  have hn : (n : ℕ) * D < uintSize := lt_of_le_of_lt (Nat.mul_le_mul_right D n.2.le) hND
  rw [uint_eq hn]
  exact getElem?_rowMajor x n d

/-- An entry of the transposed weights. -/
theorem getElem?_cell (w : Matrix (Fin E) (Fin D) α) (hED : E * D < uintSize) (e : Fin E)
    (d : Fin D) : (rowMajor w)[uint (e * D + d)]? = some (w e d) := by
  rw [uint_eq ((cell_lt e.2 d.2).trans hED)]
  exact getElem?_rowMajor w e d

end Reads

end AetherMoE.Kernels
