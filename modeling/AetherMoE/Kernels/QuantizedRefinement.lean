import AetherMoE.Kernels.QuantizedGemm
import AetherMoE.Kernels.Quantization
import AetherMoE.Kernels.ReferenceGating
import AetherMoE.Lib.Scatter

/-!
# The fused quantized product refines the naive one

In exact arithmetic, over a field.

* **`dequantized_dot_eq`**: a SIMD group computes an entry of the naive product;
  **`quantizedThreadgroup_eq`**: a threadgroup writes its row;
* `QuantizedRefines`: the kernel writes every cell once, and the output is the naive product;
* **`quantized_refines_iff`**: it does exactly if no lane's and no group's counter can wrap.
-/

namespace AetherMoE.Kernels

open Buffers Scatter

variable {R : Type} [Field R] {N D E : ℕ} (x : Matrix (Fin N) (Fin D) R)
  (q : Matrix (Fin D) (Fin E) Int8) (scale : Fin E → R)

/-! ## A threadgroup -/

/-- **One column of one row**: the weights are dequantized as they are multiplied. -/
theorem dequantized_dot_eq {fuel : ℕ} (hD : D + simdWidth ≤ uintSize) (hfuel : D < fuel)
    (hND : N * D < uintSize) (hED : E * D < uintSize) (n : Fin N) (e : Fin E) :
    (simdDot fuel D fun d => do
      let qd ← (rowMajor q.transpose)[uint (e * D + d)]?
      let xd ← (rowMajor x)[uint (n * D) + d]?
      return xd * ((qd.toInt : R) * scale e)) = some (naiveQuantizedMatmul x q scale n e) := by
  rw [naiveQuantizedMatmul, Matrix.mul_apply]
  apply simdDot_eq_sum hD hfuel
  intro d
  rw [getElem?_row x hND, getElem?_cell q.transpose hED]
  rfl

/-- The cells of row `n`, with the values of the naive product. -/
def naiveRow (n : ℕ) : List (ℕ × R) :=
  (List.range E).map fun e => (n * E + e, valueAt (rowMajor (naiveQuantizedMatmul x q scale))
    (n * E + e))

/-- **What a threadgroup writes**, if no counter wraps: its row, in some order. -/
theorem quantizedThreadgroup_eq {fuel : ℕ} (hD : E = 0 ∨ D + simdWidth ≤ uintSize)
    (hE : E + SIMDGROUPS_PER_TG ≤ uintSize) (hfuel : D + E < fuel) (hND : N * D < uintSize)
    (hED : E * D < uintSize) (hNE : N * E < uintSize) {n : ℕ} (hn : n < N) :
    ∃ ws, quantizedThreadgroup fuel (rowMajor x) (rowMajor q.transpose) (List.ofFn scale) N D E n =
      some ws ∧ ws.Perm (naiveRow x q scale n) := by
  have hcolumn : ∀ e < E, (do
      let s ← (List.ofFn scale)[e]?
      simdDot fuel D fun d => do
        let qd ← (rowMajor q.transpose)[uint (e * D + d)]?
        let xd ← (rowMajor x)[uint (n * D) + d]?
        return xd * ((qd.toInt : R) * s)) =
      some (valueAt (rowMajor (naiveQuantizedMatmul x q scale)) (n * E + e)) := by
    intro e he
    have hs : (List.ofFn scale)[e]? = some (scale ⟨e, he⟩) := by
      rw [List.getElem?_ofFn, dif_pos he]
    have hdot := dequantized_dot_eq x q scale (hD.resolve_left (by omega))
      (by omega : D < fuel) hND hED ⟨n, hn⟩ ⟨e, he⟩
    have hcell := getElem?_rowMajor (naiveQuantizedMatmul x q scale) ⟨n, hn⟩ ⟨e, he⟩
    rw [hs, valueAt, hcell]
    exact hdot
  have hfuelE : E < fuel := by omega
  obtain ⟨ws, hws, hperm⟩ := columns_eq hE hfuelE hcolumn
  refine ⟨_, by rw [quantizedThreadgroup, if_neg (not_le.2 hn), hws]; rfl, ?_⟩
  have hcells := hperm.map fun w : ℕ × R => (uint (n * E + w.1), w.2)
  refine hcells.trans (List.Perm.of_eq ?_)
  rw [List.map_map, naiveRow]
  apply List.map_congr_left
  intro e he
  exact Prod.ext (uint_eq ((cell_lt hn (List.mem_range.1 he)).trans hNE)) rfl

/-! ## The launch -/

/-- The call returns, given enough time; the kernel writes every cell of the output once, and in
whatever order the writes arrive, the output is the naive product. -/
def QuantizedRefines : Prop :=
  ∃ fuel₀, ∀ fuel ≥ fuel₀, ∃ ws, fusedQuantizedMatmul fuel x q scale = .ok (some ws) ∧
    (ws.map Prod.fst).Perm (List.range (N * E)) ∧
    ∀ ws' : List (ℕ × R), ws'.Perm ws →
      overwriteAll Prod.fst Prod.snd ws' (List.replicate (N * E) none) =
        (rowMajor (naiveQuantizedMatmul x q scale)).map some

theorem fusedQuantizedMatmul_eq_dispatch (fuel : ℕ) :
    fusedQuantizedMatmul fuel x q scale = .ok (do
      let groups ← (List.range N).mapM (quantizedThreadgroup fuel (rowMajor x)
        (rowMajor q.transpose) (List.ofFn scale) (uint N) (uint D) (uint E))
      return groups.flatten) := by
  rw [fusedQuantizedMatmul, fusedQuantizedMatmulWith, shapeCheck, if_neg (by simp), dispatch_eq]

/-- The rows of the naive product, cell by cell. -/
theorem flatMap_naiveRow :
    (List.range N).flatMap (naiveRow x q scale) = (List.range (N * E)).map fun p =>
      (p, valueAt (rowMajor (naiveQuantizedMatmul x q scale)) p) := by
  rw [← range_mul, List.map_flatMap]
  apply List.flatMap_congr
  intro n _
  rw [List.map_map]
  rfl

/-- Threadgroups that write the rows of the naive product refine it. -/
theorem quantizedRefines_of_rows (fuel₀ : ℕ)
    (h : ∀ fuel ≥ fuel₀, ∀ n < N, ∃ ws, quantizedThreadgroup fuel (rowMajor x)
      (rowMajor q.transpose) (List.ofFn scale) (uint N) (uint D) (uint E) n = some ws ∧
      ws.Perm (naiveRow x q scale n)) : QuantizedRefines x q scale := by
  refine ⟨fuel₀, fun fuel hfuel => ?_⟩
  have hrow : ∀ n, ∃ ws, n < N → quantizedThreadgroup fuel (rowMajor x) (rowMajor q.transpose)
      (List.ofFn scale) (uint N) (uint D) (uint E) n = some ws ∧
      ws.Perm (naiveRow x q scale n) := by
    intro n
    by_cases hn : n < N
    · obtain ⟨ws, hws⟩ := h fuel hfuel n hn
      exact ⟨ws, fun _ => hws⟩
    · exact ⟨[], fun h => absurd h hn⟩
  choose rows hrows using hrow
  have hrun := mapM_eq_map fun n hn => (hrows n (List.mem_range.1 hn)).1
  have hperm : ((List.range N).map rows).flatten.Perm
      ((List.range (N * E)).map fun p =>
        (p, valueAt (rowMajor (naiveQuantizedMatmul x q scale)) p)) := by
    rw [← flatMap_naiveRow, ← List.flatMap_def]
    exact List.Perm.flatMap_left _ fun n hn => (hrows n (List.mem_range.1 hn)).2
  have hkeys : ((List.range (N * E)).map fun p =>
      (p, valueAt (rowMajor (naiveQuantizedMatmul x q scale)) p)).map Prod.fst =
      List.range (N * E) := by
    rw [List.map_map]
    exact List.map_id _
  refine ⟨_, by rw [fusedQuantizedMatmul_eq_dispatch, hrun]; rfl, ?_, fun ws' hws' => ?_⟩
  · rw [← hkeys]
    exact hperm.map Prod.fst
  · have hvalues := map_valueAt_range (rowMajor (naiveQuantizedMatmul x q scale))
    rw [length_rowMajor] at hvalues
    rw [overwriteAll_range hkeys (hws'.trans hperm)]
    simp only [List.map_map, Function.comp_def]
    rw [← hvalues, List.map_map, hvalues]
    rfl

/-- **While no counter wraps**, the kernel refines the naive product. -/
theorem quantizedRefines_of_le (hND : N * D < uintSize) (hED : E * D < uintSize)
    (hNE : N * E < uintSize) (hE : 0 < E) (hDle : D + simdWidth ≤ uintSize)
    (hEle : E + SIMDGROUPS_PER_TG ≤ uintSize) : QuantizedRefines x q scale := by
  refine quantizedRefines_of_rows x q scale (D + E + 1) fun fuel hfuel n hn => ?_
  have hN : N < uintSize := lt_of_le_of_lt (Nat.le_mul_of_pos_right N hE) hNE
  rw [uint_eq hN, uint_eq (n := D) (by unfold simdWidth at hDle; omega),
    uint_eq (n := E) (by unfold SIMDGROUPS_PER_TG at hEle; omega)]
  exact quantizedThreadgroup_eq x q scale (.inr hDle) hEle (by omega) hND hED hNE hn

/-- Without columns there is nothing to write. -/
theorem quantizedRefines_of_eq_zero (hE : E = 0) : QuantizedRefines x q scale := by
  subst hE
  have huint : uint 0 = 0 := rfl
  refine quantizedRefines_of_rows x q scale 1 fun fuel hfuel n _ => ?_
  refine ⟨[], ?_, List.Perm.refl _⟩
  rw [quantizedThreadgroup, huint]
  split_ifs
  · rfl
  · obtain ⟨ws, hws, hperm⟩ := columns_eq (g := fun _ => (0 : R))
      (by decide : 0 + SIMDGROUPS_PER_TG ≤ uintSize) hfuel fun e he => absurd he (Nat.not_lt_zero e)
    rw [hws, List.perm_nil.1 hperm]
    rfl

/-- **When a counter wraps**, the first threadgroup never ends. -/
theorem not_quantizedRefines (hNE : N * E < uintSize) (hN : 0 < N) (hE : 0 < E)
    (hND : N * D < uintSize)
    (hwrap : uintSize < D + simdWidth ∨ uintSize < E + SIMDGROUPS_PER_TG) :
    ¬ QuantizedRefines x q scale := by
  rintro ⟨fuel, h⟩
  obtain ⟨ws, hrun, -⟩ := h fuel le_rfl
  have hNlt : N < uintSize := lt_of_le_of_lt (Nat.le_mul_of_pos_right N hE) hNE
  have hElt : E < uintSize := lt_of_le_of_lt (Nat.le_mul_of_pos_left E hN) hNE
  have hDlt : D < uintSize := lt_of_le_of_lt (Nat.le_mul_of_pos_left D hN) hND
  have hgroup : quantizedThreadgroup fuel (rowMajor x) (rowMajor q.transpose) (List.ofFn scale)
      (uint N) (uint D) (uint E) 0 = none := by
    rw [uint_eq hNlt, uint_eq hDlt, uint_eq hElt, quantizedThreadgroup, if_neg (not_le.2 hN)]
    rcases hwrap with hD | hE'
    · rw [columns_eq_none hE fuel]
      · rfl
      · rw [List.getElem?_ofFn, dif_pos hE]
        exact simdDot_eq_none hD fuel _
    · rw [columns_eq_none_of_lt hE']
      rfl
  rw [fusedQuantizedMatmul_eq_dispatch, mapM_eq_none (List.mem_range.2 hN) hgroup] at hrun
  cases hrun

/-- **The fused quantized product is dequantize-then-multiply exactly if no counter wraps**: for
all sizes the offsets of which fit a `uint`, all inputs and every order in which the writes arrive,
the condition is that the output is empty, or that rows have at most `2 ^ 32 - 32` elements and
there are at most `2 ^ 32 - 8` columns. -/
theorem quantized_refines_iff {R : Type} [Field R] {N D E : ℕ} (hND : N * D < 2 ^ 32)
    (hED : E * D < 2 ^ 32) (hNE : N * E < 2 ^ 32) (x : Matrix (Fin N) (Fin D) R)
    (q : Matrix (Fin D) (Fin E) Int8) (scale : Fin E → R) :
    QuantizedRefines x q scale ↔ N = 0 ∨ E = 0 ∨ (D ≤ 2 ^ 32 - 32 ∧ E ≤ 2 ^ 32 - 8) := by
  constructor
  · intro h
    rw [or_iff_not_imp_left, or_iff_not_imp_left]
    intro hN hE
    by_contra hwrap
    refine not_quantizedRefines x q scale hNE (Nat.pos_of_ne_zero hN) (Nat.pos_of_ne_zero hE) hND
      ?_ h
    unfold uintSize simdWidth SIMDGROUPS_PER_TG
    omega
  · rintro (rfl | hE | ⟨hD, hE⟩)
    · exact quantizedRefines_of_rows x q scale 0 fun _ _ n hn => absurd hn n.not_lt_zero
    · exact quantizedRefines_of_eq_zero x q scale hE
    · obtain rfl | hpos := Nat.eq_zero_or_pos E
      · exact quantizedRefines_of_eq_zero x q scale rfl
      · refine quantizedRefines_of_le x q scale hND hED hNE hpos ?_ ?_
        · unfold uintSize simdWidth
          omega
        · unfold uintSize SIMDGROUPS_PER_TG
          omega

section Examples

/-- One row of two elements, two columns. -/
theorem quantized_refines_iff_two :
    QuantizedRefines (!![1, 2] : Matrix (Fin 1) (Fin 2) ℚ) !![3, 4; 5, 6] ![1, 2] :=
  (quantized_refines_iff (by norm_num) (by norm_num) (by norm_num) _ _ _).2
    (.inr (.inr ⟨by norm_num, by norm_num⟩))

/-- **One row of `2 ^ 32 - 1` elements, one column**: the counter of lane 30 goes from `2 ^ 32 - 2`
back to `30`. -/
theorem not_quantizedRefines_wrapping :
    1 * (2 ^ 32 - 1) < 2 ^ 32 ∧ 1 * 1 < 2 ^ 32 ∧
    ¬ QuantizedRefines (fun _ _ => 0 : Matrix (Fin 1) (Fin (2 ^ 32 - 1)) ℚ)
      (fun _ _ => 0 : Matrix (Fin (2 ^ 32 - 1)) (Fin 1) Int8) (fun _ => 1) := by
  refine ⟨by norm_num, by norm_num, not_quantizedRefines _ _ _ ?_ ?_ ?_ ?_ ?_⟩
  all_goals decide

end Examples

end AetherMoE.Kernels
