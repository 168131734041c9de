import AetherMoE.Kernels.QuantizedRefinement

/-!
# The error of a quantized product

From the weights to the output of the kernel: `quantize_weights` or the prototype's
`quantize_int8`, then `fused_quantized_matmul` or the prototype's `quantized_matmul_perentry`, in
exact arithmetic over an ordered field.

* `quantizeInt8`, `dequantizeInt8`, `quantizedMatmulPerentry`: the functions of `math_proto.py`;
* `abs_mul_sub_mul_le`: the error of a product whose second factor is known up to a bound for each
  column;
* **`quantized_error`**: every entry of the output is within half of its column's scale, times the
  magnitudes of its row, of the product with the original weights.
-/

namespace AetherMoE.Kernels

open Buffers Scatter

/-! ## The prototype -/

section Definitions

variable {R : Type} [Field R] [LinearOrder R] {N D E : ℕ}

/-- `quantize_int8` along the rows: line by line `quantize_weights`. -/
def quantizeInt8 [FloorRing R] (weight : Matrix (Fin D) (Fin E) R) :
    Option (Matrix (Fin D) (Fin E) Int8 × (Fin E → R)) :=
  quantizeWeights weight

/-- `dequantize_int8`: line by line `dequantize_naive`. -/
def dequantizeInt8 (q : Matrix (Fin D) (Fin E) Int8) (scale : Fin E → R) :
    Matrix (Fin D) (Fin E) R :=
  dequantizeNaive q scale

omit [LinearOrder R] in
/-- `quantized_matmul_perentry`: each weight is dequantized as it is multiplied. -/
def quantizedMatmulPerentry (x : Matrix (Fin N) (Fin D) R) (q : Matrix (Fin D) (Fin E) Int8)
    (scale : Fin E → R) : Matrix (Fin N) (Fin E) R :=
  Matrix.of fun n e =>
    (List.finRange D).foldl (fun acc d => acc + x n d * (((q d e).toInt : R) * scale e)) 0

end Definitions

section Products

variable {R : Type} [Field R] {N D E : ℕ}

/-- Dequantizing at the multiplication is dequantizing first. -/
theorem quantizedMatmulPerentry_eq (x : Matrix (Fin N) (Fin D) R)
    (q : Matrix (Fin D) (Fin E) Int8) (scale : Fin E → R) :
    quantizedMatmulPerentry x q scale = x * dequantizeInt8 q scale := by
  ext n e
  rw [Matrix.mul_apply, Fin.sum_univ_def, List.sum_eq_foldl, List.foldl_map]
  rfl

variable [LinearOrder R] [IsStrictOrderedRing R]

/-- **The error of a product.** -/
theorem abs_mul_sub_mul_le {x : Matrix (Fin N) (Fin D) R} {v w : Matrix (Fin D) (Fin E) R}
    {n : Fin N} {e : Fin E} {b : R} (h : ∀ d, |w d e - v d e| ≤ b) :
    |(x * v) n e - (x * w) n e| ≤ (∑ d, |x n d|) * b := by
  have hdiff : (x * v) n e - (x * w) n e = ∑ d, x n d * (v d e - w d e) := by
    rw [Matrix.mul_apply, Matrix.mul_apply, ← Finset.sum_sub_distrib]
    exact Finset.sum_congr rfl fun d _ => (mul_sub _ _ _).symm
  calc |(x * v) n e - (x * w) n e|
      ≤ ∑ d, |x n d * (v d e - w d e)| := by
        rw [hdiff]
        exact Finset.abs_sum_le_sum_abs _ _
    _ ≤ ∑ d, |x n d| * b := by
        refine Finset.sum_le_sum fun d _ => ?_
        rw [abs_mul, abs_sub_comm]
        exact mul_le_mul_of_nonneg_left (h d) (abs_nonneg _)
    _ = (∑ d, |x n d|) * b := (Finset.sum_mul _ _ _).symm

end Products

/-- **The error of the quantized product, from the weights to the output of the kernel.** For all
sizes the offsets of which fit a `uint` and in which no counter wraps, all weights with at least one
row and all inputs: the weights are quantized, the kernel writes every cell once, and whatever order
the writes arrive in, the output is the product of the prototype, and each entry is within half of
the scale of its column, times the sum of the magnitudes of its row of `x`, of the product with the
original weights. -/
theorem quantized_error {R : Type} [Field R] [LinearOrder R] [IsStrictOrderedRing R] [FloorRing R]
    {N D E : ℕ} (hpos : 0 < D) (hD : D ≤ 2 ^ 32 - 32) (hE : E ≤ 2 ^ 32 - 8) (hND : N * D < 2 ^ 32)
    (hED : E * D < 2 ^ 32) (hNE : N * E < 2 ^ 32) (x : Matrix (Fin N) (Fin D) R)
    (w : Matrix (Fin D) (Fin E) R) :
    ∃ q, quantizeWeights w = some (q, columnScale w hpos) ∧
      quantizeInt8 w = some (q, columnScale w hpos) ∧
      ∃ fuel₀, ∀ fuel ≥ fuel₀, ∃ ws,
        fusedQuantizedMatmul fuel x q (columnScale w hpos) = .ok (some ws) ∧
        (ws.map Prod.fst).Perm (List.range (N * E)) ∧
        ∀ ws' : List (ℕ × R), ws'.Perm ws → ∃ out : Matrix (Fin N) (Fin E) R,
          overwriteAll Prod.fst Prod.snd ws' (List.replicate (N * E) none) =
            (rowMajor out).map some ∧
          out = quantizedMatmulPerentry x q (columnScale w hpos) ∧
          ∀ n e, |out n e - (x * w) n e| ≤ (∑ d, |x n d|) * (columnScale w hpos e / 2) := by
  have hrefines : QuantizedRefines x (quantized w hpos) (columnScale w hpos) := by
    rcases Nat.eq_zero_or_pos E with hzero | hEpos
    · exact quantizedRefines_of_eq_zero _ _ _ hzero
    · refine quantizedRefines_of_le _ _ _ hND hED hNE hEpos ?_ ?_
      · unfold uintSize simdWidth
        omega
      · unfold uintSize SIMDGROUPS_PER_TG
        omega
  obtain ⟨fuel₀, hrun⟩ := hrefines
  refine ⟨quantized w hpos, quantizeWeights_eq w hpos, quantizeWeights_eq w hpos, fuel₀,
    fun fuel hfuel => ?_⟩
  obtain ⟨ws, hws, hkeys, hout⟩ := hrun fuel hfuel
  refine ⟨ws, hws, hkeys, fun ws' hperm => ⟨_, hout ws' hperm, ?_, fun n e => ?_⟩⟩
  · rw [quantizedMatmulPerentry_eq]
    rfl
  · exact abs_mul_sub_mul_le fun d => abs_sub_quantized_mul_le w hpos d e

/-- One row of two elements, one column. -/
theorem quantized_error_column : ∃ q fuel ws,
    quantizeWeights (!![127; 1 / 2] : Matrix (Fin 2) (Fin 1) ℚ) =
      some (q, columnScale !![127; 1 / 2] two_pos) ∧
    fusedQuantizedMatmul fuel (!![0, 1] : Matrix (Fin 1) (Fin 2) ℚ) q
      (columnScale !![127; 1 / 2] two_pos) = .ok (some ws) := by
  obtain ⟨q, hq, -, fuel, hrun⟩ := quantized_error (N := 1) two_pos (by norm_num) (by norm_num)
    (by norm_num) (by norm_num) (by norm_num) !![0, 1] (!![127; 1 / 2] : Matrix (Fin 2) (Fin 1) ℚ)
  obtain ⟨ws, hws, -⟩ := hrun fuel le_rfl
  exact ⟨q, fuel, ws, hq, hws⟩

end AetherMoE.Kernels
