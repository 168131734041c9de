import AetherMoE.Lib.Rounding
import Mathlib.Data.Finset.Lattice.Fold
import Mathlib.Data.Fintype.Basic
import Mathlib.Data.Rat.Floor
import Mathlib.LinearAlgebra.Matrix.Notation
import Mathlib.Tactic.Positivity

/-!
# Quantized weights

`quantize_weights`, `dequantize_naive` and `naive_quantized_matmul` of `quantized_gemm.py`, in exact
arithmetic over an ordered field `R`. A column is divided by its scale, the largest magnitude in it
over 127 or the floor `1e-12` if that is larger, and rounded.

* `columnMax`, `columnScale`, `quantizeWeights`, `dequantizeNaive`, `naiveQuantizedMatmul`;
* `abs_div_columnScale_le`: what is rounded is within 127 already;
* `columnScale_dequantizeNaive`: a column and its dequantization have the same scale;
* **`quantizeWeights_contract`**: the clip does nothing, the error is at most half the scale, and
  quantizing again changes nothing.
-/

namespace AetherMoE.Kernels

open Rounding

variable {R : Type} [Field R] [LinearOrder R] {D E : ℕ}

/-- `mx.abs(w).max(axis=0)` in column `e`. -/
def columnMax (w : Matrix (Fin D) (Fin E) R) (hD : 0 < D) (e : Fin E) : R :=
  Finset.univ.sup' ⟨⟨0, hD⟩, Finset.mem_univ _⟩ fun d => |w d e|

/-- The scale of column `e`. -/
def columnScale (w : Matrix (Fin D) (Fin E) R) (hD : 0 < D) (e : Fin E) : R :=
  max (columnMax w hD e / 127) (1 / 10 ^ 12)

/-- `mx.clip`. -/
def clip (n low high : ℤ) : ℤ :=
  min (max n low) high

/-- `quantize_weights`. The maximum over no rows is an error. -/
def quantizeWeights [FloorRing R] (w : Matrix (Fin D) (Fin E) R) :
    Option (Matrix (Fin D) (Fin E) Int8 × (Fin E → R)) :=
  if hD : 0 < D then
    let scale := columnScale w hD
    let q := Matrix.of fun d e => roundHalfEven (w d e / scale e)
    some (q.map fun n => Int8.ofInt (clip n (-127) 127), scale)
  else none

/-- `dequantize_naive`. -/
def dequantizeNaive (q : Matrix (Fin D) (Fin E) Int8) (scale : Fin E → R) :
    Matrix (Fin D) (Fin E) R :=
  Matrix.of fun d e => ((q d e).toInt : R) * scale e

/-- `naive_quantized_matmul`. -/
def naiveQuantizedMatmul {N : ℕ} (x : Matrix (Fin N) (Fin D) R) (q : Matrix (Fin D) (Fin E) Int8)
    (scale : Fin E → R) : Matrix (Fin N) (Fin E) R :=
  x * dequantizeNaive q scale

theorem clip_eq_self {n low high : ℤ} (hlow : low ≤ n) (hhigh : n ≤ high) :
    clip n low high = n := by
  rw [clip, max_eq_left hlow, min_eq_left hhigh]

/-! ## The scale of a column -/

theorem abs_le_columnMax (w : Matrix (Fin D) (Fin E) R) (hD : 0 < D) (d : Fin D) (e : Fin E) :
    |w d e| ≤ columnMax w hD e :=
  Finset.le_sup' (fun d => |w d e|) (Finset.mem_univ d)

theorem exists_abs_eq_columnMax (w : Matrix (Fin D) (Fin E) R) (hD : 0 < D) (e : Fin E) :
    ∃ d, |w d e| = columnMax w hD e := by
  obtain ⟨d, -, hd⟩ := Finset.exists_mem_eq_sup' ⟨⟨0, hD⟩, Finset.mem_univ _⟩ fun d => |w d e|
  exact ⟨d, hd.symm⟩

variable [IsStrictOrderedRing R]

theorem columnScale_pos (w : Matrix (Fin D) (Fin E) R) (hD : 0 < D) (e : Fin E) :
    0 < columnScale w hD e :=
  lt_max_of_lt_right (by positivity)

theorem columnMax_le (w : Matrix (Fin D) (Fin E) R) (hD : 0 < D) (e : Fin E) :
    columnMax w hD e ≤ 127 * columnScale w hD e := by
  have h : columnMax w hD e / 127 ≤ columnScale w hD e := le_max_left _ _
  rwa [div_le_iff₀' (by norm_num)] at h

/-- What is rounded is within 127 already. -/
theorem abs_div_columnScale_le (w : Matrix (Fin D) (Fin E) R) (hD : 0 < D) (d : Fin D)
    (e : Fin E) : |w d e / columnScale w hD e| ≤ 127 := by
  have hs := columnScale_pos w hD e
  rw [abs_div, abs_of_pos hs, div_le_iff₀ hs]
  exact (abs_le_columnMax w hD d e).trans (columnMax_le w hD e)

variable [FloorRing R]

theorem abs_roundHalfEven_div_le (w : Matrix (Fin D) (Fin E) R) (hD : 0 < D) (d : Fin D)
    (e : Fin E) : |roundHalfEven (w d e / columnScale w hD e)| ≤ 127 := by
  apply abs_roundHalfEven_le
  exact_mod_cast abs_div_columnScale_le w hD d e

theorem clip_roundHalfEven_div (w : Matrix (Fin D) (Fin E) R) (hD : 0 < D) (d : Fin D)
    (e : Fin E) : clip (roundHalfEven (w d e / columnScale w hD e)) (-127) 127 =
      roundHalfEven (w d e / columnScale w hD e) := by
  have h := abs_le.1 (abs_roundHalfEven_div_le w hD d e)
  exact clip_eq_self h.1 h.2

/-! ## The quantized matrix -/

theorem toInt_ofInt_of_abs_le {n : ℤ} (h : |n| ≤ 127) : (Int8.ofInt n).toInt = n := by
  have h' := abs_le.1 h
  rw [Int8.toInt_ofInt]
  exact Int.bmod_eq_of_le (by rw [Int8.size]; omega) (by rw [Int8.size]; omega)

/-- What `quantize_weights` makes of each weight. -/
def quantized (w : Matrix (Fin D) (Fin E) R) (hD : 0 < D) : Matrix (Fin D) (Fin E) Int8 :=
  Matrix.of fun d e => Int8.ofInt (roundHalfEven (w d e / columnScale w hD e))

theorem quantizeWeights_eq (w : Matrix (Fin D) (Fin E) R) (hD : 0 < D) :
    quantizeWeights w = some (quantized w hD, columnScale w hD) := by
  have hq : (Matrix.of fun d e => roundHalfEven (w d e / columnScale w hD e)).map
      (fun n => Int8.ofInt (clip n (-127) 127)) = quantized w hD := by
    ext d e
    rw [Matrix.map_apply, Matrix.of_apply, clip_roundHalfEven_div, quantized, Matrix.of_apply]
  rw [quantizeWeights, dif_pos hD]
  simp only [hq]

theorem toInt_quantized (w : Matrix (Fin D) (Fin E) R) (hD : 0 < D) (d : Fin D) (e : Fin E) :
    (quantized w hD d e).toInt = roundHalfEven (w d e / columnScale w hD e) :=
  toInt_ofInt_of_abs_le (abs_roundHalfEven_div_le w hD d e)

theorem abs_toInt_quantized_le (w : Matrix (Fin D) (Fin E) R) (hD : 0 < D) (d : Fin D)
    (e : Fin E) : |(quantized w hD d e).toInt| ≤ 127 := by
  rw [toInt_quantized]
  exact abs_roundHalfEven_div_le w hD d e

/-- The error of a weight, in units of its column's scale. -/
theorem abs_sub_quantized_mul_le (w : Matrix (Fin D) (Fin E) R) (hD : 0 < D) (d : Fin D)
    (e : Fin E) :
    |w d e - (quantized w hD d e).toInt * columnScale w hD e| ≤ columnScale w hD e / 2 := by
  have hs := columnScale_pos w hD e
  rw [toInt_quantized]
  generalize columnScale w hD e = s at hs ⊢
  calc |w d e - roundHalfEven (w d e / s) * s|
      = |(w d e / s - roundHalfEven (w d e / s)) * s| := by
        rw [sub_mul, div_mul_cancel₀ _ hs.ne']
    _ = |w d e / s - roundHalfEven (w d e / s)| * s := by rw [abs_mul, abs_of_pos hs]
    _ ≤ 1 / 2 * s := mul_le_mul_of_nonneg_right (abs_sub_roundHalfEven _) hs.le
    _ = s / 2 := one_div_mul_eq_div 2 s

/-! ## Quantizing again -/

variable (w : Matrix (Fin D) (Fin E) R) (hD : 0 < D)

theorem abs_dequantizeNaive_quantized (d : Fin D) (e : Fin E) :
    |dequantizeNaive (quantized w hD) (columnScale w hD) d e| =
      (|(quantized w hD d e).toInt| : ℤ) * columnScale w hD e := by
  rw [dequantizeNaive, Matrix.of_apply, abs_mul, abs_of_pos (columnScale_pos w hD e), Int.cast_abs]

theorem columnMax_dequantizeNaive_le (e : Fin E) :
    columnMax (dequantizeNaive (quantized w hD) (columnScale w hD)) hD e ≤
      127 * columnScale w hD e := by
  apply Finset.sup'_le
  intro d _
  rw [abs_dequantizeNaive_quantized]
  apply mul_le_mul_of_nonneg_right _ (columnScale_pos w hD e).le
  exact_mod_cast abs_toInt_quantized_le w hD d e

variable {w hD}

/-- Above the floor, the largest weight of a column lands on 127 or on -127. -/
theorem abs_toInt_quantized_eq {d : Fin D} {e : Fin E}
    (hd : |w d e| = 127 * columnScale w hD e) : |(quantized w hD d e).toInt| = 127 := by
  have hs := columnScale_pos w hD e
  rw [toInt_quantized]
  rcases abs_choice (w d e) with h | h
  · have hquot : w d e / columnScale w hD e = ((127 : ℤ) : R) := by
      rw [div_eq_iff hs.ne', ← h, hd, Int.cast_ofNat]
    rw [hquot, roundHalfEven_intCast]
    rfl
  · have hquot : w d e / columnScale w hD e = ((-127 : ℤ) : R) := by
      rw [div_eq_iff hs.ne', Int.cast_neg, Int.cast_ofNat, neg_mul, ← hd, h, neg_neg]
    rw [hquot, roundHalfEven_intCast]
    rfl

variable (w hD)

/-- **A column and what it is dequantized to have the same scale.** Either the largest weight stays
where it is, or the floor stays engaged. -/
theorem columnScale_dequantizeNaive (e : Fin E) :
    columnScale (dequantizeNaive (quantized w hD) (columnScale w hD)) hD e =
      columnScale w hD e := by
  apply le_antisymm
  · apply max_le _ (le_max_right _ _)
    rw [div_le_iff₀' (by positivity)]
    exact columnMax_dequantizeNaive_le w hD e
  rcases le_total (columnMax w hD e / 127) (1 / 10 ^ 12) with hfloor | hmax
  · exact (max_eq_right hfloor).le.trans (le_max_right _ _)
  · obtain ⟨d, hd⟩ := exists_abs_eq_columnMax w hD e
    have hscale : columnScale w hD e = columnMax w hD e / 127 := max_eq_left hmax
    have hlarge : |w d e| = 127 * columnScale w hD e := by
      rw [hscale, hd, mul_div_cancel₀ _ (by positivity)]
    have hkept : |dequantizeNaive (quantized w hD) (columnScale w hD) d e| =
        127 * columnScale w hD e := by
      rw [abs_dequantizeNaive_quantized, abs_toInt_quantized_eq hlarge, Int.cast_ofNat]
    apply le_max_of_le_left
    rw [le_div_iff₀' (by positivity), ← hkept]
    exact abs_le_columnMax _ hD d e

theorem quantizeWeights_dequantizeNaive :
    quantizeWeights (dequantizeNaive (quantized w hD) (columnScale w hD)) =
      some (quantized w hD, columnScale w hD) := by
  have hscale : columnScale (dequantizeNaive (quantized w hD) (columnScale w hD)) hD =
      columnScale w hD := by
    funext e
    exact columnScale_dequantizeNaive w hD e
  have hq : quantized (dequantizeNaive (quantized w hD) (columnScale w hD)) hD =
      quantized w hD := by
    ext d e
    rw [quantized, Matrix.of_apply, hscale, dequantizeNaive, Matrix.of_apply,
      mul_div_cancel_right₀ _ (columnScale_pos w hD e).ne', roundHalfEven_intCast, Int8.ofInt_toInt]
  rw [quantizeWeights_eq _ hD, hq, hscale]

/-- **The quantization contract.** The clip does nothing, the error of a weight is at most half of
its column's scale, and quantizing the dequantized matrix gives the same again. -/
theorem quantizeWeights_contract (w : Matrix (Fin D) (Fin E) R) (hD : 0 < D) :
    ∃ q scale, quantizeWeights w = some (q, scale) ∧
      (∀ d e, |(q d e).toInt| ≤ 127 ∧ (q d e).toInt = roundHalfEven (w d e / scale e) ∧
        |w d e - (q d e).toInt * scale e| ≤ scale e / 2) ∧
      quantizeWeights (dequantizeNaive q scale) = some (q, scale) := by
  refine ⟨quantized w hD, columnScale w hD, quantizeWeights_eq w hD, fun d e => ⟨?_, ?_, ?_⟩, ?_⟩
  · exact abs_toInt_quantized_le w hD d e
  · exact toInt_quantized w hD d e
  · exact abs_sub_quantized_mul_le w hD d e
  · exact quantizeWeights_dequantizeNaive w hD

/-- A column of two weights beside a zero column. -/
def twoColumns : Matrix (Fin 2) (Fin 2) ℚ :=
  !![1, 0; -2, 0]

theorem quantizeWeights_twoColumns : ∃ q scale, quantizeWeights twoColumns = some (q, scale) ∧
    (∀ d e, |(q d e).toInt| ≤ 127 ∧ (q d e).toInt = roundHalfEven (twoColumns d e / scale e) ∧
      |twoColumns d e - (q d e).toInt * scale e| ≤ scale e / 2) ∧
    quantizeWeights (dequantizeNaive q scale) = some (q, scale) :=
  quantizeWeights_contract twoColumns (by decide)

end AetherMoE.Kernels
