import AetherMoE.Kernels.SimdGroups
import Mathlib.Algebra.Ring.Int.Defs
import Mathlib.LinearAlgebra.Matrix.Defs

/-!
# The fused quantized product

The Metal kernel of `quantized_gemm.py` and the call that launches it, over a type `R` of numbers.
One threadgroup computes one row; each of its SIMD groups takes a column at a time and dequantizes
the weights as it multiplies.

* `shapeCheck`, `quantizedThreadgroup`, `fusedQuantizedMatmulWith`, `fusedQuantizedMatmul`.
-/

namespace AetherMoE.Kernels

open Buffers

/-- The `ValueError` of `fused_quantized_matmul`. -/
structure ShapeMismatch where
  dModel : ℕ
  dModel2 : ℕ
  deriving Repr, DecidableEq

/-- Its text. -/
def ShapeMismatch.what (e : ShapeMismatch) : String :=
  "shape mismatch: x has D=" ++ toString e.dModel ++ ", q_weight has D=" ++ toString e.dModel2

/-- The check of `fused_quantized_matmul`. -/
def shapeCheck (dModel dModel2 : ℕ) : Option ShapeMismatch :=
  if dModel ≠ dModel2 then some ⟨dModel, dModel2⟩ else none

variable {R : Type} [Ring R]

/-- One threadgroup: the row `tokenId`. The cells it writes, with their values. -/
def quantizedThreadgroup (fuel : ℕ) (x : List R) (qWeight : List Int8) (scale : List R)
    (N D E tokenId : ℕ) : Option (List (ℕ × R)) :=
  if N ≤ tokenId then some []
  else do
    let writes ← columns fuel E fun col => do
      let s ← scale[col]?
      simdDot fuel D fun d => do
        let q ← qWeight[uint (col * D + d)]?
        let xd ← x[uint (tokenId * D) + d]?
        return xd * ((q.toInt : R) * s)
    return writes.map fun w => (uint (tokenId * E + w.1), w.2)

/-- `fused_quantized_matmul`, with the transposed weights of a `dModel2` by `numExperts` array in
`qWeightT`. -/
def fusedQuantizedMatmulWith {N D : ℕ} (fuel : ℕ) (x : Matrix (Fin N) (Fin D) R)
    (qWeightT : List Int8) (dModel2 numExperts : ℕ) (scale : List R) :
    Except ShapeMismatch (Option (List (ℕ × R))) :=
  match shapeCheck D dModel2 with
  | some e => .error e
  | none => .ok (dispatch (N * SIMDGROUPS_PER_TG * simdWidth) (SIMDGROUPS_PER_TG * simdWidth)
    (quantizedThreadgroup fuel (rowMajor x) qWeightT scale (uint N) (uint D) (uint numExperts)))

/-- `fused_quantized_matmul`, which hands the kernel a contiguous copy of the transposed weights. -/
def fusedQuantizedMatmul {N D E : ℕ} (fuel : ℕ) (x : Matrix (Fin N) (Fin D) R)
    (q : Matrix (Fin D) (Fin E) Int8) (scale : Fin E → R) :
    Except ShapeMismatch (Option (List (ℕ × R))) :=
  fusedQuantizedMatmulWith fuel x (rowMajor q.transpose) D E (List.ofFn scale)

end AetherMoE.Kernels
