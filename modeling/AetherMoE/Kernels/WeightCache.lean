import AetherMoE.Kernels.FusedGating
import AetherMoE.Kernels.QuantizedGemm
import AetherMoE.Lib.IdentityCache
import Mathlib.Algebra.Field.Rat
import Mathlib.Algebra.Order.Ring.Rat

/-!
# The caches of transposed weights

`_get_transposed_weight` and `_get_transposed_qweight` cache the transposed copy of a weight array
under `id(array)`, together with a reference to the array. An entry is used if its reference `is`
the array passed. Assigning to an element of an array changes its contents and not its identity.

* `fusedGatingCached`, `fusedQuantizedMatmulCached`: the two functions with their caches;
* **`caches_coherent_iff`**: every call works on the transpose of the weights as they are exactly if
  no array changes between two calls with it.
-/

namespace AetherMoE.Kernels

open Buffers IdentityCache Stepping

/-- The arguments of `fused_gating` besides the weights, and how the launch runs. -/
structure GatingArgs (R : Type) where
  nTokens : ℕ
  dModel : ℕ
  hidden : Matrix (Fin nTokens) (Fin dModel) R
  gateBias : List R
  k : ℕ
  fuel : ℕ
  il : ℕ → Interleaving (ℕ × R)

/-- The arguments of `fused_quantized_matmul` besides the weights, and how the launch runs. -/
structure QuantizedArgs (R : Type) where
  nTokens : ℕ
  dModel : ℕ
  x : Matrix (Fin nTokens) (Fin dModel) R
  scale : List R
  fuel : ℕ

section Definitions

variable {R : Type} [Field R] [LinearOrder R]

/-- `fused_gating` of a weight array, with the cache of `_get_transposed_weight`: the checks come
before the cache. -/
def fusedGatingCached (exp : R → R) : Cached (GatingArgs R) (Array2 R) (Array2 R)
    (Except GatingError (Option (List (ℕ × ℤ × R)))) where
  early i w := (gatingCheck w.cols i.k).map .error
  derive := Array2.transpose
  finish i w wT :=
    fusedGatingWith exp i.fuel i.il i.hidden (rowMajor wT.entries) w.cols i.gateBias i.k

omit [LinearOrder R] in
/-- `fused_quantized_matmul` of a weight array, with the cache of `_get_transposed_qweight`. -/
def fusedQuantizedMatmulCached : Cached (QuantizedArgs R) (Array2 Int8) (Array2 Int8)
    (Except ShapeMismatch (Option (List (ℕ × R)))) where
  early i q := (shapeCheck i.dModel q.rows).map .error
  derive := Array2.transpose
  finish i q qT :=
    fusedQuantizedMatmulWith i.fuel i.x (rowMajor qT.entries) q.rows q.cols i.scale

end Definitions

/-- **The caches are coherent exactly while the weights are steady**, for each of the two functions
and every run of creations, deletions (after which an id may be reused), assignments in place and
calls: every call works on the transpose of the weights at the time and returns what it would
return with an empty cache, if and only if any two calls with one array that pass the argument
checks find the same contents. -/
theorem caches_coherent_iff {R : Type} [Field R] [LinearOrder R] (exp : R → R) :
    (∀ rs S, Trace (Does (fusedGatingCached exp)) {} rs S →
      ((∀ r ∈ rs, Coherent (fusedGatingCached exp) r) ↔ Steady (fusedGatingCached exp) rs)) ∧
    ∀ rs S, Trace (Does (fusedQuantizedMatmulCached (R := R))) {} rs S →
      ((∀ r ∈ rs, Coherent fusedQuantizedMatmulCached r) ↔ Steady fusedQuantizedMatmulCached rs) :=
  ⟨fun _ _ h => coherent_iff_steady Array2.transpose_injective h,
    fun _ _ h => coherent_iff_steady Array2.transpose_injective h⟩

section Examples

/-- An array with one element. -/
def cell {R : Type} (x : R) : Array2 R := ⟨1, 1, fun _ _ => x⟩

/-- A call of `fused_gating` for one token of one dimension. -/
def oneToken : GatingArgs ℚ := ⟨1, 1, fun _ _ => 1, [0], 1, 300, fun _ => ⟨id, List.Perm.refl⟩⟩

/-- A call of `fused_quantized_matmul` for one row of one element. -/
def oneRow : QuantizedArgs ℚ := ⟨1, 1, fun _ _ => 1, [1], 300⟩

/-- The weights after they were made. -/
def uncalled : State (Array2 ℚ) (Array2 ℚ) :=
  { heap := Function.update (fun _ => none) 0 (some ⟨0, cell 1⟩)
    held := Function.update (fun _ => false) 0 true
    made := 1 }

/-- Two calls with the same weights: the second finds the copy of the first. -/
theorem caches_coherent_iff_twice : ∃ rs S, Trace (Does (fusedGatingCached (R := ℚ) id)) {} rs S ∧
    rs.length = 2 ∧ ∀ r ∈ rs, Coherent (fusedGatingCached id) r := by
  have h₁ : Trace (Does (fusedGatingCached (R := ℚ) id)) {} [] uncalled :=
    Trace.nil.snoc (.create 0 (cell 1) rfl)
  have h₂ := h₁.snoc (.call (a := 0) (o := ⟨0, cell 1⟩) rfl rfl oneToken)
  have h₃ := h₂.snoc (.call (a := 0) (o := ⟨0, cell 1⟩) rfl rfl oneToken)
  refine ⟨_, _, h₃, rfl, ((caches_coherent_iff id).1 _ _ h₃).2 ?_⟩
  intro r hr r' hr' _ _ _
  simp only [List.nil_append, List.cons_append, List.mem_cons, List.not_mem_nil, or_false] at hr hr'
  rcases hr with rfl | rfl
  · rcases hr' with rfl | rfl <;> rfl
  · rcases hr' with rfl | rfl <;> rfl

/-- The weights of two experts, for tokens of one dimension. -/
def twoExperts (x y : ℚ) : Array2 ℚ := ⟨1, 2, fun _ e => if e = 0 then x else y⟩

/-- A call of `fused_gating` for one token and two experts. -/
def oneOfTwo : GatingArgs ℚ := ⟨1, 1, fun _ _ => 1, [0, 0], 1, 300, fun _ => ⟨id, List.Perm.refl⟩⟩

/-- The two functions, over the rationals, with an exponential that is 1 at 0. -/
def gating : Cached (GatingArgs ℚ) (Array2 ℚ) (Array2 ℚ)
    (Except GatingError (Option (List (ℕ × ℤ × ℚ)))) := fusedGatingCached fun x => x + 1

def matmul : Cached (QuantizedArgs ℚ) (Array2 Int8) (Array2 Int8)
    (Except ShapeMismatch (Option (List (ℕ × ℚ)))) := fusedQuantizedMatmulCached

/-- **A call after an assignment works on the weights from before it**: it picks the expert that was
the better one, and multiplies by the old quantized weight. -/
theorem not_coherent_assigned :
    (∃ rs S, Trace (Does gating) {} rs S ∧ ∃ r ∈ rs, ¬ Coherent gating r ∧
      r.result = .ok (some [(0, 0, 1)]) ∧
      gating.uncached r.args r.object.contents = .ok (some [(0, 1, 1)])) ∧
    ∃ rs S, Trace (Does matmul) {} rs S ∧ ∃ r ∈ rs, ¬ Coherent matmul r ∧
      r.result = .ok (some [(0, 1)]) ∧
      matmul.uncached r.args r.object.contents = .ok (some [(0, 2)]) := by
  constructor
  · exact exists_stale (i := oneOfTwo) (x := twoExperts 1 0) (y := twoExperts 0 1) rfl rfl
      (by decide +kernel) (by decide +kernel) (by decide +kernel)
  · exact exists_stale (i := oneRow) (x := cell 1) (y := cell 2) rfl rfl
      (by decide +kernel) (by decide +kernel) (by decide +kernel)

end Examples

end AetherMoE.Kernels
