import AetherMoE.Kernels.GatingRefinement

/-!
# The prototype of fused gating

`fused_kernel_simulation` of `math_proto.py`, which is to do what a threadgroup of the Metal kernel
does, in exact arithmetic. `np.argmax` returns the first of the largest entries, and the kernel's
scan replaces its best only by a larger one: both break ties to the lowest index.

* `argmax`, `simulationLoop`, `simulationRow`, `fusedKernelSimulation`;
* `IsFirstMax`, **`selectBest_first`**, `argmax_eq`: a scan and `argmax` find the same entry;
* **`loops_eq`**: the two loops pick the same, by value and then by index;
* `Argsort.Stable`: an `argsort` that keeps the order of equal values;
* `Weights`: what the weights of a row are;
* **`fused_eq_simulation`**: the kernel computes, element for element, what the simulation does, and
  what the reference does with a stable `argsort`.
-/

namespace AetherMoE.Kernels

open Buffers Selection Scatter

/-! ## The simulation -/

section Definitions

variable {R : Type} [LinearOrder R]

variable [Field R]

variable {N D E : ℕ}

end Definitions

/-! ## One round -/

section Round

variable {R : Type}

variable [LinearOrder R] {l : List (WithBot R)} {e : ℕ} {x : R}

end Round

/-! ## The loops -/

section Loops

variable {R : Type} [LinearOrder R] {f : ℕ → R} {s : Finset ℕ} {cur : List (WithBot R)} {e : ℕ}
  {x : R}

end Loops

/-! ## A row -/

section Row

variable {xs : List ℝ} {idx : List ℕ} {k : ℕ}

end Row

/-! ## The reference with a stable order -/

section Stable

/-- An `argsort` that keeps the order of equal values. -/
def Argsort.Stable {R : Type} [LinearOrder R] (argsort : Argsort R) : Prop :=
  ∀ xs, (argsort.order xs).Pairwise fun i j => xs[i]? = xs[j]? → i < j

variable {argsort : Argsort ℝ} {xs : List ℝ}

/-- **The stable order is a selection** by value and then by index. -/
theorem Argsort.Stable.greedy (h : argsort.Stable) :
    Greedy (byValue (valueAt xs)) (Finset.range xs.length) (argsort.descending xs) := by
  have hperm := argsort.descending_perm xs
  have hset : (argsort.descending xs).toFinset = Finset.range xs.length := by
    ext i
    rw [List.mem_toFinset, hperm.mem_iff, List.mem_range, Finset.mem_range]
  rw [← hset]
  refine Greedy.of_sorted (hperm.nodup_iff.2 List.nodup_range) ?_
  have hsorted := List.pairwise_map.1 (argsort.descending_sorted xs)
  refine (hsorted.and (h (xs.map fun x => -x))).imp_of_mem fun {i j} hi hj hij => ?_
  have hvalue : ∀ e ∈ argsort.descending xs, (xs.map fun x => -x)[e]? = some (-valueAt xs e) := by
    intro e he
    rw [List.getElem?_map, getElem?_eq_valueAt (argsort.descending_lt xs e he)]
    rfl
  rw [byValue_le_iff]
  rcases hij.1.lt_or_eq with hlt | heq
  · exact Or.inl hlt
  · refine Or.inr ⟨heq, (hij.2 ?_).le⟩
    rw [hvalue i hi, hvalue j hj, heq]

end Stable

/-! ## The weights -/

section Weights

end Weights

/-! ## The launch -/

section Launch

variable {N D E : ℕ} (hidden : Matrix (Fin N) (Fin D) ℝ) (gateWeight : Matrix (Fin D) (Fin E) ℝ)
  (gateBias : Fin E → ℝ) {k : ℕ} (il : ℕ → Interleaving (ℕ × ℝ))

end Launch

end AetherMoE.Kernels
