import AetherMoE.Kernels.SimdGroups
import AetherMoE.Lib.Scatter
import AetherMoE.Lib.Selection
import Mathlib.Algebra.Field.Defs
import Mathlib.Order.WithBot

/-!
# Fused gating

The Metal kernel of `fused_gating_metal.py` and the call that launches it, over a type `R` of
numbers and an exponential. One threadgroup computes one token: its SIMD groups write the logits to
threadgroup memory, and after the barrier thread 0 picks the `K` largest and writes the softmax over
them. The writes of concurrent threads take effect in any order.

* `selectBest`, `selectLoop`: the extraction of the `K` largest logits;
* `gatingTail`, `threadgroup`, `fusedGating`;
* **`selectBest_spec`**, **`selectLoop_greedy`**: the loop selects largest logits, one by one.
-/

namespace AetherMoE.Kernels

open Buffers Selection Scatter

/-! ## The kernel -/

/-- `MAX_EXPERTS`, the size of the `logits` array. -/
def MAX_EXPERTS : ℕ := 256

/-- `MAX_TOPK`. -/
def MAX_TOPK : ℕ := 64

/-- An order in which concurrent writes take effect. -/
structure Interleaving (α : Type) where
  order : List α → List α
  perm : ∀ l, (order l).Perm l

section Kernel

variable {R : Type} [Field R] [LinearOrder R]

/-- One scan for the largest remaining logit: `best_val` and `best_idx`, which start at `-INFINITY`
and `-1`. -/
def selectBest (localLogits : List (WithBot R)) : WithBot R × ℤ :=
  localLogits.zipIdx.foldl (fun best xe => if best.1 < xe.1 then (xe.1, (xe.2 : ℤ)) else best)
    (⊥, -1)

/-- `K` rounds of the selection loop: the values and indices picked. -/
def selectLoop : ℕ → List (WithBot R) → Option (List (R × ℤ))
  | 0, _ => some []
  | k + 1, localLogits =>
    match selectBest localLogits with
    -- nothing is above `-INFINITY`, and the write to `local_logits[-1]` is out of bounds
    | (⊥, _) => none
    | (WithBot.some bestVal, bestIdx) => do
      let rest ← selectLoop k (localLogits.set bestIdx.toNat ⊥)
      return (bestVal, bestIdx) :: rest

/-- What thread 0 does after the barrier: the cells it writes, with their `out_idx` and
`out_val`. -/
def gatingTail (exp : R → R) (tokenId K : ℕ) (localLogits : List R) :
    Option (List (ℕ × ℤ × R)) := do
  let topk ← selectLoop K (localLogits.map WithBot.some)
  let maxVal := (topk.map Prod.fst).headD 0
  let expVals := topk.map fun t => exp (t.1 - maxVal)
  let sumExp := expVals.foldl (fun acc x => acc + x) 0
  return (topk.zip expVals).zipIdx.map fun t =>
    (uint (tokenId * K + t.2), t.1.1.2, t.1.2 / sumExp)

/-- One threadgroup: the token `tokenId`. -/
def threadgroup (exp : R → R) (fuel : ℕ) (il : Interleaving (ℕ × R))
    (hidden gateWeight gateBias : List R) (D E K tokenId : ℕ) : Option (List (ℕ × ℤ × R)) := do
  let writes ← columns fuel E fun e => do
    let dot ← simdDot fuel D fun d => do
      let x ← hidden[uint (tokenId * D) + d]?
      let w ← gateWeight[uint (e * D + d)]?
      return x * w
    let b ← gateBias[e]?
    return dot + b
  let logits := overwriteAll Prod.fst Prod.snd (il.order writes) (List.replicate MAX_EXPERTS none)
  let localLogits ← (List.range E).mapM fun e => logits[e]?.join
  gatingTail exp tokenId K localLogits

/-- The `ValueError`s of `fused_gating`. -/
inductive GatingError
  | tooManyExperts (numExperts : ℕ)
  | invalidTopK (k numExperts : ℕ)
  deriving Repr, DecidableEq

/-- Their texts. -/
def GatingError.what : GatingError → String
  | tooManyExperts numExperts =>
    "num_experts=" ++ toString numExperts ++ " exceeds this kernel's compile-time " ++
    "MAX_EXPERTS=" ++ toString MAX_EXPERTS ++ "; raise the threadgroup-memory array " ++
    "size in _KERNEL_SOURCE (and MAX_EXPERTS above) if you need more."
  | invalidTopK k numExperts =>
    "k=" ++ toString k ++ " invalid for num_experts=" ++ toString numExperts ++
    " (MAX_TOPK=" ++ toString MAX_TOPK ++ ")"

/-- The checks of `fused_gating`. -/
def gatingCheck (numExperts k : ℕ) : Option GatingError :=
  if numExperts > MAX_EXPERTS then some (.tooManyExperts numExperts)
  else if k > MAX_TOPK ∨ k > numExperts then some (.invalidTopK k numExperts)
  else none

/-- `fused_gating`, with the transposed weights in `gateWeightT`, for `numExperts` experts: the
cells the kernel writes. -/
def fusedGatingWith {N D : ℕ} (exp : R → R) (fuel : ℕ) (il : ℕ → Interleaving (ℕ × R))
    (hidden : Matrix (Fin N) (Fin D) R) (gateWeightT : List R) (numExperts : ℕ)
    (gateBias : List R) (k : ℕ) : Except GatingError (Option (List (ℕ × ℤ × R))) :=
  match gatingCheck numExperts k with
  | some e => .error e
  | none => .ok (dispatch (N * SIMDGROUPS_PER_TG * simdWidth) (SIMDGROUPS_PER_TG * simdWidth)
    fun tokenId => threadgroup exp fuel (il tokenId) (rowMajor hidden) gateWeightT gateBias
      (uint D) (uint numExperts) (uint k) tokenId)

/-- `fused_gating`, which hands the kernel a contiguous copy of the transposed weights. -/
def fusedGating {N D E : ℕ} (exp : R → R) (fuel : ℕ) (il : ℕ → Interleaving (ℕ × R))
    (hidden : Matrix (Fin N) (Fin D) R) (gateWeight : Matrix (Fin D) (Fin E) R)
    (gateBias : Fin E → R) (k : ℕ) : Except GatingError (Option (List (ℕ × ℤ × R))) :=
  fusedGatingWith exp fuel il hidden (rowMajor gateWeight.transpose) E (List.ofFn gateBias) k

end Kernel

/-! ## The selection -/

section Select

variable {R : Type}

/-- `cur` is the row of values `f` with everything outside of `s` struck out. -/
structure Struck (f : ℕ → R) (s : Finset ℕ) (cur : List (WithBot R)) : Prop where
  lt : ∀ i ∈ s, i < cur.length
  kept : ∀ i ∈ s, cur[i]? = some (WithBot.some (f i))
  struck : ∀ i, i ∉ s → i < cur.length → cur[i]? = some ⊥

/-- A round strikes out the index it picks. -/
theorem Struck.set {f : ℕ → R} {s : Finset ℕ} {cur : List (WithBot R)} (h : Struck f s cur)
    (e : ℕ) : Struck f (s.erase e) (cur.set e ⊥) where
  lt := by
    intro i hi
    rw [List.length_set]
    exact h.lt i (Finset.mem_of_mem_erase hi)
  kept := by
    intro i hi
    rw [Finset.mem_erase] at hi
    rw [List.getElem?_set_ne (Ne.symm hi.1)]
    exact h.kept i hi.2
  struck := by
    intro i hi hlt
    rw [List.length_set] at hlt
    by_cases hie : i = e
    · rw [hie] at hlt ⊢
      rw [List.getElem?_set_self hlt]
    · rw [List.getElem?_set_ne (Ne.symm hie)]
      exact h.struck i (fun his => hi (Finset.mem_erase.2 ⟨hie, his⟩)) hlt

variable [LinearOrder R]

theorem selectBest_concat (l : List (WithBot R)) (x : WithBot R) :
    selectBest (l ++ [x]) =
      if (selectBest l).1 < x then (x, (l.length : ℤ)) else selectBest l := by
  rw [selectBest, List.zipIdx_append, List.foldl_append, List.zipIdx_singleton, List.foldl_cons,
    List.foldl_nil, Nat.zero_add]
  rfl

/-- **A scan** finds nothing, if everything is at `-INFINITY`, or else a largest element. -/
theorem selectBest_spec (l : List (WithBot R)) :
    (selectBest l = (⊥, -1) ∧ ∀ y ∈ l, y = ⊥) ∨
    ∃ (e : ℕ) (x : R), selectBest l = (WithBot.some x, (e : ℤ)) ∧ l[e]? = some (WithBot.some x) ∧
      ∀ y ∈ l, y ≤ WithBot.some x := by
  induction l using List.reverseRecOn with
  | nil => exact .inl ⟨rfl, List.forall_mem_nil _⟩
  | append_singleton l x ih =>
    rw [selectBest_concat]
    split_ifs with hx
    · right
      obtain ⟨v, rfl⟩ := WithBot.ne_bot_iff_exists.1 (ne_bot_of_gt hx)
      refine ⟨l.length, v, rfl, List.getElem?_concat_length, ?_⟩
      rw [List.forall_mem_append, List.forall_mem_singleton]
      refine ⟨fun y hy => ?_, le_rfl⟩
      rcases ih with ⟨-, hbot⟩ | ⟨e, w, hw, -, hmax⟩
      · rw [hbot y hy]
        exact bot_le
      · rw [hw] at hx
        exact (hmax y hy).trans hx.le
    · rcases ih with ⟨hl, hbot⟩ | ⟨e, w, hw, he, hmax⟩
      · left
        rw [hl] at hx ⊢
        refine ⟨rfl, List.forall_mem_append.2 ⟨hbot, List.forall_mem_singleton.2 ?_⟩⟩
        exact le_bot_iff.1 (not_lt.1 hx)
      · right
        rw [hw] at hx ⊢
        refine ⟨e, w, rfl, ?_, List.forall_mem_append.2 ⟨hmax, ?_⟩⟩
        · exact List.getElem?_append_left (List.getElem?_eq_some_iff.1 he).1 ▸ he
        · exact List.forall_mem_singleton.2 (not_lt.1 hx)

/-- **The selection loop** picks largest values one by one while there are any left. -/
theorem selectLoop_greedy {f : ℕ → R} (k : ℕ) {s : Finset ℕ} {cur : List (WithBot R)}
    (h : Struck f s cur) (hk : k ≤ s.card) :
    ∃ idx : List ℕ, selectLoop k cur = some (idx.map fun i => (f i, (i : ℤ))) ∧
      idx.length = k ∧ Greedy f s idx := by
  induction k generalizing s cur with
  | zero => exact ⟨[], rfl, rfl, trivial⟩
  | succ k ih =>
    obtain ⟨i₀, hi₀⟩ := Finset.card_pos.1 (by omega : 0 < s.card)
    have hmem : ∀ i ∈ s, WithBot.some (f i) ∈ cur := fun i hi =>
      List.mem_of_getElem? (h.kept i hi)
    rcases selectBest_spec cur with ⟨-, hbot⟩ | ⟨e, x, hbest, he, hmax⟩
    · exact absurd (hbot _ (hmem i₀ hi₀)) WithBot.coe_ne_bot
    have hlt : e < cur.length := (List.getElem?_eq_some_iff.1 he).1
    have hes : e ∈ s := by
      by_contra hnot
      rw [h.struck e hnot hlt] at he
      exact WithBot.bot_ne_coe (Option.some.inj he)
    have hx : x = f e := by
      rw [h.kept e hes] at he
      exact (WithBot.coe_inj.1 (Option.some.inj he)).symm
    obtain ⟨idx, hrun, hlen, hgreedy⟩ := ih (h.set e) (by
      rw [Finset.card_erase_of_mem hes]
      omega)
    refine ⟨e :: idx, ?_, by rw [List.length_cons, hlen], hes, fun j hj => ?_, hgreedy⟩
    · rw [selectLoop, hbest]
      simp only [Int.toNat_natCast, hrun, hx]
      rfl
    · have := hmax _ (hmem j hj)
      rw [hx] at this
      exact WithBot.coe_le_coe.1 this

end Select

end AetherMoE.Kernels
