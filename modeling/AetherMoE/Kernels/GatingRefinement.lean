import AetherMoE.Kernels.FusedGating
import AetherMoE.Kernels.ReferenceGating
import Mathlib.Analysis.SpecialFunctions.Exp

/-!
# Fused gating refines reference gating

In exact arithmetic, over the real numbers and the real exponential.

* **`gatingTail_eq`**, **`threadgroup_eq`**: a threadgroup writes a selection from the logits of its
  token; **`fusedGating_eq_rows`**: the launch;
* `RowRefines`, `FusedRefines`: the kernel writes every cell once, and each row agrees with the
  reference up to the choice between equal logits;
* **`fused_refines_iff`**: it does exactly if no lane's counter can wrap.
-/

namespace AetherMoE.Kernels

open Buffers Selection Scatter

/-! ## The tail -/

section Tail

/-- The row of the indices `idx`: the indices and the softmax over their logits. -/
noncomputable def selectedRow (xs : List ℝ) (idx : List ℕ) : List (ℤ × ℝ) :=
  (idx.map Int.ofNat).zip (softmax Real.exp (idx.map (valueAt xs)))

@[simp] theorem length_selectedRow (xs : List ℝ) (idx : List ℕ) :
    (selectedRow xs idx).length = idx.length := by simp [selectedRow, softmax]

theorem fst_selectedRow (xs : List ℝ) (idx : List ℕ) :
    (selectedRow xs idx).map Prod.fst = idx.map Int.ofNat := List.map_fst_zip (by simp [softmax])

theorem snd_selectedRow (xs : List ℝ) (idx : List ℕ) :
    (selectedRow xs idx).map Prod.snd = softmax Real.exp (idx.map (valueAt xs)) :=
  List.map_snd_zip (by simp [softmax])

/-- The writes of the row of one token. -/
def rowWrites (k tokenId : ℕ) (row : List (ℤ × ℝ)) : List (ℕ × ℤ × ℝ) :=
  row.zipIdx.map fun t => (uint (tokenId * k + t.2), t.1)

/-- Subtracting a constant does not change the softmax. -/
theorem softmax_sub (xs : List ℝ) (m : ℝ) :
    softmax Real.exp xs =
      xs.map fun x => Real.exp (x - m) / (xs.map fun y => Real.exp (y - m)).sum := by
  have hsum : (xs.map fun y => Real.exp (y - m)).sum = (xs.map Real.exp).sum / Real.exp m := by
    simp only [Real.exp_sub, div_eq_mul_inv]
    exact List.sum_map_mul_right xs Real.exp (Real.exp m)⁻¹
  apply List.map_congr_left
  intro x _
  rw [hsum, Real.exp_sub, div_div_div_cancel_right₀ (Real.exp_ne_zero m)]

/-- **What thread 0 writes**: the cells of its row, with a selection of the largest logits and the
softmax over them. -/
theorem gatingTail_eq (tokenId : ℕ) {K : ℕ} (xs : List ℝ) (hK : K ≤ xs.length) :
    ∃ idx : List ℕ, idx.length = K ∧ Greedy (valueAt xs) (Finset.range xs.length) idx ∧
      gatingTail Real.exp tokenId K xs = some (rowWrites K tokenId (selectedRow xs idx)) := by
  have hstruck : Struck (valueAt xs) (Finset.range xs.length) (xs.map WithBot.some) := by
    refine ⟨fun i hi => ?_, fun i hi => ?_, fun i hi hlt => ?_⟩
    · rw [List.length_map]
      exact Finset.mem_range.1 hi
    · rw [List.getElem?_map, getElem?_eq_valueAt (Finset.mem_range.1 hi)]
      rfl
    · rw [List.length_map] at hlt
      exact absurd (Finset.mem_range.2 hlt) hi
  obtain ⟨idx, hrun, hlen, hgreedy⟩ := selectLoop_greedy K hstruck (by rwa [Finset.card_range])
  refine ⟨idx, hlen, hgreedy, ?_⟩
  rw [gatingTail, hrun, rowWrites, selectedRow]
  -- the constant subtracted is the first value picked
  generalize hm : ((idx.map fun i => (valueAt xs i, (i : ℤ))).map Prod.fst).headD 0 = m
  simp only [Option.bind_eq_bind, Option.bind_some, hm]
  rw [softmax_sub _ m, ← List.sum_eq_foldl]
  simp only [List.map_map, List.zip_map', List.zipIdx_map]
  rfl

end Tail

/-! ## A threadgroup -/

section Threadgroup

variable {R : Type} [Field R] {N D E : ℕ} {hidden : Matrix (Fin N) (Fin D) R}
  {gateWeight : Matrix (Fin D) (Fin E) R} {gateBias : Fin E → R}

/-- The projection of one token to one expert. -/
theorem dot_eq (hidden : Matrix (Fin N) (Fin D) R) (gateWeight : Matrix (Fin D) (Fin E) R)
    {fuel : ℕ} (hD : D + simdWidth ≤ uintSize) (hfuel : D < fuel)
    (hND : N * D < uintSize) (hED : E * D < uintSize) (n : Fin N) (e : Fin E) :
    (simdDot fuel D fun d => do
      let x ← (rowMajor hidden)[uint (n * D) + d]?
      let w ← (rowMajor gateWeight.transpose)[uint (e * D + d)]?
      return x * w) = some ((hidden * gateWeight) n e) := by
  rw [Matrix.mul_apply]
  apply simdDot_eq_sum hD hfuel
  intro d
  rw [getElem?_row hidden hND, getElem?_cell gateWeight.transpose hED]
  rfl

variable [LinearOrder R]

/-- **A threadgroup picks from the logits of its token.** -/
theorem threadgroup_eq (exp : R → R) {fuel : ℕ} (il : Interleaving (ℕ × R))
    (hD : D + simdWidth ≤ uintSize) (hE : E ≤ MAX_EXPERTS) (hfuelD : D < fuel) (hfuelE : E < fuel)
    (hND : N * D < uintSize) (hED : E * D < uintSize) (K : ℕ) (n : Fin N) :
    threadgroup exp fuel il (rowMajor hidden) (rowMajor gateWeight.transpose) (List.ofFn gateBias)
      D E K n = gatingTail exp n K (gatingLogits hidden gateWeight gateBias n) := by
  set xs := gatingLogits hidden gateWeight gateBias n with hxs
  have hlen : xs.length = E := length_gatingLogits ..
  have hcolumn : ∀ e < E, (do
      let dot ← simdDot fuel D fun d => do
        let x ← (rowMajor hidden)[uint (n * D) + d]?
        let w ← (rowMajor gateWeight.transpose)[uint (e * D + d)]?
        return x * w
      let b ← (List.ofFn gateBias)[e]?
      return dot + b) = some (valueAt xs e) := by
    intro e he
    have hvalue : valueAt xs e = (hidden * gateWeight) n ⟨e, he⟩ + gateBias ⟨e, he⟩ := by
      rw [valueAt, hxs, gatingLogits, List.getElem?_ofFn, dif_pos he]
      rfl
    have hdot := dot_eq hidden gateWeight hD hfuelD hND hED n ⟨e, he⟩
    rw [hdot, List.getElem?_ofFn, dif_pos he, hvalue]
    rfl
  have hE8 : E + SIMDGROUPS_PER_TG ≤ uintSize :=
    (Nat.add_le_add_right hE _).trans (by decide)
  obtain ⟨ws, hws, hperm⟩ := columns_eq hE8 hfuelE hcolumn
  have hperm' := (il.perm ws).trans hperm
  have hnd : ((il.order ws).map Prod.fst).Nodup := by
    rw [(hperm'.map Prod.fst).nodup_iff, List.map_map]
    exact List.nodup_range.map fun _ _ h => h
  have hread : ∀ e ∈ List.range E, (overwriteAll Prod.fst Prod.snd (il.order ws)
      (List.replicate MAX_EXPERTS none))[e]?.join = some (valueAt xs e) := by
    intro e he
    have hmem : (e, valueAt xs e) ∈ il.order ws := by
      rw [hperm'.mem_iff]
      exact List.mem_map_of_mem (f := fun e => (e, valueAt xs e)) he
    rw [getElem?_overwriteAll_of_mem hnd hmem ((List.mem_range.1 he).trans_le hE)]
    rfl
  rw [threadgroup, hws]
  simp only [Option.bind_eq_bind, Option.bind_some]
  rw [mapM_eq_map hread, ← hlen, map_valueAt_range]
  rfl

end Threadgroup

/-! ## The launch -/

section Launch

variable {N D E : ℕ} (hidden : Matrix (Fin N) (Fin D) ℝ) (gateWeight : Matrix (Fin D) (Fin E) ℝ)
  (gateBias : Fin E → ℝ) (k : ℕ) (il : ℕ → Interleaving (ℕ × ℝ)) (argsort : Argsort ℝ)

/-- The output arrays after the writes `ws`: `none` is a cell that was not written. -/
def outBuffer (cells : ℕ) (ws : List (ℕ × ℤ × ℝ)) : List (Option (ℤ × ℝ)) :=
  overwriteAll Prod.fst Prod.snd ws (List.replicate cells none)

/-- A row of indices and values agrees with a row of the reference, for these logits: the indices
are distinct and in range, the logits selected are the same in the same order, so are the values,
and the indices are the same set if the `k`-th and the next largest logit differ. -/
structure RowRefines (logits : List ℝ) (k : ℕ) (row : List (ℤ × ℝ)) (ref : List ℤ × List ℝ) :
    Prop where
  length : row.length = k
  distinct : (row.map Prod.fst).Nodup
  inRange : ∀ i ∈ row.map Prod.fst, 0 ≤ i ∧ i < logits.length
  selected : (row.map Prod.fst).map (fun i => logits[i.toNat]?) =
    ref.1.map fun i => logits[i.toNat]?
  values : row.map Prod.snd = ref.2
  indices : nthLargest logits (k - 1) ≠ nthLargest logits k →
    (row.map Prod.fst).toFinset = ref.1.toFinset

/-- The call returns, given enough time; the kernel writes every cell of the two output arrays
once, and in whatever order the writes arrive, every row refines the reference. -/
def FusedRefines : Prop :=
  ∃ fuel₀, ∀ fuel ≥ fuel₀, ∃ ws,
    fusedGating Real.exp fuel il hidden gateWeight gateBias k = .ok (some ws) ∧
    (ws.map Prod.fst).Perm (List.range (N * k)) ∧
    ∀ ws' : List (ℕ × ℤ × ℝ), ws'.Perm ws → ∃ rows : Fin N → List (ℤ × ℝ),
      outBuffer (N * k) ws' = (List.ofFn rows).flatten.map some ∧
      ∀ n, RowRefines (gatingLogits hidden gateWeight gateBias n) k (rows n)
        (referenceGating Real.exp argsort hidden gateWeight gateBias k n)

variable {k}

/-- Two selections of `k` largest values have the same indices, if the next value differs. -/
theorem toFinset_eq_take (argsort : Argsort ℝ) {xs : List ℝ} {idx : List ℕ} (hk : 1 ≤ k)
    (hkE : k ≤ xs.length) (hlen : idx.length = k)
    (hidx : Greedy (valueAt xs) (Finset.range xs.length) idx)
    (hgap : nthLargest xs (k - 1) ≠ nthLargest xs k) :
    idx.toFinset = ((argsort.descending xs).take k).toFinset := by
  have hall := argsort.length_descending xs
  rcases hkE.lt_or_eq with hlt | heq
  · have hx : k - 1 < (argsort.descending xs).length := by omega
    have hy : k < (argsort.descending xs).length := by omega
    have hsplit : (argsort.descending xs).take k =
        (argsort.descending xs).take (k - 1) ++ [(argsort.descending xs)[k - 1]] := by
      have h := List.take_add_one (l := argsort.descending xs) (i := k - 1)
      rwa [Nat.sub_add_cancel hk, List.getElem?_eq_getElem hx, Option.toList_some] at h
    have hnext : (argsort.descending xs).take (k + 1) =
        (argsort.descending xs).take k ++ [(argsort.descending xs)[k]] := by
      rw [List.take_add_one, List.getElem?_eq_getElem hy, Option.toList_some]
    rw [argsort.nthLargest_eq, argsort.nthLargest_eq, List.getElem?_eq_getElem hx,
      List.getElem?_eq_getElem hy] at hgap
    have hselect := argsort.greedy_take xs (k + 1)
    rw [hnext, hsplit] at hselect
    rw [hsplit]
    refine hidx.toFinset_eq hselect ?_ fun h => hgap (congrArg some h)
    rw [← hsplit, List.length_take, hlen]
    omega
  · have hcard : (Finset.range xs.length).card ≤ ((argsort.descending xs).take k).length := by
      rw [Finset.card_range, List.length_take]
      omega
    rw [hidx.toFinset_eq_of_card (by rw [Finset.card_range, hlen, heq]),
      (argsort.greedy_take xs k).toFinset_eq_of_card hcard]

/-- **The row of a selection refines the row of an order.** -/
theorem rowRefines_of_greedy (argsort : Argsort ℝ) {xs : List ℝ} {idx : List ℕ} (hk : 1 ≤ k)
    (hkE : k ≤ xs.length) (hlen : idx.length = k)
    (hidx : Greedy (valueAt xs) (Finset.range xs.length) idx) :
    RowRefines xs k (selectedRow xs idx)
      (((argsort.descending xs).take k).map Int.ofNat,
        softmax Real.exp (takeAlong xs ((argsort.descending xs).take k))) := by
  set top := (argsort.descending xs).take k with htop
  have hlenTop : top.length = k := by
    rw [htop, List.length_take, argsort.length_descending]
    omega
  have hgreedy : Greedy (valueAt xs) (Finset.range xs.length) top := argsort.greedy_take xs k
  have hlt : ∀ {l : List ℕ}, Greedy (valueAt xs) (Finset.range xs.length) l →
      ∀ i ∈ l, i < xs.length := fun h i hi => Finset.mem_range.1 (h.subset i hi)
  have hmap : idx.map (valueAt xs) = top.map (valueAt xs) :=
    hidx.map_eq hgreedy (hlen.trans hlenTop.symm)
  have hreads : ∀ {l : List ℕ}, Greedy (valueAt xs) (Finset.range xs.length) l →
      (l.map Int.ofNat).map (fun i => xs[i.toNat]?) = (l.map (valueAt xs)).map some := by
    intro l h
    rw [List.map_map, List.map_map]
    apply List.map_congr_left
    intro i hi
    exact getElem?_eq_valueAt (hlt h i hi)
  constructor
  · rw [length_selectedRow, hlen]
  · rw [fst_selectedRow]
    exact hidx.nodup.map fun _ _ h => Int.ofNat.inj h
  · intro i hi
    rw [fst_selectedRow] at hi
    obtain ⟨j, hj, rfl⟩ := List.mem_map.1 hi
    exact ⟨Int.natCast_nonneg j, Int.ofNat_lt.2 (hlt hidx j hj)⟩
  · rw [fst_selectedRow, hreads hidx, hreads hgreedy, hmap]
  · rw [snd_selectedRow, takeAlong_eq (hlt hgreedy), hmap]
  · intro hgap
    rw [fst_selectedRow]
    have hset := toFinset_eq_take argsort hk hkE hlen hidx hgap
    have hmem : ∀ j, j ∈ idx ↔ j ∈ top := by
      intro j
      rw [← List.mem_toFinset, hset, List.mem_toFinset]
    ext i
    simp only [List.mem_toFinset, List.mem_map, hmem]

theorem fusedGating_eq_dispatch {fuel : ℕ} (hE : E ≤ MAX_EXPERTS) (hk64 : k ≤ MAX_TOPK)
    (hkE : k ≤ E) (hD : D < uintSize) :
    fusedGating Real.exp fuel il hidden gateWeight gateBias k = .ok (do
      let groups ← (List.range N).mapM fun tokenId =>
        threadgroup Real.exp fuel (il tokenId) (rowMajor hidden) (rowMajor gateWeight.transpose)
          (List.ofFn gateBias) D E k tokenId
      return groups.flatten) := by
  have hE' : E < uintSize := hE.trans_lt (by decide)
  have hcheck : gatingCheck E k = none := by
    rw [gatingCheck, if_neg (not_lt.2 hE), if_neg (not_or.2 ⟨not_lt.2 hk64, not_lt.2 hkE⟩)]
  rw [fusedGating, fusedGatingWith, hcheck, uint_eq hD, uint_eq hE', uint_eq (hkE.trans_lt hE'),
    dispatch_eq]

/-- The rows of a launch, and the cells they are written to. -/
theorem cells_of_rows (hNk : N * k < uintSize) (rows : ℕ → List (ℤ × ℝ))
    (hlen : ∀ n < N, (rows n).length = k) :
    ((List.range N).map fun n => rowWrites k n (rows n)).flatten.map Prod.fst =
        List.range (N * k) ∧
    ((List.range N).map fun n => rowWrites k n (rows n)).flatten.map Prod.snd =
        ((List.range N).map rows).flatten := by
  simp only [rowWrites, ← List.flatMap_def, List.map_flatMap, List.map_map]
  constructor
  · rw [← range_mul N k]
    apply List.flatMap_congr
    intro n hn
    rw [List.mem_range] at hn
    have hsnd := List.zipIdx_map_snd 0 (rows n)
    rw [hlen n hn, ← List.range_eq_range'] at hsnd
    rw [← hsnd, List.map_map]
    apply List.map_congr_left
    intro t ht
    have hlt : t.2 < k := by
      rw [← List.mem_range, ← hsnd]
      exact List.mem_map_of_mem ht
    exact uint_eq ((cell_lt hn hlt).trans hNk)
  · apply List.flatMap_congr
    intro n _
    exact List.zipIdx_map_fst 0 (rows n)

/-- **The writes of a launch**, if no counter wraps: those of the rows. -/
theorem fusedGating_eq_rows (hE : E ≤ MAX_EXPERTS) (hk64 : k ≤ MAX_TOPK) (hkE : k ≤ E)
    (hND : N * D < uintSize) (hED : E * D < uintSize) (hDlt : D < uintSize)
    (hD : N = 0 ∨ D + simdWidth ≤ uintSize) {fuel : ℕ} (hfuel : D + E < fuel)
    {rows : ℕ → List (ℤ × ℝ)}
    (hrows : ∀ n : Fin N, gatingTail Real.exp n k (gatingLogits hidden gateWeight gateBias n) =
      some (rowWrites k n (rows n))) :
    fusedGating Real.exp fuel il hidden gateWeight gateBias k =
      .ok (some ((List.range N).map fun n => rowWrites k n (rows n)).flatten) := by
  have hgroup : ∀ n ∈ List.range N, threadgroup Real.exp fuel (il n) (rowMajor hidden)
      (rowMajor gateWeight.transpose) (List.ofFn gateBias) D E k n =
      some (rowWrites k n (rows n)) := by
    intro n hn
    rw [List.mem_range] at hn
    have hN : N ≠ 0 := by omega
    calc threadgroup Real.exp fuel (il n) _ _ _ D E k n
        = gatingTail Real.exp n k (gatingLogits hidden gateWeight gateBias ⟨n, hn⟩) :=
          threadgroup_eq Real.exp (il n) (hD.resolve_left hN) hE (by omega) (by omega) hND hED k
            ⟨n, hn⟩
      _ = some (rowWrites k n (rows n)) := hrows ⟨n, hn⟩
  rw [fusedGating_eq_dispatch hidden gateWeight gateBias il hE hk64 hkE hDlt, mapM_eq_map hgroup]
  rfl

/-- **While no counter wraps**, the kernel refines the reference. -/
theorem fusedRefines_of_le (hE : E ≤ MAX_EXPERTS) (hk : 1 ≤ k) (hk64 : k ≤ MAX_TOPK) (hkE : k ≤ E)
    (hND : N * D < uintSize) (hED : E * D < uintSize) (hNk : N * k < uintSize)
    (hDlt : D < uintSize) (hD : N = 0 ∨ D + simdWidth ≤ uintSize) :
    FusedRefines hidden gateWeight gateBias k il argsort := by
  have hK : ∀ n, k ≤ (gatingLogits hidden gateWeight gateBias n).length := by
    intro n
    rwa [length_gatingLogits]
  choose idx hlen hgreedy htail using fun n : Fin N => gatingTail_eq n _ (hK n)
  let row : Fin N → List (ℤ × ℝ) := fun n =>
    selectedRow (gatingLogits hidden gateWeight gateBias n) (idx n)
  -- the rows as a function of the token's number
  let rows : ℕ → List (ℤ × ℝ) := fun n => if h : n < N then row ⟨n, h⟩ else []
  have hrows : ∀ n : Fin N, rows n = row n := fun n => dif_pos n.2
  have hrowLen : ∀ n < N, (rows n).length = k := by
    intro n hn
    have hn' := hrows ⟨n, hn⟩
    rw [hn', length_selectedRow, hlen]
  have hflat : ((List.range N).map rows) = List.ofFn row := by
    apply List.ext_getElem
    · simp
    · intro n hn hn'
      simp only [List.getElem_map, List.getElem_range, List.getElem_ofFn]
      exact hrows ⟨n, by simpa using hn⟩
  obtain ⟨hkeys, hvals⟩ := cells_of_rows hNk rows hrowLen
  refine ⟨D + E + 1, fun fuel hfuel => ⟨_, ?_, List.Perm.of_eq hkeys,
    fun ws' hperm => ⟨row, ?_, fun n => ?_⟩⟩⟩
  · refine fusedGating_eq_rows hidden gateWeight gateBias il hE hk64 hkE hND hED hDlt hD hfuel ?_
    intro n
    rw [hrows, htail]
  · rw [outBuffer, overwriteAll_range hkeys hperm, hvals, hflat]
  · exact rowRefines_of_greedy argsort hk (hK n) (hlen n) (hgreedy n)

/-- **When a counter wraps**, no threadgroup gets past the barrier. -/
theorem fusedGating_eq_none (hE : E ≤ MAX_EXPERTS) (hk : 1 ≤ k) (hk64 : k ≤ MAX_TOPK) (hkE : k ≤ E)
    (hN : 0 < N) (hDlt : D < uintSize) (hD : uintSize < D + simdWidth) (fuel : ℕ) :
    fusedGating Real.exp fuel il hidden gateWeight gateBias k = .ok none := by
  have hgroup : threadgroup Real.exp fuel (il 0) (rowMajor hidden) (rowMajor gateWeight.transpose)
      (List.ofFn gateBias) D E k 0 = none := by
    rw [threadgroup, columns_eq_none (by omega)]
    · rfl
    · rw [simdDot_eq_none hD]
      rfl
  rw [fusedGating_eq_dispatch hidden gateWeight gateBias il hE hk64 hkE hDlt,
    mapM_eq_none (f := fun tokenId => threadgroup Real.exp fuel (il tokenId) _ _ _ D E k tokenId)
      (List.mem_range.2 hN) hgroup]
  rfl

theorem not_fusedRefines (hE : E ≤ MAX_EXPERTS) (hk : 1 ≤ k) (hk64 : k ≤ MAX_TOPK) (hkE : k ≤ E)
    (hN : 0 < N) (hDlt : D < uintSize) (hD : uintSize < D + simdWidth) :
    ¬ FusedRefines hidden gateWeight gateBias k il argsort := by
  rintro ⟨fuel, h⟩
  obtain ⟨ws, hrun, -⟩ := h fuel le_rfl
  rw [fusedGating_eq_none hidden gateWeight gateBias il hE hk hk64 hkE hN hDlt hD] at hrun
  cases hrun

/-- **Fused gating refines reference gating exactly if no lane's counter wraps**: for all sizes the
offsets of which fit a `uint`, all inputs, every interleaving of the SIMD groups' writes and every
way to break ties in the reference, the condition is that there is no token or that the hidden
dimension is at most `2 ^ 32 - 32`. -/
theorem fused_refines_iff {N D E k : ℕ} (hE : E ≤ 256) (hk : 1 ≤ k) (hkE : k ≤ min E 64)
    (hND : N * D < 2 ^ 32) (hED : E * D < 2 ^ 32) (hNk : N * k < 2 ^ 32)
    (hidden : Matrix (Fin N) (Fin D) ℝ) (gateWeight : Matrix (Fin D) (Fin E) ℝ)
    (gateBias : Fin E → ℝ) (il : ℕ → Interleaving (ℕ × ℝ)) (argsort : Argsort ℝ) :
    FusedRefines hidden gateWeight gateBias k il argsort ↔ N = 0 ∨ D ≤ 2 ^ 32 - 32 := by
  have hk64 : k ≤ MAX_TOPK := hkE.trans (min_le_right _ _)
  have hkE' : k ≤ E := hkE.trans (min_le_left _ _)
  have hDlt : D < uintSize :=
    lt_of_le_of_lt (Nat.le_mul_of_pos_left D (hk.trans hkE')) hED
  constructor
  · intro h
    rw [or_iff_not_imp_left]
    intro hN
    by_contra hD
    refine not_fusedRefines hidden gateWeight gateBias il argsort hE hk hk64 hkE'
      (Nat.pos_of_ne_zero hN) hDlt ?_ h
    unfold uintSize simdWidth
    omega
  · intro hD
    refine fusedRefines_of_le hidden gateWeight gateBias il argsort hE hk hk64 hkE' hND hED hNk hDlt
      (hD.imp_right fun h => ?_)
    unfold uintSize simdWidth
    omega

end Launch

section Examples

/-- Writes that take effect in the order of the SIMD groups. -/
def inOrder (α : Type) : Interleaving α := ⟨id, List.Perm.refl⟩

/-- One token of two dimensions, two experts. -/
theorem fused_refines_iff_two :
    FusedRefines !![1, 2] !![3, 4; 5, 6] ![0, 1] 1 (fun _ => inOrder (ℕ × ℝ))
      Argsort.ofMergeSort :=
  (fused_refines_iff (by norm_num) (by norm_num) (by norm_num) (by norm_num) (by norm_num)
    (by norm_num) _ _ _ _ _).2 (.inr (by norm_num))

/-- **One token of `2 ^ 32 - 1` dimensions, one expert**: the counter of lane 30 goes from
`2 ^ 32 - 2` back to `30`. -/
theorem not_fusedRefines_wrapping :
    1 * (2 ^ 32 - 1) < 2 ^ 32 ∧ 1 * 1 < 2 ^ 32 ∧
    ¬ FusedRefines (fun _ _ => 0 : Matrix (Fin 1) (Fin (2 ^ 32 - 1)) ℝ)
      (fun _ _ => 0 : Matrix (Fin (2 ^ 32 - 1)) (Fin 1) ℝ) (fun _ => 0) 1
      (fun _ => inOrder (ℕ × ℝ)) Argsort.ofMergeSort := by
  refine ⟨by norm_num, by norm_num, not_fusedRefines _ _ _ _ _ ?_ ?_ ?_ ?_ ?_ ?_ ?_⟩
  all_goals decide

end Examples

end AetherMoE.Kernels
