import AetherMoE.Kernels.FusedGating

/-!
# Selection among masked experts

A logit of `-INFINITY` masks its expert. The selection loop of the kernel starts every scan at
`-INFINITY`, and marks with it what was picked.

* `available`: the logits above `-INFINITY`; `available_set`: a round uses one up;
* `ValidSelection`: the loop picks `k` distinct experts and stays within the logits;
* **`validSelection_iff`**: it does exactly if `k` experts are not masked.
-/

namespace AetherMoE.Kernels

variable {R : Type} [LinearOrder R]

/-- The number of logits above `-INFINITY`. -/
def available (logits : List (WithBot R)) : ℕ := logits.countP fun x => decide (⊥ < x)

/-- The selection loop never writes outside of the logits, and picks `k` distinct indices of
them. -/
def ValidSelection (k : ℕ) (logits : List (WithBot R)) : Prop :=
  ∃ topk, selectLoop k logits = some topk ∧ topk.length = k ∧ (topk.map Prod.snd).Nodup ∧
    ∀ i ∈ topk.map Prod.snd, 0 ≤ i ∧ i < logits.length

/-- Striking out a logit. -/
theorem available_set {logits : List (WithBot R)} {e : ℕ} {x : R}
    (he : logits[e]? = some (WithBot.some x)) :
    available (logits.set e ⊥) + 1 = available logits := by
  obtain ⟨hlt, hx⟩ := List.getElem?_eq_some_iff.1 he
  have hpos : 0 < available logits := by
    refine List.countP_pos_iff.2 ⟨_, List.mem_of_getElem? he, ?_⟩
    exact decide_eq_true (WithBot.bot_lt_coe x)
  rw [available, List.countP_set hlt, hx, if_pos (decide_eq_true (WithBot.bot_lt_coe x)),
    if_neg (by simp)]
  change 0 < List.countP _ _ at hpos
  rw [available]
  omega

theorem available_eq_zero {logits : List (WithBot R)} (h : ∀ x ∈ logits, x = ⊥) :
    available logits = 0 := by
  refine List.countP_eq_zero.2 fun x hx => ?_
  rw [h x hx]
  simp

/-- **While logits are left**, the loop picks them, each once. -/
theorem selectLoop_of_available (k : ℕ) {logits : List (WithBot R)} (h : k ≤ available logits) :
    ∃ (topk : List (R × ℤ)) (idx : List ℕ), selectLoop k logits = some topk ∧
      topk.map Prod.snd = idx.map Nat.cast ∧ idx.length = k ∧ idx.Nodup ∧
      ∀ i ∈ idx, ∃ x : R, logits[i]? = some (WithBot.some x) := by
  induction k generalizing logits with
  | zero => exact ⟨[], [], rfl, rfl, rfl, List.nodup_nil, List.forall_mem_nil _⟩
  | succ k ih =>
    rcases selectBest_spec logits with ⟨-, hbot⟩ | ⟨e, x, hbest, he, -⟩
    · have hzero := available_eq_zero hbot
      omega
    have hleftover : k ≤ available (logits.set e ⊥) := by
      have hcount := available_set he
      omega
    obtain ⟨topk, idx, hrun, hsnd, hlen, hnd, hleft⟩ := ih hleftover
    have hne : ∀ i ∈ idx, e ≠ i := by
      rintro i hi rfl
      obtain ⟨y, hy⟩ := hleft _ hi
      rw [List.getElem?_set_self (List.getElem?_eq_some_iff.1 he).1] at hy
      exact WithBot.bot_ne_coe (Option.some.inj hy)
    refine ⟨(x, e) :: topk, e :: idx, ?_, ?_, ?_, ?_, ?_⟩
    · rw [selectLoop, hbest]
      simp only [Int.toNat_natCast, hrun]
      rfl
    · rw [List.map_cons, List.map_cons, hsnd]
    · rw [List.length_cons, hlen]
    · exact List.nodup_cons.2 ⟨fun hmem => hne e hmem rfl, hnd⟩
    · refine List.forall_mem_cons.2 ⟨⟨x, he⟩, fun i hi => ?_⟩
      rw [← List.getElem?_set_ne (hne i hi)]
      exact hleft i hi

/-- **When none are left**, the loop writes to `local_logits[-1]`. -/
theorem selectLoop_eq_none (k : ℕ) {logits : List (WithBot R)} (h : available logits < k) :
    selectLoop k logits = none := by
  induction k generalizing logits with
  | zero => omega
  | succ k ih =>
    rcases selectBest_spec logits with ⟨hbest, -⟩ | ⟨e, x, hbest, he, -⟩
    · rw [selectLoop, hbest]
    · have hcount := available_set he
      rw [selectLoop, hbest]
      simp only [Int.toNat_natCast]
      rw [ih (by omega)]
      rfl

theorem not_validSelection {k : ℕ} {logits : List (WithBot R)} (h : available logits < k) :
    ¬ ValidSelection k logits := by
  rintro ⟨topk, hrun, -⟩
  rw [selectLoop_eq_none k h] at hrun
  cases hrun

/-- **The selection is valid exactly if `k` experts are not masked.** -/
theorem validSelection_iff {R : Type} [LinearOrder R] (k : ℕ) (logits : List (WithBot R)) :
    ValidSelection k logits ↔ k ≤ available logits := by
  constructor
  · intro h
    by_contra hlt
    exact not_validSelection (not_le.1 hlt) h
  · intro h
    obtain ⟨topk, idx, hrun, hsnd, hlen, hnd, hleft⟩ := selectLoop_of_available k h
    refine ⟨topk, hrun, ?_, ?_, ?_⟩
    · rw [← List.length_map Prod.snd, hsnd, List.length_map, hlen]
    · rw [hsnd]
      exact hnd.map Nat.cast_injective
    · intro i hi
      rw [hsnd] at hi
      obtain ⟨j, hj, rfl⟩ := List.mem_map.1 hi
      obtain ⟨x, hx⟩ := hleft j hj
      exact ⟨Int.natCast_nonneg j, Int.ofNat_lt.2 (List.getElem?_eq_some_iff.1 hx).1⟩

/-- **Two experts, one of them masked, and `k = 2`**: the second scan finds nothing. -/
theorem not_validSelection_masked :
    2 ≤ [((0 : ℤ) : WithBot ℤ), ⊥].length ∧ ¬ ValidSelection 2 [((0 : ℤ) : WithBot ℤ), ⊥] :=
  ⟨le_rfl, not_validSelection (by decide)⟩

end AetherMoE.Kernels
