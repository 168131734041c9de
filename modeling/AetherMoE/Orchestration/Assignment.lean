import AetherMoE.Orchestration.Router
import Mathlib.Data.List.Count

/-!
# The expert each token is assigned to

* `rankOf`: the number of tokens that come before a token in its primary expert's queue;
* **`getElem?_assignEffectiveExperts`**: with distinct batch positions, a token keeps its primary
  expert exactly if its rank is below the capacity, and overflows to its own secondary expert
  otherwise, whatever the standard library chooses;
* **`capacity_ceiling`**: what follows for the whole batch.
-/

namespace AetherMoE

open Grouping

namespace Router

variable {r : Router} {tokens : List RoutedToken}

/-- The tokens of the batch with `t`'s primary expert and a smaller batch position. -/
def rankOf (tokens : List RoutedToken) (t : RoutedToken) : ℕ :=
  tokens.countP fun u => u.primaryExpert = t.primaryExpert ∧ u.batchPosition < t.batchPosition

/-- The expert `t` is assigned to. -/
def effectiveOf (r : Router) (tokens : List RoutedToken) (t : RoutedToken) : UInt32 :=
  if rankOf tokens t < r.expertCapacity then t.primaryExpert else t.secondaryExpert

/-! ## One primary expert -/

/-- The loop of `assignRanked` from rank `k` on. -/
def assignFrom (r : Router) (tokens : List RoutedToken) (effective : List UInt32)
    (indices : List ℕ) (k : ℕ) : List UInt32 :=
  (indices.zipIdx k).foldl (fun effective p =>
    match tokens[p.1]? with
    | some t => effective.set p.1
        (if p.2 < r.expertCapacity then t.primaryExpert else t.secondaryExpert)
    | none => effective) effective

theorem assignFrom_cons (effective : List UInt32) (i : ℕ) (indices : List ℕ) (k : ℕ)
    {t : RoutedToken} (ht : tokens[i]? = some t) :
    r.assignFrom tokens effective (i :: indices) k = r.assignFrom tokens
      (effective.set i (if k < r.expertCapacity then t.primaryExpert else t.secondaryExpert))
      indices (k + 1) := by
  simp only [assignFrom, List.zipIdx_cons, List.foldl_cons, ht]

theorem length_assignFrom (effective : List UInt32) (indices : List ℕ) (k : ℕ) :
    (r.assignFrom tokens effective indices k).length = effective.length := by
  induction indices generalizing effective k with
  | nil => rfl
  | cons i indices ih =>
    cases ht : tokens[i]? with
    | none =>
      simp only [assignFrom, List.zipIdx_cons, List.foldl_cons, ht]
      exact ih effective (k + 1)
    | some t => rw [assignFrom_cons effective i indices k ht, ih, List.length_set]

/-- The loop leaves the tokens of other experts alone. -/
theorem getElem?_assignFrom_of_notMem {i : ℕ} (effective : List UInt32) {indices : List ℕ}
    (k : ℕ) (hi : i ∉ indices) :
    (r.assignFrom tokens effective indices k)[i]? = effective[i]? := by
  induction indices generalizing effective k with
  | nil => rfl
  | cons x indices ih =>
    rw [List.mem_cons, not_or] at hi
    cases ht : tokens[x]? with
    | none =>
      simp only [assignFrom, List.zipIdx_cons, List.foldl_cons, ht]
      exact ih effective (k + 1) hi.2
    | some t =>
      rw [assignFrom_cons effective x indices k ht, ih _ _ hi.2,
        List.getElem?_set_ne (Ne.symm hi.1)]

/-- The loop assigns by rank. -/
theorem getElem?_assignFrom {i j : ℕ} {t : RoutedToken} (effective : List UInt32)
    {indices : List ℕ} (k : ℕ) (hnd : indices.Nodup) (hidx : ∀ x ∈ indices, x < tokens.length)
    (hj : indices[j]? = some i) (ht : tokens[i]? = some t) (hi : i < effective.length) :
    (r.assignFrom tokens effective indices k)[i]? =
      some (if k + j < r.expertCapacity then t.primaryExpert else t.secondaryExpert) := by
  induction indices generalizing effective k j with
  | nil => cases hj
  | cons x indices ih =>
    rw [List.nodup_cons] at hnd
    rw [List.forall_mem_cons] at hidx
    obtain ⟨u, hu⟩ : ∃ u, tokens[x]? = some u := ⟨_, List.getElem?_eq_getElem hidx.1⟩
    rw [assignFrom_cons effective x indices k hu]
    cases j with
    | zero =>
      obtain rfl : x = i := Option.some.inj hj
      obtain rfl : u = t := Option.some.inj (hu.symm.trans ht)
      rw [getElem?_assignFrom_of_notMem _ _ hnd.1, List.getElem?_set_self hi]
      rfl
    | succ j =>
      rw [List.getElem?_cons_succ] at hj
      rw [ih _ _ hnd.2 hidx.2 hj (by rwa [List.length_set]), Nat.add_right_comm, Nat.add_assoc]

/-! ## Ranks -/

theorem positionOf_eq {i : ℕ} {t : RoutedToken} (ht : tokens[i]? = some t) :
    positionOf tokens i = t.batchPosition := by
  simp [positionOf, ht]

theorem mem_sortedIndices (c : Choices) {e : UInt32} {i : ℕ} :
    i ∈ sortedIndices c tokens e ↔ tokens[i]?.map RoutedToken.primaryExpert = some e := by
  rw [sortedIndices, (c.sort_perm _ _).mem_iff, mem_indicesOf, List.getElem?_map]

theorem nodup_sortedIndices (c : Choices) (e : UInt32) : (sortedIndices c tokens e).Nodup :=
  (c.sort_perm _ _).nodup_iff.2 (nodup_indicesOf _ _)

theorem lt_of_mem_sortedIndices (c : Choices) {e : UInt32} {i : ℕ}
    (h : i ∈ sortedIndices c tokens e) : i < tokens.length := by
  rw [mem_sortedIndices, Option.map_eq_some_iff] at h
  obtain ⟨t, ht, -⟩ := h
  exact (List.getElem?_eq_some_iff.1 ht).1

/-- With distinct positions, the sorted indices of an expert are strictly sorted. -/
theorem sortedIndices_strict (c : Choices) (hpos : (tokens.map RoutedToken.batchPosition).Nodup)
    (e : UInt32) : (sortedIndices c tokens e).Pairwise
      fun a b => (positionOf tokens a).toNat < (positionOf tokens b).toNat := by
  refine List.Pairwise.imp_of_mem ?_ ((c.sort_sorted (positionOf tokens) _).and
    (nodup_sortedIndices c e))
  intro a b ha hb hab
  have ha' := lt_of_mem_sortedIndices c ha
  have hb' := lt_of_mem_sortedIndices c hb
  rw [positionOf_eq (List.getElem?_eq_getElem ha'), positionOf_eq (List.getElem?_eq_getElem hb')]
    at hab ⊢
  refine lt_of_le_of_ne (UInt32.le_iff_toNat_le.1 hab.1) fun heq => hab.2 ?_
  refine (List.getElem?_inj (by simpa using ha') hpos).1 ?_
  rw [List.getElem?_map, List.getElem?_map, List.getElem?_eq_getElem ha',
    List.getElem?_eq_getElem hb', Option.map_some, Option.map_some, UInt32.toNat_inj.1 heq]

/-- The place of a token in its expert's sorted queue is its rank. -/
theorem getElem?_sortedIndices (c : Choices)
    (hpos : (tokens.map RoutedToken.batchPosition).Nodup) {i : ℕ} {t : RoutedToken}
    (ht : tokens[i]? = some t) :
    (sortedIndices c tokens t.primaryExpert)[rankOf tokens t]? = some i := by
  have hi : i ∈ sortedIndices c tokens t.primaryExpert := by
    rw [mem_sortedIndices, ht]
    rfl
  obtain ⟨j, hj, hji⟩ := List.mem_iff_getElem.1 hi
  have hrank := countP_lt_getElem (fun a => (positionOf tokens a).toNat)
    (sortedIndices_strict c hpos _) hj
  rw [hji, sortedIndices, (c.sort_perm _ _).countP_eq] at hrank
  suffices h : rankOf tokens t = j by
    rw [h, List.getElem?_eq_getElem hj, hji]
  rw [← hrank, rankOf, ← countP_range_getElem?]
  change _ = ((List.range _).filter _).countP _
  rw [List.countP_filter, List.length_map]
  refine List.countP_congr fun k hk => ?_
  have hlt := List.mem_range.1 hk
  have hk' : tokens[k]? = some tokens[k] := List.getElem?_eq_getElem hlt
  simp only [hk', Option.any_some, List.getElem?_map, Option.map_some, positionOf_eq ht,
    positionOf_eq hk', Option.some.injEq, Bool.and_eq_true, decide_eq_true_eq,
    UInt32.lt_iff_toNat_lt]
  exact and_comm

/-! ## The whole batch -/

/-- The loop over the experts: a token's own expert decides, the others do not touch it. -/
theorem getElem?_foldl_assignRanked (r : Router) (c : Choices)
    (hpos : (tokens.map RoutedToken.batchPosition).Nodup) {i : ℕ} {t : RoutedToken}
    (ht : tokens[i]? = some t) (order effective : List UInt32) (hnd : order.Nodup)
    (hlen : effective.length = tokens.length) :
    (order.foldl (fun effective expert =>
      r.assignRanked tokens effective (sortedIndices c tokens expert)) effective)[i]? =
        if t.primaryExpert ∈ order then some (r.effectiveOf tokens t) else effective[i]? := by
  induction order generalizing effective with
  | nil => simp
  | cons e order ih =>
    rw [List.nodup_cons] at hnd
    have hlen' : (r.assignRanked tokens effective (sortedIndices c tokens e)).length =
        tokens.length := (length_assignFrom effective _ 0).trans hlen
    rw [List.foldl_cons, ih _ hnd.2 hlen']
    by_cases he : t.primaryExpert = e
    · subst he
      rw [if_neg hnd.1, if_pos List.mem_cons_self]
      have hi : i < effective.length := by
        rw [hlen]
        exact (List.getElem?_eq_some_iff.1 ht).1
      have hown := getElem?_assignFrom (r := r) effective 0 (nodup_sortedIndices c _)
        (fun x hx => lt_of_mem_sortedIndices c hx) (getElem?_sortedIndices c hpos ht) ht hi
      rwa [Nat.zero_add] at hown
    · have hnot : i ∉ sortedIndices c tokens e := by
        rw [mem_sortedIndices, ht]
        exact fun h => he (Option.some.inj h)
      have hsame : (r.assignRanked tokens effective (sortedIndices c tokens e))[i]? =
          effective[i]? := getElem?_assignFrom_of_notMem effective 0 hnot
      rw [hsame]
      simp only [List.mem_cons, he, false_or]

theorem length_foldl_assignRanked (r : Router) (c : Choices) (tokens : List RoutedToken)
    (order effective : List UInt32) : (order.foldl (fun effective expert =>
      r.assignRanked tokens effective (sortedIndices c tokens expert)) effective).length =
        effective.length := by
  induction order generalizing effective with
  | nil => rfl
  | cons e order ih => exact (ih _).trans (length_assignFrom effective _ 0)

theorem length_assignEffectiveExperts (r : Router) (c : Choices) (tokens : List RoutedToken) :
    (r.assignEffectiveExperts c tokens).length = tokens.length :=
  (length_foldl_assignRanked r c tokens _ _).trans List.length_replicate

/-- **The capacity ceiling**: each token keeps its primary expert or overflows, by its rank. -/
theorem getElem?_assignEffectiveExperts (r : Router) (c : Choices)
    (hpos : (tokens.map RoutedToken.batchPosition).Nodup) {i : ℕ} {t : RoutedToken}
    (ht : tokens[i]? = some t) :
    (r.assignEffectiveExperts c tokens)[i]? = some (r.effectiveOf tokens t) := by
  unfold assignEffectiveExperts
  rw [getElem?_foldl_assignRanked r c hpos ht _ _
    ((c.expertOrder_perm _).nodup_iff.2 (List.nodup_dedup _)) List.length_replicate, if_pos]
  rw [(c.expertOrder_perm _).mem_iff, List.mem_dedup]
  exact List.mem_map_of_mem (List.mem_of_getElem? ht)

/-- The assignment as a whole. -/
theorem assignEffectiveExperts_eq (r : Router) (c : Choices)
    (hpos : (tokens.map RoutedToken.batchPosition).Nodup) :
    r.assignEffectiveExperts c tokens = tokens.map (r.effectiveOf tokens) := by
  refine List.ext_getElem? fun i => ?_
  rw [List.getElem?_map]
  cases ht : tokens[i]? with
  | some t => exact getElem?_assignEffectiveExperts r c hpos ht
  | none =>
    rw [List.getElem?_eq_none_iff] at ht
    rwa [Option.map_none, List.getElem?_eq_none_iff, length_assignEffectiveExperts]

/-! ## Any positions -/

/-- Whatever the positions are, a token ends up with one of the experts it names. -/
theorem getElem?_foldl_assignRanked_mem (r : Router) (c : Choices) {i : ℕ} {t : RoutedToken}
    (ht : tokens[i]? = some t) (order effective : List UInt32)
    (hlen : effective.length = tokens.length)
    (h : t.primaryExpert ∈ order ∨
      effective[i]? = some t.primaryExpert ∨ effective[i]? = some t.secondaryExpert) :
    (order.foldl (fun effective expert =>
      r.assignRanked tokens effective (sortedIndices c tokens expert)) effective)[i]? =
        some t.primaryExpert ∨
    (order.foldl (fun effective expert =>
      r.assignRanked tokens effective (sortedIndices c tokens expert)) effective)[i]? =
        some t.secondaryExpert := by
  induction order generalizing effective with
  | nil => exact h.resolve_left List.not_mem_nil
  | cons e order ih =>
    have hlen' : (r.assignRanked tokens effective (sortedIndices c tokens e)).length =
        tokens.length := (length_assignFrom effective _ 0).trans hlen
    refine ih _ hlen' ?_
    by_cases hi : i ∈ sortedIndices c tokens e
    · obtain ⟨j, hj⟩ := List.mem_iff_getElem?.1 hi
      have hlt : i < effective.length := hlen ▸ (List.getElem?_eq_some_iff.1 ht).1
      have hown := getElem?_assignFrom (r := r) effective 0 (nodup_sortedIndices c e)
        (fun x hx => lt_of_mem_sortedIndices c hx) hj ht hlt
      refine .inr ?_
      change (r.assignFrom tokens effective (sortedIndices c tokens e) 0)[i]? = _ ∨
        (r.assignFrom tokens effective (sortedIndices c tokens e) 0)[i]? = _
      rw [hown]
      split
      · exact .inl rfl
      · exact .inr rfl
    · have hsame : (r.assignRanked tokens effective (sortedIndices c tokens e))[i]? =
          effective[i]? := getElem?_assignFrom_of_notMem effective 0 hi
      have hne : t.primaryExpert ≠ e := by
        rintro rfl
        exact hi ((mem_sortedIndices c).2 (by rw [ht, Option.map_some]))
      simp only [hsame]
      exact h.imp_left fun hmem => (List.mem_cons.1 hmem).resolve_left hne

theorem getElem?_assignEffectiveExperts_mem (r : Router) (c : Choices) {i : ℕ}
    {t : RoutedToken} (ht : tokens[i]? = some t) :
    (r.assignEffectiveExperts c tokens)[i]? = some t.primaryExpert ∨
      (r.assignEffectiveExperts c tokens)[i]? = some t.secondaryExpert := by
  refine getElem?_foldl_assignRanked_mem r c ht _ _ List.length_replicate (.inl ?_)
  rw [(c.expertOrder_perm _).mem_iff, List.mem_dedup]
  exact List.mem_map_of_mem (List.mem_of_getElem? ht)

/-! ## How many keep their expert -/

/-- Within one expert, as many tokens as there are rank below `k`, up to `k`. -/
theorem countP_rankOf_lt (hpos : (tokens.map RoutedToken.batchPosition).Nodup) (e : UInt32)
    (k : ℕ) : tokens.countP (fun t => t.primaryExpert = e ∧ rankOf tokens t < k) =
      min (tokens.countP fun t => t.primaryExpert = e) k := by
  have hnd : ((tokens.filter fun t => t.primaryExpert = e).map
      fun t => t.batchPosition.toNat).Nodup := by
    have hsub := hpos.sublist ((List.filter_sublist (p := fun t => t.primaryExpert = e)).map _)
    have hmap := hsub.map fun a b => UInt32.toNat_inj.1
    rwa [List.map_map] at hmap
  have hrank := countP_rank_lt (fun t : RoutedToken => t.batchPosition.toNat) hnd k
  rw [List.countP_filter, ← List.countP_eq_length_filter] at hrank
  rw [← hrank]
  refine List.countP_congr fun t _ => ?_
  simp only [List.countP_filter, decide_eq_true_eq, Bool.and_eq_true, and_comm]
  refine and_congr_right fun he => ?_
  subst he
  simp only [rankOf, UInt32.lt_iff_toNat_lt, Bool.decide_and, Bool.and_comm]

/-- The assignment of a token does not depend on where in the input it stands. -/
theorem effectiveOf_perm {tokens' : List RoutedToken} (h : tokens'.Perm tokens) (t : RoutedToken) :
    r.effectiveOf tokens' t = r.effectiveOf tokens t := by
  rw [effectiveOf, effectiveOf, rankOf, rankOf, h.countP_eq]

/-- Whoever does not ask for one expert twice keeps it exactly if ranked within the capacity. -/
theorem effectiveOf_eq_primary {t : RoutedToken} (ht : t.secondaryExpert ≠ t.primaryExpert) :
    r.effectiveOf tokens t = t.primaryExpert ↔ rankOf tokens t < r.expertCapacity := by
  rw [effectiveOf]
  split
  · exact iff_of_true rfl ‹_›
  · exact iff_of_false ht ‹_›

/-- The tokens an expert keeps, in the assignment. -/
theorem countP_keep (c : Choices) (hpos : (tokens.map RoutedToken.batchPosition).Nodup)
    {e : UInt32} (he : ∀ t ∈ tokens, t.primaryExpert = e → t.secondaryExpert ≠ e) :
    (tokens.zip (r.assignEffectiveExperts c tokens)).countP
        (fun p => p.1.primaryExpert = e ∧ p.2 = e) =
      min (tokens.countP fun t => t.primaryExpert = e) r.expertCapacity := by
  rw [assignEffectiveExperts_eq r c hpos, ← List.map_prod_left_eq_zip, List.countP_map,
    ← countP_rankOf_lt hpos]
  refine List.countP_congr fun t ht => ?_
  simp only [Function.comp_apply, decide_eq_true_eq]
  refine and_congr_right fun hp => ?_
  subst hp
  exact effectiveOf_eq_primary (he t ht rfl)

/-- **The capacity ceiling as a whole**: the rank decides; an expert keeps as many of its tokens as
there are, up to the capacity; the order of the input does not matter. -/
theorem capacity_ceiling (r : Router) (c : Choices)
    (hpos : (tokens.map RoutedToken.batchPosition).Nodup) :
    (r.assignEffectiveExperts c tokens).length = tokens.length ∧
    (∀ (i : ℕ) t, tokens[i]? = some t →
      (r.assignEffectiveExperts c tokens)[i]? = some (if rankOf tokens t < r.expertCapacity
        then t.primaryExpert else t.secondaryExpert) ∧
      (t.secondaryExpert ≠ t.primaryExpert →
        ((r.assignEffectiveExperts c tokens)[i]? = some t.primaryExpert ↔
          rankOf tokens t < r.expertCapacity))) ∧
    (∀ e, tokens.countP (fun t => t.primaryExpert = e ∧ rankOf tokens t < r.expertCapacity) =
      min (tokens.countP fun t => t.primaryExpert = e) r.expertCapacity) ∧
    (∀ e, (∀ t ∈ tokens, t.primaryExpert = e → t.secondaryExpert ≠ e) →
      (tokens.zip (r.assignEffectiveExperts c tokens)).countP
          (fun p => p.1.primaryExpert = e ∧ p.2 = e) =
        min (tokens.countP fun t => t.primaryExpert = e) r.expertCapacity) ∧
    (∀ c' tokens', List.Perm tokens' tokens → ∀ (i j : ℕ) t,
      tokens[i]? = some t → tokens'[j]? = some t →
        (r.assignEffectiveExperts c' tokens')[j]? = (r.assignEffectiveExperts c tokens)[i]?) := by
  refine ⟨?_, fun i t ht => ⟨?_, fun hne => ?_⟩, ?_, ?_, ?_⟩
  · exact length_assignEffectiveExperts r c tokens
  · exact getElem?_assignEffectiveExperts r c hpos ht
  · rw [getElem?_assignEffectiveExperts r c hpos ht, Option.some_inj]
    exact effectiveOf_eq_primary hne
  · exact fun e => countP_rankOf_lt hpos e r.expertCapacity
  · exact fun e he => countP_keep c hpos he
  · intro c' tokens' hperm i j t hi hj
    have hpos' := (hperm.map RoutedToken.batchPosition).nodup_iff.2 hpos
    rw [getElem?_assignEffectiveExperts r c hpos hi, getElem?_assignEffectiveExperts r c' hpos' hj,
      effectiveOf_perm hperm]

/-- A router whose experts take one token each. -/
def oneSlot : Router where
  expertToShard e := some e
  hasTransport _ := true
  expertCapacity := 1

/-- Two tokens for expert 0, with the same second choice. -/
def crowded (secondary : UInt32) : List RoutedToken :=
  [{ tokenId := 1, batchPosition := 0, primaryExpert := 0, secondaryExpert := secondary,
     payload := [] },
    { tokenId := 2, batchPosition := 1, primaryExpert := 0, secondaryExpert := secondary,
      payload := [] }]

theorem capacity_ceiling_crowded :
    ((crowded 1).zip (oneSlot.assignEffectiveExperts .inOrder (crowded 1))).countP
      (fun p => p.1.primaryExpert = 0 ∧ p.2 = 0) =
        min ((crowded 1).countP fun t => t.primaryExpert = 0) 1 :=
  (capacity_ceiling oneSlot .inOrder (by decide)).2.2.2.1 0 (by decide)

/-- The second of two tokens that name expert 0 twice overflows, to expert 0: it has its primary
expert beyond the capacity. -/
theorem primary_beyond_capacity :
    ((crowded 0).map RoutedToken.batchPosition).Nodup ∧
    (∃ t, (crowded 0)[1]? = some t ∧ ¬rankOf (crowded 0) t < oneSlot.expertCapacity ∧
      (oneSlot.assignEffectiveExperts .inOrder (crowded 0))[1]? = some t.primaryExpert) ∧
    ((crowded 0).zip (oneSlot.assignEffectiveExperts .inOrder (crowded 0))).countP
      (fun p => p.1.primaryExpert = 0 ∧ p.2 = 0) ≠
        min ((crowded 0).countP fun t => t.primaryExpert = 0) oneSlot.expertCapacity :=
  ⟨by decide, ⟨_, rfl, by decide, by decide⟩, by decide⟩

end Router

end AetherMoE
