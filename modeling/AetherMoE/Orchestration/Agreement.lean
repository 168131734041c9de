import AetherMoE.Orchestration.StrictRouting

/-!
# Strict and tolerant routing on a healthy cluster

* `deliveredAll`, **`exec_tolerant_healthy`**: the tolerant path returns every token processed, with
  its own effective expert;
* **`exec_strict_healthy`**, `getElem?_strictResults`: the strict path returns every token
  processed, with the effective expert of the token that stands at the same index of the input;
* **`strict_eq_tolerant_iff`**: the two lists are the same exactly if these experts are.
-/

namespace AetherMoE

open Effect Scatter

namespace Router

variable {r : Router} {tokens : List RoutedToken} {w : Cluster} {c : Choices}

/-- Every token processed, in the order of the positions. -/
def deliveredAll (r : Router) (tokens : List RoutedToken) : List RoutedResult :=
  (List.range tokens.length).map fun p =>
    ((tokens.find? fun t => t.place = p).map (r.delivered tokens)).getD {}

/-- Lists of results are compared at the positions of the tokens. -/
theorem ValidBatch.ext_place (h : r.ValidBatch tokens) {l l' : List RoutedResult}
    (hl : l.length = tokens.length) (hl' : l'.length = tokens.length) :
    l = l' ↔ ∀ t ∈ tokens, l[t.place]? = l'[t.place]? := by
  constructor
  · rintro rfl t -
    rfl
  · intro hsame
    ext1 p
    by_cases hp : p < tokens.length
    · obtain ⟨t, ht, rfl⟩ := h.routable.exists_place hp
      exact hsame t ht
    · rw [List.getElem?_eq_none (by omega), List.getElem?_eq_none (by omega)]

theorem getElem?_deliveredAll (h : r.ValidBatch tokens) {t : RoutedToken} (ht : t ∈ tokens) :
    (r.deliveredAll tokens)[t.place]? = some (r.delivered tokens t) := by
  rw [deliveredAll, List.getElem?_map, List.getElem?_range (h.routable.place_lt ht),
    Option.map_some, find?_eq_some_of_nodup h.routable.nodup ht, Option.map_some, Option.getD_some]

/-- **The tolerant path** on a healthy cluster. -/
theorem exec_tolerant_healthy (h : r.ValidBatch tokens) (hsz : Sized tokens)
    (hr : r.unhealthyShards = ∅) (ht : ∀ t ∈ tokens, r.hasTransport (r.shardOf tokens t))
    (hw : w.Settled) (hu : w.Unharmed) (c : Choices) :
    ∃ r' w', exec (routeBatchTolerant clusterNet r c tokens) w =
      some (.ok (r.deliveredAll tokens, r'), w') := by
  obtain ⟨vs, w', hexec, -, hs⟩ := survey_spec (r := r) hsz hw (r.visitOrder tokens c)
  have hfst := survey_fst hexec
  have hnd : (vs.map Prod.fst).Nodup := hfst ▸ nodup_visitOrder c
  suffices hall : r.gathered c.leftover tokens vs = r.deliveredAll tokens from
    ⟨_, w', hall ▸ exec_routeBatchTolerant h.routable hexec⟩
  refine (h.ext_place (by simp [gathered]) (by simp [deliveredAll])).2 fun t htok => ?_
  obtain ⟨v, hq⟩ := exists_verdict hfst htok
  rw [getElem?_gathered_honest h htok hnd hs.honest hq, getElem?_deliveredAll h htok]
  cases v with
  | replied results => rfl
  | unhealthy =>
    have hmem : r.shardOf tokens t ∈ r.unhealthyShards := hs.honest _ hq
    simp [hr] at hmem
  | threw e =>
    have hbroken : r.shardOf tokens t ∈ vs.filterMap r.broken :=
      List.mem_filterMap.2 ⟨_, hq, broken_eq_some.2 ⟨rfl, ht t htok, e, rfl⟩⟩
    simp [(hs.unharmed hu).2] at hbroken

theorem length_strictResults (flat : List RoutedResult) :
    (r.strictResults tokens flat).length = tokens.length := by
  simp [strictResults, inPlace]

/-- The strict path returns the processed token of each position with the effective expert of the
token at that index of the input. -/
theorem getElem?_strictResults (h : r.ValidBatch tokens) (c : Choices) {t u : RoutedToken}
    (ht : t ∈ tokens) (hu : tokens[t.place]? = some u) :
    (r.strictResults tokens (r.flatOf c tokens))[t.place]? =
      some { r.delivered tokens t with effectiveExpert := r.effectiveOf tokens u } := by
  have hnd : ((r.flatOf c tokens).map RoutedResult.place).Nodup :=
    (place_flatOf_perm h c).nodup_iff.2 List.nodup_range
  have hmem : processTokenPlaceholder t (r.shardOf tokens t) ∈ r.flatOf c tokens :=
    (flatOf_perm c).mem_iff.2
      (List.mem_map_of_mem (f := fun t => processTokenPlaceholder t (r.shardOf tokens t)) ht)
  have hfind := find?_eq_some_of_nodup hnd hmem
  have hplace : (processTokenPlaceholder t (r.shardOf tokens t)).place = t.place := rfl
  rw [hplace] at hfind
  rw [strictResults, List.getElem?_zipWith, inPlace, List.getElem?_map,
    List.getElem?_range (h.routable.place_lt ht), Option.map_some, hfind, List.getElem?_map, hu]
  rfl

/-- **The strict path** on a healthy cluster. -/
theorem exec_strict_healthy (h : r.ValidBatch tokens) (hsz : Sized tokens)
    (ht : ∀ t ∈ tokens, r.hasTransport (r.shardOf tokens t)) (hw : w.Settled) (hu : w.Unharmed)
    (c : Choices) :
    ∃ w', exec (routeBatch clusterNet r c tokens) w =
      some (.ok (r.strictResults tokens (r.flatOf c tokens)), w') := by
  obtain ⟨w', hexec, -⟩ | ⟨e, w', -, -, hno⟩ := routeBatch_spec h hsz hw c
  · exact ⟨w', hexec⟩
  · obtain ⟨t, htok, hnot⟩ := hno hu
    exact absurd (ht t htok) hnot

theorem strictResults_eq_iff (h : r.ValidBatch tokens) (c : Choices) :
    r.strictResults tokens (r.flatOf c tokens) = r.deliveredAll tokens ↔
      ∀ t ∈ tokens, ∀ u, tokens[t.place]? = some u →
        r.effectiveOf tokens u = r.effectiveOf tokens t := by
  rw [h.ext_place (length_strictResults _) (by simp [deliveredAll])]
  refine forall₂_congr fun t ht => ?_
  rw [getElem?_deliveredAll h ht]
  constructor
  · intro hsame u hu
    rw [getElem?_strictResults h c ht hu, Option.some.injEq] at hsame
    exact congrArg RoutedResult.effectiveExpert hsame
  · intro hsame
    have hu := List.getElem?_eq_getElem (h.routable.place_lt ht)
    rw [getElem?_strictResults h c ht hu, hsame _ hu]
    rfl

/-- **Strict and tolerant routing** on healthy clusters both return, and return the same list
exactly if every token has the effective expert of the token at the index of its position. -/
theorem strict_eq_tolerant_iff (r : Router) (tokens : List RoutedToken) (h : r.ValidBatch tokens)
    (hsz : Sized tokens) (hr : r.unhealthyShards = ∅)
    (ht : ∀ expert shard, r.expertToShard expert = some shard → r.hasTransport shard)
    (w₁ w₂ : Cluster) (hw₁ : w₁.Settled) (hu₁ : w₁.Unharmed) (hw₂ : w₂.Settled)
    (hu₂ : w₂.Unharmed) (c₁ c₂ : Choices) :
    ∃ strict w₁' tolerant r' w₂',
      exec (routeBatch clusterNet r c₁ tokens) w₁ = some (.ok strict, w₁') ∧
      exec (routeBatchTolerant clusterNet r c₂ tokens) w₂ = some (.ok (tolerant, r'), w₂') ∧
      (strict = tolerant ↔ ∀ t ∈ tokens, ∀ u, tokens[t.batchPosition.toNat]? = some u →
        r.effectiveOf tokens u = r.effectiveOf tokens t) := by
  have ht' : ∀ t ∈ tokens, r.hasTransport (r.shardOf tokens t) := fun t htok =>
    ht _ _ (h.routable.expertToShard_effectiveOf htok)
  obtain ⟨w₁', hstrict⟩ := exec_strict_healthy h hsz ht' hw₁ hu₁ c₁
  obtain ⟨r', w₂', htolerant⟩ := exec_tolerant_healthy h hsz hr ht' hw₂ hu₂ c₂
  exact ⟨_, w₁', _, r', w₂', hstrict, htolerant, strictResults_eq_iff h c₁⟩

/-- Fresh channels and workers that are never killed. -/
def healthy : Cluster where
  channel _ := {}
  script _ := []

theorem settled_healthy : healthy.Settled := fun _ _ => ⟨rfl, rfl⟩

theorem unharmed_healthy : healthy.Unharmed := ⟨fun _ => rfl, fun _ _ _ => List.not_mem_nil⟩

theorem hasTransport_twoShards (expert shard : UInt32)
    (h : twoShards.expertToShard expert = some shard) : twoShards.hasTransport shard := by
  simp only [twoShards, Option.ite_none_right_eq_some, Option.some.injEq] at h
  simpa [twoShards, ← h.2] using h.1

/-- On a batch in the order of its positions the two paths agree. -/
theorem strict_eq_tolerant_oneEach : ∃ results w₁' r' w₂',
    exec (routeBatch clusterNet twoShards .inOrder oneEach) healthy = some (.ok results, w₁') ∧
    exec (routeBatchTolerant clusterNet twoShards .inOrder oneEach) healthy =
      some (.ok (results, r'), w₂') := by
  obtain ⟨strict, w₁', tolerant, r', w₂', hstrict, htolerant, hiff⟩ :=
    strict_eq_tolerant_iff twoShards oneEach validBatch_oneEach sized_oneEach rfl
      hasTransport_twoShards healthy healthy settled_healthy unharmed_healthy settled_healthy
      unharmed_healthy .inOrder .inOrder
  obtain rfl := hiff.2 (by decide)
  exact ⟨strict, w₁', r', w₂', hstrict, htolerant⟩

/-- The two tokens, the one for the second position first. -/
def swapped : List RoutedToken := oneEach.reverse

/-- **On a batch in another order they do not.** -/
theorem strict_ne_tolerant_swapped : twoShards.ValidBatch swapped ∧
    ∃ strict w₁' tolerant r' w₂',
      exec (routeBatch clusterNet twoShards .inOrder swapped) healthy = some (.ok strict, w₁') ∧
      exec (routeBatchTolerant clusterNet twoShards .inOrder swapped) healthy =
        some (.ok (tolerant, r'), w₂') ∧ strict ≠ tolerant := by
  have h : twoShards.ValidBatch swapped := ⟨by decide, by decide⟩
  have hsz : Sized swapped := ⟨by decide, by decide⟩
  have ht : ∀ t ∈ swapped, twoShards.hasTransport (twoShards.shardOf swapped t) := by decide
  obtain ⟨w₁', hstrict⟩ := exec_strict_healthy h hsz ht settled_healthy unharmed_healthy .inOrder
  obtain ⟨r', w₂', htolerant⟩ :=
    exec_tolerant_healthy h hsz rfl ht settled_healthy unharmed_healthy .inOrder
  refine ⟨h, _, w₁', _, r', w₂', hstrict, htolerant, ?_⟩
  rw [Ne, strictResults_eq_iff h]
  decide

end Router

end AetherMoE
