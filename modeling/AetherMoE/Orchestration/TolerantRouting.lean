import AetherMoE.Lib.Reach
import AetherMoE.Orchestration.Cluster
import AetherMoE.Orchestration.Verdicts

/-!
# The tolerant path over a cluster

* `Honest`: what a verdict on a worker of the cluster can be;
* `Surveyed`, **`survey_spec`**: from a settled cluster every shard gets such a verdict, and the
  cluster is settled again: a worker whose exchange failed is dead;
* **`getElem?_gathered_honest`**: the result of a token follows from its own shard's verdict;
* `TolerantCall`, `Accounted`, **`tolerant_accounts`**: every call of a session accounts for every
  token.
-/

namespace AetherMoE

open ByteCodec Effect Relation

namespace Router

variable {r : Router} {tokens : List RoutedToken} {shard : UInt32} {w w' : Cluster}

/-- The messages of a batch, with the answers the workers give. -/
def requestsOf (r : Router) {tokens : List RoutedToken} (h : Sized tokens) : Requests where
  message shard := encodeTokenBatch (r.groupOf tokens shard)
  reply shard := encodeResultBatch (processed shard (r.groupOf tokens shard))
  served shard := serveBatch_encode (h.group shard) 0 shard

/-- What a verdict on a shard can be if a worker of the cluster is behind it. -/
def Honest (r : Router) (tokens : List RoutedToken) (shard : UInt32) : Verdict → Prop
  | .unhealthy => shard ∈ r.unhealthyShards
  | .threw e => shard ∉ r.unhealthyShards ∧ ∃ text, e.what? = some text ∧ text ≠ ""
  | .replied results => shard ∉ r.unhealthyShards ∧ r.hasTransport shard ∧
      results = processed shard (r.groupOf tokens shard)

/-- The shard of a verdict, if an operation on its transport threw. -/
def broken (r : Router) (q : UInt32 × Verdict) : Option UInt32 :=
  match q.2 with
  | .threw _ => if r.hasTransport q.1 then some q.1 else none
  | _ => none

/-- The verdicts `vs` were come to while the cluster went from `w` to `w'`. -/
structure Surveyed (r : Router) (tokens : List RoutedToken) (vs : List (UInt32 × Verdict))
    (w w' : Cluster) : Prop where
  honest : ∀ q ∈ vs, r.Honest tokens q.1 q.2
  threw : w'.threw = w.threw ++ vs.filterMap r.broken
  dead : ∀ s, (w.channel s).death ≠ none ∨ s ∈ vs.filterMap r.broken →
    (w'.channel s).death ≠ none
  unharmed : w.Unharmed → w'.Unharmed ∧ vs.filterMap r.broken = []

theorem Surveyed.nil (r : Router) (tokens : List RoutedToken) (w : Cluster) :
    r.Surveyed tokens [] w w where
  honest q hq := by cases hq
  threw := by simp
  dead s hs := by simpa using hs
  unharmed hu := ⟨hu, rfl⟩

theorem Surveyed.cons {q : UInt32 × Verdict} {vs : List (UInt32 × Verdict)} {w₁ : Cluster}
    (h₁ : r.Surveyed tokens [q] w w₁) (h₂ : r.Surveyed tokens vs w₁ w') :
    r.Surveyed tokens (q :: vs) w w' := by
  have hsplit : (q :: vs).filterMap r.broken = [q].filterMap r.broken ++ vs.filterMap r.broken := by
    rw [← List.filterMap_append, List.singleton_append]
  refine ⟨?_, ?_, ?_, fun hu => ?_⟩
  · rw [List.forall_mem_cons]
    exact ⟨h₁.honest q List.mem_cons_self, h₂.honest⟩
  · rw [h₂.threw, h₁.threw, hsplit, List.append_assoc]
  · intro s hs
    rw [hsplit, List.mem_append, ← or_assoc] at hs
    exact h₂.dead s (hs.imp_left (h₁.dead s))
  · rw [hsplit, (h₁.unharmed hu).2, (h₂.unharmed (h₁.unharmed hu).1).2]
    exact ⟨(h₂.unharmed (h₁.unharmed hu).1).1, rfl⟩

/-! ## One shard -/

/-- An exchange with a worker of a settled cluster. -/
theorem exchange_spec (hsz : Sized tokens) (hw : w.Settled) (ht : r.hasTransport shard) :
    (∃ w', exec (exchange clusterNet r shard (r.groupOf tokens shard)) w =
        some (.ok (processed shard (r.groupOf tokens shard)), w') ∧ w'.Settled ∧ w.Went w') ∨
    ∃ e w', exec (exchange clusterNet r shard (r.groupOf tokens shard)) w = some (.error e, w') ∧
      w'.Settled ∧ w.Threw shard e w' := by
  have htr : r.transportForShard shard = .ok () := if_pos ht
  let q := r.requestsOf hsz
  have hmsg : encodeTokenBatch (r.groupOf tokens shard) = q.message shard := rfl
  rw [exchange, htr, exec_bind_ok (exec_liftExcept _ _), hmsg]
  have hp : w.Pending q ∅ := Cluster.pending_empty.2 hw
  obtain ⟨w₁, hsend, hp₁, hwent⟩ | ⟨e, w₁, hsend, hp₁, hthrew⟩ :=
    Cluster.send_spec hp (Finset.notMem_empty shard)
  · rw [exec_bind_ok hsend, exec_bind_ok (exec_liftExcept _ _)]
    have hmem : shard ∈ insert shard (∅ : Finset UInt32) := Finset.mem_insert_self ..
    have hnone : (insert shard (∅ : Finset UInt32)).erase shard = ∅ :=
      Finset.erase_insert (Finset.notMem_empty shard)
    obtain ⟨w₂, hreceive, hp₂, hwent₂⟩ | ⟨e, w₂, hreceive, hp₂, hthrew₂⟩ :=
      Cluster.receive_spec hp₁ hmem
    · rw [hnone, Cluster.pending_empty] at hp₂
      refine .inl ⟨w₂, ?_, hp₂, hwent.trans hwent₂⟩
      rw [exec_bind_ok hreceive, exec_liftExcept]
      exact congrArg (fun x => some (x, w₂)) 
        (decodeResultBatch_processed (hsz.group shard) _ shard)
    · rw [hnone, Cluster.pending_empty] at hp₂
      exact .inr ⟨e, w₂, exec_bind_error hreceive, hp₂, hwent.trans_threw hthrew₂⟩
  · exact .inr ⟨e, w₁, exec_bind_error hsend, Cluster.pending_empty.1 hp₁, hthrew⟩

theorem consult_spec (hsz : Sized tokens) (hw : w.Settled) (shard : UInt32) :
    ∃ v w', exec (consult clusterNet r r.unhealthyShards shard (r.groupOf tokens shard)) w =
      some (.ok v, w') ∧ w'.Settled ∧ r.Surveyed tokens [(shard, v)] w w' := by
  by_cases hu : shard ∈ r.unhealthyShards
  · refine ⟨.unhealthy, w, exec_consult_unhealthy hu, hw, ?_, ?_, ?_, ?_⟩
    all_goals simp [broken, Honest, hu]
  by_cases ht : r.hasTransport shard
  · obtain ⟨w', hex, hw', hwent⟩ | ⟨e, w', hex, hw', hthrew⟩ := exchange_spec hsz hw ht
    · refine ⟨.replied _, w', exec_consult hu hex, hw', ?_, ?_, ?_, ?_⟩
      · simp [Honest, hu, ht]
      · simp [broken, hwent.threw]
      · simpa [broken] using hwent.dead
      · simpa [broken] using hwent.unharmed
    · refine ⟨.threw e, w', exec_consult hu hex, hw', ?_, ?_, ?_, ?_⟩
      · simpa [Honest, hu] using hthrew.explained
      · simp [broken, ht, hthrew.threw]
      · simpa [broken, ht] using hthrew.dead
      · exact fun h => absurd h hthrew.harmed
  · refine ⟨.threw (.noTransport shard), w,
      exec_consult hu (exec_exchange_of_not_hasTransport ht), hw, ?_, ?_, ?_, ?_⟩
    · simp [Honest, hu, Exn.what?, String.append_eq_empty_iff]
    all_goals simp [broken, ht]

/-- **From a settled cluster** the pass over the shards comes to its end, and leaves the cluster
settled. -/
theorem survey_spec (hsz : Sized tokens) (hw : w.Settled) (order : List UInt32) :
    ∃ vs w', exec (survey clusterNet r tokens order) w = some (.ok vs, w') ∧ w'.Settled ∧
      r.Surveyed tokens vs w w' := by
  induction order generalizing w with
  | nil => exact ⟨[], w, rfl, hw, .nil r tokens w⟩
  | cons shard order ih =>
    obtain ⟨v, w₁, hv, hw₁, hs₁⟩ := consult_spec (r := r) hsz hw shard
    obtain ⟨vs, w₂, hvs, hw₂, hs₂⟩ := ih hw₁
    refine ⟨(shard, v) :: vs, w₂, ?_, hw₂, hs₁.cons hs₂⟩
    rw [survey, exec_bind_ok hv, exec_bind_ok hvs]
    rfl

/-! ## One token -/

section Token

variable {leftover : UInt32 → UInt32} {t : RoutedToken} {v : Verdict}
  {vs : List (UInt32 × Verdict)}

/-- The processed token, with its effective expert. -/
def delivered (r : Router) (tokens : List RoutedToken) (t : RoutedToken) : RoutedResult :=
  { processTokenPlaceholder t (r.shardOf tokens t) with
    effectiveExpert := r.effectiveOf tokens t }

/-- The result of a token, by the verdict on its shard. -/
def due (r : Router) (leftover : UInt32 → UInt32) (tokens : List RoutedToken) (t : RoutedToken) :
    Verdict → RoutedResult
  | .replied _ => r.delivered tokens t
  | v => r.lost leftover tokens (v.reason (r.shardOf tokens t)) t

theorem find?_processed (shard : UInt32) (group : List RoutedToken) (p : ℕ) :
    (processed shard group).find? (fun result => result.place = p) =
      (group.find? fun t => t.place = p).map fun t => processTokenPlaceholder t shard := by
  rw [processed, List.find?_map]
  rfl

/-- A worker claims no position of another shard. -/
theorem said_honest_of_ne (h : r.ValidBatch tokens) (ht : t ∈ tokens)
    (hne : r.shardOf tokens t ≠ shard) (hv : r.Honest tokens shard v) :
    r.said tokens shard t.place v = none := by
  cases v with
  | replied results =>
    obtain ⟨-, -, rfl⟩ := hv
    rw [said, find?_processed, h.routable.find?_groupOf_of_ne ht hne]
    rfl
  | unhealthy => rfl
  | threw e => rfl

theorem answer_honest (h : r.ValidBatch tokens) (ht : t ∈ tokens)
    (hv : r.Honest tokens (r.shardOf tokens t) v) :
    r.answer leftover tokens (r.shardOf tokens t) t v none = r.due leftover tokens t v := by
  cases v with
  | replied results =>
    obtain ⟨-, -, rfl⟩ := hv
    have hplace : (processTokenPlaceholder t (r.shardOf tokens t)).place = t.place := rfl
    simp only [answer, said, find?_processed, h.routable.find?_groupOf ht, Option.map_some,
      Option.none_or, Option.getD_some, annotate, hplace, due, delivered]
  | unhealthy => rfl
  | threw e => rfl

/-- **The result of a token** follows from its own shard's verdict. -/
theorem getElem?_gathered_honest (h : r.ValidBatch tokens) (ht : t ∈ tokens)
    (hnd : (vs.map Prod.fst).Nodup) (hon : ∀ q ∈ vs, r.Honest tokens q.1 q.2)
    (hmem : (r.shardOf tokens t, v) ∈ vs) :
    (r.gathered leftover tokens vs)[t.place]? = some (r.due leftover tokens t v) := by
  obtain ⟨pre, post, rfl⟩ := List.append_of_mem hmem
  have hnone : (pre.findSome? fun q => r.said tokens q.1 t.place q.2) = none := by
    rw [List.findSome?_eq_none_iff]
    intro q hq
    refine said_honest_of_ne h ht ?_ (hon q (List.mem_append_left _ hq))
    rw [List.map_append, List.map_cons, List.nodup_append] at hnd
    exact (hnd.2.2 q.1 (List.mem_map_of_mem hq) _ List.mem_cons_self).symm
  rw [getElem?_gathered h.routable ht hnd, hnone, answer_honest h ht (hon _ hmem)]

theorem reason_ne_empty (hv : r.Honest tokens shard v) : v.reason shard ≠ "" := by
  cases v with
  | unhealthy =>
    intro hempty
    have hshard := (String.append_eq_empty_iff.1 (String.append_eq_empty_iff.1 hempty).1).1
    exact absurd hshard (by decide)
  | threw e =>
    obtain ⟨-, text, he, hne⟩ := hv
    show e.what?.getD _ ≠ ""
    rw [he]
    exact hne
  | replied results =>
    intro hempty
    exact absurd (String.append_eq_empty_iff.1 hempty).1 (by decide)

end Token

/-! ## Sessions -/

/-- The exchange with a shard of the batch failed while the cluster went from `w` to `w'`: the
shard has no transport, or an operation on its transport threw. -/
def ExchangeFailed (r : Router) (tokens : List RoutedToken) (w w' : Cluster) (shard : UInt32) :
    Prop :=
  (∃ t ∈ tokens, r.shardOf tokens t = shard) ∧ shard ∉ r.unhealthyShards ∧
    (¬ r.hasTransport shard ∨ shard ∈ w'.threw.drop w.threw.length)

/-- What a tolerant call owes its caller. -/
structure Accounted (r : Router) (w : Cluster) (tokens : List RoutedToken)
    (results : List RoutedResult) (r' : Router) (w' : Cluster) : Prop where
  length : results.length = tokens.length
  result : ∀ t ∈ tokens, ∃ shard result, r.expertToShard (r.effectiveOf tokens t) = some shard ∧
    results[t.batchPosition.toNat]? = some result ∧
    result.batchPosition = t.batchPosition ∧ result.tokenId = t.tokenId ∧
    result.effectiveExpert = r.effectiveOf tokens t ∧
    (shard ∈ r.unhealthyShards ∨ r.ExchangeFailed tokens w w' shard →
      result.failed = true ∧ result.failureReason ≠ "") ∧
    (¬ (shard ∈ r.unhealthyShards ∨ r.ExchangeFailed tokens w w' shard) →
      result.failed = false ∧ result.processedByShard = shard ∧
        result.payload = t.payload.map negate)
  unhealthy : ∀ shard, shard ∈ r'.unhealthyShards ↔
    shard ∈ r.unhealthyShards ∨ r.ExchangeFailed tokens w w' shard
  dead : ∀ shard ∈ w'.threw.drop w.threw.length, (w'.channel shard).death ≠ none
  config : r'.expertToShard = r.expertToShard ∧ r'.hasTransport = r.hasTransport ∧
    r'.expertCapacity = r.expertCapacity ∧ r'.reservable = r.reservable

section Accounts

variable {vs : List (UInt32 × Verdict)} {c : Choices}

theorem broken_eq_some {q : UInt32 × Verdict} {s : UInt32} :
    r.broken q = some s ↔ q.1 = s ∧ r.hasTransport s ∧ ∃ e, q.2 = .threw e := by
  obtain ⟨x, v⟩ := q
  cases v with
  | threw e =>
    simp only [broken, Option.ite_none_right_eq_some, Option.some.injEq, Verdict.threw.injEq,
      exists_eq', and_true]
    constructor
    · rintro ⟨hx, rfl⟩
      exact ⟨rfl, hx⟩
    · rintro ⟨rfl, hx⟩
      exact ⟨hx, rfl⟩
  | unhealthy => simp [broken]
  | replied results => simp [broken]

/-- An exchange failed exactly if the verdict on the shard is that it threw. -/
theorem Surveyed.exchangeFailed_iff (hs : r.Surveyed tokens vs w w')
    (hfst : vs.map Prod.fst = r.visitOrder tokens c) :
    r.ExchangeFailed tokens w w' shard ↔ ∃ e, (shard, Verdict.threw e) ∈ vs := by
  have hnd : (vs.map Prod.fst).Nodup := hfst ▸ nodup_visitOrder c
  have hnew : w'.threw.drop w.threw.length = vs.filterMap r.broken := by
    rw [hs.threw, List.drop_left]
  rw [ExchangeFailed, hnew, ← mem_visitOrder (c := c), ← hfst]
  constructor
  · rintro ⟨hmem, hu, hfail⟩
    obtain ⟨⟨x, v⟩, hq, rfl⟩ := List.mem_map.1 hmem
    have hon := hs.honest _ hq
    cases v with
    | threw e => exact ⟨e, hq⟩
    | unhealthy => exact absurd hon hu
    | replied results =>
      obtain ht | hbroken := hfail
      · exact absurd hon.2.1 ht
      · obtain ⟨q, hq', hb⟩ := List.mem_filterMap.1 hbroken
        obtain ⟨hx, -, e, he⟩ := broken_eq_some.1 hb
        refine ⟨e, ?_⟩
        rwa [← hx, ← he]
  · rintro ⟨e, hq⟩
    refine ⟨List.mem_map_of_mem hq, (hs.honest _ hq).1, ?_⟩
    by_cases ht : r.hasTransport shard
    · exact .inr (List.mem_filterMap.2 ⟨_, hq, broken_eq_some.2 ⟨rfl, ht, e, rfl⟩⟩)
    · exact .inl ht

/-- The result a verdict leads to, in the caller's terms. -/
theorem due_spec (leftover : UInt32 → UInt32) {t : RoutedToken} {v : Verdict}
    (hnd : (vs.map Prod.fst).Nodup) (hq : (r.shardOf tokens t, v) ∈ vs)
    (hon : r.Honest tokens (r.shardOf tokens t) v) :
    (r.due leftover tokens t v).batchPosition = t.batchPosition ∧
    (r.due leftover tokens t v).tokenId = t.tokenId ∧
    (r.due leftover tokens t v).effectiveExpert = r.effectiveOf tokens t ∧
    (r.shardOf tokens t ∈ r.unhealthyShards ∨ (∃ e, (r.shardOf tokens t, .threw e) ∈ vs) →
      (r.due leftover tokens t v).failed = true ∧ (r.due leftover tokens t v).failureReason ≠ "") ∧
    (¬ (r.shardOf tokens t ∈ r.unhealthyShards ∨ ∃ e, (r.shardOf tokens t, .threw e) ∈ vs) →
      (r.due leftover tokens t v).failed = false ∧
      (r.due leftover tokens t v).processedByShard = r.shardOf tokens t ∧
      (r.due leftover tokens t v).payload = t.payload.map negate) := by
  have hreason := reason_ne_empty hon
  cases v with
  | replied results =>
    refine ⟨rfl, rfl, rfl, ?_, fun _ => ⟨rfl, rfl, rfl⟩⟩
    rintro (hu | ⟨e, he⟩)
    · exact absurd hu hon.1
    · have heq := List.inj_on_of_nodup_map hnd hq he rfl
      simp at heq
  | unhealthy => exact ⟨rfl, rfl, rfl, fun _ => ⟨rfl, hreason⟩, fun hno => absurd (.inl hon) hno⟩
  | threw e =>
    exact ⟨rfl, rfl, rfl, fun _ => ⟨rfl, hreason⟩, fun hno => absurd (.inr ⟨e, hq⟩) hno⟩

/-- **One call.** From a settled cluster a tolerant call returns, accounts for every token, and
leaves the cluster settled. -/
theorem routeBatchTolerant_spec (h : r.ValidBatch tokens) (hsz : Sized tokens) (hw : w.Settled)
    (c : Choices) :
    ∃ results r' w', exec (routeBatchTolerant clusterNet r c tokens) w =
      some (.ok (results, r'), w') ∧ w'.Settled ∧ r.Accounted w tokens results r' w' := by
  obtain ⟨vs, w', hexec, hw', hs⟩ := survey_spec (r := r) hsz hw (r.visitOrder tokens c)
  have hfst := survey_fst hexec
  have hnd : (vs.map Prod.fst).Nodup := hfst ▸ nodup_visitOrder c
  refine ⟨_, _, w', exec_routeBatchTolerant h.routable hexec, hw', ?_⟩
  refine ⟨by simp [gathered], ?_, ?_, ?_, rfl, rfl, rfl, rfl⟩
  · intro t ht
    obtain ⟨v, hq⟩ := exists_verdict hfst ht
    refine ⟨_, _, h.routable.expertToShard_effectiveOf ht,
      getElem?_gathered_honest h ht hnd hs.honest hq, ?_⟩
    rw [hs.exchangeFailed_iff hfst]
    exact due_spec c.leftover hnd hq (hs.honest _ hq)
  · intro shard
    rw [mem_marked, hs.exchangeFailed_iff hfst]
  · intro shard hmem
    rw [hs.threw, List.drop_left] at hmem
    exact hs.dead shard (.inr hmem)

end Accounts

/-- A router and its cluster. -/
structure Session where
  router : Router
  cluster : Cluster

/-- A tolerant call with a batch its contract allows. -/
inductive TolerantCall : Session → Session → Prop
  | mk {S : Session} {c : Choices} {tokens : List RoutedToken} {results : List RoutedResult}
      {r' : Router} {w' : Cluster} (valid : S.router.ValidBatch tokens) (sized : Sized tokens)
      (returned : exec (routeBatchTolerant clusterNet S.router c tokens) S.cluster =
        some (.ok (results, r'), w')) : TolerantCall S ⟨r', w'⟩

theorem TolerantCall.spec {S S' : Session} (hw : S.cluster.Settled) (h : TolerantCall S S') :
    S'.cluster.Settled ∧ S.router.unhealthyShards ⊆ S'.router.unhealthyShards := by
  cases h with
  | @mk c tokens results r' w' valid sized returned =>
    obtain ⟨results₁, r₁, w₁, hexec, hw₁, hacc⟩ := routeBatchTolerant_spec valid sized hw c
    rw [returned] at hexec
    simp only [Option.some.injEq, Prod.mk.injEq, Except.ok.injEq] at hexec
    obtain ⟨⟨rfl, rfl⟩, rfl⟩ := hexec
    exact ⟨hw₁, fun s hs => (hacc.unhealthy s).2 (.inl hs)⟩

/-- **Every call of a session**, whatever the workers do, returns and accounts for every token; no
shard is ever taken for healthy again. -/
theorem tolerant_accounts (S₀ S : Session) (h₀ : S₀.cluster.Settled)
    (hrun : ReflTransGen TolerantCall S₀ S) (c : Choices) {tokens : List RoutedToken}
    (h : S.router.ValidBatch tokens) (hsz : Sized tokens) :
    ∃ results r' w', exec (routeBatchTolerant clusterNet S.router c tokens) S.cluster =
        some (.ok (results, r'), w') ∧
      S.router.Accounted S.cluster tokens results r' w' ∧
      S₀.router.unhealthyShards ⊆ S.router.unhealthyShards := by
  have hinv : S.cluster.Settled ∧ S₀.router.unhealthyShards ⊆ S.router.unhealthyShards := by
    refine Stepping.invariant (P := fun S => S.cluster.Settled ∧
      S₀.router.unhealthyShards ⊆ S.router.unhealthyShards) ⟨h₀, Finset.Subset.refl _⟩ ?_ hrun
    intro T T' hT hcall
    obtain ⟨hsettled, hgrow⟩ := hcall.spec hT.1
    exact ⟨hsettled, hT.2.trans hgrow⟩
  obtain ⟨results, r', w', hexec, -, hacc⟩ := routeBatchTolerant_spec h hsz hinv.1 c
  exact ⟨results, r', w', hexec, hacc, hinv.2⟩

/-- Fresh channels; the worker of shard 1 is killed before the router's fourth operation. -/
def oneKilled : Cluster where
  channel _ := {}
  script n := if n = 3 then [.kill 1 {}] else []

theorem settled_oneKilled : oneKilled.Settled := fun _ _ => ⟨rfl, rfl⟩

/-- The call in which shard 1 dies between its request and its answer. -/
theorem tolerant_accounts_oneKilled :
    ∃ results r' w', exec (routeBatchTolerant clusterNet twoShards .inOrder oneEach) oneKilled =
        some (.ok (results, r'), w') ∧
      twoShards.Accounted oneKilled oneEach results r' w' := by
  obtain ⟨results, r', w', hexec, hacc, -⟩ := tolerant_accounts ⟨twoShards, oneKilled⟩ _
    settled_oneKilled .refl .inOrder validBatch_oneEach sized_oneEach
  exact ⟨results, r', w', hexec, hacc⟩

end Router

end AetherMoE
