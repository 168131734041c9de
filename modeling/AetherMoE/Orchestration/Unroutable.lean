import AetherMoE.Orchestration.Verdicts

/-!
# When does the tolerant path throw?

Transports that never block may throw anything and return any bytes: all of that is caught. The
lookup of a token's shard lies before the loop over the shards, outside of its `try` block.

* `Prompt`: a network whose calls all return or throw;
* **`exec_survey_of_prompt`**: against such a network every shard gets a verdict;
* `Replied`, `Failed`, `Answers`: where the result at a position comes from;
* `Mapped`: the expert each token ends up with has a shard;
* **`answers_iff_mapped`**: the call answers for every position exactly if it does.
-/

namespace AetherMoE

open ByteCodec Effect

namespace Router

variable {σ : Type}

/-! ## Networks that never block -/

/-- Every call over the network returns or throws. -/
structure Prompt (net : Net σ) : Prop where
  send : ∀ shard raw s, (exec (net.send shard raw) s).isSome
  receive : ∀ shard s, (exec (net.receive shard) s).isSome

section Survey

variable {net : Net σ} (hnet : Prompt net) {r : Router} {tokens : List RoutedToken}
include hnet

theorem exec_exchange_of_prompt (r : Router) (shard : UInt32) (group : List RoutedToken) (s : σ) :
    ∃ out s', exec (exchange net r shard group) s = some (out, s') := by
  by_cases ht : r.hasTransport shard
  · have htr : r.transportForShard shard = .ok () := if_pos ht
    rw [exchange, htr, exec_bind_ok (exec_liftExcept _ _)]
    obtain ⟨⟨out, s₁⟩, hsend⟩ := Option.isSome_iff_exists.1
      (hnet.send shard (encodeTokenBatch group) s)
    cases out with
    | error e => exact ⟨_, _, exec_bind_error hsend⟩
    | ok =>
      rw [exec_bind_ok hsend, exec_bind_ok (exec_liftExcept _ _)]
      obtain ⟨⟨out, s₂⟩, hreceive⟩ := Option.isSome_iff_exists.1 (hnet.receive shard s₁)
      cases out with
      | error e => exact ⟨_, _, exec_bind_error hreceive⟩
      | ok raw => exact ⟨_, _, exec_bind_ok hreceive⟩
  · exact ⟨_, _, exec_exchange_of_not_hasTransport ht⟩

theorem exec_consult_of_prompt (r : Router) (u : Finset UInt32) (shard : UInt32)
    (group : List RoutedToken) (s : σ) :
    ∃ v s', exec (consult net r u shard group) s = some (.ok v, s') := by
  by_cases hu : shard ∈ u
  · exact ⟨_, _, exec_consult_unhealthy hu⟩
  · obtain ⟨out, s', hex⟩ := exec_exchange_of_prompt hnet r shard group s
    exact ⟨_, _, exec_consult hu hex⟩

/-- **Every shard gets a verdict.** -/
theorem exec_survey_of_prompt (r : Router) (tokens : List RoutedToken) (order : List UInt32)
    (s : σ) : ∃ vs s', exec (survey net r tokens order) s = some (.ok vs, s') := by
  induction order generalizing s with
  | nil => exact ⟨[], s, rfl⟩
  | cons shard order ih =>
    obtain ⟨v, s₁, hv⟩ := exec_consult_of_prompt hnet r r.unhealthyShards shard
      (r.groupOf tokens shard) s
    obtain ⟨vs, s₂, hvs⟩ := ih s₁
    refine ⟨(shard, v) :: vs, s₂, ?_⟩
    rw [survey, exec_bind_ok hv, exec_bind_ok hvs]
    rfl

end Survey

/-! ## Where a result comes from -/

/-- The result is a shard's reply for position `p`, but for the expert the router enters. -/
def Replied (vs : List (UInt32 × Verdict)) (p : ℕ) (result : RoutedResult) : Prop :=
  ∃ shard replies, (shard, Verdict.replied replies) ∈ vs ∧
    ∃ reply ∈ replies, reply.place = p ∧
      ∃ expert, result = { reply with effectiveExpert := expert }

/-- The result is the failure of token `t`, with the reason its shard's verdict gives. -/
def Failed (r : Router) (leftover : UInt32 → UInt32) (tokens : List RoutedToken)
    (vs : List (UInt32 × Verdict)) (t : RoutedToken) (result : RoutedResult) : Prop :=
  ∃ v, (r.shardOf tokens t, v) ∈ vs ∧
    result = failedResult leftover t (r.effectiveOf tokens t) (v.reason (r.shardOf tokens t))

/-- The call returns, with a result for each position: a shard's reply for it, or the failure of
the batch's token there. -/
def Answers (net : Net σ) (r : Router) (c : Choices) (tokens : List RoutedToken) (s : σ) : Prop :=
  ∃ results r' s' vs,
    exec (routeBatchTolerant net r c tokens) s = some (.ok (results, r'), s') ∧
    exec (survey net r tokens (r.visitOrder tokens c)) s = some (.ok vs, s') ∧
    results.length = tokens.length ∧
    ∀ p < tokens.length, ∃ t ∈ tokens, t.place = p ∧ ∃ result, results[p]? = some result ∧
      (Replied vs p result ∨ r.Failed c.leftover tokens vs t result)

/-- A token within the capacity of its primary expert has that expert mapped to a shard, and any
other token its secondary expert. -/
def Mapped (r : Router) (tokens : List RoutedToken) : Prop :=
  ∀ t ∈ tokens, (rankOf tokens t < r.expertCapacity → (r.expertToShard t.primaryExpert).isSome) ∧
    (r.expertCapacity ≤ rankOf tokens t → (r.expertToShard t.secondaryExpert).isSome)

section Answers

variable {net : Net σ} {r : Router} {c : Choices} {tokens : List RoutedToken} {s : σ}

theorem mapped_iff : r.Mapped tokens ↔
    ∀ t ∈ tokens, (r.expertToShard (r.effectiveOf tokens t)).isSome := by
  refine forall₂_congr fun t _ => ?_
  rw [effectiveOf]
  split_ifs with hlt
  · simp [hlt]
  · simp [hlt, Nat.not_lt.1 hlt]

/-- What a shard said about a position is one of its replies for it. -/
theorem replied_of_said {vs : List (UInt32 × Verdict)} {shard : UInt32} {v : Verdict} {p : ℕ}
    {result : RoutedResult} (hv : (shard, v) ∈ vs) (h : r.said tokens shard p v = some result) :
    Replied vs p result := by
  cases v with
  | unhealthy | threw => cases h
  | replied replies =>
    obtain ⟨reply, hfind, rfl⟩ := Option.map_eq_some_iff.1 h
    exact ⟨shard, replies, hv, reply, List.mem_of_find?_eq_some hfind,
      by simpa using List.find?_some hfind, _, rfl⟩

/-- The result of a token is a reply for its position or its failure. -/
theorem replied_or_failed (h : r.Routable tokens) {vs : List (UInt32 × Verdict)}
    (hfst : vs.map Prod.fst = r.visitOrder tokens c) {t : RoutedToken} (ht : t ∈ tokens) :
    ∃ result, (r.gathered c.leftover tokens vs)[t.place]? = some result ∧
      (Replied vs t.place result ∨ r.Failed c.leftover tokens vs t result) := by
  obtain ⟨v, hv⟩ := exists_verdict hfst ht
  obtain ⟨pre, post, rfl⟩ := List.append_of_mem hv
  have hnd : ((pre ++ (r.shardOf tokens t, v) :: post).map Prod.fst).Nodup :=
    hfst ▸ nodup_visitOrder c
  refine ⟨_, getElem?_gathered h ht hnd, ?_⟩
  cases v with
  | unhealthy | threw => exact .inr ⟨_, hv, rfl⟩
  | replied replies =>
    rw [answer]
    rcases hsaid : (pre.findSome? fun q => r.said tokens q.1 t.place q.2).or
      (r.said tokens (r.shardOf tokens t) t.place (.replied replies)) with _ | result
    · rw [hsaid]
      exact .inr ⟨_, hv, rfl⟩
    · rw [hsaid]
      refine .inl ?_
      rcases Option.or_eq_some_iff.1 hsaid with hpre | ⟨-, hown⟩
      · obtain ⟨q, hq, hres⟩ := List.exists_of_findSome?_eq_some hpre
        exact replied_of_said (List.mem_append_left _ hq) hres
      · exact replied_of_said hv hown

theorem answers_of_routable (hnet : Prompt net) (h : r.Routable tokens) :
    Answers net r c tokens s := by
  obtain ⟨vs, s', hs⟩ := exec_survey_of_prompt hnet r tokens (r.visitOrder tokens c) s
  refine ⟨_, _, s', vs, exec_routeBatchTolerant h hs, hs, by simp [gathered], ?_⟩
  intro p hp
  obtain ⟨t, ht, rfl⟩ := h.exists_place hp
  obtain ⟨result, hget, hcase⟩ := replied_or_failed h (survey_fst hs) ht
  exact ⟨t, ht, rfl, result, hget, hcase⟩

theorem forall_of_mapM_ok {α β ε : Type} {f : α → Except ε β} {l : List α} {ys : List β}
    (h : l.mapM f = .ok ys) : ∀ x ∈ l, ∃ y, f x = .ok y := by
  induction l generalizing ys with
  | nil => simp
  | cons a l ih =>
    rw [List.mapM_cons] at h
    cases ha : f a with
    | error e =>
      rw [ha] at h
      cases h
    | ok b =>
      rw [ha] at h
      cases hl : l.mapM f with
      | error e =>
        rw [hl] at h
        cases h
      | ok bs =>
        intro x hx
        rcases List.mem_cons.1 hx with rfl | hx
        · exact ⟨b, ha⟩
        · exact ih hl x hx

/-- A call that returns has found a shard for every token. -/
theorem mapped_of_exec (hpos : (tokens.map RoutedToken.batchPosition).Nodup)
    {out : List RoutedResult × Router} {s' : σ}
    (h : exec (routeBatchTolerant net r c tokens) s = some (.ok out, s')) :
    ∀ t ∈ tokens, (r.expertToShard (r.effectiveOf tokens t)).isSome := by
  rw [routeBatchTolerant, assignEffectiveExperts_eq r c hpos] at h
  obtain ⟨shards, s₁, hshards, -⟩ := exec_bind_eq_ok.1 h
  rw [exec_liftExcept, Option.some.injEq, Prod.mk.injEq] at hshards
  intro t ht
  obtain ⟨shard, hshard⟩ := forall_of_mapM_ok hshards.1 _ (List.mem_map_of_mem ht)
  rw [shardForExpert] at hshard
  split at hshard
  · next heq => rw [heq]; rfl
  · cases hshard

/-- **The tolerant path answers for every position exactly if the expert each token ends up with
is mapped to a shard**, whatever the router's state and the transports are. -/
theorem answers_iff_mapped (net : Net σ) (r : Router) (c : Choices) (tokens : List RoutedToken)
    (s : σ) (hnet : Prompt net)
    (hpos : (tokens.map RoutedToken.place).Perm (List.range tokens.length)) :
    Answers net r c tokens s ↔ r.Mapped tokens := by
  rw [mapped_iff]
  constructor
  · rintro ⟨results, r', s', vs, hrun, -⟩
    exact mapped_of_exec (nodup_batchPosition_of_perm hpos) hrun
  · exact fun h => answers_of_routable hnet ⟨hpos, h⟩

end Answers

/-! ## A token nobody can serve -/

/-- Every call throws. -/
def downNet : Net Unit where
  send _ _ := throw .peerClosed
  receive _ := throw .peerClosed

theorem prompt_downNet : Prompt downNet := ⟨fun _ _ _ => rfl, fun _ _ => rfl⟩

/-- Both shards are down, and still both tokens are answered for. -/
theorem answers_iff_mapped_down : Prompt downNet ∧
    (oneEach.map RoutedToken.place).Perm (List.range oneEach.length) ∧
    Answers downNet twoShards .inOrder oneEach () := by
  refine ⟨prompt_downNet, by decide, ?_⟩
  refine (answers_iff_mapped downNet twoShards .inOrder oneEach () prompt_downNet (by decide)).2 ?_
  rw [mapped_iff]
  decide

/-- One token, for an expert without a shard. -/
def stray : List RoutedToken :=
  [{ tokenId := 1, batchPosition := 0, primaryExpert := 7, secondaryExpert := 0, payload := [] }]

/-- **An unmapped expert takes the call down**: its exception escapes. -/
theorem stray_throws : Prompt downNet ∧
    (stray.map RoutedToken.place).Perm (List.range stray.length) ∧
    exec (routeBatchTolerant downNet twoShards .inOrder stray) () =
      some (.error (.noShardMapping 7), ()) ∧
    ¬ Answers downNet twoShards .inOrder stray () := by
  have hrun : exec (routeBatchTolerant downNet twoShards .inOrder stray) () =
      some (.error (.noShardMapping 7), ()) := by
    have hassign : twoShards.assignEffectiveExperts .inOrder stray = [7] := by decide
    rw [routeBatchTolerant, hassign]
    rfl
  refine ⟨prompt_downNet, by decide, hrun, ?_⟩
  rintro ⟨results, r', s', vs, hok, -⟩
  rw [hrun] at hok
  cases hok

end Router

end AetherMoE
