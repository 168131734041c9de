import AetherMoE.Orchestration.Agreement

/-!
# Mixed sessions

A router is called again and again, on its strict and on its tolerant path.

* `Request`, `Session.call`: one call, with the router and the cluster it leaves;
* `Own`: every result that is not failed belongs to the batch of the call;
* `Conforms`: the batch keeps the limits of the wire format, and a strict call strands no answer;
* **`call_settled`**: such a call leaves the cluster settled;
* **`own_of_conforming_run`**: in a run of such calls, every call that returns returns its own
  results;
* `not_own_after_throw`: after a strict call that strands an answer, the next call returns it.
-/

namespace AetherMoE

open ByteCodec Effect Relation

namespace Router

/-- A call. -/
structure Request where
  strict : Bool
  choices : Choices
  tokens : List RoutedToken

/-- One call: what it returns or throws, and the session after it. -/
def Session.call (S : Session) (q : Request) :
    Option (Except Exn (List RoutedResult) × Session) :=
  if q.strict then
    (exec (routeBatch clusterNet S.router q.choices q.tokens) S.cluster).map fun p =>
      (p.1, ⟨S.router, p.2⟩)
  else
    (exec (routeBatchTolerant clusterNet S.router q.choices q.tokens) S.cluster).map fun p =>
      match p.1 with
      | .ok (results, r') => (.ok results, ⟨r', p.2⟩)
      | .error e => (.error e, ⟨S.router, p.2⟩)

/-- A call with a request that meets `allowed` takes `S` to `S'`. -/
def Called (allowed : Session → Request → Prop) (S S' : Session) : Prop :=
  ∃ q out, allowed S q ∧ S.call q = some (out, S')

/-- Every result that is not failed has the id, and the negated payload, of the token of this batch
at its position. -/
def Own (tokens : List RoutedToken) (results : List RoutedResult) : Prop :=
  ∀ p result, results[p]? = some result → result.failed = false →
    ∃ t ∈ tokens, t.batchPosition.toNat = p ∧ result.tokenId = t.tokenId ∧
      result.payload = t.payload.map negate

/-- The batch is within the limits of the wire format, and a strict call strands no answer. -/
structure Session.Conforms (S : Session) (q : Request) : Prop where
  valid : S.router.ValidBatch q.tokens
  sized : Sized q.tokens
  unstranded : q.strict → ¬ S.router.Strands q.choices q.tokens S.cluster

variable {S S' : Session} {q : Request} {out : Except Exn (List RoutedResult)}
  {results : List RoutedResult}

/-- A strict call, from a settled cluster. -/
theorem call_strict (hw : S.cluster.Settled) (hq : S.Conforms q) (hs : q.strict = true)
    (hcall : S.call q = some (out, S')) : S'.cluster.Settled ∧
      ∀ results, out = .ok results →
        results = S.router.strictResults q.tokens (S.router.flatOf q.choices q.tokens) := by
  rw [Session.call, if_pos hs, Option.map_eq_some_iff] at hcall
  obtain ⟨⟨out', w'⟩, hexec, heq⟩ := hcall
  cases heq
  obtain ⟨w₁, hret, hw₁, -⟩ | ⟨e, w₁, hthrow, hst, -⟩ :=
    routeBatch_spec hq.valid hq.sized hw q.choices
  · rw [hexec] at hret
    cases hret
    exact ⟨hw₁, fun results h => (Except.ok.inj h).symm⟩
  · rw [hexec] at hthrow
    cases hthrow
    refine ⟨?_, fun results h => by cases h⟩
    by_contra hno
    exact hq.unstranded hs (hst.2 hno)

/-- A tolerant call, from a settled cluster. -/
theorem call_tolerant (hw : S.cluster.Settled) (hq : S.Conforms q) (hs : ¬ q.strict = true)
    (hcall : S.call q = some (out, S')) : S'.cluster.Settled ∧
      ∃ results, out = .ok results ∧ S.router.Accounted S.cluster q.tokens results S'.router
        S'.cluster := by
  rw [Session.call, if_neg hs, Option.map_eq_some_iff] at hcall
  obtain ⟨⟨out', w'⟩, hexec, heq⟩ := hcall
  obtain ⟨results, r', w₁, hret, hw₁, hacc⟩ :=
    routeBatchTolerant_spec hq.valid hq.sized hw q.choices
  rw [hexec] at hret
  cases hret
  cases heq
  exact ⟨hw₁, results, rfl, hacc⟩

/-- **A conforming call leaves the cluster settled.** -/
theorem call_settled (hw : S.cluster.Settled) (hq : S.Conforms q)
    (hcall : S.call q = some (out, S')) : S'.cluster.Settled := by
  by_cases hs : q.strict = true
  · exact (call_strict hw hq hs hcall).1
  · exact (call_tolerant hw hq hs hcall).1

theorem own_strictResults {r : Router} {tokens : List RoutedToken} (h : r.ValidBatch tokens)
    (c : Choices) : Own tokens (r.strictResults tokens (r.flatOf c tokens)) := by
  intro p result hp _
  have hlt : p < tokens.length := by
    rw [← length_strictResults (r := r) (r.flatOf c tokens)]
    exact (List.getElem?_eq_some_iff.1 hp).1
  obtain ⟨t, ht, rfl⟩ := h.routable.exists_place hlt
  rw [getElem?_strictResults h c ht (List.getElem?_eq_getElem (h.routable.place_lt ht)),
    Option.some.injEq] at hp
  subst hp
  exact ⟨t, ht, rfl, rfl, rfl⟩

theorem Accounted.own {r r' : Router} {w w' : Cluster} {tokens : List RoutedToken}
    (h : r.ValidBatch tokens) (hacc : r.Accounted w tokens results r' w') : Own tokens results := by
  intro p result hp hfailed
  have hlt : p < tokens.length := by
    rw [← hacc.length]
    exact (List.getElem?_eq_some_iff.1 hp).1
  obtain ⟨t, ht, rfl⟩ := h.routable.exists_place hlt
  obtain ⟨shard, result', -, hp', -, hid, -, hbad, hgood⟩ := hacc.result t ht
  obtain rfl : result = result' := Option.some.inj (hp.symm.trans hp')
  refine ⟨t, ht, rfl, hid, (hgood fun hno => ?_).2.2⟩
  rw [(hbad hno).1] at hfailed
  cases hfailed

/-- **In a run of conforming calls** every call that returns returns its own results. -/
theorem own_of_conforming_run {S₀ S S' : Session} (h₀ : S₀.cluster.Settled)
    (hrun : ReflTransGen (Called Session.Conforms) S₀ S) {q : Request} (hq : S.Conforms q)
    {results : List RoutedResult} (hcall : S.call q = some (.ok results, S')) :
    Own q.tokens results := by
  have hw : S.cluster.Settled := by
    refine Stepping.invariant (P := fun S => S.cluster.Settled) h₀ ?_ hrun
    rintro T T' hT ⟨q, out, hq, hcall⟩
    exact call_settled hT hq hcall
  by_cases hs : q.strict = true
  · rw [(call_strict hw hq hs hcall).2 results rfl]
    exact own_strictResults hq.valid q.choices
  · obtain ⟨-, results', heq, hacc⟩ := call_tolerant hw hq hs hcall
    cases heq
    exact hacc.own hq.valid

/-- A call that returns strands nothing. -/
theorem conforms_of_returned (hw : S.cluster.Settled) (hvalid : S.router.ValidBatch q.tokens)
    (hsized : Sized q.tokens) (hcall : S.call q = some (.ok results, S')) : S.Conforms q := by
  refine ⟨hvalid, hsized, fun hs => ?_⟩
  rw [Session.call, if_pos hs, Option.map_eq_some_iff] at hcall
  obtain ⟨⟨out, w'⟩, hexec, heq⟩ := hcall
  cases heq
  obtain ⟨-, -, -, hst⟩ | ⟨e, w₁, hthrow, -⟩ := routeBatch_spec hvalid hsized hw q.choices
  · exact hst
  · rw [hexec] at hthrow
    cases hthrow

/-- The session after a call. -/
def Session.after (S : Session) (q : Request) : Session := ((S.call q).map Prod.snd).getD S

theorem call_eq (h : (S.call q).map Prod.fst = some out) : S.call q = some (out, S.after q) := by
  rw [Option.map_eq_some_iff] at h
  obtain ⟨⟨out', S'⟩, hcall, rfl⟩ := h
  rw [Session.after, hcall]
  rfl

/-- A batch for shard 0 alone. -/
def lone : List RoutedToken :=
  [{ tokenId := 12, batchPosition := 0, primaryExpert := 0, secondaryExpert := 1, payload := [5] }]

/-- A tolerant call in which shard 1 dies with its request unanswered, and a strict call to shard 0
after it. -/
theorem own_of_conforming_run_lost : ∃ results S results' S',
    Session.call ⟨twoShards, oneKilled⟩ ⟨false, .inOrder, oneEach⟩ = some (.ok results, S) ∧
      (∃ result ∈ results, result.failed = true) ∧
      S.call ⟨true, .inOrder, lone⟩ = some (.ok results', S') ∧ Own lone results' := by
  let S₀ : Session := ⟨twoShards, oneKilled⟩
  have hcall₁ : S₀.call ⟨false, .inOrder, oneEach⟩ = some (.ok [{ tokenId := 10 },
      { tokenId := 11, batchPosition := 1, effectiveExpert := 1, failed := true
        failureReason := "transport peer closed the connection" }], _) :=
    call_eq (by decide +kernel)
  have hcall₂ : (S₀.after ⟨false, .inOrder, oneEach⟩).call ⟨true, .inOrder, lone⟩ =
      some (.ok [{ tokenId := 12, payload := [5 ^^^ 0x80000000] }], _) :=
    call_eq (by decide +kernel)
  have hfirst : S₀.Conforms ⟨false, .inOrder, oneEach⟩ :=
    ⟨validBatch_oneEach, sized_oneEach, fun hs => by cases hs⟩
  have hvalid : (S₀.after ⟨false, .inOrder, oneEach⟩).router.ValidBatch lone :=
    ⟨by decide, by decide +kernel⟩
  have hsecond := conforms_of_returned (call_settled settled_oneKilled hfirst hcall₁) hvalid
    ⟨by decide, by decide⟩ hcall₂
  refine ⟨_, _, _, _, hcall₁, ⟨_, List.mem_cons_of_mem _ List.mem_cons_self, rfl⟩, hcall₂, ?_⟩
  exact own_of_conforming_run settled_oneKilled (.single ⟨_, _, hfirst, hcall₁⟩) hsecond hcall₂

/-! ## A stranded answer -/

/-- Fresh channels; the worker of shard 1 is killed before the router's second operation. -/
def killedEarly : Cluster where
  channel _ := {}
  script n := if n = 1 then [.kill 1 {}] else []

/-- **After a throw** the next call returns the result of the batch before: the answer of shard 0
was left unread when the send to shard 1 threw. -/
theorem not_own_after_throw : killedEarly.Settled ∧ ∃ S results S',
    ReflTransGen (Called fun S q => S.router.ValidBatch q.tokens) ⟨twoShards, killedEarly⟩ S ∧
    S.router.ValidBatch lone ∧
    S.call ⟨true, .inOrder, lone⟩ = some (.ok results, S') ∧ ¬ Own lone results := by
  let S₀ : Session := ⟨twoShards, killedEarly⟩
  have hthrow : S₀.call ⟨true, .inOrder, oneEach⟩ = some (.error (.sendFailed "Broken pipe"), _) :=
    call_eq (by decide +kernel)
  have hreturn : (S₀.after ⟨true, .inOrder, oneEach⟩).call ⟨true, .inOrder, lone⟩ =
      some (.ok [{ tokenId := 10 }], _) := call_eq (by decide +kernel)
  refine ⟨fun _ _ => ⟨rfl, rfl⟩, _, _, _, .single ⟨_, _, validBatch_oneEach, hthrow⟩,
    ⟨by decide, by decide⟩, hreturn, fun hown => ?_⟩
  obtain ⟨t, ht, -, hid, -⟩ := hown 0 { tokenId := 10 } rfl rfl
  obtain rfl := List.mem_singleton.1 ht
  exact absurd hid (by decide)

end Router

end AetherMoE
