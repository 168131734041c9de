import AetherMoE.Orchestration.WireCluster

/-!
# Sessions over the byte streams

What was shown of a router whose transports are channels of messages holds of the router on its
sockets.

* **`wire_refines`**: every session of strict and tolerant calls has the same transcript over the
  byte streams as over the channels, up to the field that failed results leave unset;
* `WireCluster.Fresh`, `WireCluster.channels`: new connections, and the channels they carry;
* **`wire_accounts`**: in a session of tolerant calls every call returns, with an answer to every
  token, wherever in the stream a worker dies.
-/

namespace AetherMoE

open Effect Router

namespace WireCluster

variable {w : WireCluster}

/-- Nothing was sent yet, every worker is alive, and no call is going to fail. -/
structure Fresh (w : WireCluster) : Prop where
  alive : ∀ s, (w.wire s).crash = none
  toWorker : ∀ s, (w.wire s).toWorker = []
  toRouter : ∀ s, (w.wire s).toRouter = []
  workerCalm : ∀ s, NoErrors (w.wire s).workerEvents
  routerCalm : ∀ s, NoErrors (w.wire s).routerEvents

/-- Fresh channels, with the same script. -/
def channels (w : WireCluster) : Cluster where
  channel _ := {}
  script n := (w.script n).map WireEvent.event
  time := w.time
  threw := w.threw

theorem Fresh.carries (h : w.Fresh) (o : Finset UInt32) : w.Carries o w.channels := by
  refine ⟨fun s => ⟨?_, fun _ => ⟨fun _ => h.toWorker s, ?_, h.workerCalm s, h.routerCalm s,
    List.forall_mem_nil _, List.forall_mem_nil _⟩⟩, fun _ => rfl, rfl, rfl⟩
  · rw [h.alive]
    rfl
  · rw [h.alive, h.toRouter]
    rfl

theorem settled_channels (w : WireCluster) : w.channels.Settled := fun _ _ => ⟨rfl, rfl⟩

/-- Fresh connections with short reads; before the router's fourth operation the worker of shard 1
dies in the middle of its answer, five bytes of which are on the stream. -/
def torn : WireCluster where
  wire _ := { workerEvents := [.transfer 2, .eintr], routerEvents := [.eintr, .transfer 0] }
  script n := if n = 3 then [.kill 1 { torn := ⟨[7, 7], 5, by decide, by decide⟩ }] else []

theorem fresh_torn : torn.Fresh :=
  ⟨fun _ => rfl, fun _ => rfl, fun _ => rfl, fun _ => by simp [torn, NoErrors],
    fun _ => by simp [torn, NoErrors]⟩

end WireCluster

/-- A result for the token: failed, with a reason, or processed. -/
structure Answers (r : Router) (tokens : List RoutedToken) (t : RoutedToken)
    (result : RoutedResult) : Prop where
  tokenId : result.tokenId = t.tokenId
  batchPosition : result.batchPosition = t.batchPosition
  effectiveExpert : result.effectiveExpert = r.effectiveOf tokens t
  outcome : result.failed = true ∧ result.failureReason ≠ "" ∨
    result.failed = false ∧ r.expertToShard (r.effectiveOf tokens t) =
      some result.processedByShard ∧ result.payload = t.payload.map negate

/-- A tolerant request with a batch within the limits of the wire format. -/
structure Fits (r : Router) (q : Request) : Prop where
  tolerant : q.strict = false
  valid : r.ValidBatch q.tokens
  sized : Sized q.tokens
  length_lt : (encodeTokenBatch q.tokens).length < 2 ^ 64

/-- The call returned one result for each position, and each token has its answer. -/
def Answered (r : Router) (q : Request) (out : Option (Except Exn (List RoutedResult))) : Prop :=
  ∃ results, out = some (.ok results) ∧ results.length = q.tokens.length ∧
    ∀ t ∈ q.tokens, ∃ result, results[t.place]? = some result ∧ Answers r q.tokens t result

theorem answered_of_accounted {r r' : Router} {q : Request} {u u' : Cluster}
    {results : List RoutedResult} (h : r.Accounted u q.tokens results r' u') :
    Answered r q (some (.ok results)) := by
  refine ⟨results, rfl, h.length, fun t ht => ?_⟩
  obtain ⟨shard, result, hshard, hresult, hpos, hid, hexpert, hbad, hgood⟩ := h.result t ht
  refine ⟨result, hresult, hid, hpos, hexpert, ?_⟩
  by_cases hfailed : shard ∈ r.unhealthyShards ∨ r.ExchangeFailed q.tokens u u' shard
  · exact .inl (hbad hfailed)
  · obtain ⟨hok, hby, hpayload⟩ := hgood hfailed
    exact .inr ⟨hok, hby ▸ hshard, hpayload⟩

/-- The router is the same but for the shards it takes for unhealthy. -/
theorem Router.Accounted.eq_with {r r' : Router} {u u' : Cluster} {tokens : List RoutedToken}
    {results : List RoutedResult} (h : r.Accounted u tokens results r' u') :
    r' = { r with unhealthyShards := r'.unhealthyShards } := by
  obtain ⟨expertToShard, hasTransport, expertCapacity, unhealthyShards, reservable⟩ := r'
  obtain ⟨rfl, rfl, rfl, rfl⟩ := h.config
  rfl

/-- A session of tolerant calls over channels, from a settled cluster. -/
theorem transcript_answered {r : Router} {qs : List Request} (hq : ∀ q ∈ qs, Fits r q)
    (U : Finset UInt32) {u : Cluster} (hu : u.Settled) :
    List.Forall₂ (Answered r) qs (transcript clusterNet qs { r with unhealthyShards := U } u) := by
  induction qs generalizing U u with
  | nil => exact .nil
  | cons q qs ih =>
    have hfits := hq q List.mem_cons_self
    have hvalid : ({ r with unhealthyShards := U } : Router).ValidBatch q.tokens :=
      ⟨hfits.valid.positions, hfits.valid.mapped⟩
    obtain ⟨results, r', u', hexec, hu', hacc⟩ :=
      routeBatchTolerant_spec hvalid hfits.sized hu q.choices
    have hserve : serve clusterNet { r with unhealthyShards := U } q u =
        some (.ok results, r', u') := by
      rw [serve, if_neg (by simp [hfits.tolerant]), hexec, Option.map_some]
    rw [transcript, hserve]
    refine .cons ?_ ?_
    · obtain ⟨results', heq, hlength, hall⟩ := answered_of_accounted hacc
      obtain rfl : results = results' := Except.ok.inj (Option.some.inj heq)
      refine ⟨results, rfl, hlength, fun t ht => ?_⟩
      obtain ⟨result, hresult, ha⟩ := hall t ht
      exact ⟨result, hresult, ha.tokenId, ha.batchPosition, ha.effectiveExpert, ha.outcome⟩
    · rw [hacc.eq_with]
      exact ih (fun q hmem => hq q (List.mem_cons_of_mem _ hmem)) r'.unhealthyShards hu'

/-- **Every call of a tolerant session returns, with an answer to every token**, over new byte
streams, whatever the workers do and at whatever byte of an answer they die. -/
theorem wire_accounts {w : WireCluster} (hw : w.Fresh) {r : Router} {qs : List Request}
    (hq : ∀ q ∈ qs, Fits r q) : List.Forall₂ (Answered r) qs (transcript wireNet qs r w) := by
  rw [transcript_eq wire_simulates qs (fun q hmem => sendable_of_length (hq q hmem).length_lt) r
    (hw.carries ∅)]
  exact transcript_answered hq r.unhealthyShards w.settled_channels

/-- Two calls, the first with a torn answer. -/
theorem wire_accounts_torn :
    List.Forall₂ (Answered twoShards) [⟨false, .inOrder, oneEach⟩, ⟨false, .inOrder, oneEach⟩]
      (transcript wireNet [⟨false, .inOrder, oneEach⟩, ⟨false, .inOrder, oneEach⟩] twoShards
        WireCluster.torn) :=
  wire_accounts WireCluster.fresh_torn fun q hq => by
    have heach : q = ⟨false, .inOrder, oneEach⟩ := by simpa using hq
    subst heach
    exact ⟨rfl, validBatch_oneEach, sized_oneEach, by decide⟩

end AetherMoE
