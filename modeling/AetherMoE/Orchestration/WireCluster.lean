import AetherMoE.Orchestration.Decoding
import AetherMoE.Orchestration.NetSimulation
import AetherMoE.Orchestration.UnixSocketTransport
import Mathlib.Data.List.Flatten

/-!
# Workers behind byte streams

The connections of the router as they are: two byte streams, written and read by the framing code
of `UnixSocketTransport` on both sides, with `read` and `write` splitting as they like. A worker may
die at any byte of an answer.

* `Wire`, `WireCluster`, `wireNet`;
* `Wire.Carries`: the streams hold the frames of a channel's messages;
* `length_serveBatch`, `sendable_of_length`: no message is too long for the length header;
* **`wire_simulates`**: the byte streams do, operation by operation, what the channels do.
-/

namespace AetherMoE

open ByteCodec Effect Router

/-! ## The streams -/

/-- What `read` does at the end of the stream from a dead worker. -/
inductive Ending
  | eof
  | reset (errno : String)
  deriving Repr, DecidableEq

/-- What the router's `receive` throws there, where it would throw `e` at the end of the stream. -/
def Ending.exn (e : Exn) : Ending → Exn
  | eof => e
  | reset errno => .receiveFailed errno

/-- An answer that was written in part. -/
structure Torn where
  reply : Bytes
  cut : ℕ
  length_lt : reply.length < 2 ^ 64
  cut_lt : cut < (frame reply).length

/-- The end of a worker. -/
structure Crash where
  sendErrno : String := "Broken pipe"
  ending : Ending := .eof
  torn : Torn := ⟨[], 0, by decide, by decide⟩
  unreadLost : Bool := false

/-- What the stream still brings of the answer the worker was writing. -/
def Crash.tail (c : Crash) : Bytes :=
  if c.unreadLost then [] else (frame c.torn.reply).take c.torn.cut

/-- The connection to one worker: the bytes still to be read on either side, the coming system calls
on either side, and the end of the worker once it is dead. -/
structure Wire where
  toWorker : Bytes := []
  toRouter : Bytes := []
  workerEvents : List IoEvent := []
  routerEvents : List IoEvent := []
  crash : Option Crash := none

namespace Wire

/-- The worker takes a turn of `run_worker_loop`. It waits for the rest of a message that is not
there in whole; a throw ends it. -/
def work (shard : UInt32) (c : Wire) : Wire :=
  match c.crash with
  | some _ => c
  | none =>
    match receive ⟨c.workerEvents, c.toWorker⟩ with
    | .ok raw s =>
      -- as in `Channel.work`, what the worker's host can reserve makes no difference
      match serveBatch 0 shard raw with
      | .ok reply =>
        match send reply ⟨s.events, c.toRouter⟩ with
        | .ok _ s' =>
          { c with toWorker := s.bytes, toRouter := s'.bytes, workerEvents := s'.events }
        | .error _ s' =>
          { c with toWorker := s.bytes, toRouter := s'.bytes, workerEvents := s'.events
                   crash := some {} }
      | .error _ => { c with toWorker := s.bytes, workerEvents := s.events, crash := some {} }
    | .error (.receiveFailed _) s =>
      { c with toWorker := s.bytes, workerEvents := s.events, crash := some {} }
    | .error _ _ => c

/-- The worker dies. -/
def kill (k : Crash) (c : Wire) : Wire :=
  match c.crash with
  | none => { c with
      crash := some k
      toRouter := if k.unreadLost then [] else c.toRouter ++ k.tail }
  | some _ => c

/-- The connection once the router has waited for something to read. -/
def await (shard : UInt32) (c : Wire) : Wire := if c.toRouter = [] then c.work shard else c

end Wire

/-- What the workers do. -/
inductive WireEvent
  | work (shard : UInt32)
  | kill (shard : UInt32) (k : Crash)

/-- The effect of an event on the connection to `shard`. -/
def WireEvent.act (shard : UInt32) (c : Wire) : WireEvent → Wire
  | work s => if s = shard then c.work shard else c
  | kill s k => if s = shard then c.kill k else c

/-- All connections, the events that come before each operation of the router, the number of
operations so far, and the shards whose operations threw. -/
structure WireCluster where
  wire : UInt32 → Wire
  script : ℕ → List WireEvent
  time : ℕ := 0
  threw : List UInt32 := []

namespace WireCluster

/-- The events before the next operation. -/
def tick (w : WireCluster) : WireCluster :=
  { w with
    wire := fun shard => (w.script w.time).foldl (WireEvent.act shard) (w.wire shard)
    time := w.time + 1 }

/-- Change one connection. -/
def set (w : WireCluster) (shard : UInt32) (c : Wire) : WireCluster :=
  { w with wire := Function.update w.wire shard c }

/-- Note that an operation on `shard` threw. -/
def note (w : WireCluster) (shard : UInt32) : WireCluster :=
  { w with threw := w.threw ++ [shard] }

/-- `UnixSocketTransport::send` on the socket of a shard. -/
def send (w : WireCluster) (shard : UInt32) (raw : Bytes) : Except Exn Unit × WireCluster :=
  let c := w.tick.wire shard
  match c.crash with
  | some k => (.error (.sendFailed k.sendErrno), w.tick.note shard)
  | none =>
    match AetherMoE.send raw ⟨c.routerEvents, c.toWorker⟩ with
    | .ok _ s => (.ok (), w.tick.set shard { c with toWorker := s.bytes, routerEvents := s.events })
    | .error e s => (.error e,
        (w.tick.set shard { c with toWorker := s.bytes, routerEvents := s.events }).note shard)

/-- `UnixSocketTransport::receive` on the socket of a shard. At the end of a live worker's stream it
waits, without end if the worker has nothing to do. -/
def receive (w : WireCluster) (shard : UInt32) : Option (Except Exn Bytes × WireCluster) :=
  let c := (w.tick.wire shard).await shard
  let after (s : Socket) :=
    w.tick.set shard { c with toRouter := s.bytes, routerEvents := s.events }
  match AetherMoE.receive ⟨c.routerEvents, c.toRouter⟩ with
  | .ok raw s => some (.ok raw, after s)
  | .error (.receiveFailed errno) s => some (.error (.receiveFailed errno), (after s).note shard)
  | .error e s =>
    match c.crash with
    | none => none
    | some k => some (.error (k.ending.exn e), (after s).note shard)

end WireCluster

/-- The network of the byte streams. -/
def wireNet : Net WireCluster where
  send shard raw := ofExec fun w => some (w.send shard raw)
  receive shard := ofExec fun w => w.receive shard

/-! ## The length of the messages -/

section Lengths

variable {tokens tokens' : List RoutedToken} {shard : UInt32} {raw reply : Bytes}

theorem length_putFloats (buf : Bytes) (v : List UInt32) :
    (putFloats buf v).length = buf.length + 4 + 4 * v.length := by
  rw [putFloats, foldl_put fun _ _ => rfl, List.length_append, length_flatMap_putU32, putU32,
    List.length_append, length_leBytes]
  omega

theorem length_putToken (t : RoutedToken) :
    (putToken [] t).length = 24 + 4 * t.payload.length := by
  simp only [putToken, length_putFloats, putU32, putU64, List.length_append, length_leBytes,
    List.length_nil]

theorem length_putResult (result : RoutedResult) :
    (putResult [] result).length = 20 + 4 * result.payload.length := by
  simp only [putResult, length_putFloats, putU32, putU64, List.length_append, length_leBytes,
    List.length_nil]

theorem encodeTokenBatch_eq (tokens : List RoutedToken) : encodeTokenBatch tokens =
    putU32 [] (UInt32.ofNat tokens.length) ++ tokens.flatMap (putToken []) := by
  rw [encodeTokenBatch, foldl_put putToken_append]

/-- An answer is no longer than the batch it answers. -/
theorem length_encodeResultBatch_processed (shard : UInt32) (tokens : List RoutedToken) :
    (encodeResultBatch (processed shard tokens)).length ≤ (encodeTokenBatch tokens).length := by
  have hflat : ((processed shard tokens).flatMap (putResult [])).length ≤
      (tokens.flatMap (putToken [])).length := by
    induction tokens with
    | nil => rfl
    | cons t tokens ih =>
      have hone : (putResult [] (processTokenPlaceholder t shard)).length ≤
          (putToken [] t).length := by
        rw [length_putResult, length_putToken, processTokenPlaceholder, List.length_map]
        omega
      rw [processed] at ih ⊢
      rw [List.map_cons, List.flatMap_cons, List.flatMap_cons, List.length_append,
        List.length_append]
      omega
  rw [encodeTokenBatch_eq, encodeResultBatch, foldl_put putResult_append, List.length_append,
    List.length_append, putU32, putU32, List.length_append, List.length_append, length_leBytes,
    length_leBytes]
  exact Nat.add_le_add_left hflat _

/-- An answer is no longer than the message it answers. -/
theorem length_serveBatch {reservable : ℕ} (h : serveBatch reservable shard raw = .ok reply) :
    reply.length ≤ raw.length := by
  cases hdec : decodeTokenBatch reservable raw with
  | error e =>
    rw [serveBatch, hdec] at h
    cases h
  | ok tokens =>
    rw [serveBatch, hdec] at h
    have hreply : encodeResultBatch (processed shard tokens) = reply := Except.ok.inj h
    rw [← hreply]
    exact (length_encodeResultBatch_processed shard tokens).trans
      ((selfDelimiting_tokenBatch reservable).sound raw tokens hdec).2.length_le

theorem groupFor_sublist (tokens : List RoutedToken) (shards : List UInt32) (shard : UInt32) :
    (groupFor tokens shards shard).Sublist tokens := by
  have htake : ∀ n, ((List.range n).filterMap fun i => tokens[i]?) = tokens.take n := by
    intro n
    induction n with
    | zero => rfl
    | succ n ih =>
      rw [List.range_succ, List.filterMap_append, ih, List.take_add_one]
      cases ht : tokens[n]? <;> simp [ht]
  have hall : ((List.range shards.length).filterMap fun i => tokens[i]?).Sublist tokens := by
    rw [htake]
    exact List.take_sublist _ _
  exact (List.filter_sublist.filterMap _).trans hall

/-- A batch whose encoding fits is sent in messages that fit. -/
theorem sendable_of_length (h : (encodeTokenBatch tokens).length < 2 ^ 64) :
    Sendable (fun raw => raw.length < 2 ^ 64) tokens := by
  intro shards shard
  have hsub := ((groupFor_sublist tokens shards shard).flatMap (putToken [])).length_le
  rw [encodeTokenBatch_eq, List.length_append, putU32, List.length_append, length_leBytes] at h ⊢
  exact (Nat.add_le_add_left hsub _).trans_lt h

end Lengths

/-! ## One connection -/

/-- The death of a worker, as the channels have it. -/
def Crash.death (k : Crash) : Death where
  sendErrno := k.sendErrno
  unreadLost := k.unreadLost
  hangup := match k.ending with
    | .reset errno => .failed errno
    | .eof => if k.tail = [] then .closed else .midMessage

/-- What the channels have for an event. -/
def WireEvent.event : WireEvent → Event
  | work s => .work s
  | kill s k => .kill s k.death

/-- The streams hold the frames of the messages, and the beginning of the answer that was being
written when the worker died; the calls to come do not fail. -/
structure Wire.Holds (ch : Channel) (c : Wire) : Prop where
  toWorker : ch.death = none → c.toWorker = ch.requests.flatMap frame
  toRouter : c.toRouter = ch.replies.flatMap frame ++ c.crash.elim [] Crash.tail
  workerCalm : NoErrors c.workerEvents
  routerCalm : NoErrors c.routerEvents
  requests_lt : ∀ m ∈ ch.requests, m.length < 2 ^ 64
  replies_lt : ∀ m ∈ ch.replies, m.length < 2 ^ 64

/-- The connection carries the messages of the channel, as far as the router is going to look:
what a dead worker has left is of no interest unless an answer is awaited. -/
structure Wire.Carries (awaited : Prop) (ch : Channel) (c : Wire) : Prop where
  death : ch.death = c.crash.map Crash.death
  holds : ch.death = none ∨ awaited → c.Holds ch

namespace Wire

variable {awaited : Prop} {shard : UInt32} {ch : Channel} {c : Wire} {k : Crash}

theorem Carries.forget {awaited' : Prop} (h : c.Carries awaited ch) (hle : awaited' → awaited) :
    c.Carries awaited' ch := ⟨h.death, fun ha => h.holds (ha.imp_right hle)⟩

theorem Carries.crash_none (h : c.Carries awaited ch) (hd : ch.death = none) : c.crash = none := by
  have hmap := h.death
  rw [hd, eq_comm, Option.map_eq_none_iff] at hmap
  exact hmap

theorem Carries.crash_some (h : c.Carries awaited ch) {d : Death} (hd : ch.death = some d) :
    ∃ k, c.crash = some k ∧ k.death = d := by
  have hmap := h.death
  rw [hd, eq_comm, Option.map_eq_some_iff] at hmap
  exact hmap

/-- Reading where there is nothing to read. -/
theorem receive_nil {events : List IoEvent} (h : NoErrors events) :
    ∃ s, receive ⟨events, []⟩ = .error .peerClosed s := by
  obtain ⟨s, hs⟩ := readAll_eof 8 true h [] (by decide)
  exact ⟨s, bind_run_error hs _⟩

/-- Reading the last bytes of a dead worker. -/
theorem receive_tail (k : Crash) {events : List IoEvent} (h : NoErrors events) :
    ∃ s, receive ⟨events, k.tail⟩ =
      .error (if k.tail = [] then .peerClosed else .peerClosedMidMessage) s := by
  by_cases hlost : k.unreadLost = true
  · have htail : k.tail = [] := if_pos hlost
    rw [htail, if_pos rfl]
    exact receive_nil h
  · have htail : k.tail = (frame k.torn.reply).take k.torn.cut := if_neg hlost
    obtain ⟨s, hs⟩ := receive_cut k.torn.length_lt h k.torn.cut_lt
    have hzero : k.tail = [] ↔ k.torn.cut = 0 := by
      have hlt := k.torn.cut_lt
      rw [htail, ← List.length_eq_zero_iff, List.length_take]
      omega
    refine ⟨s, ?_⟩
    simp only [hzero]
    rw [htail, hs]

/-- What the router throws at the end of a dead worker's stream. -/
theorem exn_tail (k : Crash) :
    k.ending.exn (if k.tail = [] then .peerClosed else .peerClosedMidMessage) =
      k.death.hangup.exn := by
  unfold Crash.death
  cases hk : k.ending with
  | eof =>
    simp only [Ending.exn]
    split <;> rfl
  | reset errno => rfl

/-! ### A turn of the worker -/

theorem work_of_crash (h : c.crash = some k) : c.work shard = c := by
  unfold Wire.work
  rw [h]

/-- **A turn of the worker** on the bytes is a turn on the messages. -/
theorem Carries.work (h : c.Carries awaited ch) :
    (c.work shard).Carries awaited (ch.work shard) := by
  cases hd : ch.death with
  | some d =>
    obtain ⟨k, hk, -⟩ := h.crash_some hd
    rw [work_of_crash hk, Channel.work_of_dead (by simp [hd])]
    exact h
  | none =>
    have hc := h.crash_none hd
    have hh := h.holds (.inl hd)
    cases hr : ch.requests with
    | nil =>
      obtain ⟨s, hs⟩ := receive_nil hh.workerCalm
      have hwait : c.work shard = c := by
        unfold Wire.work
        rw [hc, hh.toWorker hd, hr, List.flatMap_nil, hs]
      rw [hwait, Channel.work_of_served hd hr]
      exact h
    | cons raw requests =>
      have hlt : ∀ m ∈ raw :: requests, m.length < 2 ^ 64 := hr ▸ hh.requests_lt
      have hraw := hlt raw List.mem_cons_self
      have hrest : ∀ m ∈ requests, m.length < 2 ^ 64 := fun m hm =>
        hlt m (List.mem_cons_of_mem raw hm)
      obtain ⟨es, hes, hread⟩ := receive_frame hraw hh.workerCalm (requests.flatMap frame)
      have hbytes : c.toWorker = frame raw ++ requests.flatMap frame := by
        rw [hh.toWorker hd, hr, List.flatMap_cons]
      cases hserve : serveBatch 0 shard raw with
      | error e =>
        have hwire : c.work shard = { c with
            toWorker := requests.flatMap frame, workerEvents := es, crash := some {} } := by
          unfold Wire.work
          rw [hc, hbytes, hread]
          simp only [hserve]
        have hchan : ch.work shard = { ch with requests, death := some {} } := by
          unfold Channel.work
          rw [hd, hr]
          simp only [hserve]
        rw [hwire, hchan]
        refine ⟨by rfl, fun _ => ⟨fun hno => (by cases hno), ?_, hes, hh.routerCalm, hrest,
          hh.replies_lt⟩⟩
        rw [hh.toRouter, hc]
        rfl
      | ok reply =>
        obtain ⟨es', hes', hwrite⟩ := send_run reply hes c.toRouter
        have hwire : c.work shard = { c with
            toWorker := requests.flatMap frame, toRouter := c.toRouter ++ frame reply
            workerEvents := es' } := by
          unfold Wire.work
          rw [hc, hbytes, hread]
          simp only [hserve, hwrite]
        have hchan : ch.work shard = { ch with requests, replies := ch.replies ++ [reply] } := by
          unfold Channel.work
          rw [hd, hr]
          simp only [hserve]
        rw [hwire, hchan]
        refine ⟨h.death, fun _ => ⟨fun _ => rfl, ?_, hes', hh.routerCalm, hrest, ?_⟩⟩
        · rw [hh.toRouter, hc]
          simp
        · intro m hm
          obtain hm | hm := List.mem_append.1 hm
          · exact hh.replies_lt m hm
          · obtain rfl := List.mem_singleton.1 hm
            exact (length_serveBatch hserve).trans_lt hraw

/-- **A death** at a byte of an answer is the death of the channel's worker. -/
theorem Carries.kill (h : c.Carries awaited ch) (k : Crash) :
    (c.kill k).Carries awaited (ch.kill k.death) := by
  cases hd : ch.death with
  | some d =>
    obtain ⟨k', hk', -⟩ := h.crash_some hd
    have hwire : c.kill k = c := by
      unfold Wire.kill
      rw [hk']
    have hchan : ch.kill k.death = ch := by
      unfold Channel.kill
      rw [hd]
    rw [hwire, hchan]
    exact h
  | none =>
    have hc := h.crash_none hd
    have hh := h.holds (.inl hd)
    have hwire : c.kill k = { c with
        crash := some k, toRouter := if k.unreadLost then [] else c.toRouter ++ k.tail } := by
      unfold Wire.kill
      rw [hc]
    have hchan : ch.kill k.death = { ch with
        death := some k.death, replies := if k.unreadLost then [] else ch.replies } := by
      unfold Channel.kill
      rw [hd]
      rfl
    rw [hwire, hchan]
    refine ⟨rfl, fun _ => ⟨fun hno => (by cases hno), ?_, hh.workerCalm, hh.routerCalm,
      hh.requests_lt, ?_⟩⟩
    · by_cases hlost : k.unreadLost = true
      · simp [hlost, Crash.tail]
      · simp [hlost, hh.toRouter, hc]
    · intro m hm
      by_cases hlost : k.unreadLost = true
      · simp [hlost] at hm
      · exact hh.replies_lt m (by simpa [hlost] using hm)

theorem Carries.act (h : c.Carries awaited ch) (e : WireEvent) :
    (e.act shard c).Carries awaited (e.event.act shard ch) := by
  cases e with
  | work s =>
    rw [WireEvent.act, WireEvent.event, Event.act]
    split
    · exact h.work
    · exact h
  | kill s k =>
    rw [WireEvent.act, WireEvent.event, Event.act]
    split
    · exact h.kill k
    · exact h

theorem Carries.foldl (h : c.Carries awaited ch) (es : List WireEvent) :
    (es.foldl (WireEvent.act shard) c).Carries awaited
      ((es.map WireEvent.event).foldl (Event.act shard) ch) := by
  induction es generalizing c ch with
  | nil => exact h
  | cons e es ih => exact ih (h.act e)

/-- Waiting for something to read, where the stream is known. -/
theorem Carries.await (h : c.Carries awaited ch) (ha : awaited) :
    (c.await shard).Carries awaited (ch.await shard) := by
  have hh := h.holds (.inr ha)
  unfold Wire.await Channel.await
  by_cases hr : ch.replies = []
  · rw [if_pos hr]
    split
    · exact h.work
    · rename_i hne
      cases hd : ch.death with
      | none =>
        refine absurd ?_ hne
        rw [hh.toRouter, hr, h.crash_none hd]
        rfl
      | some d =>
        rw [Channel.work_of_dead (by simp [hd])]
        exact h
  · have hne : c.toRouter ≠ [] := by
      obtain ⟨reply, replies, hcons⟩ := List.exists_cons_of_ne_nil hr
      rw [hh.toRouter, hcons, List.flatMap_cons]
      intro hnil
      have hlen := congrArg List.length hnil
      simp at hlen
    rw [if_neg hr, if_neg hne]
    exact h

end Wire

/-! ## The cluster -/

namespace WireCluster

/-- The connections carry the messages of the channels; the scripts say the same. -/
structure Carries (o : Finset UInt32) (w : WireCluster) (u : Cluster) : Prop where
  wire : ∀ s, (w.wire s).Carries (s ∈ o) (u.channel s)
  script : ∀ n, u.script n = (w.script n).map WireEvent.event
  time : u.time = w.time
  threw : u.threw = w.threw

variable {o o' : Finset UInt32} {w : WireCluster} {u : Cluster} {shard : UInt32} {c : Wire}
  {ch : Channel} {raw : Bytes}

theorem Carries.tick (h : w.Carries o u) : w.tick.Carries o u.tick := by
  refine ⟨fun s => ?_, h.script, congrArg (· + 1) h.time, h.threw⟩
  change (((w.script w.time).foldl (WireEvent.act s) (w.wire s))).Carries (s ∈ o)
    ((u.script u.time).foldl (Event.act s) (u.channel s))
  rw [h.script, h.time]
  exact (h.wire s).foldl _

theorem Carries.note (h : w.Carries o u) : (w.note shard).Carries o (u.note shard) :=
  ⟨h.wire, h.script, h.time, congrArg (· ++ [shard]) h.threw⟩

theorem Carries.set (h : w.Carries o u) (hother : ∀ x, x ≠ shard → x ∈ o' → x ∈ o)
    (hc : c.Carries (shard ∈ o') ch) : (w.set shard c).Carries o' (u.set shard ch) := by
  refine ⟨fun s => ?_, h.script, h.time, h.threw⟩
  change (Function.update w.wire shard c s).Carries _ (Function.update u.channel shard ch s)
  by_cases hs : s = shard
  · subst hs
    rwa [Function.update_self, Function.update_self]
  · rw [Function.update_of_ne hs, Function.update_of_ne hs]
    exact (h.wire s).forget (hother s hs)

/-- **Sending** a message that fits. -/
theorem Carries.send (h : w.Carries o u) (hraw : raw.length < 2 ^ 64) :
    (w.send shard raw).1 = (u.send shard raw).1 ∧
      (w.send shard raw).2.Carries (if (w.send shard raw).1.isOk then insert shard o else o)
        (u.send shard raw).2 := by
  have ht := h.tick
  have hc := ht.wire shard
  cases hd : (u.tick.channel shard).death with
  | some d =>
    obtain ⟨k, hk, rfl⟩ := hc.crash_some hd
    simp only [WireCluster.send, Cluster.send, hk, hd]
    exact ⟨rfl, ht.note⟩
  | none =>
    have hh := hc.holds (.inl hd)
    obtain ⟨es, hes, hwrite⟩ := send_run raw hh.routerCalm (w.tick.wire shard).toWorker
    simp only [WireCluster.send, Cluster.send, hc.crash_none hd, hd, hwrite]
    have hrouter := hh.toRouter
    rw [hc.crash_none hd] at hrouter
    refine ⟨trivial, ht.set (fun x hx hmem => ?_) ⟨rfl, fun _ => ⟨fun _ => ?_, hrouter,
      hh.workerCalm, hes, ?_, hh.replies_lt⟩⟩⟩
    · exact Finset.mem_of_mem_insert_of_ne hmem hx
    · rw [hh.toWorker hd, List.flatMap_append, List.flatMap_singleton]
    · intro m hm
      obtain hm | hm := List.mem_append.1 hm
      · exact hh.requests_lt m hm
      · obtain rfl := List.mem_singleton.1 hm
        exact hraw

/-- **Receiving** from a shard that was sent a message. -/
theorem Carries.receive (h : w.Carries o u) (hs : shard ∈ o) :
    Option.Rel (fun p q => p.1 = q.1 ∧ p.2.Carries (o.erase shard) q.2) (w.receive shard)
      (u.receive shard) := by
  have ht := h.tick
  have hc : ((w.tick.wire shard).await shard).Carries (shard ∈ o)
      ((u.tick.channel shard).await shard) := (ht.wire shard).await hs
  have hh := hc.holds (.inr hs)
  have hother : ∀ x, x ≠ shard → x ∈ o.erase shard → x ∈ o := fun x _ hx =>
    Finset.mem_of_mem_erase hx
  have hclosed : shard ∉ o.erase shard := Finset.notMem_erase shard o
  cases hr : ((u.tick.channel shard).await shard).replies with
  | cons reply replies =>
    have hlt : ∀ m ∈ reply :: replies, m.length < 2 ^ 64 := hr ▸ hh.replies_lt
    have hbytes := hh.toRouter
    rw [hr, List.flatMap_cons, List.append_assoc] at hbytes
    obtain ⟨es, hes, hread⟩ := receive_frame (hlt reply List.mem_cons_self) hh.routerCalm
      (replies.flatMap frame ++ ((w.tick.wire shard).await shard).crash.elim [] Crash.tail)
    have hwire : w.receive shard = some (.ok reply, w.tick.set shard
        { (w.tick.wire shard).await shard with
          toRouter := replies.flatMap frame ++
            ((w.tick.wire shard).await shard).crash.elim [] Crash.tail
          routerEvents := es }) := by
      rw [WireCluster.receive, hbytes, hread]
    have hchan : u.receive shard = some (.ok reply, u.tick.set shard
        { (u.tick.channel shard).await shard with replies }) := by
      simp only [Cluster.receive, hr]
    rw [hwire, hchan]
    refine .some ⟨rfl, ht.set hother ⟨hc.death, fun _ => ⟨hh.toWorker, rfl, hh.workerCalm, hes,
      hh.requests_lt, fun m hm => hlt m (List.mem_cons_of_mem reply hm)⟩⟩⟩
  | nil =>
    have hbytes := hh.toRouter
    rw [hr, List.flatMap_nil, List.nil_append] at hbytes
    cases hd : ((u.tick.channel shard).await shard).death with
    | none =>
      rw [hc.crash_none hd, Option.elim_none] at hbytes
      obtain ⟨s, hread⟩ := Wire.receive_nil hh.routerCalm
      have hwire : w.receive shard = none := by
        rw [WireCluster.receive, hbytes, hread]
        simp only [hc.crash_none hd]
      have hchan : u.receive shard = none := by simp only [Cluster.receive, hr, hd]
      rw [hwire, hchan]
      exact .none
    | some d =>
      obtain ⟨k, hk, rfl⟩ := hc.crash_some hd
      rw [hk, Option.elim_some] at hbytes
      obtain ⟨s, hread⟩ := Wire.receive_tail k hh.routerCalm
      have hwire : w.receive shard = some (.error k.death.hangup.exn, (w.tick.set shard
          { (w.tick.wire shard).await shard with
            toRouter := s.bytes, routerEvents := s.events }).note shard) := by
        rw [WireCluster.receive, hbytes, hread, ← Wire.exn_tail k]
        split_ifs with htail
        · simp only [hk]
        · simp only [hk]
      have hchan : u.receive shard = some (.error k.death.hangup.exn,
          (u.tick.set shard ((u.tick.channel shard).await shard)).note shard) := by
        simp only [Cluster.receive, hr, hd]
      rw [hwire, hchan]
      have hgone : ((u.tick.channel shard).await shard).death ≠ none := by simp [hd]
      refine .some ⟨rfl, Carries.note (ht.set hother ?_)⟩
      exact ⟨hc.death, fun hno => absurd hno (not_or.2 ⟨hgone, hclosed⟩)⟩

end WireCluster

/-- **The byte streams do what the channels do.** -/
theorem wire_simulates :
    NetSimulation wireNet clusterNet (fun raw => raw.length < 2 ^ 64) WireCluster.Carries where
  forget hle h := ⟨fun s => (h.wire s).forget fun hs => hle hs, h.script, h.time, h.threw⟩
  send _ _ _ hraw _ _ h := .some (h.send hraw)
  receive hs _ _ h := h.receive hs

end AetherMoE
