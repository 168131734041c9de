import AetherMoE.Lib.Effect
import AetherMoE.Orchestration.Decoding
import AetherMoE.Orchestration.WorkerShard

/-!
# The worker loop

`run_worker_loop` over any transport, and what it does when the transport follows a script: some
messages are received and answered, until `receive()` or `send()` throws.

* `Transport`, `runWorkerLoop`;
* `Script`, `Peer`, `scripted`;
* **`runWorkerLoop_of_sound`**: sound scripts are worked off; **`runWorkerLoop_of_unsound`**: from
  all others an exception escapes;
* `ShutsDown`, **`shutsDown_iff`**: the loop ends as it should exactly on the sound ones.
-/

namespace AetherMoE

open ByteCodec Effect

/-- One worker's end of an `ICollectiveTransport`. -/
structure Transport (σ : Type) where
  receive : Comp Exn σ Bytes
  send : Bytes → Comp Exn σ Unit

/-- A `catch (const std::exception&)` catches the exception. -/
def Exn.isStd (e : Exn) : Bool := e.what?.isSome

/-- `run_worker_loop` with `batchesProcessed` batches behind it, on a host that can reserve so much.
Without fuel it does not return. -/
def runWorkerLoop {σ : Type} (reservable : ℕ) (transport : Transport σ) (shardId : UInt32) :
    ℕ → ℕ → Comp Exn σ ℕ
  | 0, _ => ofExec fun _ => none
  | fuel + 1, batchesProcessed => do
    match ← attempt transport.receive with
    | .error e => if e.isStd then return batchesProcessed else throw e
    | .ok raw =>
      -- outside of both `try` blocks
      let reply ← serveBatch reservable shardId raw
      match ← attempt (transport.send reply) with
      | .error e => if e.isStd then return batchesProcessed else throw e
      | .ok _ => runWorkerLoop reservable transport shardId fuel (batchesProcessed + 1)

namespace WorkerLoop

/-! ## Scripts -/

/-- What happens at the transport: messages come in and their replies go out, until a call
throws. -/
inductive Script
  | receiveThrows (e : Exn)
  | sendThrows (raw : Bytes) (e : Exn)
  | served (raw : Bytes) (rest : Script)
  deriving Repr, DecidableEq

namespace Script

/-- The messages received. -/
def messages : Script → List Bytes
  | receiveThrows _ => []
  | sendThrows raw _ => [raw]
  | served raw rest => raw :: rest.messages

/-- The exception at the end. -/
def ending : Script → Exn
  | receiveThrows e => e
  | sendThrows _ e => e
  | served _ rest => rest.ending

/-- The number of calls of `send()` that return. -/
def delivered : Script → ℕ
  | receiveThrows _ => 0
  | sendThrows _ _ => 0
  | served _ rest => rest.delivered + 1

end Script

/-- The transport's state: what is still to happen, the replies `send()` was called with, and those
it returned for. -/
structure Peer where
  script : Script
  offered : List Bytes := []
  sent : List Bytes := []
  deriving Repr, DecidableEq

/-- The transport that follows the script. -/
def scripted : Transport Peer where
  receive := ofExec fun p =>
    match p.script with
    | .receiveThrows e => some (.error e, p)
    | .sendThrows raw _ | .served raw _ => some (.ok raw, p)
  send reply := ofExec fun p =>
    match p.script with
    | .receiveThrows _ => none
    | .sendThrows _ e => some (.error e, { p with offered := p.offered ++ [reply] })
    | .served _ rest => some (.ok (), ⟨rest, p.offered ++ [reply], p.sent ++ [reply]⟩)

/-! ## One turn -/

section Turn

variable {reservable : ℕ} {shardId : UInt32} {fuel n : ℕ} {raw reply : Bytes} {e : Exn}
  {rest : Script} {offered sent : List Bytes}

theorem exec_attempt_receive {script : Script} (hraw : script.messages.head? = some raw) :
    exec (attempt scripted.receive) ⟨script, offered, sent⟩ =
      some (.ok (.ok raw), ⟨script, offered, sent⟩) := by
  cases script with
  | receiveThrows e => cases hraw
  | sendThrows raw' e | served raw' rest =>
    obtain rfl : raw' = raw := Option.some.inj hraw
    rfl

theorem exec_caught (p : Peer) :
    exec (if e.isStd then return n else throw e : Comp Exn Peer ℕ) p =
      some (if e.isStd then .ok n else .error e, p) := by
  cases e.isStd <;> rfl

theorem exec_of_receiveThrows :
    exec (runWorkerLoop reservable scripted shardId (fuel + 1) n)
        ⟨.receiveThrows e, offered, sent⟩ =
      some (if e.isStd then .ok n else .error e, ⟨.receiveThrows e, offered, sent⟩) := by
  have hreceive : exec (attempt scripted.receive) ⟨.receiveThrows e, offered, sent⟩ =
      some (.ok (.error e), ⟨.receiveThrows e, offered, sent⟩) := rfl
  rw [runWorkerLoop, exec_bind_ok hreceive]
  exact exec_caught _

/-- What follows a message that decodes. -/
theorem exec_of_reply {script : Script} (hraw : script.messages.head? = some raw)
    (hserve : serveBatch reservable shardId raw = .ok reply) :
    exec (runWorkerLoop reservable scripted shardId (fuel + 1) n) ⟨script, offered, sent⟩ =
      exec (do
        match ← attempt (scripted.send reply) with
        | .error e => if e.isStd then return n else throw e
        | .ok _ => runWorkerLoop reservable scripted shardId fuel (n + 1))
          ⟨script, offered, sent⟩ := by
  rw [runWorkerLoop, exec_bind_ok (exec_attempt_receive hraw)]
  exact exec_bind_ok ((exec_liftExcept _ _).trans (by rw [hserve]))

/-- A message that does not decode is not caught. -/
theorem exec_of_not_served {script : Script} (hraw : script.messages.head? = some raw)
    (hserve : serveBatch reservable shardId raw = .error e) :
    exec (runWorkerLoop reservable scripted shardId (fuel + 1) n) ⟨script, offered, sent⟩ =
      some (.error e, ⟨script, offered, sent⟩) := by
  rw [runWorkerLoop, exec_bind_ok (exec_attempt_receive hraw)]
  exact exec_bind_error ((exec_liftExcept _ _).trans (by rw [hserve]))

theorem exec_of_sendThrows (hserve : serveBatch reservable shardId raw = .ok reply) :
    exec (runWorkerLoop reservable scripted shardId (fuel + 1) n)
        ⟨.sendThrows raw e, offered, sent⟩ =
      some (if e.isStd then .ok n else .error e,
        ⟨.sendThrows raw e, offered ++ [reply], sent⟩) := by
  have hsend : exec (attempt (scripted.send reply)) ⟨.sendThrows raw e, offered, sent⟩ =
      some (.ok (.error e), ⟨.sendThrows raw e, offered ++ [reply], sent⟩) := rfl
  rw [exec_of_reply rfl hserve, exec_bind_ok hsend]
  exact exec_caught _

theorem exec_of_served (hserve : serveBatch reservable shardId raw = .ok reply) :
    exec (runWorkerLoop reservable scripted shardId (fuel + 1) n)
        ⟨.served raw rest, offered, sent⟩ =
      exec (runWorkerLoop reservable scripted shardId fuel (n + 1))
        ⟨rest, offered ++ [reply], sent ++ [reply]⟩ := by
  have hsend : exec (attempt (scripted.send reply)) ⟨.served raw rest, offered, sent⟩ =
      some (.ok (.ok ()), ⟨rest, offered ++ [reply], sent ++ [reply]⟩) := rfl
  rw [exec_of_reply rfl hserve, exec_bind_ok hsend]

end Turn

/-! ## Whole scripts -/

/-- Every message is answered, and the exception at the end is one the loop catches. -/
def Sound (reservable : ℕ) (shardId : UInt32) (script : Script) : Prop :=
  (∀ raw ∈ script.messages, ∃ reply, serveBatch reservable shardId raw = .ok reply) ∧
    script.ending.isStd

section Runs

variable {reservable : ℕ} {shardId : UInt32}

/-- **Sound scripts are worked off.** Every message gets its reply, in order; the last reply of a
script that ends in `send()` does not go out. -/
theorem runWorkerLoop_of_sound {script : Script} (h : Sound reservable shardId script)
    (offered sent : List Bytes) (n : ℕ) : ∃ replies script',
      script.messages.map (serveBatch reservable shardId) = replies.map .ok ∧
      ∀ fuel, script.delivered < fuel →
        exec (runWorkerLoop reservable scripted shardId fuel n) ⟨script, offered, sent⟩ =
          some (.ok (n + script.delivered), ⟨script', offered ++ replies,
            sent ++ replies.take script.delivered⟩) := by
  induction script generalizing offered sent n with
  | receiveThrows e =>
    refine ⟨[], .receiveThrows e, rfl, fun fuel hfuel => ?_⟩
    obtain ⟨fuel, rfl⟩ := Nat.exists_eq_succ_of_ne_zero (Nat.ne_zero_of_lt hfuel)
    have hend : e.isStd := h.2
    rw [Nat.succ_eq_add_one, exec_of_receiveThrows, if_pos hend]
    simp [Script.delivered]
  | sendThrows raw e =>
    obtain ⟨reply, hreply⟩ := h.1 raw (List.mem_singleton.2 rfl)
    refine ⟨[reply], .sendThrows raw e, congrArg (fun x => [x]) hreply, fun fuel hfuel => ?_⟩
    obtain ⟨fuel, rfl⟩ := Nat.exists_eq_succ_of_ne_zero (Nat.ne_zero_of_lt hfuel)
    have hend : e.isStd := h.2
    rw [Nat.succ_eq_add_one, exec_of_sendThrows hreply, if_pos hend]
    simp [Script.delivered]
  | served raw rest ih =>
    obtain ⟨hall, hend⟩ := h
    rw [Script.messages, List.forall_mem_cons] at hall
    obtain ⟨reply, hreply⟩ := hall.1
    obtain ⟨replies, script', hreplies, hrun⟩ :=
      ih ⟨hall.2, hend⟩ (offered ++ [reply]) (sent ++ [reply]) (n + 1)
    refine ⟨reply :: replies, script', ?_, fun fuel hfuel => ?_⟩
    · rw [Script.messages, List.map_cons, List.map_cons, hreply, hreplies]
    · obtain ⟨fuel, rfl⟩ := Nat.exists_eq_succ_of_ne_zero (Nat.ne_zero_of_lt hfuel)
      rw [Nat.succ_eq_add_one, exec_of_served hreply, hrun fuel (Nat.lt_of_succ_lt_succ hfuel)]
      simp only [Script.delivered, List.take_succ_cons, List.append_assoc, List.singleton_append,
        Nat.add_right_comm n 1, Nat.add_assoc]

/-- **From all other scripts an exception escapes.** -/
theorem runWorkerLoop_of_unsound {script : Script} (h : ¬ Sound reservable shardId script)
    (offered sent : List Bytes) (n : ℕ) : ∃ e p, ∀ fuel, script.delivered < fuel →
      exec (runWorkerLoop reservable scripted shardId fuel n) ⟨script, offered, sent⟩ =
        some (.error e, p) := by
  induction script generalizing offered sent n with
  | receiveThrows e =>
    have hend : ¬ e.isStd := fun hend => h ⟨List.forall_mem_nil _, hend⟩
    refine ⟨e, ⟨.receiveThrows e, offered, sent⟩, fun fuel hfuel => ?_⟩
    obtain ⟨fuel, rfl⟩ := Nat.exists_eq_succ_of_ne_zero (Nat.ne_zero_of_lt hfuel)
    rw [Nat.succ_eq_add_one, exec_of_receiveThrows, if_neg hend]
  | sendThrows raw e =>
    cases hserve : serveBatch reservable shardId raw with
    | error e' =>
      refine ⟨e', ⟨.sendThrows raw e, offered, sent⟩, fun fuel hfuel => ?_⟩
      obtain ⟨fuel, rfl⟩ := Nat.exists_eq_succ_of_ne_zero (Nat.ne_zero_of_lt hfuel)
      exact exec_of_not_served rfl hserve
    | ok reply =>
      have hend : ¬ e.isStd := by
        refine fun hend => h ⟨fun raw' hraw' => ?_, hend⟩
        rw [List.mem_singleton.1 hraw']
        exact ⟨reply, hserve⟩
      refine ⟨e, ⟨.sendThrows raw e, offered ++ [reply], sent⟩, fun fuel hfuel => ?_⟩
      obtain ⟨fuel, rfl⟩ := Nat.exists_eq_succ_of_ne_zero (Nat.ne_zero_of_lt hfuel)
      rw [Nat.succ_eq_add_one, exec_of_sendThrows hserve, if_neg hend]
  | served raw rest ih =>
    cases hserve : serveBatch reservable shardId raw with
    | error e' =>
      refine ⟨e', ⟨.served raw rest, offered, sent⟩, fun fuel hfuel => ?_⟩
      obtain ⟨fuel, rfl⟩ := Nat.exists_eq_succ_of_ne_zero (Nat.ne_zero_of_lt hfuel)
      exact exec_of_not_served rfl hserve
    | ok reply =>
      have hrest : ¬ Sound reservable shardId rest := fun hrest =>
        h ⟨List.forall_mem_cons.2 ⟨⟨reply, hserve⟩, hrest.1⟩, hrest.2⟩
      obtain ⟨e, p, hrun⟩ := ih hrest (offered ++ [reply]) (sent ++ [reply]) (n + 1)
      refine ⟨e, p, fun fuel hfuel => ?_⟩
      obtain ⟨fuel, rfl⟩ := Nat.exists_eq_succ_of_ne_zero (Nat.ne_zero_of_lt hfuel)
      rw [Nat.succ_eq_add_one, exec_of_served hserve]
      exact hrun fuel (Nat.lt_of_succ_lt_succ hfuel)

/-- The loop ends as it should: with fuel enough it returns the number of replies that went out,
`send()` has been called with the reply to each message received, in order, and all that went out
are the first of these. -/
def ShutsDown (reservable : ℕ) (shardId : UInt32) (script : Script) : Prop :=
  ∃ replies p, (∀ fuel, script.delivered < fuel →
      exec (runWorkerLoop reservable scripted shardId fuel 0) { script := script } =
        some (.ok p.sent.length, p)) ∧
    script.messages.map (serveBatch reservable shardId) = replies.map .ok ∧ p.offered = replies ∧
    p.sent = replies.take script.delivered

theorem delivered_le (script : Script) : script.delivered ≤ script.messages.length := by
  induction script with
  | receiveThrows e | sendThrows raw e => exact Nat.zero_le _
  | served raw rest ih => exact Nat.succ_le_succ ih

/-- A message is answered exactly if it begins with the encoding of a token batch. -/
theorem served_iff {raw : Bytes} : (∃ reply, serveBatch reservable shardId raw = .ok reply) ↔
    ∃ ts, Router.Sized ts ∧ encodeTokenBatch ts <+: raw := by
  have haccepts : (∃ ts, decodeTokenBatch reservable raw = .ok ts) ↔
      ∃ ts, Router.Sized ts ∧ encodeTokenBatch ts <+: raw := by
    rw [(selfDelimiting_tokenBatch reservable).accepts]
    constructor
    · rintro ⟨ts, hts, hbegin⟩
      exact ⟨ts, ⟨hts.1, hts.2⟩, hbegin⟩
    · rintro ⟨ts, hts, hbegin⟩
      exact ⟨ts, ⟨hts.tokens_lt, hts.payload_lt⟩, hbegin⟩
  rw [← haccepts, serveBatch]
  cases decodeTokenBatch reservable raw with
  | error e =>
    constructor
    all_goals
      rintro ⟨x, hx⟩
      cases hx
  | ok ts => exact ⟨fun _ => ⟨ts, rfl⟩, fun _ => ⟨_, rfl⟩⟩

/-- **The worker loop ends as it should exactly if every message received begins with the encoding
of a token batch and the exception at the end derives from `std::exception`**; otherwise an
exception escapes it. -/
theorem shutsDown_iff (reservable : ℕ) (shardId : UInt32) (script : Script) :
    (ShutsDown reservable shardId script ↔
      (∀ raw ∈ script.messages, ∃ ts, Router.Sized ts ∧ encodeTokenBatch ts <+: raw) ∧
        script.ending.isStd) ∧
    (¬ ShutsDown reservable shardId script → ∃ e p, ∀ fuel, script.delivered < fuel →
      exec (runWorkerLoop reservable scripted shardId fuel 0) { script := script } =
        some (.error e, p)) := by
  have hshuts : Sound reservable shardId script → ShutsDown reservable shardId script := by
    intro hsound
    obtain ⟨replies, script', hreplies, hrun⟩ := runWorkerLoop_of_sound hsound [] [] 0
    simp only [List.nil_append, Nat.zero_add] at hrun
    refine ⟨replies, ⟨script', replies, replies.take script.delivered⟩, fun fuel hfuel => ?_,
      hreplies, rfl, rfl⟩
    have hlen : replies.length = script.messages.length := by
      have := congrArg List.length hreplies
      simpa using this.symm
    rw [hrun fuel hfuel, List.length_take, hlen, Nat.min_eq_left (delivered_le script)]
  have hsound : ShutsDown reservable shardId script → Sound reservable shardId script := by
    rintro ⟨replies, p, hrun, -⟩
    by_contra h
    obtain ⟨e, p', herr⟩ := runWorkerLoop_of_unsound h [] [] 0
    have hboth := (hrun _ (Nat.lt_succ_self _)).symm.trans (herr _ (Nat.lt_succ_self _))
    cases hboth
  refine ⟨?_, fun h => runWorkerLoop_of_unsound (fun hs => h (hshuts hs)) [] [] 0⟩
  simp only [← @served_iff reservable shardId]
  exact ⟨hsound, hshuts⟩

/-- **A malformed message takes the worker down**: one byte is received, and the truncation error
escapes the loop. -/
theorem not_shutsDown_malformed :
    ¬ ShutsDown 1000000 0 (.served [7] (.receiveThrows .peerClosed)) ∧
    ∀ fuel, 1 < fuel → exec (runWorkerLoop 1000000 scripted 0 fuel 0)
      { script := .served [7] (.receiveThrows .peerClosed) } =
        some (.error .truncated, { script := .served [7] (.receiveThrows .peerClosed) }) := by
  have hserve : serveBatch 1000000 0 [7] = .error .truncated := by decide
  have hrun : ∀ fuel, 1 < fuel → exec (runWorkerLoop 1000000 scripted 0 fuel 0)
      { script := .served [7] (.receiveThrows .peerClosed) } =
        some (.error .truncated, { script := .served [7] (.receiveThrows .peerClosed) }) := by
    intro fuel hfuel
    obtain ⟨fuel, rfl⟩ := Nat.exists_eq_succ_of_ne_zero (Nat.ne_zero_of_lt hfuel)
    exact exec_of_not_served rfl hserve
  refine ⟨?_, hrun⟩
  rintro ⟨replies, p, hok, -⟩
  have hboth := (hok 2 (by decide)).symm.trans (hrun 2 (by decide))
  cases hboth

end Runs

end WorkerLoop

end AetherMoE
