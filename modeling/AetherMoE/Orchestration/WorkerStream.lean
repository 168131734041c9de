import AetherMoE.Orchestration.UnixSocketTransport
import AetherMoE.Orchestration.WorkerLoop

/-!
# The worker loop on its socket

`run_worker_loop` over `UnixSocketTransport`: the router's frames come in, cut off anywhere, and
every system call may be split, interrupted, or fail.

* `Line`, `socketTransport`: the worker's end of the connection;
* `readLoop_outcome`, `writeLoop_outcome`, `receive_outcome`, **`send_outcome`**: what the calls do
  when any of them may fail;
* `LoopReturns`: what the loop comes to; `wholeIn`: the messages that arrive in whole;
* **`worker_run`**: the loop from any point on; **`worker_answers`**: the whole loop.
-/

namespace AetherMoE

open ByteCodec Effect Router

/-- The worker's end of its connection: its coming system calls, the bytes it has still to read
before the end of the stream, and the bytes it has written. -/
structure Line where
  events : List IoEvent
  unread : Bytes
  written : Bytes := []
  deriving Repr, DecidableEq

/-- `UnixSocketTransport` on the worker's end. -/
def socketTransport : Transport Line where
  receive := ofExec fun l =>
    match receive ⟨l.events, l.unread⟩ with
    | .ok raw s => some (.ok raw, { l with events := s.events, unread := s.bytes })
    | .error e s => some (.error e, { l with events := s.events, unread := s.bytes })
  send reply := ofExec fun l =>
    match send reply ⟨l.events, l.written⟩ with
    | .ok u s => some (.ok u, { l with events := s.events, written := s.bytes })
    | .error e s => some (.error e, { l with events := s.events, written := s.bytes })

/-! ## Calls that may fail -/

section Calls

variable {m : Bytes}

theorem isStd_endOfStream (allow : Bool) (got : Bytes) : (endOfStream allow got).isStd = true := by
  unfold endOfStream
  split <;> rfl

/-- `read_all` returns the next bytes of the stream, or throws. -/
theorem readLoop_outcome (len : ℕ) (allow : Bool) (events : List IoEvent) (unread got : Bytes)
    (hg : got.length ≤ len) :
    (len ≤ got.length + unread.length ∧ ∃ es, readLoop len allow events unread got =
      .ok (got ++ unread.take (len - got.length)) ⟨es, unread.drop (len - got.length)⟩) ∨
    ∃ e s, e.isStd = true ∧ readLoop len allow events unread got = .error e s := by
  induction events generalizing unread got with
  | nil =>
    by_cases hu : len ≤ got.length + unread.length
    · exact .inl ⟨hu, [], by rw [readLoop, if_pos hu]⟩
    · exact .inr ⟨_, _, isStd_endOfStream .., by rw [readLoop, if_neg hu]⟩
  | cons e events ih =>
    by_cases hl : len ≤ got.length
    · refine .inl ⟨by omega, e :: events, ?_⟩
      unfold readLoop
      rw [if_pos hl, Nat.sub_eq_zero_of_le hl, List.take_zero, List.append_nil, List.drop_zero]
    cases e with
    | transfer k =>
      by_cases hne : unread = []
      · refine .inr ⟨_, ⟨events, unread⟩, isStd_endOfStream allow got, ?_⟩
        simp only [readLoop, if_neg hl, if_pos hne]
      set n := min (k + 1) (len - got.length) with hn
      have hread : readLoop len allow (.transfer k :: events) unread got =
          readLoop len allow events (unread.drop n) (got ++ unread.take n) := by
        simp only [readLoop, if_neg hl, if_neg hne, ← hn]
      by_cases hshort : unread.length < n
      · -- the stream has less than one call may move
        have htake : unread.take n = unread := List.take_of_length_le hshort.le
        have hdrop : unread.drop n = [] := List.drop_of_length_le hshort.le
        rw [hread, htake, hdrop]
        have hrest := ih [] (got ++ unread) (by rw [List.length_append]; omega)
        rw [List.length_append, List.length_nil] at hrest
        rcases hrest with ⟨hle, -⟩ | hthrow
        · omega
        · exact .inr hthrow
      · have hlen : (got ++ unread.take n).length = got.length + n := by
          rw [List.length_append, List.length_take]
          omega
        rw [hread]
        have hrest := ih (unread.drop n) (got ++ unread.take n) (by omega)
        rw [hlen, List.length_drop] at hrest
        rcases hrest with ⟨hle, es, hes⟩ | hthrow
        · have hsplit : len - got.length = n + (len - (got.length + n)) := by omega
          refine .inl ⟨by omega, es, ?_⟩
          rw [hes, List.append_assoc, List.drop_drop, hsplit, List.take_add]
        · exact .inr hthrow
    | eintr =>
      have hread : readLoop len allow (.eintr :: events) unread got =
          readLoop len allow events unread got := by simp only [readLoop, if_neg hl]
      rw [hread]
      exact ih unread got hg
    | error e =>
      exact .inr ⟨.receiveFailed e, ⟨events, unread⟩, rfl, by simp only [readLoop, if_neg hl]⟩

/-- `write_all` puts all of `data` on the stream, or a part of it and throws. -/
theorem writeLoop_outcome (events : List IoEvent) (data wire : Bytes) :
    (∃ es, writeLoop events data wire = .ok () ⟨es, wire ++ data⟩) ∨
    ∃ e es j, e.isStd = true ∧ j < data.length ∧
      writeLoop events data wire = .error e ⟨es, wire ++ data.take j⟩ := by
  induction events generalizing data wire with
  | nil =>
    cases data with
    | nil => exact .inl ⟨[], by rw [writeLoop, List.append_nil]⟩
    | cons b data => exact .inl ⟨[], rfl⟩
  | cons e events ih =>
    cases data with
    | nil => exact .inl ⟨e :: events, by rw [writeLoop, List.append_nil]⟩
    | cons b data =>
      cases e with
      | transfer k =>
        have hwrite : writeLoop (.transfer k :: events) (b :: data) wire =
            writeLoop events ((b :: data).drop (k + 1)) (wire ++ (b :: data).take (k + 1)) := by
          rw [writeLoop]
          simp
        rw [hwrite]
        rcases ih ((b :: data).drop (k + 1)) (wire ++ (b :: data).take (k + 1)) with
          ⟨es, hes⟩ | ⟨e, es, j, hstd, hj, hes⟩
        · refine .inl ⟨es, ?_⟩
          rw [hes, List.append_assoc, List.take_append_drop]
        · rw [List.length_drop] at hj
          have hsplit : (b :: data).take (k + 1 + j) =
              (b :: data).take (k + 1) ++ ((b :: data).drop (k + 1)).take j := List.take_add
          refine .inr ⟨e, es, k + 1 + j, hstd, by omega, ?_⟩
          rw [hes, hsplit, List.append_assoc]
      | eintr =>
        have hwrite : writeLoop (.eintr :: events) (b :: data) wire =
            writeLoop events (b :: data) wire := by
          rw [writeLoop]
          simp
        rw [hwrite]
        exact ih (b :: data) wire
      | error e =>
        refine .inr ⟨.sendFailed e, events, 0, rfl, Nat.succ_pos _, ?_⟩
        rw [List.take_zero, List.append_nil, writeLoop]
        simp

/-- A message that is there in whole is received, or the call throws. -/
theorem receive_outcome (hm : m.length < 2 ^ 64) (events : List IoEvent) (rest : Bytes) :
    (∃ es, receive ⟨events, frame m ++ rest⟩ = .ok m ⟨es, rest⟩) ∨
    ∃ e s, e.isStd = true ∧ receive ⟨events, frame m ++ rest⟩ = .error e s := by
  have hheader := readLoop_outcome 8 true events (encodeLength m.length ++ (m ++ rest)) []
    (Nat.zero_le 8)
  rw [frame, List.append_assoc, receive]
  rcases hheader with ⟨-, es, hes⟩ | ⟨e, s, hstd, hes⟩
  · rw [List.length_nil, Nat.sub_zero, List.nil_append, List.take_left' (length_encodeLength _),
      List.drop_left' (length_encodeLength _)] at hes
    have hread : readAll 8 true ⟨events, encodeLength m.length ++ (m ++ rest)⟩ = _ := hes
    rw [bind_run_ok hread]
    simp only [decodeLength_encodeLength hm]
    by_cases h0 : 0 < m.length
    · rw [if_pos h0]
      rcases readLoop_outcome m.length false es (m ++ rest) [] (Nat.zero_le _) with
        ⟨-, es', hes'⟩ | hthrow
      · rw [List.length_nil, Nat.sub_zero, List.nil_append, List.take_left' rfl,
          List.drop_left' rfl] at hes'
        exact .inl ⟨es', hes'⟩
      · exact .inr hthrow
    · rw [if_neg h0]
      obtain rfl : m = [] := List.length_eq_zero_iff.mp (by omega)
      exact .inl ⟨es, rfl⟩
  · exact .inr ⟨e, s, hstd, bind_run_error hes _⟩

/-- Reading more than the stream holds throws. -/
theorem readAll_short (len : ℕ) (allow : Bool) (events : List IoEvent) {bs : Bytes}
    (hb : bs.length < len) :
    ∃ e s, e.isStd = true ∧ readAll len allow ⟨events, bs⟩ = .error e s := by
  rcases readLoop_outcome len allow events bs [] (Nat.zero_le _) with ⟨hle, -⟩ | hthrow
  · rw [List.length_nil] at hle
    omega
  · exact hthrow

/-- A message that is cut off is not received. -/
theorem receive_outcome_cut (hm : m.length < 2 ^ 64) (events : List IoEvent) {c : ℕ}
    (hc : c < (frame m).length) :
    ∃ e s, e.isStd = true ∧ receive ⟨events, (frame m).take c⟩ = .error e s := by
  rw [length_frame] at hc
  by_cases h8 : c < 8
  · have hlen : ((frame m).take c).length < 8 := by
      rw [List.length_take]
      omega
    obtain ⟨e, s, hstd, hes⟩ := readAll_short 8 true events hlen
    exact ⟨e, s, hstd, bind_run_error hes _⟩
  · have hsplit : (frame m).take c = encodeLength m.length ++ m.take (c - 8) := by
      rw [frame, List.take_append, length_encodeLength,
        List.take_of_length_le (by rw [length_encodeLength]; omega)]
    rw [hsplit, receive]
    rcases readLoop_outcome 8 true events (encodeLength m.length ++ m.take (c - 8)) []
      (Nat.zero_le 8) with ⟨-, es, hes⟩ | ⟨e, s, hstd, hes⟩
    · rw [List.length_nil, Nat.sub_zero, List.nil_append, List.take_left' (length_encodeLength _),
        List.drop_left' (length_encodeLength _)] at hes
      have hread : readAll 8 true ⟨events, encodeLength m.length ++ m.take (c - 8)⟩ = _ := hes
      have hshort : (m.take (c - 8)).length < m.length := by
        rw [List.length_take]
        omega
      rw [bind_run_ok hread]
      simp only [decodeLength_encodeLength hm]
      rw [if_pos (by omega)]
      exact readAll_short m.length false es hshort
    · exact ⟨e, s, hstd, bind_run_error hes _⟩

/-- **A message is sent in whole**, or a part of its frame is and the call throws. -/
theorem send_outcome (m : Bytes) (events : List IoEvent) (wire : Bytes) :
    (∃ es, send m ⟨events, wire⟩ = .ok () ⟨es, wire ++ frame m⟩) ∨
    ∃ e es j, e.isStd = true ∧ j < (frame m).length ∧
      send m ⟨events, wire⟩ = .error e ⟨es, wire ++ (frame m).take j⟩ := by
  rcases writeLoop_outcome events (encodeLength m.length) wire with
    ⟨es, hes⟩ | ⟨e, es, j, hstd, hj, hes⟩
  · have hwrite : writeAll (encodeLength m.length) ⟨events, wire⟩ = _ := hes
    rw [send, bind_run_ok hwrite]
    by_cases hm : m = []
    · subst hm
      exact .inl ⟨es, by rw [if_neg (not_not.mpr rfl), frame, List.append_nil]; rfl⟩
    · rw [if_pos hm]
      rcases writeLoop_outcome es m (wire ++ encodeLength m.length) with
        ⟨es', hes'⟩ | ⟨e, es', j, hstd, hj, hes'⟩
      · refine .inl ⟨es', ?_⟩
        rw [frame, ← List.append_assoc]
        exact hes'
      · have htake : (frame m).take (8 + j) = encodeLength m.length ++ m.take j := by
          rw [frame, List.take_append, length_encodeLength, Nat.add_sub_cancel_left,
            List.take_of_length_le (by rw [length_encodeLength]; omega)]
        refine .inr ⟨e, es', 8 + j, hstd, by rw [length_frame]; omega, ?_⟩
        rw [htake, ← List.append_assoc]
        exact hes'
  · have hle : j ≤ (encodeLength m.length).length := hj.le
    rw [length_encodeLength] at hj
    refine .inr ⟨e, es, j, hstd, by rw [length_frame]; omega, ?_⟩
    rw [frame, List.take_append_of_le_length hle]
    exact bind_run_error hes _

end Calls

/-! ## One turn -/

section Turns

/-- With more fuel than `bound` the loop, after `n` answers, returns `m`. -/
def LoopReturns (reservable : ℕ) (shardId : UInt32) (bound n : ℕ) (l : Line) (m : ℕ) (l' : Line) :
    Prop :=
  ∀ fuel, bound < fuel →
    exec (runWorkerLoop reservable socketTransport shardId fuel n) l = some (.ok m, l')

variable {reservable : ℕ} {shardId : UInt32} {bound fuel n : ℕ} {raw reply unread written : Bytes}
  {events es es' : List IoEvent} {e : Exn} {s : Socket}

/-- The loop ends when `receive()` throws. -/
theorem returns_of_receive_throws (written : Bytes)
    (hread : receive ⟨events, unread⟩ = .error e s) (hstd : e.isStd = true) :
    LoopReturns reservable shardId bound n ⟨events, unread, written⟩ n
      ⟨s.events, s.bytes, written⟩ := by
  intro fuel hfuel
  obtain ⟨fuel, rfl⟩ := Nat.exists_eq_succ_of_ne_zero (Nat.ne_zero_of_lt hfuel)
  have hreceive : exec (attempt socketTransport.receive) ⟨events, unread, written⟩ =
      some (.ok (.error e), ⟨s.events, s.bytes, written⟩) := by
    rw [exec_attempt, socketTransport, exec_ofExec, hread]
    rfl
  rw [runWorkerLoop, exec_bind_ok hreceive]
  simp only [hstd, if_true]
  rfl

/-- What follows a message that was received. -/
theorem exec_received (hread : receive ⟨events, unread⟩ = .ok raw s)
    (hserve : serveBatch reservable shardId raw = .ok reply) :
    exec (runWorkerLoop reservable socketTransport shardId (fuel + 1) n) ⟨events, unread, written⟩ =
      exec (do
        match ← attempt (socketTransport.send reply) with
        | .error e => if e.isStd then return n else throw e
        | .ok _ => runWorkerLoop reservable socketTransport shardId fuel (n + 1))
        ⟨s.events, s.bytes, written⟩ := by
  have hreceive : exec (attempt socketTransport.receive) ⟨events, unread, written⟩ =
      some (.ok (.ok raw), ⟨s.events, s.bytes, written⟩) := by
    rw [exec_attempt, socketTransport, exec_ofExec, hread]
    rfl
  rw [runWorkerLoop, exec_bind_ok hreceive]
  exact exec_bind_ok ((exec_liftExcept _ _).trans (by rw [hserve]))

/-- The loop ends when `send()` throws. -/
theorem returns_of_send_throws {s' : Socket} (hread : receive ⟨events, unread⟩ = .ok raw s)
    (hserve : serveBatch reservable shardId raw = .ok reply)
    (hwrite : send reply ⟨s.events, written⟩ = .error e s') (hstd : e.isStd = true) :
    LoopReturns reservable shardId bound n ⟨events, unread, written⟩ n
      ⟨s'.events, s.bytes, s'.bytes⟩ := by
  intro fuel hfuel
  obtain ⟨fuel, rfl⟩ := Nat.exists_eq_succ_of_ne_zero (Nat.ne_zero_of_lt hfuel)
  have hsend : exec (attempt (socketTransport.send reply)) ⟨s.events, s.bytes, written⟩ =
      some (.ok (.error e), ⟨s'.events, s.bytes, s'.bytes⟩) := by
    rw [exec_attempt, socketTransport, exec_ofExec, hwrite]
    rfl
  rw [exec_received hread hserve, exec_bind_ok hsend]
  simp only [hstd, if_true]
  rfl

/-- The loop goes on once the answer is written. -/
theorem LoopReturns.sent {s' : Socket} {m : ℕ} {l : Line}
    (h : LoopReturns reservable shardId bound (n + 1) ⟨s'.events, s.bytes, s'.bytes⟩ m l)
    (hread : receive ⟨events, unread⟩ = .ok raw s)
    (hserve : serveBatch reservable shardId raw = .ok reply)
    (hwrite : send reply ⟨s.events, written⟩ = .ok () s') :
    LoopReturns reservable shardId (bound + 1) n ⟨events, unread, written⟩ m l := by
  intro fuel hfuel
  obtain ⟨fuel, rfl⟩ := Nat.exists_eq_succ_of_ne_zero (Nat.ne_zero_of_lt hfuel)
  have hsend : exec (attempt (socketTransport.send reply)) ⟨s.events, s.bytes, written⟩ =
      some (.ok (.ok ()), ⟨s'.events, s.bytes, s'.bytes⟩) := by
    rw [exec_attempt, socketTransport, exec_ofExec, hwrite]
    rfl
  rw [exec_received hread hserve, exec_bind_ok hsend]
  exact h fuel (Nat.lt_of_succ_lt_succ hfuel)

end Turns

/-! ## Whole streams -/

/-- How many of the messages the first `cut` bytes of their stream hold in whole. -/
def wholeIn : List Bytes → ℕ → ℕ
  | [], _ => 0
  | m :: ms, cut => if (frame m).length ≤ cut then wholeIn ms (cut - (frame m).length) + 1 else 0

/-- What the worker of `shard` sends for a batch. -/
def answerTo (shardId : UInt32) (batch : List RoutedToken) : Bytes :=
  encodeResultBatch (processed shardId batch)

/-- The first `k` answers, and perhaps the beginning of the next one, if there is a message it
answers. -/
structure Written (shardId : UInt32) (batches : List (List RoutedToken)) (whole k : ℕ)
    (part : Bytes) : Prop where
  le : k ≤ whole
  part_eq : part = [] ∨ k < whole ∧ ∃ batch j, batches[k]? = some batch ∧
    j < (frame (answerTo shardId batch)).length ∧ part = (frame (answerTo shardId batch)).take j

/-- **The loop, from any point on.** -/
theorem worker_run (reservable : ℕ) (shardId : UInt32) {batches : List (List RoutedToken)}
    (hsized : ∀ batch ∈ batches, Sized batch ∧ (encodeTokenBatch batch).length < 2 ^ 64)
    (events : List IoEvent) (cut : ℕ) (written : Bytes) (n : ℕ) :
    ∃ k part es unread,
      Written shardId batches (wholeIn (batches.map encodeTokenBatch) cut) k part ∧
      (NoErrors events → k = wholeIn (batches.map encodeTokenBatch) cut ∧ part = []) ∧
      LoopReturns reservable shardId batches.length n
        ⟨events, ((batches.map encodeTokenBatch).flatMap frame).take cut, written⟩ (n + k)
        ⟨es, unread,
          written ++ ((batches.take k).map (answerTo shardId)).flatMap frame ++ part⟩ := by
  induction batches generalizing events cut written n with
  | nil =>
    obtain ⟨e, s, hstd, hread⟩ := @readAll_short 8 true events [] (by decide)
    have hend : receive ⟨events, []⟩ = .error e s := bind_run_error hread _
    refine ⟨0, [], s.events, s.bytes, ⟨le_rfl, .inl rfl⟩, fun _ => ⟨rfl, rfl⟩, ?_⟩
    simpa using returns_of_receive_throws written hend hstd
  | cons batch batches ih =>
    obtain ⟨hfits, hlen⟩ := hsized batch List.mem_cons_self
    have hserve : serveBatch reservable shardId (encodeTokenBatch batch) =
        .ok (answerTo shardId batch) := serveBatch_encode hfits reservable shardId
    rw [List.map_cons, List.flatMap_cons, wholeIn]
    by_cases hwhole : (frame (encodeTokenBatch batch)).length ≤ cut
    · rw [if_pos hwhole, List.take_append, List.take_of_length_le hwhole]
      set rest := ((batches.map encodeTokenBatch).flatMap frame).take
        (cut - (frame (encodeTokenBatch batch)).length) with hrest
      rcases receive_outcome hlen events rest with ⟨es, hread⟩ | ⟨e, s, hstd, hread⟩
      · rcases send_outcome (answerTo shardId batch) es written with
          ⟨es', hwrite⟩ | ⟨e, es', j, hstd, hj, hwrite⟩
        · obtain ⟨k, part, es'', unread, hk, hcalm, hexec⟩ :=
            ih (fun b hb => hsized b (List.mem_cons_of_mem _ hb)) es'
              (cut - (frame (encodeTokenBatch batch)).length)
              (written ++ frame (answerTo shardId batch)) (n + 1)
          refine ⟨k + 1, part, es'', unread, ⟨Nat.succ_le_succ hk.le, ?_⟩, ?_, ?_⟩
          · refine hk.part_eq.imp_right fun ⟨hlt, hpart⟩ => ⟨Nat.succ_lt_succ hlt, ?_⟩
            exact hpart
          · intro hne
            obtain ⟨_, hne, hok⟩ := receive_frame hlen hne rest
            cases hread.symm.trans hok
            obtain ⟨_, hne, hok⟩ := send_run (answerTo shardId batch) hne written
            cases hwrite.symm.trans hok
            obtain ⟨hall, hpart⟩ := hcalm hne
            exact ⟨congrArg (· + 1) hall, hpart⟩
          · simpa [Nat.add_assoc, Nat.add_comm 1] using hexec.sent hread hserve hwrite
        · refine ⟨0, _, es', rest, ⟨Nat.zero_le _, .inr ⟨Nat.succ_pos _, batch, j, rfl, hj, rfl⟩⟩,
            fun hne => ?_, ?_⟩
          · obtain ⟨_, hne, hok⟩ := receive_frame hlen hne rest
            cases hread.symm.trans hok
            obtain ⟨_, -, hok⟩ := send_run (answerTo shardId batch) hne written
            cases hwrite.symm.trans hok
          · simpa using returns_of_send_throws hread hserve hwrite hstd
      · refine ⟨0, [], s.events, s.bytes, ⟨Nat.zero_le _, .inl rfl⟩, fun hne => ?_, ?_⟩
        · obtain ⟨_, -, hok⟩ := receive_frame hlen hne rest
          cases hread.symm.trans hok
        · simpa using returns_of_receive_throws written hread hstd
    · rw [if_neg hwhole, List.take_append_of_le_length (Nat.le_of_not_le hwhole)]
      obtain ⟨e, s, hstd, hread⟩ := receive_outcome_cut hlen events (Nat.not_le.1 hwhole)
      refine ⟨0, [], s.events, s.bytes, ⟨le_rfl, .inl rfl⟩, fun _ => ⟨rfl, rfl⟩, ?_⟩
      simpa using returns_of_receive_throws written hread hstd

/-- **The worker loop on its socket.** The router's stream of batches ends anywhere, and system
calls are split, interrupted, or fail: with fuel enough the loop returns the number of answers it
has written in whole, which are those to the first batches, in order, and of the next answer it
has written at most the beginning. If no call fails, every batch that arrived in whole is
answered. -/
theorem worker_answers (reservable : ℕ) (shardId : UInt32) {batches : List (List RoutedToken)}
    (hsized : ∀ batch ∈ batches, Sized batch ∧ (encodeTokenBatch batch).length < 2 ^ 64)
    (events : List IoEvent) (cut : ℕ) : ∃ k part es unread,
    Written shardId batches (wholeIn (batches.map encodeTokenBatch) cut) k part ∧
    (NoErrors events → k = wholeIn (batches.map encodeTokenBatch) cut ∧ part = []) ∧
    ∀ fuel, batches.length < fuel → exec (runWorkerLoop reservable socketTransport shardId fuel 0)
        ⟨events, ((batches.map encodeTokenBatch).flatMap frame).take cut, []⟩ =
      some (.ok k, ⟨es, unread,
        ((batches.take k).map (answerTo shardId)).flatMap frame ++ part⟩) := by
  obtain ⟨k, part, es, unread, hwritten, hcalm, hexec⟩ :=
    worker_run reservable shardId hsized events cut [] 0
  refine ⟨k, part, es, unread, hwritten, hcalm, fun fuel hfuel => ?_⟩
  simpa using hexec fuel hfuel

/-- A batch of two tokens, and the first bytes of another message; the write of the answer fails in
the middle. -/
theorem worker_answers_torn : wholeIn ([oneEach, []].map encodeTokenBatch) 67 = 1 ∧
    ∃ k part es unread, k ≤ 1 ∧ Written 3 [oneEach, []] 1 k part ∧
      ∀ fuel, 2 < fuel → exec (runWorkerLoop 1000000 socketTransport 3 fuel 0)
          ⟨[.eintr, .transfer 5, .transfer 1, .transfer 80, .transfer 7, .transfer 20,
            .error "Broken pipe"],
            (([oneEach, []].map encodeTokenBatch).flatMap frame).take 67, []⟩ =
        some (.ok k, ⟨es, unread,
          (([oneEach, []].take k).map (answerTo 3)).flatMap frame ++ part⟩) := by
  have hwhole : wholeIn ([oneEach, []].map encodeTokenBatch) 67 = 1 := by decide
  have hfits : ∀ batch ∈ [oneEach, []],
      Sized batch ∧ (encodeTokenBatch batch).length < 2 ^ 64 := by
    intro batch hb
    obtain rfl | rfl : batch = oneEach ∨ batch = [] := by simpa using hb
    · exact ⟨sized_oneEach, by decide⟩
    · exact ⟨⟨by decide, List.forall_mem_nil _⟩, by decide⟩
  obtain ⟨k, part, es, unread, hwritten, -, hexec⟩ := worker_answers 1000000 3 hfits
    [.eintr, .transfer 5, .transfer 1, .transfer 80, .transfer 7, .transfer 20,
      .error "Broken pipe"] 67
  rw [hwhole] at hwritten
  exact ⟨hwhole, k, part, es, unread, hwritten.le, hwritten, hexec⟩

end AetherMoE
