import AetherMoE.Orchestration.Serialization

/-!
# Message framing over a byte stream

`UnixSocketTransport` turns a `SOCK_STREAM` socket into a sequence of messages: an eight-byte
big-endian length, then the body. One system call may move fewer bytes than asked for, may be
interrupted, or may fail; `IoEvent` lists what it does, and a `Socket` carries the events of the
coming calls. When the list is used up, calls move as many bytes as they can.

* `encodeLength`, `decodeLength`, `writeAll`, `readAll`, `send`, `receive`;
* **`sendAll_run`**: the bytes on the wire do not depend on how `write` splits them;
* **`readAll_run`**, **`readAll_eof`**: nor does what is read depend on `read`;
* `receive_frame`, `receive_eof`, `receive_cut`: one message, whole or cut off;
* **`receiveMany_cut`**: what a peer sees of a stream that ends anywhere.
-/

namespace AetherMoE

open ByteCodec

/-- What one call of `write` or `read` does: move at most `k + 1` bytes, return `EINTR`, or fail
with another error. -/
inductive IoEvent
  | transfer (k : ℕ)
  | eintr
  | error (errno : String)
  deriving Repr, DecidableEq

/-- One end of a connection: the events of its coming system calls, and the bytes the sender has
put on the stream, or the receiver has still to read before the end of the stream. -/
structure Socket where
  events : List IoEvent
  bytes : Bytes
  deriving Repr, DecidableEq

/-- Code that works on one end of a connection and may throw; what was done to the connection
before a throw stays done. -/
abbrev SocketM := EStateM Exn Socket

/-! ## The transport -/

/-- The loop of `encode_length`: `out[i]` is filled from the last byte to the first. -/
def encodeLengthLoop : ℕ → UInt64 → Bytes → Bytes
  | 0, _, out => out
  | i + 1, v, out => encodeLengthLoop i (v >>> 8) ((v &&& 0xFF).toUInt8 :: out)

/-- `encode_length`. -/
def encodeLength (len : ℕ) : Bytes := encodeLengthLoop 8 (UInt64.ofNat len) []

/-- `decode_length`. -/
def decodeLength (header : Bytes) : UInt64 :=
  header.foldl (fun v b => (v <<< 8) ||| b.toUInt64) 0

/-- The loop of `write_all`: `data` is what is left to write, `wire` what was written. -/
def writeLoop : List IoEvent → Bytes → Bytes → EStateM.Result Exn Socket Unit
  | events, [], wire => .ok () ⟨events, wire⟩
  | [], data, wire => .ok () ⟨[], wire ++ data⟩
  | .transfer k :: events, data, wire =>
    writeLoop events (data.drop (k + 1)) (wire ++ data.take (k + 1))
  | .eintr :: events, data, wire => writeLoop events data wire
  | .error e :: events, _, wire => .error (.sendFailed e) ⟨events, wire⟩

/-- `write_all`. -/
def writeAll (data : Bytes) : SocketM Unit := fun s => writeLoop s.events data s.bytes

/-- `read` returned `0` with `got` already read. -/
def endOfStream (allowEofAtStart : Bool) (got : Bytes) : Exn :=
  if allowEofAtStart ∧ got = [] then .peerClosed else .peerClosedMidMessage

/-- The loop of `read_all`: `got` is what was read, `unread` what the stream still holds. -/
def readLoop (len : ℕ) (allowEofAtStart : Bool) :
    List IoEvent → Bytes → Bytes → EStateM.Result Exn Socket Bytes
  | [], unread, got =>
    if len ≤ got.length + unread.length then
      .ok (got ++ unread.take (len - got.length)) ⟨[], unread.drop (len - got.length)⟩
    else .error (endOfStream allowEofAtStart (got ++ unread)) ⟨[], []⟩
  | e :: events, unread, got =>
    if len ≤ got.length then .ok got ⟨e :: events, unread⟩
    else match e with
      | .eintr => readLoop len allowEofAtStart events unread got
      | .error e => .error (.receiveFailed e) ⟨events, unread⟩
      | .transfer k =>
        let n := min (k + 1) (len - got.length)
        if unread = [] then .error (endOfStream allowEofAtStart got) ⟨events, unread⟩
        else readLoop len allowEofAtStart events (unread.drop n) (got ++ unread.take n)

/-- `read_all`. -/
def readAll (len : ℕ) (allowEofAtStart : Bool) : SocketM Bytes :=
  fun s => readLoop len allowEofAtStart s.events s.bytes []

/-- `UnixSocketTransport::send`. -/
def send (message : Bytes) : SocketM Unit := do
  writeAll (encodeLength message.length)
  if message ≠ [] then writeAll message

/-- `UnixSocketTransport::receive`. -/
def receive : SocketM Bytes := do
  let header ← readAll 8 true
  let len := (decodeLength header).toNat
  if 0 < len then readAll len false else return []

/-- Successive calls of `send`. -/
def sendAll : List Bytes → SocketM Unit
  | [] => pure ()
  | m :: ms => do
    send m
    sendAll ms

/-- `n` successive calls of `receive`. -/
def receiveMany : ℕ → SocketM (List Bytes)
  | 0 => pure []
  | n + 1 => do
    let m ← receive
    let ms ← receiveMany n
    return m :: ms

/-! ## The length header -/

theorem toNat_shiftRight_eight (v : UInt64) : (v >>> 8).toNat = v.toNat / 256 := by
  rw [UInt64.toNat_shiftRight, Nat.shiftRight_eq_div_pow]
  rfl

theorem toUInt8_and_mask (v : UInt64) : (v &&& 0xFF).toUInt8 = UInt8.ofNat v.toNat := by
  apply UInt8.toNat_inj.mp
  have hm : v.toNat &&& 255 = v.toNat % 256 := Nat.and_two_pow_sub_one_eq_mod v.toNat 8
  rw [UInt64.toNat_toUInt8, UInt64.toNat_and, UInt8.toNat_ofNat']
  change (v.toNat &&& 255) % 256 = v.toNat % 256
  rw [hm, Nat.mod_mod]

theorem encodeLengthLoop_eq (i : ℕ) (v : UInt64) (out : Bytes) :
    encodeLengthLoop i v out = (leBytes i v.toNat).reverse ++ out := by
  induction i generalizing v out with
  | zero => rfl
  | succ i ih =>
    rw [encodeLengthLoop, ih, toNat_shiftRight_eight, toUInt8_and_mask, leBytes,
      List.reverse_cons, List.append_assoc]
    rfl

@[simp] theorem length_encodeLength (n : ℕ) : (encodeLength n).length = 8 := by
  rw [encodeLength, encodeLengthLoop_eq, List.append_nil, List.length_reverse, length_leBytes]

theorem toNat_shiftLeft_or (v : UInt64) (b : UInt8) (h : v.toNat < 256 ^ 7) :
    ((v <<< 8) ||| b.toUInt64).toNat = v.toNat * 256 + b.toNat := by
  have hs : (v <<< 8).toNat = v.toNat * 256 := by
    rw [UInt64.toNat_shiftLeft, Nat.shiftLeft_eq]
    change v.toNat * 256 % 2 ^ 64 = v.toNat * 256
    exact Nat.mod_eq_of_lt (by omega)
  have ho := Nat.two_pow_add_eq_or_of_lt (i := 8) b.toNat_lt v.toNat
  rw [UInt64.toNat_or, hs, UInt8.toNat_toUInt64, Nat.mul_comm]
  exact ho.symm

/-- The decoding loop spells the header in base 256. -/
theorem toNat_decodeLength (bs : Bytes) (h : bs.length ≤ 8) :
    (decodeLength bs).toNat = ofBE bs := by
  induction bs using List.reverseRecOn with
  | nil => rfl
  | append_singleton bs b ih =>
    rw [List.length_append, List.length_singleton] at h
    have hb : (decodeLength bs).toNat = ofBE bs := ih (by omega)
    have hlt : ofBE bs < 256 ^ 7 :=
      lt_of_lt_of_le (ofBE_lt bs) (Nat.pow_le_pow_right (by decide) (by omega))
    rw [ofBE_append_singleton, ← hb, ← toNat_shiftLeft_or _ _ (by rw [hb]; exact hlt),
      decodeLength, decodeLength, List.foldl_append]
    rfl

/-- **The header round trip.** -/
theorem decodeLength_encodeLength {n : ℕ} (h : n < 2 ^ 64) :
    (decodeLength (encodeLength n)).toNat = n := by
  rw [toNat_decodeLength _ (length_encodeLength n).le, encodeLength, encodeLengthLoop_eq,
    List.append_nil, ofBE_reverse, UInt64.toNat_ofNat', Nat.mod_eq_of_lt h, ofLE_leBytes h]

/-! ## The retry loops -/

/-- No call fails with an error other than `EINTR`. -/
def NoErrors (events : List IoEvent) : Prop := ∀ e, IoEvent.error e ∉ events

theorem NoErrors.suffix {es es' : List IoEvent} (h : NoErrors es) (hs : es' <:+ es) :
    NoErrors es' := fun e he => h e (hs.subset he)

/-- `write_all` delivers all of `data`, however the calls split it. -/
theorem writeLoop_run (events : List IoEvent) (data wire : Bytes) (h : NoErrors events) :
    ∃ events', events' <:+ events ∧
      writeLoop events data wire = .ok () ⟨events', wire ++ data⟩ := by
  induction events generalizing data wire with
  | nil =>
    refine ⟨[], List.suffix_refl _, ?_⟩
    cases data with
    | nil => rw [writeLoop, List.append_nil]
    | cons b data => rfl
  | cons e events ih =>
    have hs : NoErrors events := h.suffix (List.suffix_cons e events)
    cases data with
    | nil => exact ⟨e :: events, List.suffix_refl _, by rw [writeLoop, List.append_nil]⟩
    | cons b data =>
      cases e with
      | transfer k =>
        obtain ⟨es, he, hr⟩ := ih ((b :: data).drop (k + 1)) (wire ++ (b :: data).take (k + 1)) hs
        refine ⟨es, he.trans (List.suffix_cons _ _), ?_⟩
        rw [writeLoop, hr, List.append_assoc, List.take_append_drop]
        simp
      | eintr =>
        obtain ⟨es, he, hr⟩ := ih (b :: data) wire hs
        exact ⟨es, he.trans (List.suffix_cons _ _), by rw [writeLoop, hr]; simp⟩
      | error e => exact absurd List.mem_cons_self (h e)

/-- `read_all` returns the next `len` bytes of a stream that holds them. -/
theorem readLoop_run (len : ℕ) (allow : Bool) (events : List IoEvent) (unread got : Bytes)
    (h : NoErrors events) (hg : got.length ≤ len) (hu : len ≤ got.length + unread.length) :
    ∃ events', events' <:+ events ∧ readLoop len allow events unread got =
      .ok (got ++ unread.take (len - got.length)) ⟨events', unread.drop (len - got.length)⟩ := by
  induction events generalizing unread got with
  | nil => exact ⟨[], List.suffix_refl _, by rw [readLoop, if_pos hu]⟩
  | cons e events ih =>
    have hs : NoErrors events := h.suffix (List.suffix_cons e events)
    by_cases hl : len ≤ got.length
    · refine ⟨e :: events, List.suffix_refl _, ?_⟩
      unfold readLoop
      rw [if_pos hl, Nat.sub_eq_zero_of_le hl, List.take_zero, List.append_nil, List.drop_zero]
    cases e with
    | transfer k =>
      have hne : unread ≠ [] := by
        rintro rfl
        rw [List.length_nil] at hu
        omega
      set n := min (k + 1) (len - got.length) with hn
      have hlen : (got ++ unread.take n).length = got.length + n := by
        rw [List.length_append, List.length_take]
        omega
      obtain ⟨es, he, hr⟩ := ih (unread.drop n) (got ++ unread.take n) hs (by omega)
        (by rw [hlen, List.length_drop]; omega)
      refine ⟨es, he.trans (List.suffix_cons _ _), ?_⟩
      have hsplit : len - got.length = n + (len - (got.length + n)) := by omega
      simp only [readLoop, if_neg hl, if_neg hne, ← hn]
      rw [hr, hlen, List.append_assoc, List.drop_drop, hsplit, List.take_add]
    | eintr =>
      obtain ⟨es, he, hr⟩ := ih unread got hs hg hu
      exact ⟨es, he.trans (List.suffix_cons _ _), by simp only [readLoop, if_neg hl, hr]⟩
    | error e => exact absurd List.mem_cons_self (h e)

/-- `read_all` reports the end of a stream that is too short, and how far it came. -/
theorem readLoop_eof (len : ℕ) (allow : Bool) (events : List IoEvent) (unread got : Bytes)
    (h : NoErrors events) (hu : got.length + unread.length < len) :
    ∃ s, readLoop len allow events unread got = .error (endOfStream allow (got ++ unread)) s := by
  induction events generalizing unread got with
  | nil => exact ⟨_, by rw [readLoop, if_neg (Nat.not_le.mpr hu)]⟩
  | cons e events ih =>
    have hs : NoErrors events := h.suffix (List.suffix_cons e events)
    have hl : ¬ len ≤ got.length := by omega
    cases e with
    | transfer k =>
      by_cases hne : unread = []
      · subst hne
        refine ⟨⟨events, []⟩, ?_⟩
        simp only [readLoop, if_neg hl, if_true, List.append_nil]
      set n := min (k + 1) (len - got.length) with hn
      obtain ⟨s, hr⟩ := ih (unread.drop n) (got ++ unread.take n) hs (by
        rw [List.length_append, List.length_take, List.length_drop]
        omega)
      refine ⟨s, ?_⟩
      simp only [readLoop, if_neg hl, if_neg hne, ← hn]
      rw [hr, List.append_assoc, List.take_append_drop]
    | eintr =>
      obtain ⟨s, hr⟩ := ih unread got hs hu
      exact ⟨s, by simp only [readLoop, if_neg hl, hr]⟩
    | error e => exact absurd List.mem_cons_self (h e)

theorem readAll_run {len : ℕ} (allow : Bool) {events : List IoEvent} (h : NoErrors events)
    (bs rest : Bytes) (hb : bs.length = len) :
    ∃ events', NoErrors events' ∧
      readAll len allow ⟨events, bs ++ rest⟩ = .ok bs ⟨events', rest⟩ := by
  obtain ⟨es, he, hr⟩ := readLoop_run len allow events (bs ++ rest) [] h (Nat.zero_le _)
    (by rw [List.length_nil, List.length_append]; omega)
  refine ⟨es, h.suffix he, ?_⟩
  rw [readAll, hr, List.length_nil, Nat.sub_zero, List.nil_append, List.take_left' hb,
    List.drop_left' hb]

theorem readAll_eof (len : ℕ) (allow : Bool) {events : List IoEvent} (h : NoErrors events)
    (bs : Bytes) (hb : bs.length < len) :
    ∃ s, readAll len allow ⟨events, bs⟩ = .error (endOfStream allow bs) s := by
  obtain ⟨s, hr⟩ := readLoop_eof len allow events bs [] h (by rw [List.length_nil]; omega)
  exact ⟨s, by rw [readAll, hr, List.nil_append]⟩

/-! ## One message -/

/-- The bytes of one message on the stream. -/
def frame (m : Bytes) : Bytes := encodeLength m.length ++ m

@[simp] theorem length_frame (m : Bytes) : (frame m).length = 8 + m.length := by
  rw [frame, List.length_append, length_encodeLength]

theorem bind_run_ok {σ α β : Type} {x : EStateM Exn σ α} {s s' : σ} {a : α}
    (h : x s = .ok a s') (f : α → EStateM Exn σ β) : (x >>= f) s = f a s' := by
  change (EStateM.bind x f) s = _
  rw [EStateM.bind, h]

theorem bind_run_error {σ α β : Type} {x : EStateM Exn σ α} {s s' : σ} {e : Exn}
    (h : x s = .error e s') (f : α → EStateM Exn σ β) : (x >>= f) s = .error e s' := by
  change (EStateM.bind x f) s = _
  rw [EStateM.bind, h]

theorem send_run (m : Bytes) {events : List IoEvent} (h : NoErrors events) (wire : Bytes) :
    ∃ events', NoErrors events' ∧ send m ⟨events, wire⟩ = .ok () ⟨events', wire ++ frame m⟩ := by
  obtain ⟨es, he, hr⟩ := writeLoop_run events (encodeLength m.length) wire h
  have hes := h.suffix he
  have hw : writeAll (encodeLength m.length) ⟨events, wire⟩ =
      .ok () ⟨es, wire ++ encodeLength m.length⟩ := hr
  rw [send, bind_run_ok hw]
  by_cases hm : m = []
  · subst hm
    exact ⟨es, hes, by rw [if_neg (not_not.mpr rfl), frame, List.append_nil]; rfl⟩
  · obtain ⟨es', he', hr'⟩ := writeLoop_run es m (wire ++ encodeLength m.length) hes
    refine ⟨es', hes.suffix he', ?_⟩
    rw [if_pos hm, frame, ← List.append_assoc]
    exact hr'

/-- **Sending does not depend on the calls**: the stream carries the frames, one after another. -/
theorem sendAll_run (msgs : List Bytes) {events : List IoEvent} (h : NoErrors events)
    (wire : Bytes) :
    ∃ events', sendAll msgs ⟨events, wire⟩ = .ok () ⟨events', wire ++ msgs.flatMap frame⟩ := by
  induction msgs generalizing events wire with
  | nil => exact ⟨events, by rw [List.flatMap_nil, List.append_nil]; rfl⟩
  | cons m msgs ih =>
    obtain ⟨es, hes, hr⟩ := send_run m h wire
    obtain ⟨es', hr'⟩ := ih hes (wire ++ frame m)
    refine ⟨es', ?_⟩
    rw [sendAll, bind_run_ok hr, hr', List.flatMap_cons, List.append_assoc]

/-- A whole message is received as it was sent. -/
theorem receive_frame {m : Bytes} (hm : m.length < 2 ^ 64) {events : List IoEvent}
    (h : NoErrors events) (rest : Bytes) :
    ∃ events', NoErrors events' ∧ receive ⟨events, frame m ++ rest⟩ = .ok m ⟨events', rest⟩ := by
  obtain ⟨es, hes, hr⟩ :=
    readAll_run true h (encodeLength m.length) (m ++ rest) (length_encodeLength _)
  rw [frame, List.append_assoc, receive, bind_run_ok hr]
  simp only [decodeLength_encodeLength hm]
  by_cases h0 : 0 < m.length
  · rw [if_pos h0]
    exact readAll_run false hes m rest rfl
  · rw [if_neg h0]
    obtain rfl : m = [] := List.length_eq_zero_iff.mp (by omega)
    exact ⟨es, hes, rfl⟩

/-- **A cut-off message**: nothing of it was delivered, or the reader notices. -/
theorem receive_cut {m : Bytes} (hm : m.length < 2 ^ 64) {events : List IoEvent}
    (h : NoErrors events) {c : ℕ} (hc : c < (frame m).length) :
    ∃ s, receive ⟨events, (frame m).take c⟩ =
      .error (if c = 0 then .peerClosed else .peerClosedMidMessage) s := by
  rw [length_frame] at hc
  by_cases h8 : c < 8
  · have hlen : ((frame m).take c).length = c := by
      rw [List.length_take, length_frame]
      omega
    obtain ⟨s, hr⟩ := readAll_eof 8 true h ((frame m).take c) (hlen.symm ▸ h8)
    refine ⟨s, ?_⟩
    rw [receive, bind_run_error hr, endOfStream]
    have hz : (frame m).take c = [] ↔ c = 0 := by rw [← List.length_eq_zero_iff, hlen]
    simp only [hz, true_and]
  · have hsplit : (frame m).take c = encodeLength m.length ++ m.take (c - 8) := by
      rw [frame, List.take_append, length_encodeLength,
        List.take_of_length_le (by rw [length_encodeLength]; omega)]
    obtain ⟨es, hes, hr⟩ :=
      readAll_run true h (encodeLength m.length) (m.take (c - 8)) (length_encodeLength _)
    obtain ⟨s, he⟩ := readAll_eof m.length false hes (m.take (c - 8)) (by
      rw [List.length_take]
      omega)
    refine ⟨s, ?_⟩
    rw [hsplit, receive, bind_run_ok hr]
    simp only [decodeLength_encodeLength hm]
    rw [if_pos (by omega), he, if_neg (by omega)]
    simp [endOfStream]

/-! ## A stream that ends anywhere -/

/-- The number of bytes a list of messages takes on the stream: a header and a body each. -/
def streamLength (msgs : List Bytes) : ℕ := (msgs.map fun m => 8 + m.length).sum

theorem length_flatMap_frame (msgs : List Bytes) :
    (msgs.flatMap frame).length = streamLength msgs := by
  induction msgs with
  | nil => rfl
  | cons m msgs ih =>
    rw [List.flatMap_cons, List.length_append, length_frame, ih]
    rfl

/-- What the receiver of a stream cut off after `cut` bytes gets: the first `k` messages, the
ones that were delivered in whole, and then an error that tells where the cut was. -/
structure Received (msgs : List Bytes) (cut : ℕ) (s : Socket) (k : ℕ) : Prop where
  le_length : k ≤ msgs.length
  whole : streamLength (msgs.take k) ≤ cut
  maximal : k < msgs.length → cut < streamLength (msgs.take (k + 1))
  received : ∃ s', receiveMany k s = .ok (msgs.take k) s' ∧
    ∃ s'', receive s' = .error
      (if streamLength (msgs.take k) = cut then .peerClosed else .peerClosedMidMessage) s''

theorem received_of_cut (msgs : List Bytes) (hm : ∀ m ∈ msgs, m.length < 2 ^ 64)
    {events : List IoEvent} (h : NoErrors events) {cut : ℕ} (hc : cut ≤ streamLength msgs) :
    ∃ k, Received msgs cut ⟨events, (msgs.flatMap frame).take cut⟩ k := by
  induction msgs generalizing events cut with
  | nil =>
    obtain rfl : cut = 0 := Nat.le_zero.mp hc
    obtain ⟨s, hr⟩ := readAll_eof 8 true h [] (by decide)
    refine ⟨0, le_rfl, le_rfl, fun h => absurd h (Nat.lt_irrefl 0), _, rfl, s, ?_⟩
    exact bind_run_error hr _
  | cons m msgs ih =>
    rw [List.flatMap_cons]
    by_cases hlt : cut < (frame m).length
    · have htake : (frame m ++ msgs.flatMap frame).take cut = (frame m).take cut :=
        List.take_append_of_le_length hlt.le
      obtain ⟨s, hr⟩ := receive_cut (hm m List.mem_cons_self) h hlt
      rw [htake]
      refine ⟨0, Nat.zero_le _, Nat.zero_le _, fun _ => ?_, _, rfl, s, ?_⟩
      · simpa [streamLength] using hlt
      · simpa [streamLength, eq_comm] using hr
    · have hle : (frame m).length ≤ cut := Nat.not_lt.mp hlt
      obtain ⟨es, hes, hr⟩ := receive_frame (hm m List.mem_cons_self) h
        ((msgs.flatMap frame).take (cut - (frame m).length))
      have hc' : cut - (frame m).length ≤ streamLength msgs := by
        rw [length_frame]
        simp only [streamLength, List.map_cons, List.sum_cons] at hc ⊢
        omega
      obtain ⟨k, hk⟩ := ih (fun m' hm' => hm m' (List.mem_cons_of_mem _ hm')) hes hc'
      obtain ⟨s', hs', s'', hs''⟩ := hk.received
      have hsum : ∀ l, streamLength (m :: l) = (frame m).length + streamLength l := fun l => by
        rw [length_frame]
        rfl
      have hw := hk.whole
      refine ⟨k + 1, Nat.succ_le_succ hk.le_length, ?_, fun hlt' => ?_, s', ?_, s'', ?_⟩
      · rw [List.take_succ_cons, hsum]
        omega
      · have := hk.maximal (Nat.lt_of_succ_lt_succ hlt')
        rw [List.take_succ_cons, hsum]
        omega
      · rw [List.take_append, List.take_of_length_le hle, receiveMany, bind_run_ok hr,
          bind_run_ok hs', List.take_succ_cons]
        rfl
      · have hiff : (streamLength (m :: msgs.take k) = cut) ↔
            (streamLength (msgs.take k) = cut - (frame m).length) := by
          rw [hsum]
          omega
        rw [hs'', List.take_succ_cons]
        simp only [hiff]

/-- **Framing survives every splitting and every cut.** Whatever `write` and `read` do short of
failing, the peer of a stream that ends after `cut` bytes receives exactly the messages that were
delivered in whole, and then `PeerClosedError` on a message boundary and another error inside a
message. -/
theorem receive_of_cut_stream (msgs : List Bytes) (hm : ∀ m ∈ msgs, m.length < 2 ^ 64)
    (wevents revents : List IoEvent) (hw : NoErrors wevents) (hr : NoErrors revents) (cut : ℕ)
    (hc : cut ≤ streamLength msgs) :
    ∃ wevents' wire, sendAll msgs ⟨wevents, []⟩ = .ok () ⟨wevents', wire⟩ ∧
      wire.length = streamLength msgs ∧ ∃ k, Received msgs cut ⟨revents, wire.take cut⟩ k := by
  obtain ⟨es, hs⟩ := sendAll_run msgs hw []
  exact ⟨es, _, hs, length_flatMap_frame msgs, received_of_cut msgs hm hr hc⟩

/-- Two messages, the second one empty, cut inside the second header. -/
theorem receive_of_cut_stream_two :
    ∃ wevents' wire, sendAll [[7, 9], []] ⟨[.transfer 2, .eintr], []⟩ = .ok () ⟨wevents', wire⟩ ∧
      wire.length = streamLength [[7, 9], []] ∧
      ∃ k, Received [[7, 9], []] 13 ⟨[.eintr, .transfer 0, .transfer 3], wire.take 13⟩ k :=
  receive_of_cut_stream [[7, 9], []] (by decide) _ _ (by simp [NoErrors]) (by simp [NoErrors]) 13
    (by decide)

end AetherMoE
