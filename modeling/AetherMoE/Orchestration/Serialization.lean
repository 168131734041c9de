import AetherMoE.Lib.Bytes

/-!
# Routed tokens and their wire format

The data types of `routed_token.hpp`, the exceptions of the orchestration layer, and the
hand-written binary format of `serialization.hpp`. Integers are packed in the byte order of the
host; the hosts the project targets are little-endian. A `float` is its 32-bit pattern: the
format copies patterns, so NaNs and signed zeros travel unchanged. A host has memory for what a
message holds; beyond that it reserves room for no more than `reservable` records at a time.

* `putU32`, `putU64`, `putFloats` and `getU32`, `getU64`, `getFloats`: the two sides of a field;
* `encodeTokenBatch`, `decodeTokenBatch`, `encodeResultBatch`, `decodeResultBatch`, with `reserve`
  for the memory that a decoder asks for before it reads a record;
* **`decodeTokenBatch_encode`**, **`decodeResultBatch_encode`**: decoding undoes encoding while
  the counts fit in 32 bits;
* **`wire_round_trip`**: both formats, with the fields that a result loses written out.
-/

namespace AetherMoE

open ByteCodec

/-! ## Data -/

/-- A token on its way to a shard. -/
structure RoutedToken where
  tokenId : UInt64
  batchPosition : UInt32
  primaryExpert : UInt32
  secondaryExpert : UInt32
  payload : List UInt32
  deriving Repr, DecidableEq

/-- A processed token on its way back; the last three fields are never sent over the wire. -/
structure RoutedResult where
  tokenId : UInt64 := 0
  batchPosition : UInt32 := 0
  processedByShard : UInt32 := 0
  payload : List UInt32 := []
  effectiveExpert : UInt32 := 0
  failed : Bool := false
  failureReason : String := ""
  deriving Repr, DecidableEq, Inhabited

/-- What the orchestration layer and its transports throw. `foreign` is any object that is not a
`std::exception`; `overread` stands for a read past the end of a message, which is undefined. -/
inductive Exn
  | peerClosed
  | peerClosedMidMessage
  | sendFailed (errno : String)
  | receiveFailed (errno : String)
  | truncated
  | badAlloc
  | overread
  | noShardMapping (expert : UInt32)
  | noTransport (shard : UInt32)
  | positionOutOfRange (position : UInt32) (size : ℕ)
  | duplicateResult (position : UInt32)
  | missingResult (position : ℕ)
  | other (what : String)
  | foreign
  deriving Repr, DecidableEq

/-- The text of `e.what()`, for what derives from `std::exception`. -/
def Exn.what? : Exn → Option String
  | peerClosed => some "transport peer closed the connection"
  | peerClosedMidMessage => some
      "UnixSocketTransport::receive: peer closed mid-message (framing bug, not a clean close)"
  | sendFailed e => some ("UnixSocketTransport::send failed: " ++ e)
  | receiveFailed e => some ("UnixSocketTransport::receive failed: " ++ e)
  | truncated => some "serialization: truncated message (framing bug)"
  | badAlloc => some "std::bad_alloc"
  | noShardMapping e => some ("Router: no shard mapping for expert " ++ toString e.toNat)
  | noTransport s => some ("Router: no transport registered for shard " ++ toString s.toNat)
  | positionOutOfRange p n => some ("Router: result batch_position " ++ toString p.toNat ++
      " out of range for batch of size " ++ toString n)
  | duplicateResult p => some ("Router: duplicate result for batch_position " ++
      toString p.toNat ++ " (dropped/duplicated token bug)")
  | missingResult p => some ("Router: missing result for batch_position " ++ toString p ++
      " (dropped token bug)")
  | other w => some w
  | foreign | overread => none

/-! ## Writing -/

/-- `put_u32`. -/
def putU32 (buf : Bytes) (v : UInt32) : Bytes := buf ++ leBytes 4 v.toNat

/-- `put_u64`. -/
def putU64 (buf : Bytes) (v : UInt64) : Bytes := buf ++ leBytes 8 v.toNat

/-- `put_floats`: the count, cast to 32 bits, and then every pattern. -/
def putFloats (buf : Bytes) (v : List UInt32) : Bytes :=
  v.foldl putU32 (putU32 buf (UInt32.ofNat v.length))

/-- The body of the loop of `encode_token_batch`. -/
def putToken (buf : Bytes) (t : RoutedToken) : Bytes :=
  let buf := putU64 buf t.tokenId
  let buf := putU32 buf t.batchPosition
  let buf := putU32 buf t.primaryExpert
  let buf := putU32 buf t.secondaryExpert
  putFloats buf t.payload

/-- `encode_token_batch`. -/
def encodeTokenBatch (tokens : List RoutedToken) : Bytes :=
  tokens.foldl putToken (putU32 [] (UInt32.ofNat tokens.length))

/-- The body of the loop of `encode_result_batch`. -/
def putResult (buf : Bytes) (r : RoutedResult) : Bytes :=
  let buf := putU64 buf r.tokenId
  let buf := putU32 buf r.batchPosition
  let buf := putU32 buf r.processedByShard
  putFloats buf r.payload

/-- `encode_result_batch`. -/
def encodeResultBatch (results : List RoutedResult) : Bytes :=
  results.foldl putResult (putU32 [] (UInt32.ofNat results.length))

/-! ## Reading -/

/-- `Reader::need`: raise the truncation error unless `n` bytes are left. -/
def need (n : ℕ) : Reader Exn Unit := do
  let bs ← get
  if bs.length < n then throw .truncated

/-- Consume `n` bytes, of which there have to be as many. -/
def takeBytes (n : ℕ) : Reader Exn Bytes := do
  let bs ← get
  if bs.length < n then throw .overread
  set (bs.drop n)
  return bs.take n

/-- `Reader::get_u32`. -/
def getU32 : Reader Exn UInt32 := do
  need 4
  return UInt32.ofNat (ofLE (← takeBytes 4))

/-- `Reader::get_u64`. -/
def getU64 : Reader Exn UInt64 := do
  need 8
  return UInt64.ofNat (ofLE (← takeBytes 8))

/-- `Reader::get_floats`. -/
def getFloats : Reader Exn (List UInt32) := do
  let n ← getU32
  need (n.toNat * 4)
  readMany getU32 n.toNat

/-- `out.reserve(count)`, before any of the `count` records is read; a record takes up at least
`size` bytes. -/
def reserve (reservable size : ℕ) (count : UInt32) : Reader Exn Unit := do
  let bs ← get
  if reservable < count.toNat ∧ bs.length < count.toNat * size then throw .badAlloc

/-- The bytes of a token without payload. -/
def tokenBytes : ℕ := 24

/-- The bytes of a result without payload. -/
def resultBytes : ℕ := 20

/-- The body of the loop of `decode_token_batch`. -/
def getToken : Reader Exn RoutedToken := do
  let tokenId ← getU64
  let batchPosition ← getU32
  let primaryExpert ← getU32
  let secondaryExpert ← getU32
  let payload ← getFloats
  return { tokenId, batchPosition, primaryExpert, secondaryExpert, payload }

/-- The reads of `decode_token_batch`. -/
def getTokenBatch (reservable : ℕ) : Reader Exn (List RoutedToken) := do
  let count ← getU32
  reserve reservable tokenBytes count
  readMany getToken count.toNat

/-- `decode_token_batch`: bytes after the last record are not looked at. -/
def decodeTokenBatch (reservable : ℕ) (bytes : Bytes) : Except Exn (List RoutedToken) :=
  (getTokenBatch reservable).run' bytes

/-- The body of the loop of `decode_result_batch`; the router-only fields keep their defaults. -/
def getResult : Reader Exn RoutedResult := do
  let tokenId ← getU64
  let batchPosition ← getU32
  let processedByShard ← getU32
  let payload ← getFloats
  return { tokenId, batchPosition, processedByShard, payload }

/-- The reads of `decode_result_batch`. -/
def getResultBatch (reservable : ℕ) : Reader Exn (List RoutedResult) := do
  let count ← getU32
  reserve reservable resultBytes count
  readMany getResult count.toNat

/-- `decode_result_batch`. -/
def decodeResultBatch (reservable : ℕ) (bytes : Bytes) : Except Exn (List RoutedResult) :=
  (getResultBatch reservable).run' bytes

/-! ## Round trips -/

theorem putFloats_append (buf : Bytes) (v : List UInt32) :
    putFloats buf v = buf ++ putFloats [] v := by
  have h : ∀ (buf : Bytes) (x : UInt32), putU32 buf x = buf ++ putU32 [] x := fun _ _ => rfl
  rw [putFloats, putFloats, foldl_put h, foldl_put h, putU32, putU32, List.nil_append,
    List.append_assoc]

theorem putToken_append (buf : Bytes) (t : RoutedToken) :
    putToken buf t = buf ++ putToken [] t := by
  simp only [putToken, putU64, putU32]
  rw [putFloats_append, putFloats_append (_ ++ _)]
  simp only [List.nil_append, List.append_assoc]

theorem putResult_append (buf : Bytes) (r : RoutedResult) :
    putResult buf r = buf ++ putResult [] r := by
  simp only [putResult, putU64, putU32]
  rw [putFloats_append, putFloats_append (_ ++ _)]
  simp only [List.nil_append, List.append_assoc]

theorem need_run (n : ℕ) (bs : Bytes) (h : n ≤ bs.length) : (need n).run bs = .ok ((), bs) := by
  simp only [need, StateT.run_bind, StateT.run_get, pure_bind, if_neg (Nat.not_lt.mpr h)]
  rfl

/-- A reservation that is granted. -/
theorem reserve_run {reservable size : ℕ} {count : UInt32} {bs : Bytes}
    (h : count.toNat ≤ reservable ∨ count.toNat * size ≤ bs.length) :
    (reserve reservable size count).run bs = .ok ((), bs) := by
  have hno : ¬ (reservable < count.toNat ∧ bs.length < count.toNat * size) := by omega
  simp only [reserve, StateT.run_bind, StateT.run_get, pure_bind, if_neg hno]
  rfl

theorem takeBytes_run (n : ℕ) (bs : Bytes) (h : n ≤ bs.length) :
    (takeBytes n).run bs = .ok (bs.take n, bs.drop n) := by
  simp only [takeBytes, StateT.run_bind, StateT.run_get, pure_bind, if_neg (Nat.not_lt.mpr h)]
  rfl

/-- A word of `k` bytes is found again at the front of any string. -/
theorem need_takeBytes_run (k n : ℕ) (h : n < 256 ^ k) (rest : Bytes) {α : Type} (f : ℕ → α) :
    (do need k; return f (ofLE (← takeBytes k)) : Reader Exn α).run (leBytes k n ++ rest) =
      .ok (f n, rest) := by
  have hl : k ≤ (leBytes k n ++ rest).length := by
    rw [List.length_append, length_leBytes]
    omega
  have ht : (leBytes k n ++ rest).take k = leBytes k n :=
    List.take_left' (length_leBytes k n)
  have hd : (leBytes k n ++ rest).drop k = rest := List.drop_left' (length_leBytes k n)
  rw [run_bind_ok (need_run k _ hl), run_bind_ok (takeBytes_run k _ hl), ht, hd, ofLE_leBytes h]
  rfl

theorem getU32_run (v : UInt32) (rest : Bytes) :
    getU32.run (leBytes 4 v.toNat ++ rest) = .ok (v, rest) := by
  rw [getU32, need_takeBytes_run 4 v.toNat v.toNat_lt rest UInt32.ofNat, UInt32.ofNat_toNat]

theorem getU64_run (v : UInt64) (rest : Bytes) :
    getU64.run (leBytes 8 v.toNat ++ rest) = .ok (v, rest) := by
  rw [getU64, need_takeBytes_run 8 v.toNat v.toNat_lt rest UInt64.ofNat, UInt64.ofNat_toNat]

theorem length_flatMap_putU32 (v : List UInt32) :
    (v.flatMap (putU32 [])).length = v.length * 4 := by
  induction v with
  | nil => rfl
  | cons x v ih =>
    rw [List.flatMap_cons, List.length_append, ih, putU32, List.nil_append, length_leBytes,
      List.length_cons]
    omega

theorem toNat_ofNat_length {α : Type} (l : List α) (h : l.length < 2 ^ 32) :
    (UInt32.ofNat l.length).toNat = l.length := by
  rw [UInt32.toNat_ofNat', Nat.mod_eq_of_lt h]

theorem getFloats_run (v : List UInt32) (h : v.length < 2 ^ 32) (rest : Bytes) :
    getFloats.run (putFloats [] v ++ rest) = .ok (v, rest) := by
  have hw : putFloats [] v ++ rest = leBytes 4 (UInt32.ofNat v.length).toNat ++
      (v.flatMap (putU32 []) ++ rest) := by
    rw [putFloats, foldl_put fun _ _ => rfl, putU32, List.nil_append, List.append_assoc]
  have hn : (UInt32.ofNat v.length).toNat * 4 ≤ (v.flatMap (putU32 []) ++ rest).length := by
    rw [toNat_ofNat_length v h, List.length_append, length_flatMap_putU32]
    omega
  rw [getFloats, hw, run_bind_ok (getU32_run _ _), run_bind_ok (need_run _ _ hn),
    toNat_ofNat_length v h]
  have hx : ∀ x ∈ v, ReadsAs (putU32 []) getU32 x (id x) := fun x _ rest => getU32_run x rest
  simpa using readMany_run v hx rest

theorem getToken_run (t : RoutedToken) (h : t.payload.length < 2 ^ 32) :
    ReadsAs (putToken []) getToken t t := by
  intro rest
  simp only [putToken, putU64, putU32, List.nil_append]
  rw [putFloats_append]
  simp only [List.append_assoc]
  rw [getToken, run_bind_ok (getU64_run _ _), run_bind_ok (getU32_run _ _),
    run_bind_ok (getU32_run _ _), run_bind_ok (getU32_run _ _), run_bind_ok (getFloats_run _ h _)]
  rfl

/-- What is left of a result after a trip over the wire. -/
def RoutedResult.onWire (r : RoutedResult) : RoutedResult :=
  { r with effectiveExpert := 0, failed := false, failureReason := "" }

theorem getResult_run (r : RoutedResult) (h : r.payload.length < 2 ^ 32) :
    ReadsAs (putResult []) getResult r r.onWire := by
  intro rest
  simp only [putResult, putU64, putU32, List.nil_append]
  rw [putFloats_append]
  simp only [List.append_assoc]
  rw [getResult, run_bind_ok (getU64_run _ _), run_bind_ok (getU32_run _ _),
    run_bind_ok (getU32_run _ _), run_bind_ok (getFloats_run _ h _)]
  rfl

/-- Records of at least `size` bytes. -/
theorem mul_le_length_flatMap {α : Type} {put : α → Bytes} {size : ℕ}
    (h : ∀ a, size ≤ (put a).length) (as : List α) :
    as.length * size ≤ (as.flatMap put).length := by
  induction as with
  | nil => simp
  | cons a as ih =>
    have ha := h a
    rw [List.flatMap_cons, List.length_append, List.length_cons, Nat.succ_mul]
    omega

/-- A counted batch of records is read back record by record: the records are there, so the
reservation is granted. -/
theorem readBatch_run {α β : Type} {put : Bytes → α → Bytes} {get : Reader Exn β} {g : α → β}
    (hput : ∀ buf a, put buf a = buf ++ put [] a) {size : ℕ} (hsize : ∀ a, size ≤ (put [] a).length)
    (reservable : ℕ) (as : List α) (hn : as.length < 2 ^ 32)
    (h : ∀ a ∈ as, ReadsAs (put []) get a (g a)) (rest : Bytes) :
    (do
      let count ← getU32
      reserve reservable size count
      readMany get count.toNat : Reader Exn (List β)).run
      (as.foldl put (putU32 [] (UInt32.ofNat as.length)) ++ rest) = .ok (as.map g, rest) := by
  have hthere : (UInt32.ofNat as.length).toNat * size ≤ (as.flatMap (put []) ++ rest).length := by
    rw [toNat_ofNat_length as hn, List.length_append]
    exact (mul_le_length_flatMap hsize as).trans (Nat.le_add_right _ _)
  rw [foldl_put hput, putU32, List.nil_append, List.append_assoc, run_bind_ok (getU32_run _ _),
    run_bind_ok (reserve_run (.inr hthere)), toNat_ofNat_length as hn, readMany_run as h rest]

theorem four_le_length_putFloats (v : List UInt32) : 4 ≤ (putFloats [] v).length := by
  rw [putFloats, foldl_put fun _ _ => rfl, List.length_append, putU32, List.nil_append,
    length_leBytes]
  exact Nat.le_add_right _ _

theorem tokenBytes_le (t : RoutedToken) : tokenBytes ≤ (putToken [] t).length := by
  have hpayload := four_le_length_putFloats t.payload
  simp only [putToken, putU64, putU32, List.nil_append]
  rw [putFloats_append]
  simp only [List.length_append, length_leBytes, tokenBytes]
  omega

theorem resultBytes_le (r : RoutedResult) : resultBytes ≤ (putResult [] r).length := by
  have hpayload := four_le_length_putFloats r.payload
  simp only [putResult, putU64, putU32, List.nil_append]
  rw [putFloats_append]
  simp only [List.length_append, length_leBytes, resultBytes]
  omega

theorem getTokenBatch_run (reservable : ℕ) (ts : List RoutedToken) (hn : ts.length < 2 ^ 32)
    (hp : ∀ t ∈ ts, t.payload.length < 2 ^ 32) :
    ReadsAs encodeTokenBatch (getTokenBatch reservable) ts ts := by
  intro rest
  have h := readBatch_run (g := id) putToken_append tokenBytes_le reservable ts hn
    (fun t ht => getToken_run t (hp t ht)) rest
  rwa [List.map_id] at h

theorem getResultBatch_run (reservable : ℕ) (rs : List RoutedResult) (hn : rs.length < 2 ^ 32)
    (hp : ∀ r ∈ rs, r.payload.length < 2 ^ 32) :
    ReadsAs encodeResultBatch (getResultBatch reservable) rs (rs.map RoutedResult.onWire) :=
  fun rest => readBatch_run putResult_append resultBytes_le reservable rs hn
    (fun r hr => getResult_run r (hp r hr)) rest

/-- **Decoding undoes encoding** for token batches. -/
theorem decodeTokenBatch_encode (reservable : ℕ) (ts : List RoutedToken) (hn : ts.length < 2 ^ 32)
    (hp : ∀ t ∈ ts, t.payload.length < 2 ^ 32) :
    decodeTokenBatch reservable (encodeTokenBatch ts) = .ok ts := by
  have h := getTokenBatch_run reservable ts hn hp []
  rw [List.append_nil] at h
  rw [decodeTokenBatch, StateT.run'_eq, h]
  rfl

/-- **Decoding undoes encoding** for result batches, up to the fields that are not sent. -/
theorem decodeResultBatch_encode (reservable : ℕ) (rs : List RoutedResult)
    (hn : rs.length < 2 ^ 32) (hp : ∀ r ∈ rs, r.payload.length < 2 ^ 32) :
    decodeResultBatch reservable (encodeResultBatch rs) = .ok (rs.map RoutedResult.onWire) := by
  have h := getResultBatch_run reservable rs hn hp []
  rw [List.append_nil] at h
  rw [decodeResultBatch, StateT.run'_eq, h]
  rfl

/-- **The wire round trip**: token batches come back as they were, result batches with the three
fields of the router at their defaults. -/
theorem wire_round_trip (reservable : ℕ) (ts : List RoutedToken) (rs : List RoutedResult)
    (hts : ts.length < 2 ^ 32 ∧ ∀ t ∈ ts, t.payload.length < 2 ^ 32)
    (hrs : rs.length < 2 ^ 32 ∧ ∀ r ∈ rs, r.payload.length < 2 ^ 32) :
    decodeTokenBatch reservable (encodeTokenBatch ts) = .ok ts ∧
    decodeResultBatch reservable (encodeResultBatch rs) = .ok (rs.map fun r =>
      { r with effectiveExpert := 0, failed := false, failureReason := "" }) := by
  constructor
  · exact decodeTokenBatch_encode reservable ts hts.1 hts.2
  · exact decodeResultBatch_encode reservable rs hrs.1 hrs.2

/-- A signalling NaN and a negative zero in the payloads, and a result that had failed. -/
theorem wire_round_trip_nan :
    decodeTokenBatch 0 (encodeTokenBatch
      [⟨7, 1, 2, 3, [0x7fa00001, 0x80000000]⟩, ⟨8, 0, 0, 0, []⟩]) =
      .ok [⟨7, 1, 2, 3, [0x7fa00001, 0x80000000]⟩, ⟨8, 0, 0, 0, []⟩] ∧
    decodeResultBatch 0 (encodeResultBatch [⟨7, 1, 2, [0x7fa00001], 5, true, "down"⟩]) =
      .ok [⟨7, 1, 2, [0x7fa00001], 0, false, ""⟩] :=
  wire_round_trip 0 _ [_] (by decide) (by decide)

end AetherMoE
