import AetherMoE.Orchestration.Batch
import AetherMoE.Orchestration.Decoding

/-!
# The worker side

One turn of the loop of `run_worker_loop`: decode a batch, negate every payload, encode the results.

* `processTokenPlaceholder`, `serveBatch`;
* **`serveBatch_encode`**, **`decodeResultBatch_processed`**: a batch within the limits of the
  wire format is answered, and the answer is read back as the processed tokens;
* `serveBatch_of_serveBatch`: an answer does not depend on what the host can reserve.
-/

namespace AetherMoE

open ByteCodec Router

/-- `-v` on a 32-bit float flips the sign bit. -/
def negate (v : UInt32) : UInt32 := v ^^^ 0x80000000

/-- It flips the sign bit and nothing else. -/
theorem getLsbD_negate (v : UInt32) (i : ℕ) :
    (negate v).toBitVec.getLsbD i = (v.toBitVec.getLsbD i ^^ decide (i = 31)) := by
  have hmask : (0x80000000 : UInt32).toBitVec.getLsbD i = decide (i = 31) := by
    by_cases hi : i < 32
    · have hbits : ∀ j < 32, (0x80000000 : UInt32).toBitVec.getLsbD j = decide (j = 31) := by decide
      exact hbits i hi
    · rw [BitVec.getLsbD_of_ge _ i (Nat.not_lt.1 hi)]
      exact (decide_eq_false (by omega)).symm
  rw [negate, UInt32.toBitVec_xor, BitVec.getLsbD_xor, hmask]

/-- `process_token_placeholder`. -/
def processTokenPlaceholder (t : RoutedToken) (shardId : UInt32) : RoutedResult :=
  { tokenId := t.tokenId, batchPosition := t.batchPosition, processedByShard := shardId
    payload := t.payload.map negate }

/-- One turn of `run_worker_loop`, from a received message to the one sent back. A message that
does not decode raises an exception that leaves the loop. -/
def serveBatch (reservable : ℕ) (shardId : UInt32) (raw : Bytes) : Except Exn Bytes := do
  let tokens ← decodeTokenBatch reservable raw
  return encodeResultBatch (tokens.map fun t => processTokenPlaceholder t shardId)

/-- The processed tokens. -/
def processed (shardId : UInt32) (group : List RoutedToken) : List RoutedResult :=
  group.map fun t => processTokenPlaceholder t shardId

/-- **A batch within the limits is answered.** -/
theorem serveBatch_encode {group : List RoutedToken} (h : Sized group) (reservable : ℕ)
    (shardId : UInt32) : serveBatch reservable shardId (encodeTokenBatch group) =
      .ok (encodeResultBatch (processed shardId group)) := by
  rw [serveBatch, decodeTokenBatch_encode reservable group h.tokens_lt h.payload_lt]
  rfl

/-- What the host can reserve makes a difference only to the exception at a message that is not
answered. -/
theorem serveBatch_of_serveBatch {reservable : ℕ} {shardId : UInt32} {raw reply : Bytes}
    (h : serveBatch reservable shardId raw = .ok reply) (reservable' : ℕ) :
    serveBatch reservable' shardId raw = .ok reply := by
  rw [serveBatch] at h ⊢
  cases hdec : decodeTokenBatch reservable raw with
  | error e =>
    rw [hdec] at h
    cases h
  | ok tokens =>
    rw [hdec] at h
    rw [(selfDelimiting_tokenBatch reservable).ok_of_ok (selfDelimiting_tokenBatch reservable')
      hdec]
    exact h

/-- **The answer is read back whole.** -/
theorem decodeResultBatch_processed {group : List RoutedToken} (h : Sized group)
    (reservable : ℕ) (shardId : UInt32) :
    decodeResultBatch reservable (encodeResultBatch (processed shardId group)) =
      .ok (processed shardId group) := by
  have hp : ∀ result ∈ processed shardId group, result.payload.length < 2 ^ 32 := by
    intro result hr
    obtain ⟨t, ht, rfl⟩ := List.mem_map.1 hr
    rw [processTokenPlaceholder, List.length_map]
    exact h.payload_lt t ht
  rw [decodeResultBatch_encode _ _ (by rw [processed, List.length_map]; exact h.tokens_lt) hp,
    processed, List.map_map]
  rfl

end AetherMoE
