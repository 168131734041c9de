import AetherMoE.Lib.Effect
import AetherMoE.Lib.Grouping
import AetherMoE.Orchestration.Serialization
import Mathlib.Data.Finset.Insert
import Mathlib.Data.List.Sort

/-!
# The router

`Router` of `router.hpp`, over any implementation of `ICollectiveTransport`. What the language and
the standard library leave open (the iteration order of an `unordered_map`, the order `std::sort`
gives to equal elements, the value of a field that nothing initialises) is a parameter of each
call. A call that would block forever, or index a vector out of range, does not return.

* `Choices`, `Net`, `Router`;
* `assignEffectiveExperts`, `shardForExpert`, `transportForShard`, `reassemble`;
* `routeBatch`: scatter to every shard, then gather from every shard, any exception escapes;
* `routeBatchTolerant`: one exchange after the other, a failed one becomes failed results.
-/

namespace AetherMoE

open ByteCodec Effect Grouping

/-- What is left open in one call. `leftover` is the value that `processed_by_shard`, which the
router does not set in a failed result, has in the failed result for a position. -/
structure Choices where
  expertOrder : List UInt32 → List UInt32
  shardOrder : List UInt32 → List UInt32
  sort : (ℕ → UInt32) → List ℕ → List ℕ
  leftover : UInt32 → UInt32
  expertOrder_perm : ∀ l, (expertOrder l).Perm l
  shardOrder_perm : ∀ l, (shardOrder l).Perm l
  sort_perm : ∀ key l, (sort key l).Perm l
  sort_sorted : ∀ key l, (sort key l).Pairwise fun a b => key a ≤ key b

/-- Maps that iterate in the order of their keys' last insertion, and an insertion sort. -/
def Choices.inOrder : Choices where
  expertOrder l := l
  shardOrder l := l
  sort key l := l.insertionSort fun a b => key a ≤ key b
  leftover _ := 0
  expertOrder_perm l := .refl l
  shardOrder_perm l := .refl l
  sort_perm key l := l.perm_insertionSort fun a b => key a ≤ key b
  sort_sorted key l :=
    haveI : Std.Total fun a b => key a ≤ key b := ⟨fun a b => UInt32.le_total (key a) (key b)⟩
    haveI : IsTrans ℕ fun a b => key a ≤ key b := ⟨fun _ _ _ => UInt32.le_trans⟩
    List.pairwise_insertionSort (fun a b => key a ≤ key b) l

/-- The same choices, but for the values of the fields that are not set. -/
def Choices.leaving (c : Choices) (leftover : UInt32 → UInt32) : Choices := { c with leftover }

/-- `ICollectiveTransport`, one for each shard, over a network with state `σ`. -/
structure Net (σ : Type) where
  send : UInt32 → Bytes → Comp Exn σ Unit
  receive : UInt32 → Comp Exn σ Bytes

/-- `Router` with its `RouterConfig`; `shard_transports_` counts only through the shards it has an
entry for. `reservable` belongs to the host: what a decoder can reserve on it. -/
structure Router where
  expertToShard : UInt32 → Option UInt32
  hasTransport : UInt32 → Bool
  expertCapacity : ℕ := 2 ^ 64 - 1
  unhealthyShards : Finset UInt32 := ∅
  reservable : ℕ := 2 ^ 32

/-- The position-indexed output of a call: `none` where `filled` is still false. -/
abbrev Board := List (Option RoutedResult)

namespace Router

variable {σ : Type}

/-! ## The capacity ceiling -/

/-- The sort key of an index. -/
def positionOf (tokens : List RoutedToken) (i : ℕ) : UInt32 :=
  (tokens[i]?.map RoutedToken.batchPosition).getD 0

/-- The assignment loop over one primary expert's sorted indices. -/
def assignRanked (r : Router) (tokens : List RoutedToken) (effective : List UInt32)
    (indices : List ℕ) : List UInt32 :=
  indices.zipIdx.foldl (fun effective p =>
    match tokens[p.1]? with
    | some t => effective.set p.1
        (if p.2 < r.expertCapacity then t.primaryExpert else t.secondaryExpert)
    | none => effective) effective

/-- The indices of the tokens with primary expert `expert`, sorted by batch position. -/
def sortedIndices (c : Choices) (tokens : List RoutedToken) (expert : UInt32) : List ℕ :=
  c.sort (positionOf tokens) (indicesOf (tokens.map RoutedToken.primaryExpert) expert)

/-- `assign_effective_experts`. -/
def assignEffectiveExperts (r : Router) (c : Choices) (tokens : List RoutedToken) : List UInt32 :=
  (c.expertOrder (tokens.map RoutedToken.primaryExpert).dedup).foldl
    (fun effective expert => r.assignRanked tokens effective (sortedIndices c tokens expert))
    (List.replicate tokens.length 0)

/-- `shard_for_expert`. -/
def shardForExpert (r : Router) (expertId : UInt32) : Except Exn UInt32 :=
  match r.expertToShard expertId with
  | some shard => .ok shard
  | none => .error (.noShardMapping expertId)

/-- The shards of the tokens; the first unmapped expert raises the error. -/
def shardsOf (r : Router) (effective : List UInt32) : Except Exn (List UInt32) :=
  effective.mapM r.shardForExpert

/-- `transport_for_shard`. -/
def transportForShard (r : Router) (shardId : UInt32) : Except Exn Unit :=
  if r.hasTransport shardId then .ok () else .error (.noTransport shardId)

/-- The tokens of one shard, in batch order. -/
def groupFor (tokens : List RoutedToken) (shards : List UInt32) (shard : UInt32) :
    List RoutedToken :=
  (indicesOf shards shard).filterMap fun i => tokens[i]?

/-! ## The strict path -/

/-- The scatter loop of `route_batch`. -/
def sendAll (net : Net σ) (r : Router) (tokens : List RoutedToken) (shards : List UInt32) :
    List UInt32 → Comp Exn σ Unit
  | [] => pure ()
  | shard :: order => do
    r.transportForShard shard
    net.send shard (encodeTokenBatch (groupFor tokens shards shard))
    sendAll net r tokens shards order

/-- The gather loop of `route_batch`. -/
def receiveAll (net : Net σ) (r : Router) :
    List UInt32 → List RoutedResult → Comp Exn σ (List RoutedResult)
  | [], flat => pure flat
  | shard :: order, flat => do
    r.transportForShard shard
    let raw ← net.receive shard
    let results ← decodeResultBatch r.reservable raw
    receiveAll net r order (flat ++ results)

/-- One result put in its place by `reassemble`. -/
def place (size : ℕ) (board : Board) (result : RoutedResult) : Except Exn Board :=
  match board[result.batchPosition.toNat]? with
  | none => .error (.positionOutOfRange result.batchPosition size)
  | some (some _) => .error (.duplicateResult result.batchPosition)
  | some none => .ok (board.set result.batchPosition.toNat (some result))

/-- The final check of `reassemble`. -/
def collect (board : Board) : Except Exn (List RoutedResult) :=
  board.zipIdx.mapM fun p =>
    match p.1 with
    | some result => .ok result
    | none => .error (.missingResult p.2)

/-- `reassemble`. -/
def reassemble (originalBatchSize : ℕ) (flat : List RoutedResult) :
    Except Exn (List RoutedResult) := do
  let board ← flat.foldlM (place originalBatchSize) (List.replicate originalBatchSize none)
  collect board

/-- `route_batch`. -/
def routeBatch (net : Net σ) (r : Router) (c : Choices) (tokens : List RoutedToken) :
    Comp Exn σ (List RoutedResult) := do
  let effective := r.assignEffectiveExperts c tokens
  let shards ← r.shardsOf effective
  let order := c.shardOrder shards.dedup
  sendAll net r tokens shards order
  let flat ← receiveAll net r order []
  let ordered ← reassemble tokens.length flat
  return List.zipWith (fun result expert => { result with effectiveExpert := expert }) ordered
    effective

/-! ## The tolerant path -/

/-- A write to `ordered` and `filled`; out of range is undefined. -/
def put (board : Board) (position : UInt32) (result : RoutedResult) : Option Board :=
  if position.toNat < board.length then some (board.set position.toNat (some result)) else none

/-- The result of a token whose shard did not answer; `processed_by_shard` is not set. -/
def failedResult (leftover : UInt32 → UInt32) (t : RoutedToken) (expert : UInt32)
    (reason : String) : RoutedResult :=
  { tokenId := t.tokenId, batchPosition := t.batchPosition
    processedByShard := leftover t.batchPosition, effectiveExpert := expert
    failed := true, failureReason := reason }

section FailurePaths

variable (leftover : UInt32 → UInt32)

/-- `fail_group`. -/
def failGroup (tokens : List RoutedToken) (effective : List UInt32) (reason : String)
    (indices : List ℕ) (board : Board) : Option Board :=
  indices.foldlM (fun board i => do
    let t ← tokens[i]?
    let expert ← effective[i]?
    put board t.batchPosition (failedResult leftover t expert reason)) board

/-- `pos_to_effective`: a later token with the same position overwrites an earlier one. -/
def posToEffective (tokens : List RoutedToken) (effective : List UInt32) (indices : List ℕ)
    (position : UInt32) : Option UInt32 :=
  indices.foldl (fun found i =>
    if tokens[i]?.map RoutedToken.batchPosition = some position then effective[i]? else found) none

/-- The loop over the results a shard returned. -/
def acceptResults (expertAt : UInt32 → Option UInt32) (results : List RoutedResult)
    (board : Board) : Board :=
  results.foldl (fun board result =>
    if board[result.batchPosition.toNat]? = some none then
      board.set result.batchPosition.toNat (some { result with
        effectiveExpert := (expertAt result.batchPosition).getD result.effectiveExpert })
    else board) board

/-- The loop over the tokens a shard was to answer. -/
def failMissing (tokens : List RoutedToken) (effective : List UInt32) (reason : String)
    (indices : List ℕ) (board : Board) : Option Board :=
  indices.foldlM (fun board i => do
    let t ← tokens[i]?
    let expert ← effective[i]?
    match board[t.batchPosition.toNat]? with
    | none => none
    | some (some _) => some board
    | some none => put board t.batchPosition (failedResult leftover t expert reason)) board

/-- How the exchange with a shard went. -/
inductive Verdict
  | unhealthy
  | threw (e : Exn)
  | replied (results : List RoutedResult)
  deriving Repr, DecidableEq

/-- The text of a failure. -/
def Verdict.reason (shard : UInt32) : Verdict → String
  | unhealthy => "shard " ++ toString shard.toNat ++
      " marked unhealthy from a previous failure in this Router's lifetime"
  | threw e => e.what?.getD ("unknown error communicating with shard " ++ toString shard.toNat)
  | replied _ => "missing result from shard " ++ toString shard.toNat

/-- What a verdict does to the output. -/
def Verdict.settle (tokens : List RoutedToken) (effective : List UInt32) (shard : UInt32)
    (indices : List ℕ) (v : Verdict) (board : Board) : Option Board :=
  match v with
  | .replied results => failMissing leftover tokens effective (v.reason shard) indices
      (acceptResults (posToEffective tokens effective indices) results board)
  | _ => failGroup leftover tokens effective (v.reason shard) indices board

end FailurePaths

/-- The body of the `try` block. -/
def exchange (net : Net σ) (r : Router) (shard : UInt32) (group : List RoutedToken) :
    Comp Exn σ (List RoutedResult) := do
  r.transportForShard shard
  net.send shard (encodeTokenBatch group)
  r.transportForShard shard
  let raw ← net.receive shard
  decodeResultBatch r.reservable raw

/-- The verdict on one shard. -/
def consult (net : Net σ) (r : Router) (unhealthy : Finset UInt32) (shard : UInt32)
    (group : List RoutedToken) : Comp Exn σ Verdict :=
  if shard ∈ unhealthy then pure .unhealthy
  else do
    match ← attempt (exchange net r shard group) with
    | .ok results => return .replied results
    | .error e => return .threw e

/-- The shards known to be unhealthy after a verdict. -/
def Verdict.mark (shard : UInt32) (unhealthy : Finset UInt32) : Verdict → Finset UInt32
  | threw _ => insert shard unhealthy
  | _ => unhealthy

/-- The per-shard loop of `route_batch_tolerant`. -/
def visitShards (net : Net σ) (r : Router) (leftover : UInt32 → UInt32) (tokens : List RoutedToken)
    (effective : List UInt32) (shards : List UInt32) :
    List UInt32 → Finset UInt32 → Board → Comp Exn σ (Finset UInt32 × Board)
  | [], unhealthy, board => pure (unhealthy, board)
  | shard :: order, unhealthy, board => do
    let v ← consult net r unhealthy shard (groupFor tokens shards shard)
    let board ← v.settle leftover tokens effective shard (indicesOf shards shard) board
    visitShards net r leftover tokens effective shards order (v.mark shard unhealthy) board

/-- `route_batch_tolerant`: the results, and the router with its unhealthy shards after. -/
def routeBatchTolerant (net : Net σ) (r : Router) (c : Choices) (tokens : List RoutedToken) :
    Comp Exn σ (List RoutedResult × Router) := do
  let effective := r.assignEffectiveExperts c tokens
  let shards ← r.shardsOf effective
  let (unhealthy, board) ← visitShards net r c.leftover tokens effective shards
    (c.shardOrder shards.dedup) r.unhealthyShards (List.replicate tokens.length none)
  return (board.map fun result => result.getD {}, { r with unhealthyShards := unhealthy })

end Router

end AetherMoE
