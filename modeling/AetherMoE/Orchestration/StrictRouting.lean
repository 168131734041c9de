import AetherMoE.Orchestration.Reassembly
import AetherMoE.Orchestration.TolerantRouting
import Mathlib.Data.Finset.Lattice.Lemmas

/-!
# The strict path over a cluster

`route_batch` sends to every shard before it receives from any, so that a failed operation leaves
the answers of other workers unread.

* `Op`, `strands`: the operations of a strict call on the network, and whether one of them fails
  while a live worker still owes an answer;
* `sendAll_spec`, `receiveAll_spec`, **`routeBatch_spec`**: from a settled cluster a strict call
  returns the processed tokens in order, or throws; it leaves the cluster settled exactly if it
  strands no answer.
-/

namespace AetherMoE

open ByteCodec Effect

namespace Router

variable {r : Router} {tokens : List RoutedToken} {w w' : Cluster} {q : Requests}
  {owed : Finset UInt32} {shard : UInt32}

/-- Send a shard its message. -/
def deliver (r : Router) (message : UInt32 → Bytes) (shard : UInt32) : Comp Exn Cluster Unit := do
  r.transportForShard shard
  clusterNet.send shard (message shard)

/-- Receive from a shard. -/
def fetch (r : Router) (shard : UInt32) : Comp Exn Cluster Bytes := do
  r.transportForShard shard
  clusterNet.receive shard

/-- An operation of the router on the network. -/
inductive Op
  | send (shard : UInt32)
  | receive (shard : UInt32)
  deriving Repr, DecidableEq

/-- What an operation does. -/
def Op.run (r : Router) (message : UInt32 → Bytes) : Op → Comp Exn Cluster Unit
  | .send shard => r.deliver message shard
  | .receive shard => do
    let _ ← r.fetch shard
    return ()

/-- The shards that owe an answer after an operation. -/
def Op.owing (owed : Finset UInt32) : Op → Finset UInt32
  | .send shard => insert shard owed
  | .receive shard => owed.erase shard

/-- One of the operations `ops` fails while a worker that was sent to, and not heard from since, is
alive. -/
def strands (r : Router) (message : UInt32 → Bytes) : List Op → Finset UInt32 → Cluster → Prop
  | [], _, _ => False
  | op :: ops, owed, w =>
    match exec (op.run r message) w with
    | none => False
    | some (.error _, w') => ∃ s ∈ owed, (w'.channel s).death = none
    | some (.ok _, w') => strands r message ops (op.owing owed) w'

/-- A strict call strands an answer. -/
def Strands (r : Router) (c : Choices) (tokens : List RoutedToken) (w : Cluster) : Prop :=
  r.strands (fun shard => encodeTokenBatch (r.groupOf tokens shard))
    ((r.visitOrder tokens c).map .send ++ (r.visitOrder tokens c).map .receive) ∅ w

/-! ## One operation -/

theorem deliver_spec (h : w.Pending q owed) (hs : shard ∉ owed) :
    (∃ w', exec (r.deliver q.message shard) w = some (.ok (), w') ∧
      w'.Pending q (insert shard owed) ∧ w.Went w' ∧ r.hasTransport shard) ∨
    ∃ e w', exec (r.deliver q.message shard) w = some (.error e, w') ∧
      w'.Pending q owed ∧ (w.Unharmed → ¬ r.hasTransport shard) := by
  by_cases ht : r.hasTransport shard
  · have htr : r.transportForShard shard = .ok () := if_pos ht
    rw [deliver, htr, exec_bind_ok (exec_liftExcept _ _)]
    obtain ⟨w', hsend, hp, hwent⟩ | ⟨e, w', hsend, hp, hthrew⟩ := Cluster.send_spec h hs
    · exact .inl ⟨w', hsend, hp, hwent, ht⟩
    · exact .inr ⟨e, w', hsend, hp, fun hu => absurd hu hthrew.harmed⟩
  · have htr : r.transportForShard shard = .error (.noTransport shard) := if_neg ht
    rw [deliver, htr]
    exact .inr ⟨_, w, exec_bind_error (exec_liftExcept _ _), h, fun _ => ht⟩

theorem fetch_spec (h : w.Pending q owed) (hs : shard ∈ owed) (ht : r.hasTransport shard) :
    (∃ w', exec (r.fetch shard) w = some (.ok (q.reply shard), w') ∧
      w'.Pending q (owed.erase shard) ∧ w.Went w') ∨
    ∃ e w', exec (r.fetch shard) w = some (.error e, w') ∧
      w'.Pending q (owed.erase shard) ∧ w.Threw shard e w' := by
  have htr : r.transportForShard shard = .ok () := if_pos ht
  rw [fetch, htr, exec_bind_ok (exec_liftExcept _ _)]
  exact Cluster.receive_spec h hs

theorem strands_of_ok {message : UInt32 → Bytes} {op : Op} {ops : List Op}
    (h : exec (op.run r message) w = some (.ok (), w')) :
    r.strands message (op :: ops) owed w ↔ r.strands message ops (op.owing owed) w' := by
  rw [strands, h]

theorem strands_of_error {message : UInt32 → Bytes} {op : Op} {ops : List Op} {e : Exn}
    (h : exec (op.run r message) w = some (.error e, w')) :
    r.strands message (op :: ops) owed w ↔ ∃ s ∈ owed, (w'.channel s).death = none := by
  rw [strands, h]

/-! ## The two loops -/

/-- The scatter loop. -/
theorem sendAll_spec (hsz : Sized tokens) {order : List UInt32} (ops : List Op)
    (h : w.Pending (r.requestsOf hsz) owed) (hnd : order.Nodup) (hnew : ∀ s ∈ order, s ∉ owed) :
    (∃ w', exec (sendAll clusterNet r tokens (tokens.map (r.shardOf tokens)) order) w =
        some (.ok (), w') ∧
      w'.Pending (r.requestsOf hsz) (owed ∪ order.toFinset) ∧ w.Went w' ∧
      (∀ s ∈ order, r.hasTransport s) ∧
      (r.strands (r.requestsOf hsz).message (order.map .send ++ ops) owed w ↔
        r.strands (r.requestsOf hsz).message ops (owed ∪ order.toFinset) w')) ∨
    ∃ e w', exec (sendAll clusterNet r tokens (tokens.map (r.shardOf tokens)) order) w =
        some (.error e, w') ∧
      (r.strands (r.requestsOf hsz).message (order.map .send ++ ops) owed w ↔ ¬ w'.Settled) ∧
      (w.Unharmed → ∃ s ∈ order, ¬ r.hasTransport s) := by
  induction order generalizing w owed with
  | nil =>
    refine .inl ⟨w, rfl, by simpa using h, ⟨rfl, fun _ hs => hs, id⟩, by simp, by simp⟩
  | cons shard order ih =>
    rw [List.nodup_cons] at hnd
    rw [List.forall_mem_cons] at hnew
    have hcons : sendAll clusterNet r tokens (tokens.map (r.shardOf tokens)) (shard :: order) =
        r.deliver (r.requestsOf hsz).message shard >>= fun _ =>
          sendAll clusterNet r tokens (tokens.map (r.shardOf tokens)) order := by
      rw [sendAll, groupFor_eq, deliver, bind_assoc]
      rfl
    have hrun : (Op.send shard).run r (r.requestsOf hsz).message =
        r.deliver (r.requestsOf hsz).message shard := rfl
    rw [hcons, List.map_cons, List.cons_append]
    obtain ⟨w₁, hdel, hp, hwent, ht⟩ | ⟨e, w₁, hdel, hp, hu⟩ := deliver_spec (r := r) h hnew.1
    · have hnew' : ∀ s ∈ order, s ∉ insert shard owed := by
        intro s hs
        rw [Finset.mem_insert, not_or]
        exact ⟨fun heq => hnd.1 (heq ▸ hs), hnew.2 s hs⟩
      have hunion : owed ∪ (shard :: order).toFinset = insert shard owed ∪ order.toFinset := by
        rw [List.toFinset_cons, Finset.union_insert, Finset.insert_union]
      rw [exec_bind_ok hdel, strands_of_ok (hrun ▸ hdel), hunion]
      obtain ⟨w₂, hexec, hp₂, hwent₂, ht₂, hst⟩ | ⟨e, w₂, hexec, hst, hu⟩ := ih hp hnd.2 hnew'
      · exact .inl ⟨w₂, hexec, hp₂, hwent.trans hwent₂, List.forall_mem_cons.2 ⟨ht, ht₂⟩, hst⟩
      · refine .inr ⟨e, w₂, hexec, hst, fun huw => ?_⟩
        obtain ⟨s, hs, hno⟩ := hu (hwent.unharmed huw)
        exact ⟨s, List.mem_cons_of_mem _ hs, hno⟩
    · rw [exec_bind_error hdel, strands_of_error (hrun ▸ hdel)]
      exact .inr ⟨e, w₁, rfl, hp.not_settled_iff.symm,
        fun huw => ⟨shard, List.mem_cons_self, hu huw⟩⟩

/-- The gather loop. -/
theorem receiveAll_spec (hsz : Sized tokens) {order : List UInt32} (flat : List RoutedResult)
    (h : w.Pending (r.requestsOf hsz) order.toFinset) (hnd : order.Nodup)
    (ht : ∀ s ∈ order, r.hasTransport s) :
    (∃ w', exec (receiveAll clusterNet r order flat) w =
        some (.ok (flat ++ order.flatMap fun s => processed s (r.groupOf tokens s)), w') ∧
      w'.Settled ∧ w.Went w' ∧
      ¬ r.strands (r.requestsOf hsz).message (order.map .receive) order.toFinset w) ∨
    ∃ e w', exec (receiveAll clusterNet r order flat) w = some (.error e, w') ∧
      (r.strands (r.requestsOf hsz).message (order.map .receive) order.toFinset w ↔ ¬ w'.Settled) ∧
      ¬ w.Unharmed := by
  induction order generalizing w flat with
  | nil =>
    refine .inl ⟨w, by simp [receiveAll], ?_, ⟨rfl, fun _ hs => hs, id⟩, by simp [strands]⟩
    exact Cluster.pending_empty.1 h
  | cons shard order ih =>
    rw [List.nodup_cons] at hnd
    rw [List.forall_mem_cons] at ht
    have hcons : receiveAll clusterNet r (shard :: order) flat = r.fetch shard >>= fun raw =>
        (do let results ← decodeResultBatch r.reservable raw
            receiveAll clusterNet r order (flat ++ results)) := by
      rw [receiveAll, fetch, bind_assoc]
    have herase : (shard :: order).toFinset.erase shard = order.toFinset := by
      rw [List.toFinset_cons, Finset.erase_insert (by simpa using hnd.1)]
    have hmem : shard ∈ (shard :: order).toFinset := by simp
    rw [hcons, List.map_cons]
    obtain ⟨w₁, hfetch, hp, hwent⟩ | ⟨e, w₁, hfetch, hp, hthrew⟩ := fetch_spec (r := r) h hmem ht.1
    · have hrun : exec ((Op.receive shard).run r (r.requestsOf hsz).message) w =
          some (.ok (), w₁) := by
        rw [Op.run, exec_bind_ok hfetch]
        rfl
      have hdecode : decodeResultBatch r.reservable ((r.requestsOf hsz).reply shard) =
          .ok (processed shard (r.groupOf tokens shard)) :=
        decodeResultBatch_processed (hsz.group shard) _ shard
      rw [herase] at hp
      rw [exec_bind_ok hfetch, hdecode, exec_bind_ok (exec_liftExcept _ _), strands_of_ok hrun,
        Op.owing, herase, List.flatMap_cons, ← List.append_assoc]
      obtain ⟨w₂, hexec, hw₂, hwent₂, hst⟩ | ⟨e, w₂, hexec, hst, hu⟩ :=
        ih (flat ++ processed shard (r.groupOf tokens shard)) hp hnd.2 ht.2
      · exact .inl ⟨w₂, hexec, hw₂, hwent.trans hwent₂, hst⟩
      · exact .inr ⟨e, w₂, hexec, hst, fun huw => hu (hwent.unharmed huw)⟩
    · have hrun : exec ((Op.receive shard).run r (r.requestsOf hsz).message) w =
          some (.error e, w₁) := by
        rw [Op.run, exec_bind_error hfetch]
      rw [exec_bind_error hfetch, strands_of_error hrun]
      -- the shard that failed is dead itself
      exact .inr ⟨e, w₁, rfl, (hp.not_settled_iff_of_dead (hthrew.dead shard (.inr rfl))).symm,
        hthrew.harmed⟩

/-! ## The call -/

/-- What a strict call returns: the processed tokens in the order of their positions, with the
effective expert of the token at the same index of the input. -/
def strictResults (r : Router) (tokens : List RoutedToken) (flat : List RoutedResult) :
    List RoutedResult :=
  List.zipWith (fun result expert => { result with effectiveExpert := expert })
    (inPlace tokens.length flat) (tokens.map (r.effectiveOf tokens))

/-- The processed tokens, shard by shard. -/
def flatOf (r : Router) (c : Choices) (tokens : List RoutedToken) : List RoutedResult :=
  (r.visitOrder tokens c).flatMap fun s => processed s (r.groupOf tokens s)

theorem flatOf_perm (c : Choices) :
    (r.flatOf c tokens).Perm
      (tokens.map fun t => processTokenPlaceholder t (r.shardOf tokens t)) := by
  have hgroup : r.flatOf c tokens = ((r.visitOrder tokens c).flatMap (r.groupOf tokens)).map
      fun t => processTokenPlaceholder t (r.shardOf tokens t) := by
    rw [List.map_flatMap]
    refine List.flatMap_congr fun s _ => List.map_congr_left fun t ht => ?_
    rw [(mem_groupOf.1 ht).2]
  rw [hgroup]
  exact (flatMap_groupOf_perm c).map _

theorem place_flatOf_perm (h : r.ValidBatch tokens) (c : Choices) :
    ((r.flatOf c tokens).map RoutedResult.place).Perm (List.range tokens.length) := by
  refine ((flatOf_perm c).map _).trans ?_
  rw [List.map_map]
  exact h.positions

/-- **A strict call** from a settled cluster returns the processed tokens or throws, and leaves the
cluster settled exactly if it strands no answer. -/
theorem routeBatch_spec (h : r.ValidBatch tokens) (hsz : Sized tokens) (hw : w.Settled)
    (c : Choices) :
    (∃ w', exec (routeBatch clusterNet r c tokens) w =
        some (.ok (r.strictResults tokens (r.flatOf c tokens)), w') ∧ w'.Settled ∧
      ¬ r.Strands c tokens w) ∨
    ∃ e w', exec (routeBatch clusterNet r c tokens) w = some (.error e, w') ∧
      (r.Strands c tokens w ↔ ¬ w'.Settled) ∧
      (w.Unharmed → ∃ t ∈ tokens, ¬ r.hasTransport (r.shardOf tokens t)) := by
  have hstart : exec (routeBatch clusterNet r c tokens) w = exec (do
      sendAll clusterNet r tokens (tokens.map (r.shardOf tokens)) (r.visitOrder tokens c)
      let flat ← receiveAll clusterNet r (r.visitOrder tokens c) []
      let ordered ← reassemble tokens.length flat
      return List.zipWith (fun result expert => { result with effectiveExpert := expert }) ordered
        (tokens.map (r.effectiveOf tokens))) w := by
    rw [routeBatch, h.routable.shardsOf_eq c,
      assignEffectiveExperts_eq r c h.routable.nodup_batchPosition]
    exact exec_bind_ok (exec_liftExcept _ _)
  rw [hstart]
  have hp : w.Pending (r.requestsOf hsz) ∅ := Cluster.pending_empty.2 hw
  obtain ⟨w₁, hsend, hp₁, hwent, ht, hst⟩ | ⟨e, w₁, hsend, hst, hu⟩ :=
    sendAll_spec hsz ((r.visitOrder tokens c).map .receive) hp (nodup_visitOrder c)
      (fun s _ => Finset.notMem_empty s)
  · rw [Finset.empty_union] at hp₁ hst
    rw [exec_bind_ok hsend]
    obtain ⟨w₂, hreceive, hw₂, -, hst₂⟩ | ⟨e, w₂, hreceive, hst₂, hu⟩ :=
      receiveAll_spec hsz [] hp₁ (nodup_visitOrder c) ht
    · refine .inl ⟨w₂, ?_, hw₂, fun hs => hst₂ (hst.1 hs)⟩
      rw [exec_bind_ok hreceive, List.nil_append,
        show (r.visitOrder tokens c).flatMap _ = r.flatOf c tokens from rfl,
        reassemble_of_perm (place_flatOf_perm h c), exec_bind_ok (exec_liftExcept _ _)]
      rfl
    · exact .inr ⟨e, w₂, exec_bind_error hreceive, hst.trans hst₂,
        fun huw => absurd (hwent.unharmed huw) hu⟩
  · refine .inr ⟨e, w₁, exec_bind_error hsend, hst, fun huw => ?_⟩
    obtain ⟨s, hs, hno⟩ := hu huw
    obtain ⟨t, ht, rfl⟩ := mem_visitOrder.1 hs
    exact ⟨t, ht, hno⟩

end Router

end AetherMoE
