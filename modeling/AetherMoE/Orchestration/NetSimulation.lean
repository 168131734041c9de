import AetherMoE.Lib.RelationalTriple
import AetherMoE.Orchestration.Leftover
import Mathlib.Data.Finset.Basic
import Mathlib.Data.Finset.Lattice.Lemmas

/-!
# The router over two networks

When each operation of a network does what the same operation of another does, and the states stay
related, then so does every call of the router, on either path, and every session. The relation may
promise more about the shards from which an answer is awaited than about the others: a send to a
shard opens it, a receive closes it, and the router receives only from shards it has opened.

* `NetSimulation`: two networks, operation by operation;
* **`routeBatch_coupled`**, **`routeBatchTolerant_coupled`**: one call;
* `serve`, `transcript`: one request, and a session of strict and tolerant requests;
* **`transcript_eq`**: every session has the same transcript over both networks;
* `seen`, **`transcript_same`**: so has every session of the same calls, up to what is left over in
  the fields of failed results that are not set.
-/

namespace AetherMoE

open ByteCodec Effect Grouping

variable {σ κ : Type}

/-- The operations of `net` and `net'` on messages that meet `Good` do the same, from related
states to related states. The set holds the open shards. -/
structure NetSimulation (net : Net σ) (net' : Net κ) (Good : Bytes → Prop)
    (R : Finset UInt32 → σ → κ → Prop) : Prop where
  forget : ∀ {o o' : Finset UInt32} {s : σ} {t : κ}, o' ⊆ o → R o s t → R o' s t
  send : ∀ (o : Finset UInt32) (shard : UInt32) {raw : Bytes}, Good raw →
    Coupled (R o) (net.send shard raw) (net'.send shard raw)
      fun out => R (if out.isOk then insert shard o else o)
  receive : ∀ {o : Finset UInt32} {shard : UInt32}, shard ∈ o →
    Coupled (R o) (net.receive shard) (net'.receive shard) fun _ => R (o.erase shard)

namespace Router

variable {net : Net σ} {net' : Net κ} {Good : Bytes → Prop} {R : Finset UInt32 → σ → κ → Prop}
  {o : Finset UInt32} {tokens : List RoutedToken}

/-- Every message the router makes of the batch meets `Good`. -/
def Sendable (Good : Bytes → Prop) (tokens : List RoutedToken) : Prop :=
  ∀ shards shard, Good (encodeTokenBatch (groupFor tokens shards shard))

/-! ## The strict path -/

theorem sendAll_coupled (h : NetSimulation net net' Good R) (hgood : Sendable Good tokens)
    (r : Router) (shards order : List UInt32) (o : Finset UInt32) :
    Coupled (R o) (sendAll net r tokens shards order) (sendAll net' r tokens shards order)
      fun out => R (if out.isOk then o ∪ order.toFinset else ∅) := by
  induction order generalizing o with
  | nil =>
    refine .pure fun s t hR => ?_
    simpa [Except.isOk, Except.toBool] using hR
  | cons shard order ih =>
    have hnext : insert shard o ∪ order.toFinset = o ∪ (shard :: order).toFinset := by simp
    refine .bind_liftExcept (fun _ => ?_) fun e s t hR =>
      h.forget (Finset.empty_subset _) hR
    refine .bind (h.send o shard (hgood shards shard)) (fun _ => ?_) fun e s t hR =>
      h.forget (Finset.empty_subset _) hR
    rw [← hnext]
    exact ih (insert shard o)

theorem receiveAll_coupled (h : NetSimulation net net' Good R) (r : Router) {order : List UInt32}
    (hnd : order.Nodup) (ho : ∀ shard ∈ order, shard ∈ o) (flat : List RoutedResult) :
    Coupled (R o) (receiveAll net r order flat) (receiveAll net' r order flat) fun _ => R ∅ := by
  have hforget : ∀ o s t, R o s t → R ∅ s t := fun o s t hR => h.forget (Finset.empty_subset o) hR
  induction order generalizing o flat with
  | nil => exact .pure fun s t hR => hforget o s t hR
  | cons shard order ih =>
    obtain ⟨hnot, hnd⟩ := List.nodup_cons.1 hnd
    refine .bind_liftExcept (fun _ => ?_) fun e s t hR => hforget o s t hR
    refine .bind (h.receive (ho shard List.mem_cons_self)) (fun raw => ?_) fun e s t hR =>
      hforget _ s t hR
    refine .bind_liftExcept (fun results => ?_) fun e s t hR =>
      hforget _ s t hR
    refine ih hnd (fun x hx => ?_) (flat ++ results)
    refine Finset.mem_erase.2 ⟨?_, ho x (List.mem_cons_of_mem shard hx)⟩
    rintro rfl
    exact hnot hx

/-- **`route_batch`** does the same over both networks. -/
theorem routeBatch_coupled (h : NetSimulation net net' Good R) (hgood : Sendable Good tokens)
    (r : Router) (c : Choices) :
    Coupled (R ∅) (routeBatch net r c tokens) (routeBatch net' r c tokens) fun _ => R ∅ := by
  refine .bind_liftExcept (fun shards => ?_) fun e s t hR => hR
  have hnd : (c.shardOrder shards.dedup).Nodup :=
    (c.shardOrder_perm _).nodup_iff.2 shards.nodup_dedup
  refine .bind (sendAll_coupled h hgood r shards _ ∅) (fun _ => ?_) fun e s t hR => hR
  have hopen : ∀ shard ∈ c.shardOrder shards.dedup,
      shard ∈ ∅ ∪ (c.shardOrder shards.dedup).toFinset := by simp
  refine .bind (receiveAll_coupled h r hnd hopen []) (fun flat => ?_) fun e s t hR => hR
  refine .bind_liftExcept (fun ordered => ?_) fun e s t hR => hR
  exact .pure fun s t hR => hR

/-! ## The tolerant path -/

theorem exchange_coupled (h : NetSimulation net net' Good R) (r : Router) (shard : UInt32)
    {group : List RoutedToken} (hgood : Good (encodeTokenBatch group)) :
    Coupled (R ∅) (exchange net r shard group) (exchange net' r shard group) fun _ => R ∅ := by
  have hforget : ∀ o s t, R o s t → R ∅ s t := fun o s t hR => h.forget (Finset.empty_subset o) hR
  refine .bind_liftExcept (fun _ => ?_) fun e s t hR => hR
  refine .bind (h.send ∅ shard hgood) (fun _ => ?_) fun e s t hR => hforget _ s t hR
  refine .bind_liftExcept (fun _ => ?_) fun e s t hR => hforget _ s t hR
  refine .bind (h.receive (Finset.mem_insert_self shard ∅)) (fun raw => ?_) fun e s t hR =>
    hforget _ s t hR
  exact .liftExcept fun s t hR => hforget _ s t hR

theorem consult_coupled (h : NetSimulation net net' Good R) (r : Router) (unhealthy : Finset UInt32)
    (shard : UInt32) {group : List RoutedToken} (hgood : Good (encodeTokenBatch group)) :
    Coupled (R ∅) (consult net r unhealthy shard group) (consult net' r unhealthy shard group)
      fun _ => R ∅ := by
  unfold consult
  split
  · exact .pure fun s t hR => hR
  · refine .bind (exchange_coupled h r shard hgood).attempt (fun out => ?_) ?_
    · have hout : ∀ s t, (∃ o, Except.ok (ε := Exn) out = .ok o ∧ R ∅ s t) → R ∅ s t :=
        fun s t ⟨_, _, hR⟩ => hR
      cases out with
      | ok results => exact .pure hout
      | error e => exact .pure hout
    · rintro e s t ⟨o, ho, hR⟩
      exact hR

theorem visitShards_coupled (h : NetSimulation net net' Good R) (hgood : Sendable Good tokens)
    (r : Router) (leftover : UInt32 → UInt32) (effective shards order : List UInt32)
    (unhealthy : Finset UInt32) (board : Board) :
    Coupled (R ∅) (visitShards net r leftover tokens effective shards order unhealthy board)
      (visitShards net' r leftover tokens effective shards order unhealthy board) fun _ => R ∅ := by
  induction order generalizing unhealthy board with
  | nil => exact .pure fun s t hR => hR
  | cons shard order ih =>
    refine .bind (consult_coupled h r unhealthy shard (hgood shards shard)) (fun v => ?_)
      fun e s t hR => hR
    refine .bind_liftOption (fun board => ?_) fun e s t hR => hR
    exact ih (v.mark shard unhealthy) board

/-- **`route_batch_tolerant`** does the same over both networks. -/
theorem routeBatchTolerant_coupled (h : NetSimulation net net' Good R)
    (hgood : Sendable Good tokens) (r : Router) (c : Choices) :
    Coupled (R ∅) (routeBatchTolerant net r c tokens) (routeBatchTolerant net' r c tokens)
      fun _ => R ∅ := by
  refine .bind_liftExcept (fun shards => ?_) fun e s t hR => hR
  refine .bind (visitShards_coupled h hgood r _ _ shards _ _ _) (fun out => ?_) fun e s t hR => hR
  exact .pure fun s t hR => hR

/-! ## Sessions -/

/-- One call over a network: what it returns or throws, and the router and the network after it. -/
def serve (net : Net σ) (r : Router) (q : Request) (s : σ) :
    Option (Except Exn (List RoutedResult) × Router × σ) :=
  if q.strict then
    (exec (routeBatch net r q.choices q.tokens) s).map fun p => (p.1, r, p.2)
  else
    (exec (routeBatchTolerant net r q.choices q.tokens) s).map fun p =>
      match p.1 with
      | .ok (results, r') => (.ok results, r', p.2)
      | .error e => (.error e, r, p.2)

/-- What the calls of a session return or throw, one after the other; `none` for the one that never
returns, after which there are no others. -/
def transcript (net : Net σ) : List Request → Router → σ →
    List (Option (Except Exn (List RoutedResult)))
  | [], _, _ => []
  | q :: qs, r, s =>
    match serve net r q s with
    | none => [none]
    | some (out, r', s') => some out :: transcript net qs r' s'

theorem serve_rel (h : NetSimulation net net' Good R) {q : Request} (hgood : Sendable Good q.tokens)
    (r : Router) {s : σ} {t : κ} (hR : R ∅ s t) :
    Option.Rel (fun a b => a.1 = b.1 ∧ a.2.1 = b.2.1 ∧ R ∅ a.2.2 b.2.2) (serve net r q s)
      (serve net' r q t) := by
  unfold serve
  split
  · have hrel := routeBatch_coupled h hgood r q.choices s t hR
    generalize exec (routeBatch net r q.choices q.tokens) s = a,
      exec (routeBatch net' r q.choices q.tokens) t = b at hrel ⊢
    cases hrel with
    | none => exact .none
    | some hpq => exact .some ⟨hpq.1, rfl, hpq.2⟩
  · have hrel := routeBatchTolerant_coupled h hgood r q.choices s t hR
    generalize exec (routeBatchTolerant net r q.choices q.tokens) s = a,
      exec (routeBatchTolerant net' r q.choices q.tokens) t = b at hrel ⊢
    cases hrel with
    | none => exact .none
    | @some a b hpq =>
      obtain ⟨out, s'⟩ := a
      obtain ⟨out', t'⟩ := b
      obtain ⟨rfl, hR'⟩ := hpq
      cases out with
      | ok p => exact .some ⟨rfl, rfl, hR'⟩
      | error e => exact .some ⟨rfl, rfl, hR'⟩

/-- **Every session has the same transcript** over two networks that simulate each other. -/
theorem transcript_eq (h : NetSimulation net net' Good R) (qs : List Request)
    (hgood : ∀ q ∈ qs, Sendable Good q.tokens) (r : Router) {s : σ} {t : κ} (hR : R ∅ s t) :
    transcript net qs r s = transcript net' qs r t := by
  induction qs generalizing r s t with
  | nil => rfl
  | cons q qs ih =>
    have hrel := serve_rel h (hgood q List.mem_cons_self) r hR
    rw [transcript, transcript]
    generalize serve net r q s = a, serve net' r q t = b at hrel ⊢
    cases hrel with
    | none => rfl
    | @some a b hpq =>
      obtain ⟨out, r', s'⟩ := a
      obtain ⟨out', r'', t'⟩ := b
      obtain ⟨rfl, rfl, hR'⟩ := hpq
      have hrest := ih (fun q hq => hgood q (List.mem_cons_of_mem _ hq)) r' hR'
      exact congrArg (some out :: ·) hrest

/-! ## What is left over -/

/-- What the caller finds in the fields that are set. -/
def seen (out : Option (Except Exn (List RoutedResult))) :
    Option (Except Exn (List RoutedResult)) :=
  out.map (Except.map (List.map written))

theorem serve_same (net : Net σ) (r : Router) {q q' : Request} (h : q.Same q') (s : σ) :
    (serve net r q' s).map (fun p => (p.1.map (List.map written), p.2)) =
      (serve net r q s).map (fun p => (p.1.map (List.map written), p.2)) := by
  obtain ⟨leftover, rfl⟩ := h
  unfold serve
  dsimp only
  split
  · rw [routeBatch_leaving]
  · have hview := routeBatchTolerant_leaving net r q.choices leftover q.tokens s
    have hserve : ∀ x : Option (Except Exn (List RoutedResult × Router) × σ),
        (x.map fun p => match p.1 with
          | .ok (results, r') => (Except.ok results, r', p.2)
          | .error e => (.error e, r, p.2)).map (fun p => (p.1.map (List.map written), p.2)) =
        (x.map (view fun q => (q.1.map written, q.2))).map fun p => match p.1 with
          | .ok (results, r') => (Except.ok results, r', p.2)
          | .error e => (.error e, r, p.2) := by
      rintro (_ | ⟨e | ⟨results, r'⟩, s'⟩) <;> rfl
    exact (hserve _).trans ((congrArg _ hview).trans (hserve _).symm)

/-- The same calls over one network. -/
theorem transcript_leaving (net : Net σ) {qs qs' : List Request}
    (h : List.Forall₂ Request.Same qs qs') (r : Router) (s : σ) :
    (transcript net qs' r s).map seen = (transcript net qs r s).map seen := by
  induction h generalizing r s with
  | nil => rfl
  | @cons q q' qs qs' hq _ ih =>
    have hserve := serve_same net r hq s
    rw [transcript, transcript]
    generalize serve net r q' s = x, serve net r q s = y at hserve ⊢
    rcases x with _ | ⟨out, r', s'⟩ <;> rcases y with _ | ⟨out', r'', s''⟩
    · rfl
    · cases hserve
    · cases hserve
    · obtain ⟨hout, hrest⟩ := Prod.mk.inj (Option.some.inj hserve)
      obtain ⟨rfl, rfl⟩ := Prod.mk.inj hrest
      rw [List.map_cons, List.map_cons, ih]
      exact congrArg (some · :: _) hout

end Router

end AetherMoE
