import AetherMoE.Lib.Triple
import AetherMoE.Orchestration.NetSimulation
import Mathlib.Algebra.GroupWithZero.Nat
import Mathlib.Algebra.BigOperators.Group.List.Basic

/-!
# Delays

`DelayInjectingTransport` of `chaos.hpp` around the transports of the router: it sleeps before each
operation, for a time that may be changed between the calls of the router.

* `Delays`, `Delayed`, `delayNet`: the wrapped transports;
* `Command`, `delayedTranscript`: a session in which delays are changed between the calls;
  **`delays_transparent`**: the calls do what they do without delays, up to the field that failed
  results leave unset;
* `visited`, `slowness`: the shards of a call, and the delays on one of them;
  **`sleep_bounded`**: a call sleeps through each of its delays at most once, and the tolerant path
  through none of a shard that is known to be unhealthy.
-/

namespace AetherMoE

open ByteCodec Effect Router

variable {σ α : Type}

/-- `send_delay_` and `receive_delay_`, in milliseconds. -/
structure Delays where
  send : ℤ := 0
  receive : ℤ := 0
  deriving Repr, DecidableEq

/-- The wrapped transports: what is below them, their delays, and the time slept so far. -/
structure Delayed (σ : Type) where
  inner : σ
  delays : UInt32 → Delays := fun _ => {}
  slept : ℕ := 0

/-- The time slept for a delay. -/
def pause (ms : ℤ) : ℕ := if 0 < ms then ms.toNat else 0

/-- `sleep_for`, if the delay is positive. -/
def sleepFor (ms : Delayed σ → ℤ) : Comp Exn (Delayed σ) Unit :=
  ofExec fun s => some (.ok (), { s with slept := s.slept + pause (ms s) })

/-- An operation of the transport below. -/
def onInner (x : Comp Exn σ α) : Comp Exn (Delayed σ) α :=
  ofExec fun s => (exec x s.inner).map fun p => (p.1, { s with inner := p.2 })

/-- `DelayInjectingTransport`. -/
def delayNet (net : Net σ) : Net (Delayed σ) where
  send shard raw := do
    sleepFor fun s => (s.delays shard).send
    onInner (net.send shard raw)
  receive shard := do
    sleepFor fun s => (s.delays shard).receive
    onInner (net.receive shard)

/-- `set_send_delay`. -/
def Delayed.setSendDelay (s : Delayed σ) (shard : UInt32) (ms : ℤ) : Delayed σ :=
  { s with delays := Function.update s.delays shard { s.delays shard with send := ms } }

/-- `set_receive_delay`. -/
def Delayed.setReceiveDelay (s : Delayed σ) (shard : UInt32) (ms : ℤ) : Delayed σ :=
  { s with delays := Function.update s.delays shard { s.delays shard with receive := ms } }

/-! ## The results -/

/-- What happens in a session. -/
inductive Command
  | call (q : Request)
  | setSendDelay (shard : UInt32) (ms : ℤ)
  | setReceiveDelay (shard : UInt32) (ms : ℤ)

/-- The call, if it is one. -/
def Command.request : Command → Option Request
  | call q => some q
  | _ => none

/-- What the calls of a session with changing delays return or throw. -/
def delayedTranscript (net : Net σ) : List Command → Router → Delayed σ →
    List (Option (Except Exn (List RoutedResult)))
  | [], _, _ => []
  | .setSendDelay shard ms :: cs, r, s => delayedTranscript net cs r (s.setSendDelay shard ms)
  | .setReceiveDelay shard ms :: cs, r, s => delayedTranscript net cs r (s.setReceiveDelay shard ms)
  | .call q :: cs, r, s =>
    match serve (delayNet net) r q s with
    | none => [none]
    | some (out, r', s') => some out :: delayedTranscript net cs r' s'

theorem exec_sleep_bind (ms : Delayed σ → ℤ) (x : Comp Exn σ α) (s : Delayed σ) :
    exec (do sleepFor ms; onInner x) s = (exec x s.inner).map fun p =>
      (p.1, { s with inner := p.2, slept := s.slept + pause (ms s) }) := by
  have hsleep : exec (sleepFor ms) s = some (.ok (), { s with slept := s.slept + pause (ms s) }) :=
    rfl
  rw [exec_bind_ok hsleep]
  rfl

theorem coupled_sleep_bind (ms : Delayed σ → ℤ) (x : Comp Exn σ α) :
    Coupled (fun s t => s.inner = t) (do sleepFor ms; onInner x) x fun _ s t => s.inner = t := by
  rintro s t rfl
  rw [exec_sleep_bind]
  cases exec x s.inner with
  | none => exact .none
  | some p => exact .some ⟨rfl, rfl⟩

/-- **The wrapped transports do what the transports below them do.** -/
theorem delay_simulates (net : Net σ) :
    NetSimulation (delayNet net) net (fun _ => True) fun _ s t => s.inner = t where
  forget _ h := h
  send _ _ _ _ := coupled_sleep_bind _ _
  receive _ := coupled_sleep_bind _ _

/-- The transcript of a session with delays is that of its calls without. -/
theorem delayedTranscript_eq (net : Net σ) (cs : List Command) (r : Router) (s : Delayed σ) :
    delayedTranscript net cs r s = transcript net (cs.filterMap Command.request) r s.inner := by
  induction cs generalizing r s with
  | nil => rfl
  | cons c cs ih =>
    cases c with
    | setSendDelay shard ms => exact ih r (s.setSendDelay shard ms)
    | setReceiveDelay shard ms => exact ih r (s.setReceiveDelay shard ms)
    | call q =>
      have hrel := serve_rel (delay_simulates net) (fun _ _ => trivial) (q := q) r (s := s) rfl
      rw [delayedTranscript, List.filterMap_cons]
      dsimp only [Command.request]
      rw [transcript]
      generalize serve (delayNet net) r q s = a, serve net r q s.inner = b at hrel ⊢
      cases hrel with
      | none => rfl
      | @some a b hpq =>
        obtain ⟨out, r', s'⟩ := a
        obtain ⟨out', r'', t'⟩ := b
        obtain ⟨rfl, rfl, rfl⟩ := hpq
        exact congrArg (some out :: ·) (ih r' s')

/-- **Delays change no result**: a session in which delays are set and changed between the calls is
seen to return, throw and block as its calls do without delays. -/
theorem delays_transparent (net : Net σ) (cs : List Command) {qs : List Request}
    (hqs : List.Forall₂ Request.Same (cs.filterMap Command.request) qs) (r : Router)
    (s : Delayed σ) :
    (delayedTranscript net cs r s).map seen = (transcript net qs r s.inner).map seen := by
  rw [delayedTranscript_eq, transcript_leaving net hqs]

/-- Two calls, the delay of shard 1 changed in between; it dies in the first, so that what is left
unset differs. -/
theorem delays_transparent_oneKilled :
    (delayedTranscript clusterNet [.setSendDelay 0 5, .call ⟨false, .inOrder, oneEach⟩,
        .setReceiveDelay 1 (-3), .call ⟨false, .inOrder, oneEach⟩] twoShards
        ⟨oneKilled, fun _ => {}, 0⟩).map seen =
      (transcript clusterNet [⟨false, Choices.inOrder.leaving fun _ => 7, oneEach⟩,
        ⟨false, Choices.inOrder.leaving fun p => p, oneEach⟩] twoShards oneKilled).map seen :=
  delays_transparent clusterNet _ (.cons ⟨_, rfl⟩ (.cons ⟨_, rfl⟩ .nil)) twoShards
    ⟨oneKilled, fun _ => {}, 0⟩

/-! ## The time -/

/-- The shards of a batch, in the order of the call. -/
def visited (r : Router) (c : Choices) (tokens : List RoutedToken) : List UInt32 :=
  match r.shardsOf (r.assignEffectiveExperts c tokens) with
  | .ok shards => c.shardOrder shards.dedup
  | .error _ => []

/-- The delays on a shard. -/
def slowness (delays : UInt32 → Delays) (shard : UInt32) : ℕ :=
  pause (delays shard).send + pause (delays shard).receive

/-- The delays are these, and at most `n` was slept. -/
def Within (delays : UInt32 → Delays) (n : ℕ) (s : Delayed σ) : Prop :=
  s.delays = delays ∧ s.slept ≤ n

section Time

variable {net : Net σ} {delays : UInt32 → Delays} {n k : ℕ} {shard : UInt32} {r : Router}
  {tokens : List RoutedToken}

theorem Within.mono {s : Delayed σ} (h : Within delays n s) (hle : n ≤ k) : Within delays k s :=
  ⟨h.1, h.2.trans hle⟩

theorem triple_sleep_bind (ms : Delayed σ → ℤ) (x : Comp Exn σ α)
    (hms : ∀ s : Delayed σ, s.delays = delays → pause (ms s) = k) :
    Triple (Within delays n) (do sleepFor ms; onInner x) fun _ => Within delays (n + k) := by
  rintro s ⟨hd, hn⟩ out s' hexec
  rw [exec_sleep_bind, Option.map_eq_some_iff] at hexec
  obtain ⟨p, -, heq⟩ := hexec
  cases heq
  refine ⟨hd, ?_⟩
  rw [hms s hd]
  exact Nat.add_le_add_right hn k

theorem triple_send (raw : Bytes) :
    Triple (Within delays n) ((delayNet net).send shard raw)
      fun _ => Within delays (n + pause (delays shard).send) :=
  triple_sleep_bind _ _ fun s hs => by rw [hs]

theorem triple_receive :
    Triple (Within delays n) ((delayNet net).receive shard)
      fun _ => Within delays (n + pause (delays shard).receive) :=
  triple_sleep_bind _ _ fun s hs => by rw [hs]

theorem triple_sendAll (shards order : List UInt32) (n : ℕ) :
    Triple (Within delays n) (Router.sendAll (delayNet net) r tokens shards order)
      fun _ => Within delays (n + (order.map fun s => pause (delays s).send).sum) := by
  induction order generalizing n with
  | nil => exact .pure fun s hs => hs
  | cons shard order ih =>
    rw [List.map_cons, List.sum_cons, ← Nat.add_assoc]
    refine .bind_liftExcept (fun _ _ => ?_) fun e s hs => hs.mono (by omega)
    refine .bind (triple_send _) (fun _ => ih _) fun e s hs => hs.mono (by omega)

theorem triple_receiveAll (order : List UInt32) (flat : List RoutedResult) (n : ℕ) :
    Triple (Within delays n) (receiveAll (delayNet net) r order flat)
      fun _ => Within delays (n + (order.map fun s => pause (delays s).receive).sum) := by
  induction order generalizing n flat with
  | nil => exact .pure fun s hs => hs
  | cons shard order ih =>
    rw [List.map_cons, List.sum_cons, ← Nat.add_assoc]
    refine .bind_liftExcept (fun _ _ => ?_) fun e s hs => hs.mono (by omega)
    refine .bind triple_receive (fun raw => ?_) fun e s hs => hs.mono (by omega)
    exact .bind_liftExcept (fun results _ => ih _ _) fun e s hs => hs.mono (by omega)

/-- The strict path. -/
theorem triple_routeBatch (c : Choices) :
    Triple (Within delays n) (routeBatch (delayNet net) r c tokens)
      fun _ => Within delays (n + ((visited r c tokens).map (slowness delays)).sum) := by
  have hsum : ∀ order : List UInt32, (order.map (slowness delays)).sum =
      (order.map fun s => pause (delays s).send).sum +
        (order.map fun s => pause (delays s).receive).sum := fun order =>
    List.sum_map_add
  refine .bind_liftExcept (fun shards hshards => ?_) fun e s hs => hs.mono (by omega)
  have hvisited : visited r c tokens = c.shardOrder shards.dedup := by rw [visited, hshards]
  rw [hvisited, hsum, ← Nat.add_assoc]
  refine .bind (triple_sendAll shards _ n) (fun _ => ?_) fun e s hs => hs.mono (by omega)
  refine .bind (triple_receiveAll _ [] _) (fun flat => ?_) fun e s hs => hs
  exact .bind_liftExcept (fun ordered _ => .pure fun s hs => hs) fun e s hs => hs

theorem triple_exchange (group : List RoutedToken) :
    Triple (Within delays n) (exchange (delayNet net) r shard group)
      fun _ => Within delays (n + slowness delays shard) := by
  rw [slowness, ← Nat.add_assoc]
  refine .bind_liftExcept (fun _ _ => ?_) fun e s hs => hs.mono (by omega)
  refine .bind (triple_send _) (fun _ => ?_) fun e s hs => hs.mono (by omega)
  refine .bind_liftExcept (fun _ _ => ?_) fun e s hs => hs.mono (by omega)
  exact .bind triple_receive (fun raw => .liftExcept fun s hs => hs) fun e s hs => hs

/-- The delays on a shard, if it is not known to be unhealthy. -/
def slownessUnless (unhealthy : Finset UInt32) (delays : UInt32 → Delays) (shard : UInt32) : ℕ :=
  if shard ∈ unhealthy then 0 else slowness delays shard

theorem triple_consult {unhealthy known : Finset UInt32} (hle : known ⊆ unhealthy)
    (group : List RoutedToken) :
    Triple (Within delays n) (consult (delayNet net) r unhealthy shard group)
      fun _ => Within delays (n + slownessUnless known delays shard) := by
  unfold consult
  split
  · exact .pure fun s hs => hs.mono (Nat.le_add_right _ _)
  · rename_i hnot
    rw [slownessUnless, if_neg fun hmem => hnot (hle hmem)]
    refine .bind (triple_exchange group).attempt (fun out => ?_) ?_
    · cases out with
      | ok results => exact .pure fun s ⟨_, _, hs⟩ => hs
      | error e => exact .pure fun s ⟨_, _, hs⟩ => hs
    · rintro e s ⟨_, _, hs⟩
      exact hs

theorem subset_mark (v : Verdict) (shard : UInt32) (unhealthy : Finset UInt32) :
    unhealthy ⊆ v.mark shard unhealthy := by
  cases v with
  | threw e => exact Finset.subset_insert shard unhealthy
  | unhealthy | replied results => exact Finset.Subset.refl _

theorem triple_visitShards (leftover : UInt32 → UInt32) (effective shards order : List UInt32)
    {known : Finset UInt32} (unhealthy : Finset UInt32) (hle : known ⊆ unhealthy) (board : Board)
    (n : ℕ) :
    Triple (Within delays n)
      (visitShards (delayNet net) r leftover tokens effective shards order unhealthy board)
      fun _ => Within delays (n + (order.map (slownessUnless known delays)).sum) := by
  induction order generalizing unhealthy board n with
  | nil => exact .pure fun s hs => hs
  | cons shard order ih =>
    rw [List.map_cons, List.sum_cons, ← Nat.add_assoc]
    refine .bind (triple_consult hle _) (fun v => ?_) fun e s hs => hs.mono (by omega)
    exact .bind_liftOption fun board _ => ih _ (hle.trans (subset_mark v shard unhealthy)) board _

/-- The tolerant path. -/
theorem triple_routeBatchTolerant (c : Choices) :
    Triple (Within delays n) (routeBatchTolerant (delayNet net) r c tokens)
      fun _ => Within delays
        (n + ((visited r c tokens).map (slownessUnless r.unhealthyShards delays)).sum) := by
  refine .bind_liftExcept (fun shards hshards => ?_) fun e s hs => hs.mono (by omega)
  have hvisited : visited r c tokens = c.shardOrder shards.dedup := by rw [visited, hshards]
  rw [hvisited]
  refine .bind (triple_visitShards _ _ shards _ _ (Finset.Subset.refl _) _ n) (fun out => ?_)
    fun e s hs => hs
  exact .pure fun s hs => hs

end Time

/-- The delays that count for a call: the tolerant path passes over the shards it knows to be
unhealthy. -/
def Router.budget (r : Router) (q : Request) (delays : UInt32 → Delays) : ℕ :=
  ((visited r q.choices q.tokens).map
    (slownessUnless (if q.strict then ∅ else r.unhealthyShards) delays)).sum

/-- **A call sleeps through each of its delays at most once**, and the tolerant path through none of
a shard that is known to be unhealthy. -/
theorem sleep_bounded (net : Net σ) (r : Router) (q : Request) {s s' : Delayed σ}
    {out : Except Exn (List RoutedResult)} {r' : Router}
    (h : serve (delayNet net) r q s = some (out, r', s')) :
    s'.delays = s.delays ∧ s'.slept ≤ s.slept + r.budget q s.delays := by
  have hwithin : Within s.delays s.slept s := ⟨rfl, le_rfl⟩
  unfold serve at h
  split at h
  · rename_i hstrict
    obtain ⟨⟨o, t⟩, hexec, heq⟩ := Option.map_eq_some_iff.1 h
    cases heq
    have hend := triple_routeBatch q.choices s hwithin o t hexec
    have hslow : slownessUnless ∅ s.delays = slowness s.delays := by
      funext shard
      simp [slownessUnless]
    rwa [Router.budget, if_pos hstrict, hslow]
  · rename_i hstrict
    obtain ⟨⟨o, t⟩, hexec, heq⟩ := Option.map_eq_some_iff.1 h
    have hend := triple_routeBatchTolerant q.choices s hwithin o t hexec
    have ht : t = s' := by
      cases o with
      | ok p => exact (Prod.mk.inj (Prod.mk.inj heq).2).2
      | error e => exact (Prod.mk.inj (Prod.mk.inj heq).2).2
    subst ht
    rwa [Router.budget, if_neg hstrict]

/-- Five and seven milliseconds on the shards of a healthy cluster. -/
theorem sleep_bounded_healthy : ∃ out r' s',
    serve (delayNet clusterNet) twoShards ⟨false, .inOrder, oneEach⟩
      ⟨healthy, fun _ => ⟨5, 7⟩, 0⟩ = some (out, r', s') ∧ s'.slept ≤ 24 := by
  have hreturns : (serve (delayNet clusterNet) twoShards ⟨false, .inOrder, oneEach⟩
      ⟨healthy, fun _ => ⟨5, 7⟩, 0⟩).isSome = true := by decide +kernel
  have hbudget : twoShards.budget ⟨false, .inOrder, oneEach⟩ (fun _ => ⟨5, 7⟩) = 24 := by
    decide +kernel
  obtain ⟨⟨out, r', s'⟩, h⟩ := Option.isSome_iff_exists.1 hreturns
  have hbound := (sleep_bounded clusterNet twoShards _ h).2
  rw [hbudget] at hbound
  exact ⟨out, r', s', h, hbound⟩

end AetherMoE
