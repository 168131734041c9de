import AetherMoE.Orchestration.WorkerShard
import Mathlib.Data.Finset.Basic
import Mathlib.Logic.Function.Basic

/-!
# Workers behind reliable channels

The transports of the router, with a worker behind each. A channel keeps the messages of both
directions in order. Between two operations of the router any worker may serve a request or die;
the script of a cluster says which do. A send to a dead worker throws; a receive returns what is
left to read, waits for a live worker that has a request to serve, or throws once the worker is
dead, and otherwise blocks forever.

* `Channel`, `Event`, `Cluster`, `clusterNet`;
* `Idle`, `Owes`: a live worker's channel between two exchanges, and within one;
* `Pending`: the shards that owe an answer; `Settled`: no live worker owes one;
* **`send_spec`**, **`receive_spec`**: what the two operations do to the pending answers.
-/

namespace AetherMoE

open ByteCodec Effect Router

/-- How reading from a dead worker's socket ends. -/
inductive Hangup
  | closed
  | midMessage
  | failed (errno : String)
  deriving Repr, DecidableEq

/-- What `receive` throws. -/
def Hangup.exn : Hangup → Exn
  | closed => .peerClosed
  | midMessage => .peerClosedMidMessage
  | failed errno => .receiveFailed errno

/-- The end of a worker, as the router meets it. -/
structure Death where
  sendErrno : String := "Broken pipe"
  hangup : Hangup := .closed
  unreadLost : Bool := false
  deriving Repr, DecidableEq

/-- The connection to one worker: the messages still to be read on either side, and the end of the
worker once it is dead. -/
structure Channel where
  requests : List Bytes := []
  replies : List Bytes := []
  death : Option Death := none
  deriving Repr, DecidableEq

namespace Channel

/-- The worker takes a turn of its loop, if it has a request; an exception that leaves the loop ends
the worker. -/
def work (shard : UInt32) (ch : Channel) : Channel :=
  match ch.death, ch.requests with
  | none, raw :: requests =>
    -- which exception it is makes no difference here, nor what the worker's host can reserve
    match serveBatch 0 shard raw with
    | .ok reply => { ch with requests, replies := ch.replies ++ [reply] }
    | .error _ => { ch with requests, death := some {} }
  | _, _ => ch

/-- The worker dies. -/
def kill (d : Death) (ch : Channel) : Channel :=
  match ch.death with
  | none => { ch with death := some d, replies := if d.unreadLost then [] else ch.replies }
  | some _ => ch

/-- The channel once the router has waited for something to read. -/
def await (shard : UInt32) (ch : Channel) : Channel :=
  if ch.replies = [] then ch.work shard else ch

end Channel

/-- What the workers do. -/
inductive Event
  | work (shard : UInt32)
  | kill (shard : UInt32) (d : Death)
  deriving Repr, DecidableEq

/-- The effect of an event on the channel of `shard`. -/
def Event.act (shard : UInt32) (ch : Channel) : Event → Channel
  | work s => if s = shard then ch.work shard else ch
  | kill s d => if s = shard then ch.kill d else ch

/-- All channels, the events that come before each operation of the router, the number of
operations so far, and the shards whose operations threw. -/
structure Cluster where
  channel : UInt32 → Channel
  script : ℕ → List Event
  time : ℕ := 0
  threw : List UInt32 := []

namespace Cluster

/-- The events before the next operation. -/
def tick (w : Cluster) : Cluster :=
  { w with
    channel := fun shard => (w.script w.time).foldl (Event.act shard) (w.channel shard)
    time := w.time + 1 }

/-- Change one channel. -/
def set (w : Cluster) (shard : UInt32) (ch : Channel) : Cluster :=
  { w with channel := Function.update w.channel shard ch }

/-- Note that an operation on `shard` threw. -/
def note (w : Cluster) (shard : UInt32) : Cluster := { w with threw := w.threw ++ [shard] }

/-- `send` on a shard's transport. -/
def send (w : Cluster) (shard : UInt32) (raw : Bytes) : Except Exn Unit × Cluster :=
  match (w.tick.channel shard).death with
  | none => (.ok (), w.tick.set shard
      { w.tick.channel shard with requests := (w.tick.channel shard).requests ++ [raw] })
  | some d => (.error (.sendFailed d.sendErrno), w.tick.note shard)

/-- `receive` on a shard's transport. -/
def receive (w : Cluster) (shard : UInt32) : Option (Except Exn Bytes × Cluster) :=
  let ch := (w.tick.channel shard).await shard
  match ch.replies, ch.death with
  | reply :: replies, _ => some (.ok reply, w.tick.set shard { ch with replies })
  | [], some d => some (.error d.hangup.exn, (w.tick.set shard ch).note shard)
  | [], none => none

end Cluster

/-- The network of a cluster. -/
def clusterNet : Net Cluster where
  send shard raw := ofExec fun w => some (w.send shard raw)
  receive shard := ofExec fun w => w.receive shard

/-! ## One channel -/

namespace Channel

variable {shard : UInt32} {raw reply : Bytes} {ch : Channel}

/-- A live worker has nothing to do, and nothing it sent is unread. -/
def Idle (ch : Channel) : Prop := ch.death = none → ch.requests = [] ∧ ch.replies = []

/-- The worker was sent `raw`: alive, it has still to serve it or its answer `reply` is unread;
dead, it may have answered before. -/
structure Owes (raw reply : Bytes) (ch : Channel) : Prop where
  alive : ch.death = none →
    ch.requests = [raw] ∧ ch.replies = [] ∨ ch.requests = [] ∧ ch.replies = [reply]
  dead : ch.death ≠ none → ch.replies = [] ∨ ch.replies = [reply]

theorem Idle.work (h : ch.Idle) : ch.work shard = ch := by
  unfold Channel.work
  split
  · rename_i hd hr
    rw [(h hd).1] at hr
    cases hr
  · rfl

theorem kill_death_ne_none (d : Death) (ch : Channel) : (ch.kill d).death ≠ none := by
  unfold Channel.kill
  split
  · simp
  · rename_i e he
    simp [he]

theorem Idle.act (h : ch.Idle) (e : Event) : (e.act shard ch).Idle := by
  cases e with
  | work s =>
    rw [Event.act]
    split
    · rwa [h.work]
    · exact h
  | kill s d =>
    rw [Event.act]
    split
    · exact fun hd => absurd hd (kill_death_ne_none d ch)
    · exact h

/-- A worker that has died stays as it is. -/
theorem work_of_dead (h : ch.death ≠ none) : ch.work shard = ch := by
  unfold Channel.work
  split
  · contradiction
  · rfl

theorem work_of_served (hd : ch.death = none) (hr : ch.requests = []) : ch.work shard = ch := by
  unfold Channel.work
  rw [hd, hr]

theorem work_of_request (hserve : serveBatch 0 shard raw = .ok reply) (hd : ch.death = none)
    (hr : ch.requests = [raw]) (hy : ch.replies = []) :
    ch.work shard = { requests := [], replies := [reply], death := none } := by
  obtain ⟨requests, replies, death⟩ := ch
  simp only at hd hr hy
  subst hd hr hy
  simp [Channel.work, hserve]

theorem Owes.work (hserve : serveBatch 0 shard raw = .ok reply) (h : ch.Owes raw reply) :
    (ch.work shard).Owes raw reply := by
  by_cases hd : ch.death = none
  · obtain ⟨hr, hy⟩ | ⟨hr, hy⟩ := h.alive hd
    · rw [work_of_request hserve hd hr hy]
      exact ⟨fun _ => .inr ⟨rfl, rfl⟩, fun hne => absurd rfl hne⟩
    · rwa [work_of_served hd hr]
  · rwa [work_of_dead hd]

theorem Owes.kill (h : ch.Owes raw reply) (d : Death) : (ch.kill d).Owes raw reply := by
  refine ⟨fun hd => absurd hd (kill_death_ne_none d ch), fun _ => ?_⟩
  unfold Channel.kill
  split
  · rename_i hd
    change (if d.unreadLost then [] else ch.replies) = [] ∨
      (if d.unreadLost then [] else ch.replies) = [reply]
    split
    · exact .inl rfl
    · exact (h.alive hd).imp And.right And.right
  · rename_i hd
    exact h.dead (by simp [hd])

theorem Owes.act (hserve : serveBatch 0 shard raw = .ok reply) (h : ch.Owes raw reply) (e : Event) :
    (e.act shard ch).Owes raw reply := by
  cases e with
  | work s =>
    rw [Event.act]
    split
    · exact h.work hserve
    · exact h
  | kill s d =>
    rw [Event.act]
    split
    · exact h.kill d
    · exact h

/-- Without a death, a worker that serves what it owes stays alive. -/
theorem work_alive (hserve : serveBatch 0 shard raw = .ok reply)
    (h : ch.Idle ∨ ch.Owes raw reply) (hd : ch.death = none) : (ch.work shard).death = none := by
  obtain h | h := h
  · rwa [h.work]
  · obtain ⟨hr, hy⟩ | ⟨hr, hy⟩ := h.alive hd
    · rw [work_of_request hserve hd hr hy]
    · rwa [work_of_served hd hr]

/-- What there is to read from a worker that owes an answer, once the router has waited. -/
theorem Owes.await (hserve : serveBatch 0 shard raw = .ok reply) (h : ch.Owes raw reply) :
    (ch.await shard).death = ch.death ∧
      ((ch.await shard).replies = [reply] ∧ (ch.death = none → (ch.await shard).requests = []) ∨
        (ch.await shard).replies = [] ∧ ch.death ≠ none) := by
  unfold Channel.await
  by_cases hd : ch.death = none
  · obtain ⟨hr, hy⟩ | ⟨hr, hy⟩ := h.alive hd
    · rw [if_pos hy, work_of_request hserve hd hr hy]
      exact ⟨hd.symm, .inl ⟨rfl, fun _ => rfl⟩⟩
    · rw [if_neg (by simp [hy])]
      exact ⟨rfl, .inl ⟨hy, fun _ => hr⟩⟩
  · obtain hy | hy := h.dead hd
    · rw [if_pos hy, work_of_dead hd]
      exact ⟨rfl, .inr ⟨hy, hd⟩⟩
    · rw [if_neg (by simp [hy])]
      exact ⟨rfl, .inl ⟨hy, fun hnone => absurd hnone hd⟩⟩

theorem act_dead (h : ch.death ≠ none) (e : Event) : (e.act shard ch).death ≠ none := by
  cases e with
  | work s =>
    rw [Event.act]
    split
    · rwa [work_of_dead h]
    · exact h
  | kill s d =>
    rw [Event.act]
    split
    · exact kill_death_ne_none d ch
    · exact h

end Channel

/-! ## The cluster -/

/-- A message for each shard, with the answer its worker gives. -/
structure Requests where
  message : UInt32 → Bytes
  reply : UInt32 → Bytes
  served : ∀ shard, serveBatch 0 shard (message shard) = .ok (reply shard)

namespace Cluster

variable {w w' : Cluster} {q : Requests} {owed : Finset UInt32} {shard : UInt32}

/-- The workers of `owed` were sent their messages and were not heard from since; no other live
worker has anything to do or to be read. -/
def Pending (w : Cluster) (q : Requests) (owed : Finset UInt32) : Prop :=
  ∀ s, if s ∈ owed then (w.channel s).Owes (q.message s) (q.reply s) else (w.channel s).Idle

/-- No live worker has anything to do or to be read. -/
def Settled (w : Cluster) : Prop := ∀ s, (w.channel s).Idle

/-- All workers are alive, and none is going to be killed. -/
structure Unharmed (w : Cluster) : Prop where
  alive : ∀ s, (w.channel s).death = none
  spared : ∀ n s d, Event.kill s d ∉ w.script n

theorem pending_empty : w.Pending q ∅ ↔ w.Settled := by
  simp [Pending, Settled]

theorem Pending.owes (h : w.Pending q owed) (hs : shard ∈ owed) :
    (w.channel shard).Owes (q.message shard) (q.reply shard) := by
  simpa [hs] using h shard

theorem Pending.idle (h : w.Pending q owed) (hs : shard ∉ owed) : (w.channel shard).Idle := by
  simpa [hs] using h shard

/-- A cluster is settled unless a worker that owes an answer is alive. -/
theorem Pending.not_settled_iff (h : w.Pending q owed) :
    ¬ w.Settled ↔ ∃ s ∈ owed, (w.channel s).death = none := by
  constructor
  · intro hw
    by_contra hno
    push Not at hno
    refine hw fun s hd => ?_
    by_cases hs : s ∈ owed
    · exact absurd hd (hno s hs)
    · exact h.idle hs hd
  · rintro ⟨s, hs, hd⟩ hw
    obtain ⟨hr, hy⟩ := hw s hd
    obtain ⟨hr', -⟩ | ⟨-, hy'⟩ := (h.owes hs).alive hd
    · simp [hr] at hr'
    · simp [hy] at hy'

theorem Pending.not_settled_iff_of_dead (h : w.Pending q (owed.erase shard))
    (hdead : (w.channel shard).death ≠ none) :
    ¬ w.Settled ↔ ∃ s ∈ owed, (w.channel s).death = none := by
  rw [h.not_settled_iff]
  constructor
  · rintro ⟨s, hs, hd⟩
    exact ⟨s, Finset.mem_of_mem_erase hs, hd⟩
  · rintro ⟨s, hs, hd⟩
    exact ⟨s, Finset.mem_erase.2 ⟨fun heq => hdead (heq ▸ hd), hs⟩, hd⟩

/-- What every event keeps, the events before an operation keep. -/
theorem tick_keeps {P : Channel → Prop}
    (hP : ∀ e ∈ w.script w.time, ∀ ch, P ch → P (e.act shard ch)) (h : P (w.channel shard)) :
    P (w.tick.channel shard) := by
  change P ((w.script w.time).foldl (Event.act shard) (w.channel shard))
  generalize w.channel shard = ch at h
  generalize w.script w.time = events at hP
  induction events generalizing ch with
  | nil => exact h
  | cons e events ih =>
    rw [List.forall_mem_cons] at hP
    exact ih _ (hP.1 ch h) hP.2

theorem Pending.tick (h : w.Pending q owed) : w.tick.Pending q owed := by
  intro s
  split
  · rename_i hs
    exact tick_keeps (fun e _ _ hch => hch.act (q.served s) e) (h.owes hs)
  · rename_i hs
    exact tick_keeps (fun e _ _ hch => hch.act e) (h.idle hs)

theorem tick_dead (h : (w.channel shard).death ≠ none) : (w.tick.channel shard).death ≠ none :=
  tick_keeps (P := fun ch => ch.death ≠ none) (fun e _ _ hch => Channel.act_dead hch e) h

theorem Unharmed.tick (hu : w.Unharmed) (h : w.Pending q owed) : w.tick.Unharmed := by
  refine ⟨fun s => ?_, hu.spared⟩
  let P : Channel → Prop := fun ch =>
    (ch.Idle ∨ ch.Owes (q.message s) (q.reply s)) ∧ ch.death = none
  have hP : P (w.channel s) := by
    refine ⟨?_, hu.alive s⟩
    by_cases hs : s ∈ owed
    · exact .inr (h.owes hs)
    · exact .inl (h.idle hs)
  refine (tick_keeps (P := P) ?_ hP).2
  intro e he ch hch
  refine ⟨hch.1.imp (fun hi => hi.act e) fun ho => ho.act (q.served s) e, ?_⟩
  cases e with
  | work x =>
    rw [Event.act]
    split
    · exact Channel.work_alive (q.served s) hch.1 hch.2
    · exact hch.2
  | kill x d => exact absurd he (hu.spared _ x d)

/-- A successful operation. -/
structure Went (w w' : Cluster) : Prop where
  threw : w'.threw = w.threw
  dead : ∀ s, (w.channel s).death ≠ none → (w'.channel s).death ≠ none
  unharmed : w.Unharmed → w'.Unharmed

/-- An operation on `shard` that threw `e`. -/
structure Threw (shard : UInt32) (e : Exn) (w w' : Cluster) : Prop where
  threw : w'.threw = w.threw ++ [shard]
  dead : ∀ s, (w.channel s).death ≠ none ∨ s = shard → (w'.channel s).death ≠ none
  harmed : ¬ w.Unharmed
  explained : ∃ text, e.what? = some text ∧ text ≠ ""

theorem Went.trans {w₁ : Cluster} (h : w.Went w₁) (h' : w₁.Went w') : w.Went w' where
  threw := h'.threw.trans h.threw
  dead s hs := h'.dead s (h.dead s hs)
  unharmed hu := h'.unharmed (h.unharmed hu)

theorem Went.trans_threw {w₁ : Cluster} {e : Exn} (h : w.Went w₁) (h' : w₁.Threw shard e w') :
    w.Threw shard e w' where
  threw := by rw [h'.threw, h.threw]
  dead s hs := h'.dead s (hs.imp_left (h.dead s))
  harmed hu := h'.harmed (h.unharmed hu)
  explained := h'.explained

@[simp] theorem set_channel_self (w : Cluster) (s : UInt32) (ch : Channel) :
    (w.set s ch).channel s = ch := Function.update_self ..

theorem set_channel_of_ne {s x : UInt32} (hx : x ≠ s) (w : Cluster) (ch : Channel) :
    (w.set s ch).channel x = w.channel x := Function.update_of_ne hx ..

/-- A changed channel that owes, or not, what its membership in `owed` says. -/
theorem Pending.set (h : w.Pending q owed) {owed' : Finset UInt32} {ch : Channel}
    (hother : ∀ x, x ≠ shard → (x ∈ owed' ↔ x ∈ owed))
    (hch : if shard ∈ owed' then ch.Owes (q.message shard) (q.reply shard) else ch.Idle) :
    (w.set shard ch).Pending q owed' := by
  intro x
  by_cases hx : x = shard
  · subst hx
    rwa [set_channel_self]
  · rw [set_channel_of_ne hx]
    simpa only [hother x hx] using h x

theorem Unharmed.set (h : w.Unharmed) {ch : Channel} (hch : ch.death = none) :
    (w.set shard ch).Unharmed := by
  refine ⟨fun x => ?_, h.spared⟩
  by_cases hx : x = shard
  · subst hx
    rwa [set_channel_self]
  · rw [set_channel_of_ne hx]
    exact h.alive x

theorem set_dead {ch : Channel} (hch : (w.channel shard).death ≠ none → ch.death ≠ none)
    {x : UInt32} (h : (w.channel x).death ≠ none) : ((w.set shard ch).channel x).death ≠ none := by
  by_cases hx : x = shard
  · subst hx
    rw [set_channel_self]
    exact hch h
  · rwa [set_channel_of_ne hx]

theorem explained_hangup (g : Hangup) : ∃ text, g.exn.what? = some text ∧ text ≠ "" := by
  cases g with
  | closed => exact ⟨_, rfl, by decide⟩
  | midMessage => exact ⟨_, rfl, by decide⟩
  | failed errno => exact ⟨_, rfl, by simp [String.append_eq_empty_iff]⟩

/-- **A send** to a worker that owes nothing. -/
theorem send_spec (h : w.Pending q owed) (hs : shard ∉ owed) :
    (∃ w', exec (clusterNet.send shard (q.message shard)) w = some (.ok (), w') ∧
      w'.Pending q (insert shard owed) ∧ w.Went w') ∨
    ∃ e w', exec (clusterNet.send shard (q.message shard)) w = some (.error e, w') ∧
      w'.Pending q owed ∧ w.Threw shard e w' := by
  have hexec : exec (clusterNet.send shard (q.message shard)) w =
    some (w.send shard (q.message shard)) := rfl
  rw [hexec, Cluster.send]
  have hidle := h.tick.idle hs
  cases hd : (w.tick.channel shard).death with
  | none =>
    refine .inl ⟨_, rfl, ?_, rfl, fun x hx => ?_, fun hu => ?_⟩
    · refine h.tick.set (fun x hx => by simp [hx]) ?_
      rw [if_pos (Finset.mem_insert_self ..)]
      refine ⟨fun _ => .inl ?_, fun hne => absurd hd hne⟩
      exact ⟨by rw [(hidle hd).1]; rfl, (hidle hd).2⟩
    · refine set_dead ?_ (tick_dead hx)
      exact id
    · exact (hu.tick h).set hd
  | some d =>
    refine .inr ⟨_, _, rfl, h.tick, rfl, ?_, fun hu => ?_, _, rfl,
      by simp [String.append_eq_empty_iff]⟩
    · rintro x (hx | rfl)
      · exact tick_dead hx
      · change (w.tick.channel x).death ≠ none
        simp [hd]
    · have hnone := (hu.tick h).alive shard
      rw [hd] at hnone
      cases hnone

/-- **A receive** from a worker that owes an answer. -/
theorem receive_spec (h : w.Pending q owed) (hs : shard ∈ owed) :
    (∃ w', exec (clusterNet.receive shard) w = some (.ok (q.reply shard), w') ∧
      w'.Pending q (owed.erase shard) ∧ w.Went w') ∨
    ∃ e w', exec (clusterNet.receive shard) w = some (.error e, w') ∧
      w'.Pending q (owed.erase shard) ∧ w.Threw shard e w' := by
  have hexec : exec (clusterNet.receive shard) w = w.receive shard := rfl
  rw [hexec, Cluster.receive]
  obtain ⟨hdeath, hread⟩ := (h.tick.owes hs).await (q.served shard)
  set ch := (w.tick.channel shard).await shard with hch
  have hpending : ∀ replies, (ch.death = none → ch.requests = [] ∧ replies = []) →
      (w.tick.set shard { ch with replies }).Pending q (owed.erase shard) := by
    intro replies hidle
    refine h.tick.set (fun x hx => by simp [hx]) ?_
    rw [if_neg (Finset.notMem_erase _ _)]
    exact hidle
  obtain ⟨hy, hr⟩ | ⟨hy, hd⟩ := hread
  · refine .inl ⟨w.tick.set shard { ch with replies := [] }, ?_, ?_, rfl, fun x hx => ?_,
      fun hu => ?_⟩
    · simp only [hy]
    · exact hpending [] fun hnone => ⟨hr (hdeath ▸ hnone), rfl⟩
    · exact set_dead (fun hne => hdeath ▸ hne) (tick_dead hx)
    · exact (hu.tick h).set (hdeath.trans ((hu.tick h).alive shard))
  · obtain ⟨d, hd'⟩ := Option.ne_none_iff_exists'.1 hd
    rw [hd'] at hdeath
    refine .inr ⟨d.hangup.exn, (w.tick.set shard ch).note shard, ?_, ?_, rfl, ?_, fun hu => ?_,
      explained_hangup d.hangup⟩
    · simp only [hy, hdeath]
    · exact hpending ch.replies fun hnone => by simp [hdeath] at hnone
    · rintro x (hx | rfl)
      · exact set_dead (fun _ => by simp [hdeath]) (tick_dead hx)
      · change ((w.tick.set x ch).channel x).death ≠ none
        rw [set_channel_self, hdeath]
        simp
    · exact hd ((hu.tick h).alive shard)

end Cluster

end AetherMoE
