import AetherMoE.Core.Reports
import AetherMoE.Lib.AtomicObject
import Mathlib.Logic.Function.Basic

/-!
# The ingress server and the engine loop

The `POST /generate` handlers of `ingress_server.cpp`, the `SequenceStatusTable` and the engine
loop of `main.cpp`, as one system of atomic actions: any number of handlers take an id, push their
sequence and upsert `PREFILL`; the engine drains up to 256 sequences, steps the scheduler and
upserts one phase per result. The ring buffer between them is a bounded queue that may refuse while
an operation of the other kind has taken effect and not returned, so the two operations have states
for this.

* `Handler`, `Engine`, `Server`: the states of the parts and of the whole;
* `Action`, `perform`: the atomic actions and what they compute;
* `Step`: the same as a relation, one constructor for each branch; `step_of_perform`,
  `perform_of_step`;
* `phases`, **`push_effect`**, **`pop_effect`**, **`pop_none_effect`**: the actions on the queue are
  all that such a queue does.
-/

namespace AetherMoE

open AtomicObject (Phase QueueEffect)
open Fifo

/-! ## The system -/

/-- `SequenceStatusTable::Status`. -/
structure Status where
  phase : SequencePhase
  generatedCount : ℕ
  deriving Repr, DecidableEq

/-- The body of the answer to `POST /generate`, with its HTTP status when it is an error. -/
inductive Response
  | accepted (seqId : UInt64)
  | rejected (status : ℕ) (reason : String)
  deriving Repr, DecidableEq

/-- Where a `POST /generate` handler stands: before it has an id, before `try_push` takes effect,
before `try_push` returns, before the upsert, and at the end. -/
inductive Handler
  | start
  | hasSequence (seq : Sequence)
  | pushing (seqId : UInt64)
  | pushed (seqId : UInt64)
  | returned (response : Response)
  deriving Repr, DecidableEq

/-- The handler is in `try_push`, which has taken effect. -/
def Handler.isPushing : Handler → Bool
  | pushing _ => true
  | _ => false

/-- Where the engine loop stands: before a `try_pop` takes effect, before it returns with a
sequence, or storing the results of a step. -/
inductive Engine
  | draining (drained : ℕ)
  | popped (drained : ℕ) (seq : Sequence)
  | storing (results : List StepResult)
  deriving Repr, DecidableEq

/-- `kIngressQueueCapacity`. -/
def kIngressQueueCapacity : ℕ := 4096

/-- The shared state, the handlers and the engine. `requests` counts the ids handed out. -/
structure Server where
  nextSeqId : UInt64 := 1
  requests : ℕ := 0
  queue : List Sequence := []
  table : UInt64 → Option Status := fun _ => none
  handler : ℕ → Handler := fun _ => .start
  engine : Engine := .draining 0
  scheduler : Scheduler

/-- The atomic actions of the handlers `h` and of the engine. -/
inductive Action
  /-- A body that does not parse, or lacks the prompt, is answered at once. -/
  | reject (h : ℕ) (reason : String)
  /-- `next_seq_id_.fetch_add(1)` and the construction of the sequence at time `now`. -/
  | fetchId (h : ℕ) (prompt : List UInt32) (maxNewTokens : UInt32) (now : ℤ)
  /-- `queue_.try_push(seq)` takes effect; the answer 503 if the queue is full. -/
  | push (h : ℕ)
  /-- `queue_.try_push(seq)` fails because the engine is in the middle of a pop; the answer 503. -/
  | refuse (h : ℕ)
  /-- `queue_.try_push(seq)` returns. -/
  | pushReturn (h : ℕ)
  /-- `status_table_.upsert(seq_id, PREFILL, 0)` and the answer. -/
  | upsertNew (h : ℕ)
  /-- `queue.try_pop(seq)` takes effect. -/
  | pop
  /-- `queue.try_pop(seq)` returns, and `scheduler.admit(seq)`. -/
  | admitPopped
  /-- The end of the drain loop, cut short or not by a handler in the middle of its push, and
  `scheduler.step()`. -/
  | step (stalled : Option ℕ)
  /-- `status_table.upsert(r.seq_id, r.phase_after, 0)` for the next result. -/
  | store
  /-- Back to the head of the engine loop. -/
  | again
  deriving Repr, DecidableEq

namespace Server

/-- `SequenceStatusTable::upsert`. -/
def upsert (v : Server) (seqId : UInt64) (phase : SequencePhase) (generatedCount : ℕ) : Server :=
  { v with table := Function.update v.table seqId (some ⟨phase, generatedCount⟩) }

/-- Handler `h` moves on. -/
def setHandler (v : Server) (h : ℕ) (x : Handler) : Server :=
  { v with handler := Function.update v.handler h x }

/-- The drain loop ends with `drained` sequences: because these are 256, or because `try_pop` fails,
on an empty queue or, before either, on account of handler `h`. -/
def DrainEnds (v : Server) (drained : ℕ) : Option ℕ → Prop
  | none => 256 ≤ drained ∨ v.queue = []
  | some h => drained < 256 ∧ v.queue ≠ [] ∧ (v.handler h).isPushing

instance (v : Server) (drained : ℕ) (stalled : Option ℕ) :
    Decidable (v.DrainEnds drained stalled) :=
  match stalled with
  | none => inferInstanceAs (Decidable (_ ∨ _))
  | some _ => inferInstanceAs (Decidable (_ ∧ _ ∧ _))

/-- One action; `none` if it is not enabled. -/
def perform (clock : ℕ → ℤ) (v : Server) : Action → Option Server
  | .reject h reason =>
    match v.handler h with
    | .start => some (v.setHandler h (.returned (.rejected 400 reason)))
    | _ => none
  | .fetchId h prompt maxNewTokens now =>
    match v.handler h with
    | .start => some
        ({ v with nextSeqId := v.nextSeqId + 1, requests := v.requests + 1 }.setHandler h
        (.hasSequence (Sequence.new v.nextSeqId prompt maxNewTokens now)))
    | _ => none
  | .push h =>
    match v.handler h with
    | .hasSequence seq =>
      if v.queue.length < kIngressQueueCapacity then
        some ({ v with queue := v.queue ++ [seq] }.setHandler h (.pushing seq.id))
      else some (v.setHandler h (.returned (.rejected 503 "ingress queue full")))
    | _ => none
  | .refuse h =>
    match v.handler h, v.engine with
    | .hasSequence _, .popped _ _ =>
      some (v.setHandler h (.returned (.rejected 503 "ingress queue full")))
    | _, _ => none
  | .pushReturn h =>
    match v.handler h with
    | .pushing seqId => some (v.setHandler h (.pushed seqId))
    | _ => none
  | .upsertNew h =>
    match v.handler h with
    | .pushed seqId =>
      some ((v.upsert seqId .prefill 0).setHandler h (.returned (.accepted seqId)))
    | _ => none
  | .pop =>
    match v.engine, v.queue with
    | .draining drained, seq :: queue =>
      if drained < 256 then some { v with queue := queue, engine := .popped drained seq }
      else none
    | _, _ => none
  | .admitPopped =>
    match v.engine with
    | .popped drained seq => some { v with
        scheduler := v.scheduler.admitSequence seq
        engine := .draining (drained + 1) }
    | _ => none
  | .step stalled =>
    match v.engine with
    | .draining drained =>
      if v.DrainEnds drained stalled then
        match v.scheduler.step clock with
        | .ok (results, scheduler) =>
          some { v with scheduler := scheduler, engine := .storing results }
        | .error _ => none
      else none
    | _ => none
  | .store =>
    match v.engine with
    | .storing (r :: results) =>
      some { v.upsert r.seqId r.phaseAfter 0 with engine := .storing results }
    | _ => none
  | .again =>
    match v.engine with
    | .storing [] => some { v with engine := .draining 0 }
    | _ => none

section Fields

variable (v : Server) (h : ℕ) (x : Handler) (i : UInt64) (p : SequencePhase) (n : ℕ)

theorem handler_setHandler (k : ℕ) :
    (v.setHandler h x).handler k = if k = h then x else v.handler k :=
  Function.update_apply _ _ _ _

theorem table_upsert (j : UInt64) :
    (v.upsert i p n).table j = if j = i then some ⟨p, n⟩ else v.table j :=
  Function.update_apply _ _ _ _

@[simp] theorem table_setHandler : (v.setHandler h x).table = v.table := rfl
@[simp] theorem queue_setHandler : (v.setHandler h x).queue = v.queue := rfl
@[simp] theorem engine_setHandler : (v.setHandler h x).engine = v.engine := rfl
@[simp] theorem scheduler_setHandler : (v.setHandler h x).scheduler = v.scheduler := rfl
@[simp] theorem requests_setHandler : (v.setHandler h x).requests = v.requests := rfl
@[simp] theorem handler_upsert : (v.upsert i p n).handler = v.handler := rfl
@[simp] theorem queue_upsert : (v.upsert i p n).queue = v.queue := rfl
@[simp] theorem engine_upsert : (v.upsert i p n).engine = v.engine := rfl
@[simp] theorem scheduler_upsert : (v.upsert i p n).scheduler = v.scheduler := rfl

end Fields

/-- The results still to be stored. -/
def pending (v : Server) : List StepResult :=
  match v.engine with
  | .storing results => results
  | _ => []

/-- What an action does, when it is enabled. -/
inductive Step (clock : ℕ → ℤ) (v : Server) : Action → Server → Prop
  | reject {h : ℕ} {reason : String} (hh : v.handler h = .start) :
      Step clock v (.reject h reason) (v.setHandler h (.returned (.rejected 400 reason)))
  | fetchId {h : ℕ} {prompt : List UInt32} {maxNew : UInt32} {now : ℤ} (hh : v.handler h = .start) :
      Step clock v (.fetchId h prompt maxNew now)
        ({ v with nextSeqId := v.nextSeqId + 1, requests := v.requests + 1 }.setHandler h
          (.hasSequence (Sequence.new v.nextSeqId prompt maxNew now)))
  | push {h : ℕ} {seq : Sequence} (hh : v.handler h = .hasSequence seq)
      (hq : v.queue.length < kIngressQueueCapacity) :
      Step clock v (.push h)
        ({ v with queue := v.queue ++ [seq] }.setHandler h (.pushing seq.id))
  | full {h : ℕ} {seq : Sequence} (hh : v.handler h = .hasSequence seq)
      (hq : ¬ v.queue.length < kIngressQueueCapacity) :
      Step clock v (.push h) (v.setHandler h (.returned (.rejected 503 "ingress queue full")))
  | refuse {h drained : ℕ} {seq seq' : Sequence} (hh : v.handler h = .hasSequence seq)
      (he : v.engine = .popped drained seq') :
      Step clock v (.refuse h) (v.setHandler h (.returned (.rejected 503 "ingress queue full")))
  | pushReturn {h : ℕ} {seqId : UInt64} (hh : v.handler h = .pushing seqId) :
      Step clock v (.pushReturn h) (v.setHandler h (.pushed seqId))
  | upsertNew {h : ℕ} {seqId : UInt64} (hh : v.handler h = .pushed seqId) :
      Step clock v (.upsertNew h)
        ((v.upsert seqId .prefill 0).setHandler h (.returned (.accepted seqId)))
  | pop {drained : ℕ} {seq : Sequence} {queue : List Sequence} (he : v.engine = .draining drained)
      (hq : v.queue = seq :: queue) (hd : drained < 256) :
      Step clock v .pop { v with queue := queue, engine := .popped drained seq }
  | admitPopped {drained : ℕ} {seq : Sequence} (he : v.engine = .popped drained seq) :
      Step clock v .admitPopped { v with
        scheduler := v.scheduler.admitSequence seq
        engine := .draining (drained + 1) }
  | step {drained : ℕ} {stalled : Option ℕ} {results : List StepResult} {S' : Scheduler}
      (he : v.engine = .draining drained) (hd : v.DrainEnds drained stalled)
      (hs : v.scheduler.step clock = .ok (results, S')) :
      Step clock v (.step stalled) { v with scheduler := S', engine := .storing results }
  | store {r : StepResult} {results : List StepResult} (he : v.engine = .storing (r :: results)) :
      Step clock v .store { v.upsert r.seqId r.phaseAfter 0 with engine := .storing results }
  | again (he : v.engine = .storing []) : Step clock v .again { v with engine := .draining 0 }

theorem step_of_perform {clock : ℕ → ℤ} {v v' : Server} {a : Action}
    (h : v.perform clock a = some v') : Step clock v a v' := by
  cases a <;> simp only [perform] at h
  case reject i reason =>
    split at h
    · next hh => exact Option.some.inj h ▸ .reject hh
    · cases h
  case fetchId i prompt maxNew now =>
    split at h
    · next hh => exact Option.some.inj h ▸ .fetchId hh
    · cases h
  case push i =>
    split at h
    · next hh =>
      split_ifs at h with hq
      · exact Option.some.inj h ▸ .push hh hq
      · exact Option.some.inj h ▸ .full hh hq
    · cases h
  case refuse i =>
    split at h
    · next hh he => exact Option.some.inj h ▸ .refuse hh he
    · cases h
  case pushReturn i =>
    split at h
    · next hh => exact Option.some.inj h ▸ .pushReturn hh
    · cases h
  case upsertNew i =>
    split at h
    · next hh => exact Option.some.inj h ▸ .upsertNew hh
    · cases h
  case pop =>
    split at h
    · next he hq =>
      split_ifs at h with hd
      exact Option.some.inj h ▸ .pop he hq hd
    · cases h
  case admitPopped =>
    split at h
    · next he => exact Option.some.inj h ▸ .admitPopped he
    · cases h
  case step stalled =>
    split at h
    · next he =>
      split_ifs at h with hd
      split at h
      · next hs => exact Option.some.inj h ▸ .step he hd hs
      · cases h
    · cases h
  case store =>
    split at h
    · next he => exact Option.some.inj h ▸ .store he
    · cases h
  case again =>
    split at h
    · next he => exact Option.some.inj h ▸ .again he
    · cases h

theorem perform_of_step {clock : ℕ → ℤ} {v v' : Server} {a : Action} (h : Step clock v a v') :
    v.perform clock a = some v' := by
  cases h with
  | reject hh | fetchId hh | pushReturn hh | upsertNew hh => simp only [perform, hh]
  | push hh hq => simp only [perform, hh, if_pos hq]
  | full hh hq => simp only [perform, hh, if_neg hq]
  | refuse hh he => simp only [perform, hh, he]
  | pop he hq hd => simp only [perform, he, hq, if_pos hd]
  | admitPopped he | store he | again he => simp only [perform, he]
  | step he hd hs => simp only [perform, he, if_pos hd, hs]

/-! ## The queue -/

/-- Where the handlers and, for `none`, the engine are with the queue. -/
def phases (v : Server) : Option ℕ → Phase (Op Sequence) (Reply Sequence)
  | some h =>
    match v.handler h with
    | .hasSequence seq => .called (.push seq)
    | .pushing _ => .replied (.pushed true)
    | _ => .idle
  | none =>
    match v.engine with
    | .draining drained => if drained < 256 then .called .pop else .idle
    | .popped _ seq => .replied (.popped (some seq))
    | .storing _ => .idle

section Effects

variable {clock : ℕ → ℤ} {v : Server} {h n : ℕ} {seq : Sequence} {q : List Sequence}

theorem replied_popped_iff : (∃ i seq, v.phases i = .replied (.popped (some seq))) ↔
    ∃ n seq, v.engine = .popped n seq := by
  constructor
  · rintro ⟨_ | h, seq, hi⟩
    · simp only [phases] at hi
      split at hi
      · split_ifs at hi
      · next n seq' he => exact ⟨n, seq', he⟩
      · cases hi
    · simp only [phases] at hi
      split at hi <;> cases hi
  · rintro ⟨n, seq, he⟩
    exact ⟨none, seq, by simp only [phases, he]⟩

theorem replied_pushed_iff : (∃ i, v.phases i = .replied (.pushed true)) ↔
    ∃ h, (v.handler h).isPushing := by
  constructor
  · rintro ⟨_ | h, hi⟩
    · simp only [phases] at hi
      split at hi
      · split_ifs at hi
      · cases hi
      · cases hi
    · simp only [phases] at hi
      split at hi
      · cases hi
      · next hh => exact ⟨h, by rw [hh]; rfl⟩
      · cases hi
  · rintro ⟨h, hh⟩
    refine ⟨some h, ?_⟩
    cases hx : v.handler h with
    | pushing i => simp only [phases, hx]
    | _ => simp [hx, Handler.isPushing] at hh

/-- **A push** does what it may on the queue, and the handler gets its reply. -/
theorem push_effect (hb : v.queue.length ≤ kIngressQueueCapacity)
    (hh : v.handler h = .hasSequence seq) (ok : Bool) :
    QueueEffect kIngressQueueCapacity v.phases v.queue (.push seq) (.pushed ok) q ↔
      ∃ a v', (a = .push h ∨ a = .refuse h) ∧ v.perform clock a = some v' ∧ v'.queue = q ∧
        v'.handler h = if ok then .pushing seq.id
          else .returned (.rejected 503 "ingress queue full") := by
  constructor
  · intro heff
    cases ok with
    | true =>
      obtain ⟨rfl, hlt⟩ := heff.push_true
      refine ⟨.push h, _, .inl rfl, perform_of_step (.push hh hlt), rfl, ?_⟩
      simp [handler_setHandler]
    | false =>
      obtain ⟨rfl, hfull | hpop⟩ := heff.push_false
      · refine ⟨.push h, _, .inl rfl, perform_of_step (.full hh hfull.not_lt), rfl, ?_⟩
        simp [handler_setHandler]
      · obtain ⟨n, seq', he⟩ := replied_popped_iff.1 hpop
        refine ⟨.refuse h, _, .inr rfl, perform_of_step (.refuse hh he), rfl, ?_⟩
        simp [handler_setHandler]
  · rintro ⟨a, v', ha, hp, rfl, hreply⟩
    have hst := step_of_perform hp
    rcases ha with rfl | rfl
    · cases hst with
      | push hh' hlt =>
        cases hh.symm.trans hh'
        cases ok with
        | true => exact .push _ _ hlt
        | false => simp [handler_setHandler] at hreply
      | full hh' hfull =>
        cases ok with
        | true => simp [handler_setHandler] at hreply
        | false => exact .full _ _ (.inl (hb.antisymm (Nat.not_lt.1 hfull)))
    · cases hst with
      | refuse hh' he =>
        cases ok with
        | true => simp [handler_setHandler] at hreply
        | false => exact .full _ _ (.inr (replied_popped_iff.2 ⟨_, _, he⟩))

/-- **A pop that returns a sequence.** -/
theorem pop_effect (he : v.engine = .draining n) (hn : n < 256) :
    QueueEffect kIngressQueueCapacity v.phases v.queue .pop (.popped (some seq)) q ↔
      ∃ v', v.perform clock .pop = some v' ∧ v'.queue = q ∧ v'.engine = .popped n seq := by
  constructor
  · intro heff
    have hq := heff.pop_some
    exact ⟨_, perform_of_step (.pop he hq hn), rfl, rfl⟩
  · rintro ⟨v', hp, rfl, heng⟩
    cases step_of_perform hp with
    | pop he' hq hd =>
      cases heng
      rw [hq]
      exact .pop _ _

/-- **A pop that fails** ends the drain loop. -/
theorem pop_none_effect (hn : n < 256) :
    QueueEffect kIngressQueueCapacity v.phases v.queue .pop (.popped none) q ↔
      q = v.queue ∧ ∃ stalled, v.DrainEnds n stalled := by
  constructor
  · intro heff
    obtain ⟨rfl, hq⟩ := heff.pop_none
    refine ⟨rfl, ?_⟩
    by_cases hnil : v.queue = []
    · exact ⟨none, .inr hnil⟩
    · obtain ⟨h, hh⟩ := replied_pushed_iff.1 (hq.resolve_left hnil)
      exact ⟨some h, hn, hnil, hh⟩
  · rintro ⟨rfl, _ | h, hends⟩
    · exact .empty _ (.inl (hends.resolve_left (Nat.not_le.2 hn)))
    · exact .empty _ (.inr (replied_pushed_iff.2 ⟨h, hends.2.2⟩))

end Effects

end Server

end AetherMoE
