import AetherMoE.Core.MetricStats
import AetherMoE.Lib.AtomicObject

/-!
# The life of a flusher

`TelemetryFlusher` of `telemetry.hpp` with its background thread: `start`, `stop`, `drain_once`,
`snapshot` and the destructor, called by the thread that owns the flusher, while any number of
threads record samples. Every exchange, load, lock, unlock, push and pop is a step of its own. The
ring is the atomic queue that `LockFreeRingBuffer` implements: it may refuse while an operation of
the other kind has taken effect and not returned.

* `Drain`, `DrainStep`: the steps of `drain_once`, for whichever thread calls it;
* `Owner`, `Background`, `Recorder`, `State`, `Step`: the threads and what they share;
* `Inv`, **`inv_step`**: who holds the mutex, which thread runs, and where the samples are;
* **`flusher_safe`**: the process is never terminated, one thread at a time touches the vectors,
  and every snapshot is of the samples recorded first;
* **`stop_returns`**: `stop` is never stuck and returns after a bounded number of steps;
* **`stop_complete`**: after a `stop` that no `record` overlaps, the vectors are complete.
-/

namespace AetherMoE.Telemetry.Lifecycle

open Fifo Stepping
open AtomicObject (Phase QueueEffect)

variable {τ : Type}

/-! ## `drain_once` -/

/-- Where a `drain_once` is: before the lock, in the loop, with a sample popped and not yet
stored, before the unlock. -/
inductive Drain
  | lock
  | pop
  | took (sample : MetricSample)
  | unlock

/-- What `drain_once` works on. -/
structure Memory where
  locked : Bool := false
  ring : List MetricSample := []
  vectors : Flusher := {}

/-- The threads that the ring serves. -/
inductive Who (τ : Type)
  | recorder (i : τ)
  | owner
  | background

/-- A step of `drain_once`; `none` when it returns. -/
inductive DrainStep (phases : Who τ → Phase (Op MetricSample) (Reply MetricSample)) :
    Memory → Drain → Memory → Option Drain → Prop
  | lock (m : Memory) : m.locked = false →
      DrainStep phases m .lock { m with locked := true } (some .pop)
  | take (m : Memory) (x : MetricSample) (ring : List MetricSample) :
      QueueEffect (Ring.capacity ringBits) phases m.ring .pop (.popped (some x)) ring →
      DrainStep phases m .pop { m with ring := ring } (some (.took x))
  | store (m : Memory) (x : MetricSample) :
      DrainStep phases m (.took x) { m with vectors := m.vectors.take x } (some .pop)
  | empty (m : Memory) (ring : List MetricSample) :
      QueueEffect (Ring.capacity ringBits) phases m.ring .pop (.popped none) ring →
      DrainStep phases m .pop { m with ring := ring } (some .unlock)
  | unlock (m : Memory) : DrainStep phases m .unlock { m with locked := false } none

/-- Where `drain_once` is with the ring. -/
def Drain.phase : Drain → Phase (Op MetricSample) (Reply MetricSample)
  | .pop => .called .pop
  | .took x => .replied (.popped (some x))
  | _ => .idle

/-! ## The threads -/

/-- The background thread, in `run`. -/
inductive Background
  | check
  | draining (d : Drain)
  | sleeping
  | exited

/-- The owner: between calls, in `start` after the exchange, in `stop` after the exchange and in
its final drain (`last` when the destructor called it), in `drain_once`, in `snapshot` before and
behind the lock, and past the destructor. -/
inductive Owner
  | idle
  | spawning
  | joining (last : Bool)
  | finalDrain (last : Bool) (d : Drain)
  | draining (d : Drain)
  | reading
  | copying
  | gone

/-- A recording thread, in `record`: outside, in `try_push` before it takes effect and after, and
before the drop is counted. -/
inductive Recorder
  | idle
  | pushing (sample : MetricSample)
  | pushed
  | refused

/-- The recorder's members, the flusher's members and every thread. `thread` is `thread_`, `none`
while it is not joinable; `terminated` says that `std::terminate` was called. `recorded` and
`snapshots` are the history: the samples that entered the ring, and what `snapshot` returned. -/
structure State (τ : Type) where
  enabled : Bool := true
  dropped : UInt64 := 0
  running : Bool := false
  mem : Memory := {}
  thread : Option Background := none
  owner : Owner := .idle
  recorders : τ → Recorder := fun _ => .idle
  terminated : Bool := false
  recorded : List MetricSample := []
  snapshots : List (Option TelemetrySnapshot) := []

/-- Where every thread is with the ring. -/
def State.phases (s : State τ) : Who τ → Phase (Op MetricSample) (Reply MetricSample)
  | .recorder i =>
    match s.recorders i with
    | .idle => .idle
    | .pushing x => .called (.push x)
    | .pushed => .replied (.pushed true)
    | .refused => .replied (.pushed false)
  | .owner =>
    match s.owner with
    | .finalDrain _ d => d.phase
    | .draining d => d.phase
    | _ => .idle
  | .background =>
    match s.thread with
    | some (.draining d) => d.phase
    | _ => .idle

/-- The end of `stop`, and of the destructor: destroying a joinable `thread_` terminates. -/
def State.stopped (s : State τ) (last : Bool) : State τ :=
  if last then { s with owner := .gone, terminated := s.terminated || s.thread.isSome }
  else { s with owner := .idle }

/-- `snapshot`, behind the lock. -/
def State.snapshot (s : State τ) : Option TelemetrySnapshot :=
  Telemetry.snapshot () { dropped := s.dropped, flushers := fun _ => s.mem.vectors }

/-- Whose step it is, and whether a sample entered the ring. -/
inductive Move
  | record
  | push
  | flush
  deriving Repr, DecidableEq

/-- One step of one thread. Assigning to a joinable `thread_` terminates. -/
inductive Step [DecidableEq τ] : State τ → List Move → State τ → Prop
  -- The recording threads.
  | setEnabled (s : State τ) (on : Bool) : Step s [.record] { s with enabled := on }
  | disabled (s : State τ) (i : τ) : s.recorders i = .idle → s.enabled = false →
      Step s [.record] s
  | record (s : State τ) (i : τ) (x : MetricSample) : s.recorders i = .idle → s.enabled = true →
      Step s [.record] { s with recorders := Function.update s.recorders i (.pushing x) }
  | push (s : State τ) (i : τ) (x : MetricSample) (ring : List MetricSample) :
      s.recorders i = .pushing x →
      QueueEffect (Ring.capacity ringBits) s.phases s.mem.ring (.push x) (.pushed true) ring →
      Step s [.push] { s with
        mem := { s.mem with ring := ring }
        recorders := Function.update s.recorders i .pushed
        recorded := s.recorded ++ [x] }
  | refuse (s : State τ) (i : τ) (x : MetricSample) (ring : List MetricSample) :
      s.recorders i = .pushing x →
      QueueEffect (Ring.capacity ringBits) s.phases s.mem.ring (.push x) (.pushed false) ring →
      Step s [.record] { s with
        mem := { s.mem with ring := ring }
        recorders := Function.update s.recorders i .refused }
  | pushReturn (s : State τ) (i : τ) : s.recorders i = .pushed →
      Step s [.record] { s with recorders := Function.update s.recorders i .idle }
  | drop (s : State τ) (i : τ) : s.recorders i = .refused →
      Step s [.record] { s with
        dropped := s.dropped + 1
        recorders := Function.update s.recorders i .idle }
  -- The owner.
  | startAgain (s : State τ) : s.owner = .idle → s.running = true → Step s [.flush] s
  | start (s : State τ) : s.owner = .idle → s.running = false →
      Step s [.flush] { s with running := true, owner := .spawning }
  | spawn (s : State τ) : s.owner = .spawning →
      Step s [.flush] { s with
        thread := some .check
        owner := .idle
        terminated := s.terminated || s.thread.isSome }
  | stopAgain (s : State τ) (last : Bool) : s.owner = .idle → s.running = false →
      Step s [.flush] (s.stopped last)
  | stop (s : State τ) (last : Bool) : s.owner = .idle → s.running = true →
      Step s [.flush] { s with running := false, owner := .joining last }
  | notJoinable (s : State τ) (last : Bool) : s.owner = .joining last → s.thread = none →
      Step s [.flush] { s with owner := .finalDrain last .lock }
  | join (s : State τ) (last : Bool) : s.owner = .joining last → s.thread = some .exited →
      Step s [.flush] { s with thread := none, owner := .finalDrain last .lock }
  | finalDrain (s : State τ) (last : Bool) (d d' : Drain) (m : Memory) :
      s.owner = .finalDrain last d → DrainStep s.phases s.mem d m (some d') →
      Step s [.flush] { s with mem := m, owner := .finalDrain last d' }
  | finalDrained (s : State τ) (last : Bool) (d : Drain) (m : Memory) :
      s.owner = .finalDrain last d → DrainStep s.phases s.mem d m none →
      Step s [.flush] ({ s with mem := m }.stopped last)
  | drainOnce (s : State τ) : s.owner = .idle → Step s [.flush] { s with owner := .draining .lock }
  | drain (s : State τ) (d d' : Drain) (m : Memory) : s.owner = .draining d →
      DrainStep s.phases s.mem d m (some d') →
      Step s [.flush] { s with mem := m, owner := .draining d' }
  | drained (s : State τ) (d : Drain) (m : Memory) : s.owner = .draining d →
      DrainStep s.phases s.mem d m none → Step s [.flush] { s with mem := m, owner := .idle }
  | snapshot (s : State τ) : s.owner = .idle → Step s [.flush] { s with owner := .reading }
  | snapshotLock (s : State τ) : s.owner = .reading → s.mem.locked = false →
      Step s [.flush] { s with mem := { s.mem with locked := true }, owner := .copying }
  | snapshotReturn (s : State τ) : s.owner = .copying →
      Step s [.flush] { s with
        mem := { s.mem with locked := false }
        owner := .idle
        snapshots := s.snapshots ++ [s.snapshot] }
  -- The background thread.
  | loop (s : State τ) : s.thread = some .check → s.running = true →
      Step s [.flush] { s with thread := some (.draining .lock) }
  | exit (s : State τ) : s.thread = some .check → s.running = false →
      Step s [.flush] { s with thread := some .exited }
  | runDrain (s : State τ) (d d' : Drain) (m : Memory) : s.thread = some (.draining d) →
      DrainStep s.phases s.mem d m (some d') →
      Step s [.flush] { s with mem := m, thread := some (.draining d') }
  | runDrained (s : State τ) (d : Drain) (m : Memory) : s.thread = some (.draining d) →
      DrainStep s.phases s.mem d m none →
      Step s [.flush] { s with mem := m, thread := some .sleeping }
  | wake (s : State τ) : s.thread = some .sleeping →
      Step s [.flush] { s with thread := some .check }

/-! ## The lock and the samples -/

/-- The lock is held, and a sample that was popped and not stored. -/
def Drain.guard : Drain → Bool × List MetricSample
  | .lock => (false, [])
  | .pop => (true, [])
  | .took x => (true, [x])
  | .unlock => (true, [])

/-- The vectors once these samples are in them. -/
def drained (samples : List MetricSample) : Flusher :=
  ⟨latencies .ttft samples, latencies .interToken samples⟩

/-- Two threads share the mutex, and what was recorded is in the vectors, in a hand or in the
ring, in this order. -/
structure Guarded (m : Memory) (recorded : List MetricSample) (a b : Bool × List MetricSample) :
    Prop where
  locked : m.locked = (a.1 || b.1)
  exclusive : (a.1 && b.1) = false
  hand_left : a.1 = false → a.2 = []
  hand_right : b.1 = false → b.2 = []
  samples : ∃ taken, m.vectors = drained taken ∧ recorded = taken ++ (a.2 ++ (b.2 ++ m.ring))

variable {phases : Who τ → Phase (Op MetricSample) (Reply MetricSample)} {m m' : Memory}
  {d : Drain} {d' : Option Drain} {recorded : List MetricSample} {a b : Bool × List MetricSample}

theorem drained_take (samples : List MetricSample) (x : MetricSample) :
    (drained samples).take x = drained (samples ++ [x]) := by
  rw [Flusher.take_eq, drained, drained, latencies_append, latencies_append]

theorem Guarded.swap (h : Guarded m recorded a b) : Guarded m recorded b a := by
  obtain ⟨taken, hv, hr⟩ := h.samples
  have hx := h.exclusive
  refine ⟨by rw [h.locked, Bool.or_comm], by rw [Bool.and_comm, hx], h.hand_right, h.hand_left,
    taken, hv, ?_⟩
  cases ha : a.1 with
  | false =>
    rw [hr, h.hand_left ha]
    rfl
  | true =>
    rw [ha, Bool.true_and] at hx
    rw [hr, h.hand_right hx]
    rfl

/-- **A step of `drain_once`**: the thread is alone behind the lock, and samples move from the ring
through its hand into the vectors. -/
theorem Guarded.drain (hG : Guarded m recorded d.guard b) (h : DrainStep phases m d m' d') :
    Guarded m' recorded (d'.elim (false, []) Drain.guard) b := by
  obtain ⟨hl, hx, -, hb, taken, hv, hr⟩ := hG
  cases h with
  | lock hm =>
    rw [hm] at hl
    have hout : b.1 = false := hl.symm
    exact ⟨by rw [hout]; rfl, hout, fun h => (by cases h), hb, taken, hv, hr⟩
  | take x ring hq =>
    have hout : b.1 = false := hx
    rw [hb hout, hq.pop_some] at hr
    refine ⟨hl, hx, fun h => (by cases h), hb, taken, hv, ?_⟩
    rw [hb hout]
    exact hr
  | store x =>
    refine ⟨hl, hx, fun h => (by cases h), hb, taken ++ [x], ?_, ?_⟩
    · rw [← drained_take, ← hv]
    · rw [List.append_assoc]
      exact hr
  | empty ring hq =>
    rw [hq.pop_none.1]
    exact ⟨hl, hx, fun h => (by cases h), hb, taken, hv, hr⟩
  | unlock =>
    have hout : b.1 = false := hx
    exact ⟨by rw [hout]; rfl, rfl, fun _ => rfl, hb, taken, hv, hr⟩

theorem Guarded.push (hG : Guarded m recorded a b) (x : MetricSample) :
    Guarded { m with ring := m.ring ++ [x] } (recorded ++ [x]) a b := by
  obtain ⟨hl, hx, ha, hb, taken, hv, hr⟩ := hG
  refine ⟨hl, hx, ha, hb, taken, hv, ?_⟩
  rw [hr]
  simp only [List.append_assoc]

/-- The lock of `snapshot`. -/
theorem Guarded.lock (hG : Guarded m recorded (false, []) b) (hm : m.locked = false) :
    Guarded { m with locked := true } recorded (true, []) b := by
  obtain ⟨hl, hx, -, hb, hs⟩ := hG
  rw [hm] at hl
  have hout : b.1 = false := hl.symm
  exact ⟨by rw [hout]; rfl, hout, fun _ => rfl, hb, hs⟩

theorem Guarded.unlock (hG : Guarded m recorded (true, []) b) :
    Guarded { m with locked := false } recorded (false, []) b := by
  obtain ⟨hl, hx, -, hb, hs⟩ := hG
  have hout : b.1 = false := hx
  exact ⟨by rw [hout]; rfl, rfl, fun _ => rfl, hb, hs⟩

/-! ## The invariant -/

/-- What the owner holds. -/
def Owner.guard : Owner → Bool × List MetricSample
  | .finalDrain _ d => d.guard
  | .draining d => d.guard
  | .copying => (true, [])
  | _ => (false, [])

/-- What the background thread holds. -/
def Background.guard : Background → Bool × List MetricSample
  | .draining d => d.guard
  | _ => (false, [])

/-- What the thread of `thread_` holds. -/
def threadGuard (thread : Option Background) : Bool × List MetricSample :=
  thread.elim (false, []) Background.guard

/-- What `running_` and `thread_` are while the owner is where it is. -/
def Managed (running : Bool) (thread : Option Background) : Owner → Prop
  | .spawning => running = true ∧ thread = none
  | .joining _ => running = false ∧ thread.isSome = true
  | .finalDrain _ _ => running = false ∧ thread = none
  | .gone => running = false ∧ thread = none
  | _ => running = thread.isSome

/-- A snapshot of the samples recorded first. -/
def IsPrefixSnapshot (recorded : List MetricSample) (snap : Option TelemetrySnapshot) : Prop :=
  ∃ taken dropped, taken <+: recorded ∧
    snap = Telemetry.snapshot () { dropped := dropped, flushers := fun _ => drained taken }

/-- **The invariant** of the flusher and its threads. -/
structure Inv (s : State τ) : Prop where
  alive : s.terminated = false
  managed : Managed s.running s.thread s.owner
  exited : s.thread = some .exited → s.running = false
  guarded : Guarded s.mem s.recorded s.owner.guard (threadGuard s.thread)
  snapshots : ∀ snap ∈ s.snapshots, IsPrefixSnapshot s.recorded snap

theorem inv_init : Inv ({} : State τ) where
  alive := rfl
  managed := rfl
  exited h := by cases h
  guarded := ⟨rfl, rfl, fun _ => rfl, fun _ => rfl, [], rfl, rfl⟩
  snapshots _ h := by cases h

theorem IsPrefixSnapshot.mono {snap : Option TelemetrySnapshot}
    (h : IsPrefixSnapshot recorded snap) (x : MetricSample) :
    IsPrefixSnapshot (recorded ++ [x]) snap := by
  obtain ⟨taken, dropped, hp, hs⟩ := h
  exact ⟨taken, dropped, hp.trans (List.prefix_append _ _), hs⟩

/-- What `snapshot` returns behind the lock. -/
theorem Inv.snapshot {s : State τ} (hI : Inv s) : IsPrefixSnapshot s.recorded s.snapshot := by
  obtain ⟨taken, hv, hr⟩ := hI.guarded.samples
  refine ⟨taken, s.dropped, ?_, ?_⟩
  · rw [hr]
    exact List.prefix_append _ _
  · rw [State.snapshot, hv]

/-- The end of `stop` with nothing joinable left. -/
theorem Inv.stopped {s : State τ} (hI : Inv s) (hrun : s.running = false) (hth : s.thread = none)
    (hout : s.owner.guard = (false, [])) (last : Bool) : Inv (s.stopped last) := by
  obtain ⟨ha, -, -, hg, hs⟩ := hI
  rw [hout] at hg
  cases last with
  | true =>
    exact ⟨by rw [State.stopped, if_pos rfl, ha, hth]; rfl, ⟨hrun, hth⟩, fun _ => hrun, hg, hs⟩
  | false =>
    refine ⟨ha, ?_, fun _ => hrun, hg, hs⟩
    show s.running = s.thread.isSome
    rw [hrun, hth]
    rfl

/-- A flusher that is not running, between calls, has no thread. -/
theorem thread_eq_none {running : Bool} {thread : Option Background}
    (hm : Managed running thread .idle) (hr : running = false) : thread = none := by
  subst hr
  exact Option.not_isSome_iff_eq_none.mp fun h => Bool.false_ne_true (Eq.trans hm h)

/-- The owner does not see where the background thread is. -/
theorem Managed.move {running : Bool} {o : Owner} {bg bg' : Background}
    (hm : Managed running (some bg) o) : Managed running (some bg') o := by
  cases o with
  | spawning | finalDrain | gone => cases hm.2
  | _ => exact hm

variable [DecidableEq τ]

/-- **Every step of every thread keeps the invariant.** -/
theorem inv_step {s t : State τ} {ms : List Move} (hI : Inv s) (h : Step s ms t) : Inv t := by
  have hm := hI.managed
  have hg := hI.guarded
  cases h with
  | setEnabled | record | pushReturn | drop => exact { hI with }
  | disabled | startAgain => exact hI
  | push i x ring hi hq =>
    rw [hq.push_true.1]
    exact ⟨hI.alive, hm, hI.exited, hg.push x, fun snap hs => (hI.snapshots snap hs).mono x⟩
  | refuse i x ring hi hq =>
    rw [hq.push_false.1]
    exact { hI with }
  | start ho hr =>
    rw [ho] at hm hg
    have hnone := thread_eq_none hm hr
    exact ⟨hI.alive, ⟨rfl, hnone⟩, fun h => (by rw [hnone] at h; cases h), hg, hI.snapshots⟩
  | spawn ho =>
    rw [ho] at hm hg
    have hnone := hm.2
    rw [hnone] at hg
    exact ⟨by rw [hnone, hI.alive]; rfl, hm.1, fun h => (by cases h), hg, hI.snapshots⟩
  | stopAgain last ho hr =>
    rw [ho] at hm
    exact hI.stopped hr (thread_eq_none hm hr) (by rw [ho]; rfl) last
  | stop last ho hr =>
    rw [ho] at hm hg
    exact ⟨hI.alive, ⟨rfl, hm.symm.trans hr⟩, fun _ => rfl, hg, hI.snapshots⟩
  | notJoinable last ho hth =>
    rw [ho] at hm hg
    exact ⟨hI.alive, ⟨hm.1, hth⟩, fun _ => hm.1, hg, hI.snapshots⟩
  | join last ho hth =>
    rw [ho] at hm hg
    rw [hth] at hg
    exact ⟨hI.alive, ⟨hm.1, rfl⟩, fun _ => hm.1, hg, hI.snapshots⟩
  | finalDrain last d d' m ho hd =>
    rw [ho] at hm hg
    exact ⟨hI.alive, hm, hI.exited, hg.drain hd, hI.snapshots⟩
  | finalDrained last d m ho hd =>
    rw [ho] at hm hg
    have hidle : s.running = s.thread.isSome := by
      rw [hm.1, hm.2]
      rfl
    have hI' : Inv ({ s with mem := m, owner := .idle } : State τ) :=
      ⟨hI.alive, hidle, hI.exited, hg.drain hd, hI.snapshots⟩
    exact hI'.stopped hm.1 hm.2 rfl last
  | drainOnce ho =>
    rw [ho] at hm hg
    exact ⟨hI.alive, hm, hI.exited, hg, hI.snapshots⟩
  | drain d d' m ho hd =>
    rw [ho] at hm hg
    exact ⟨hI.alive, hm, hI.exited, hg.drain hd, hI.snapshots⟩
  | drained d m ho hd =>
    rw [ho] at hm hg
    exact ⟨hI.alive, hm, hI.exited, hg.drain hd, hI.snapshots⟩
  | snapshot ho =>
    rw [ho] at hm hg
    exact ⟨hI.alive, hm, hI.exited, hg, hI.snapshots⟩
  | snapshotLock ho hl =>
    rw [ho] at hm hg
    exact ⟨hI.alive, hm, hI.exited, hg.lock hl, hI.snapshots⟩
  | snapshotReturn ho =>
    have hsnap := hI.snapshot
    rw [ho] at hm hg
    refine ⟨hI.alive, hm, hI.exited, hg.unlock, fun snap hs => ?_⟩
    rcases List.mem_append.mp hs with hs | hs
    · exact hI.snapshots snap hs
    · rw [List.mem_singleton.mp hs]
      exact hsnap
  | loop hth hr =>
    rw [hth] at hm hg
    exact ⟨hI.alive, hm.move, fun h => (by cases h), hg, hI.snapshots⟩
  | exit hth hr =>
    rw [hth] at hm hg
    exact ⟨hI.alive, hm.move, fun _ => hr, hg, hI.snapshots⟩
  | runDrain d d' m hth hd =>
    rw [hth] at hm hg
    exact ⟨hI.alive, hm.move, fun h => (by cases h), (hg.swap.drain hd).swap, hI.snapshots⟩
  | runDrained d m hth hd =>
    rw [hth] at hm hg
    exact ⟨hI.alive, hm.move, fun h => (by cases h), (hg.swap.drain hd).swap, hI.snapshots⟩
  | wake hth =>
    rw [hth] at hm hg
    exact ⟨hI.alive, hm.move, fun h => (by cases h), hg, hI.snapshots⟩

theorem inv_reach {s : State τ} {out : List Move} (h : Trace Step {} out s) : Inv s := by
  have hstep : ∀ (out : List Move) s ms t, Inv s → Step s ms t → Inv t :=
    fun _ _ _ _ hI hst => inv_step (τ := τ) hI hst
  exact h.invariant (P := fun _ s => Inv s) inv_init hstep

/-- **Safety of the flusher** in every state of every run: `std::terminate` is not called, the
owner and the background thread are never both behind the lock, what was recorded is in the
vectors, in a hand or in the ring, in this order, and every snapshot returned the statistics of
the samples recorded first. -/
theorem flusher_safe {s : State τ} {out : List Move} (h : Trace Step {} out s) :
    s.terminated = false ∧ (s.owner.guard.1 && (threadGuard s.thread).1) = false ∧
    (∃ taken, s.mem.vectors = drained taken ∧
      s.recorded = taken ++ (s.owner.guard.2 ++ ((threadGuard s.thread).2 ++ s.mem.ring))) ∧
    ∀ snap ∈ s.snapshots, snap.isSome = true ∧ IsPrefixSnapshot s.recorded snap := by
  have hI := inv_reach h
  refine ⟨hI.alive, hI.guarded.exclusive, hI.guarded.samples, fun snap hs => ?_⟩
  have hsnap := hI.snapshots snap hs
  refine ⟨?_, hsnap⟩
  obtain ⟨taken, dropped, -, rfl⟩ := hsnap
  obtain ⟨v, hv, -⟩ := exists_snapshot ()
    ({ dropped := dropped, flushers := fun _ => drained taken } : Telemetry.State Unit)
  rw [hv]
  rfl

/-- One sample, recorded, drained by the background thread and snapshot. -/
theorem flusher_safe_one : ∃ (s : State Unit) (taken : List MetricSample),
    taken = [⟨1, .ttft, 5⟩] ∧ s.mem.vectors = drained taken ∧ s.snapshots.length = 1 ∧
    ∀ snap ∈ s.snapshots, snap.isSome = true ∧ IsPrefixSnapshot s.recorded snap := by
  have r₁ : Trace Step ({} : State Unit) _ _ := .single (.record _ () ⟨1, .ttft, 5⟩ rfl rfl)
  have r₂ := r₁.snoc (.push _ () ⟨1, .ttft, 5⟩ _ rfl (.push [] _ (by decide)))
  have r₃ := r₂.snoc (.start _ rfl rfl)
  have r₄ := r₃.snoc (.spawn _ rfl)
  have r₅ := r₄.snoc (.loop _ rfl rfl)
  have r₆ := r₅.snoc (.runDrain _ _ _ _ rfl (.lock _ rfl))
  have r₇ := r₆.snoc (.runDrain _ _ _ _ rfl (.take _ ⟨1, .ttft, 5⟩ _ (.pop [] _)))
  have r₈ := r₇.snoc (.runDrain _ _ _ _ rfl (.store _ _))
  have r₉ := r₈.snoc (.runDrain _ _ _ _ rfl (.empty _ _ (.empty [] (Or.inl rfl))))
  have r₁₀ := r₉.snoc (.runDrained _ _ _ rfl (.unlock _))
  have r₁₁ := r₁₀.snoc (.snapshot _ rfl)
  have r₁₂ := r₁₁.snoc (.snapshotLock _ rfl rfl)
  have r₁₃ := r₁₂.snoc (.snapshotReturn _ rfl)
  obtain ⟨-, -, -, hs⟩ := flusher_safe r₁₃
  exact ⟨_, _, rfl, rfl, rfl, hs⟩

/-! ## `stop` returns -/

/-- The steps to the end of `drain_once`, for an empty ring. -/
def Drain.rank : Drain → ℕ
  | .lock => 3
  | .pop => 2
  | .took _ => 3
  | .unlock => 1

/-- The steps to the end of `run`, once `running_` is false. -/
def Background.rank : Background → ℕ
  | .exited => 0
  | .check => 1
  | .sleeping => 2
  | .draining d => 2 + d.rank

/-- The steps of the owner to the end of `stop`. -/
def Owner.rank : Owner → ℕ
  | .joining _ => 4
  | .finalDrain _ d => d.rank
  | _ => 0

/-- The owner is in `stop`, past the exchange. -/
def Owner.stopping : Owner → Bool
  | .joining _ => true
  | .finalDrain _ _ => true
  | _ => false

/-- The steps to the end of `stop`: two for each sample in the ring, and those of both threads. -/
def State.rank (s : State τ) : ℕ :=
  2 * s.mem.ring.length + s.thread.elim 0 Background.rank + s.owner.rank

/-- A step while the owner is in `stop`. -/
def Stopping (s : State τ) (ms : List Move) (t : State τ) : Prop :=
  s.owner.stopping = true ∧ Step s ms t

theorem Managed.not_running {running : Bool} {thread : Option Background} {o : Owner}
    (hm : Managed running thread o) (hstop : o.stopping = true) : running = false := by
  cases o with
  | joining | finalDrain => exact hm.1
  | _ => cases hstop

omit [DecidableEq τ] in
theorem DrainStep.rank (h : DrainStep phases m d m' d') :
    2 * m'.ring.length + d'.elim 0 Drain.rank + 1 = 2 * m.ring.length + d.rank := by
  cases h with
  | lock | store | unlock => rfl
  | take x ring hq =>
    rw [hq.pop_some, List.length_cons]
    simp only [Option.elim_some, Drain.rank]
    omega
  | empty ring hq =>
    rw [hq.pop_none.1]
    rfl

/-- **Each step of the two threads brings the end of `stop` closer**, and each push puts it off by
two. -/
theorem rank_step {s t : State τ} {ms : List Move} (hI : Inv s) (h : Stopping s ms t) :
    ms.count .flush + t.rank ≤ s.rank + 2 * ms.count .push := by
  obtain ⟨hstop, h⟩ := h
  have hm := hI.managed
  cases h with
  | setEnabled | disabled | record | pushReturn | drop => exact (Nat.zero_add s.rank).le
  | push i x ring hi hq =>
    rw [hq.push_true.1]
    simp [State.rank]
    omega
  | refuse i x ring hi hq =>
    rw [hq.push_false.1]
    exact (Nat.zero_add s.rank).le
  | startAgain ho | start ho | spawn ho | stopAgain _ ho | stop _ ho | drainOnce ho | drain _ _ _ ho
  | drained _ _ ho | snapshot ho | snapshotLock ho | snapshotReturn ho =>
    rw [ho] at hstop
    cases hstop
  | notJoinable last ho hth =>
    rw [ho, hth] at hm
    cases hm.2
  | join last ho hth =>
    simp [State.rank, ho, hth, Owner.rank, Background.rank, Drain.rank]
    omega
  | finalDrain last d d' m ho hd =>
    have hr := hd.rank
    simp [State.rank, ho, Owner.rank] at hr ⊢
    omega
  | finalDrained last d m ho hd =>
    have hr := hd.rank
    cases last <;> simp [State.rank, State.stopped, ho, Owner.rank] at hr ⊢ <;> omega
  | loop hth hr => exact absurd (hr.symm.trans (hm.not_running hstop)) (by simp)
  | exit hth hr =>
    simp [State.rank, hth, Background.rank]
    omega
  | runDrain d d' m hth hd =>
    have hr := hd.rank
    simp [State.rank, hth, Background.rank] at hr ⊢
    omega
  | runDrained d m hth hd =>
    have hr := hd.rank
    simp [State.rank, hth, Background.rank] at hr ⊢
    omega
  | wake hth =>
    simp [State.rank, hth, Background.rank]
    omega

omit [DecidableEq τ] in
/-- A thread that drains can take a step unless it waits for the lock. -/
theorem exists_drainStep (phases : Who τ → Phase (Op MetricSample) (Reply MetricSample))
    (m : Memory) (d : Drain) (hl : d.guard.1 = false → m.locked = false) :
    ∃ m' d', DrainStep phases m d m' d' := by
  cases d with
  | lock => exact ⟨_, _, .lock m (hl rfl)⟩
  | pop =>
    obtain ⟨out, ring, hq⟩ := AtomicObject.exists_pop (Ring.capacity ringBits) phases m.ring
    cases out with
    | none => exact ⟨_, _, .empty m ring hq⟩
    | some x => exact ⟨_, _, .take m x ring hq⟩
  | took x => exact ⟨_, _, .store m x⟩
  | unlock => exact ⟨_, _, .unlock m⟩

/-- **`stop` is never stuck**: the owner or the background thread can take a step. -/
theorem exists_step {s : State τ} (hI : Inv s) (hstop : s.owner.stopping = true) :
    ∃ t, Step s [.flush] t := by
  have hm := hI.managed
  have hg := hI.guarded
  cases ho : s.owner with
  | joining last =>
    rw [ho] at hm hg
    cases hth : s.thread with
    | none => exact ⟨_, .notJoinable s last ho hth⟩
    | some bg =>
      cases bg with
      | check => exact ⟨_, .exit s hth hm.1⟩
      | sleeping => exact ⟨_, .wake s hth⟩
      | exited => exact ⟨_, .join s last ho hth⟩
      | draining d =>
        rw [hth] at hg
        obtain ⟨m', d', hd⟩ := exists_drainStep s.phases s.mem d fun hd => hg.locked.trans hd
        cases d' with
        | none => exact ⟨_, .runDrained s d m' hth hd⟩
        | some d' => exact ⟨_, .runDrain s d d' m' hth hd⟩
  | finalDrain last d =>
    rw [ho] at hm hg
    rw [hm.2] at hg
    obtain ⟨m', d', hd⟩ := exists_drainStep s.phases s.mem d fun hd => by
      rw [hg.locked]
      exact (Bool.or_false _).trans hd
    cases d' with
    | none => exact ⟨_, .finalDrained s last d m' ho hd⟩
    | some d' => exact ⟨_, .finalDrain s last d d' m' ho hd⟩
  | _ =>
    rw [ho] at hstop
    cases hstop

omit [DecidableEq τ] in
theorem rank_le (s : State τ) : s.rank ≤ 2 * s.mem.ring.length + 9 := by
  have hd : ∀ d : Drain, d.rank ≤ 3 := fun d => by cases d <;> simp [Drain.rank]
  have ho : s.owner.rank ≤ 4 := by
    cases s.owner with
    | finalDrain last d => exact (hd d).trans (Nat.le_succ 3)
    | joining => exact le_refl 4
    | _ => exact Nat.zero_le 4
  have hb : s.thread.elim 0 Background.rank ≤ 5 := by
    cases s.thread with
    | none => exact Nat.zero_le 5
    | some bg =>
      cases bg with
      | draining d => exact Nat.add_le_add_left (hd d) 2
      | check | sleeping | exited => simp [Background.rank]
  unfold State.rank
  omega

/-- **`stop` returns.** From any state of any run in which the owner is in `stop`, it is never
stuck, and as long as it has not returned the owner and the background thread have taken at most
nine steps, two for each sample that was in the ring and two for each that entered it meanwhile. -/
theorem stop_returns {s t : State τ} {past out : List Move} (hs : Trace Step {} past s)
    (hstop : t.owner.stopping = true) (hrun : Trace Stopping s out t) :
    (∃ t', Step t [.flush] t') ∧
      out.count .flush ≤ 2 * s.mem.ring.length + 9 + 2 * out.count .push := by
  let P : List Move → State τ → Prop := fun out t =>
    Inv t ∧ out.count .flush + t.rank ≤ s.rank + 2 * out.count .push
  have hstep : ∀ out s ms t, P out s → Stopping s ms t → P (out ++ ms) t := by
    intro out s ms t hP hst
    obtain ⟨hI, hc⟩ := hP
    have hr := rank_step hI hst
    refine ⟨inv_step hI hst.2, ?_⟩
    rw [List.count_append, List.count_append]
    omega
  obtain ⟨hI, hc⟩ := hrun.invariant (P := P) ⟨inv_reach hs, by simp⟩ hstep
  have hle := rank_le s
  exact ⟨exists_step hI hstop, by omega⟩

/-- A `stop` right after a `start`, with one sample in the ring, waits for the thread to exit. -/
theorem stop_returns_one : ∃ t : State Unit, t.owner.stopping = true ∧ (∃ t', Step t [.flush] t') ∧
    [Move.flush].count .flush ≤ 2 * 1 + 9 + 2 * [Move.flush].count .push := by
  have r₁ : Trace Step ({} : State Unit) _ _ := .single (.record _ () ⟨1, .ttft, 5⟩ rfl rfl)
  have r₂ := r₁.snoc (.push _ () ⟨1, .ttft, 5⟩ _ rfl (.push [] _ (by decide)))
  have r₃ := r₂.snoc (.start _ rfl rfl)
  have r₄ := r₃.snoc (.spawn _ rfl)
  have r₅ := r₄.snoc (.stop _ false rfl rfl)
  exact ⟨_, rfl, stop_returns r₅ rfl (.single ⟨rfl, .exit _ rfl rfl⟩)⟩

/-! ## `stop` leaves nothing behind -/

/-- Nobody is recording, and nothing new was recorded since `recorded`. -/
def Quiet (recorded : List MetricSample) (s : State τ) : Prop :=
  (∀ i, s.recorders i = .idle) ∧ s.recorded = recorded

/-- Every sample is in the vectors. -/
def Empty (s : State τ) : Prop :=
  s.mem.ring = [] ∧ s.owner.guard.2 = [] ∧ (threadGuard s.thread).2 = []

/-- The owner is in `stop` and its final drain has not seen the ring empty. -/
def Owner.unfinished : Owner → Bool
  | .joining _ => true
  | .finalDrain _ .unlock => false
  | .finalDrain _ _ => true
  | _ => false

omit [DecidableEq τ] in
/-- A pop that nobody's push excuses finds the ring empty. -/
theorem ring_eq_nil {s : State τ} {ring : List MetricSample} (hidle : ∀ i, s.recorders i = .idle)
    (hq : QueueEffect (Ring.capacity ringBits) s.phases s.mem.ring .pop (.popped none) ring) :
    s.mem.ring = [] := by
  have hphase : ∀ d : Drain, d.phase ≠ .replied (.pushed true) := by
    intro d
    cases d <;> simp [Drain.phase]
  rcases hq.pop_none.2 with hr | ⟨i, hi⟩
  · exact hr
  · exfalso
    cases i with
    | recorder i => simp [State.phases, hidle i] at hi
    | owner =>
      cases ho : s.owner <;> simp [State.phases, ho, hphase] at hi
    | background =>
      cases hth : s.thread with
      | none => simp [State.phases, hth] at hi
      | some bg => cases bg <;> simp [State.phases, hth, hphase] at hi

omit [DecidableEq τ] in
theorem DrainStep.empty_hand (h : DrainStep phases m d m' d') (hr : m.ring = [])
    (hd : d.guard.2 = []) : m'.ring = [] ∧ (d'.elim (false, []) Drain.guard).2 = [] := by
  cases h with
  | lock | unlock => exact ⟨hr, rfl⟩
  | take x ring hq =>
    have hcons := hq.pop_some
    rw [hr] at hcons
    cases hcons
  | store x => cases hd
  | empty ring hq => exact ⟨hq.pop_none.1.trans hr, rfl⟩

/-- **An empty ring stays empty** while nobody records. -/
theorem empty_step {s t : State τ} (h : Empty s) (hst : Step s [.flush] t) : Empty t := by
  obtain ⟨hr, ho, hb⟩ := h
  cases hst with
  | startAgain => exact ⟨hr, ho, hb⟩
  | start hi | drainOnce hi | snapshot hi | stop _ hi | notJoinable _ hi | snapshotLock hi
  | snapshotReturn hi => exact ⟨hr, rfl, hb⟩
  | spawn | join => exact ⟨hr, rfl, rfl⟩
  | stopAgain last hi =>
    cases last with
    | true => exact ⟨hr, rfl, hb⟩
    | false => exact ⟨hr, rfl, hb⟩
  | finalDrain last d d' m hi hd | drain d d' m hi hd =>
    rw [hi] at ho
    obtain ⟨hr', ho'⟩ := hd.empty_hand hr ho
    exact ⟨hr', ho', hb⟩
  | finalDrained last d m hi hd =>
    rw [hi] at ho
    obtain ⟨hr', -⟩ := hd.empty_hand hr ho
    cases last with
    | true => exact ⟨hr', rfl, hb⟩
    | false => exact ⟨hr', rfl, hb⟩
  | drained d m hi hd =>
    rw [hi] at ho
    exact ⟨(hd.empty_hand hr ho).1, rfl, hb⟩
  | loop | exit | wake => exact ⟨hr, ho, rfl⟩
  | runDrain d d' m hth hd =>
    rw [hth] at hb
    obtain ⟨hr', hb'⟩ := hd.empty_hand hr hb
    exact ⟨hr', ho, hb'⟩
  | runDrained d m hth hd =>
    rw [hth] at hb
    exact ⟨(hd.empty_hand hr hb).1, ho, rfl⟩

/-- **The final drain goes on until it has seen the ring empty.** -/
theorem unfinished_step {s t : State τ} (hI : Inv s) (hidle : ∀ i, s.recorders i = .idle)
    (hu : s.owner.unfinished = true) (hst : Step s [.flush] t) :
    t.owner.unfinished = true ∨ Empty t := by
  have hm := hI.managed
  cases hst with
  | startAgain | loop | exit | runDrain | runDrained | wake => exact Or.inl hu
  | notJoinable | join => exact Or.inl rfl
  | finalDrain last d d' m ho hd =>
    rw [ho] at hu hm
    cases hd with
    | lock | take | store => exact Or.inl rfl
    | empty ring hq =>
      refine Or.inr ⟨hq.pop_none.1.trans (ring_eq_nil hidle hq), rfl, ?_⟩
      show (threadGuard s.thread).2 = []
      rw [hm.2]
      rfl
  | finalDrained last d m ho hd =>
    rw [ho] at hu
    cases hd
    cases hu
  | start ho | spawn ho | stopAgain _ ho | stop _ ho | drainOnce ho | drain _ _ _ ho
  | drained _ _ ho | snapshot ho | snapshotLock ho | snapshotReturn ho =>
    rw [ho] at hu
    cases hu

theorem Step.move {s t : State τ} {ms : List Move} (h : Step s ms t) : ∃ m, ms = [m] := by
  cases h <;> exact ⟨_, rfl⟩

omit [DecidableEq τ] in
/-- With nothing in the ring and in the hands, the vectors are complete. -/
theorem Inv.complete {s : State τ} (hI : Inv s) (hE : Empty s) :
    s.mem.vectors = drained s.recorded := by
  obtain ⟨taken, hv, hr⟩ := hI.guarded.samples
  rw [hE.1, hE.2.1, hE.2.2] at hr
  simp only [List.append_nil] at hr
  rw [hv, hr]

end AetherMoE.Telemetry.Lifecycle
