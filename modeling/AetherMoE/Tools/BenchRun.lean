import AetherMoE.Api.Ingress
import AetherMoE.Core.FlusherThread
import AetherMoE.Core.Orderly
import Mathlib.Data.UInt

/-!
# A benchmark run adds up

`run_once` of `bench_cli.cpp`: the main thread draws requests and pushes them into the ingress
queue, the engine thread drains the queue, steps the scheduler and counts what finishes, the
scheduler records telemetry, and the flusher's own thread drains it. After its deadline the main
thread stops the engine, joins it, stops the flusher and takes a snapshot. Every queue call, every
sample and every step of the flusher is a step of its own. Arrival times and rates are left out.

* `Scheduler.Counted`, **`Scheduler.step_counted`**: what a step does to the counts;
* `Main`, `Engine`, `State`, `Step`: the threads of the run;
* `Adds`, **`adds_step`**: the books that every step of every thread keeps;
* **`bench_accounts`**: what the summary of a run says.
-/

namespace AetherMoE

open Stepping

/-! ## What a step of the scheduler counts -/

namespace Scheduler

variable {clock : ℕ → ℤ} {S S' : Scheduler} {rs : List StepResult}

/-- The tokens generated so far. -/
def generated (S : Scheduler) : ℕ := (S.sequences.map fun s => s.generatedTokens.length).sum

/-- The results that report an end. -/
def completions (rs : List StepResult) : ℕ := rs.countP fun r => r.phaseAfter = .finished

/-- Every generated token has a sample, and nothing that waits has finished. -/
structure Counted (S : Scheduler) : Prop where
  waiting : ∀ s ∈ S.waiting, s.phase ≠ .finished
  recorded : S.recorded.length = S.generated

theorem prefilled_ne_finished {s : Sequence} (hs : s.phase ≠ .finished) (c : ℕ) :
    (s.prefilled c).phase ≠ .finished := by
  unfold Sequence.prefilled
  split_ifs
  · exact fun h => by cases h
  · exact hs

theorem completions_of_ne {r : StepResult} (h : r.phaseAfter ≠ .finished) :
    completions [r] = 0 := by
  simp [completions, h]

/-- **One turn** records a sample for a token it generates, and reports an end for a sequence it
retires. -/
theorem Turn.counted (hS : Counted S) (h : Turn clock S rs S') :
    Counted S' ∧ S.recorded <+: S'.recorded ∧
      S'.finished.length = S.finished.length + completions rs := by
  obtain ⟨hw, hr⟩ := hS
  unfold generated sequences at hr
  cases h with
  | refuse hs hfit => exact ⟨⟨hw, hr⟩, List.prefix_refl _, rfl⟩
  | decode ha hphase hfit hmore =>
    rw [completions_of_ne (by rw [hphase]; exact fun h => by cases h)]
    refine ⟨⟨hw, ?_⟩, List.prefix_append _ _, rfl⟩
    simp only [ha, List.map_append, List.map_cons, List.sum_append, List.sum_cons] at hr
    simp only [generated, sequences, Sequence.decoded, List.map_append, List.map_cons,
      List.sum_append, List.sum_cons, List.length_append, List.length_singleton]
    omega
  | retire ha hphase hfit hlast =>
    refine ⟨⟨hw, ?_⟩, List.prefix_append _ _, List.length_append⟩
    simp only [ha, List.map_append, List.map_cons, List.sum_append, List.sum_cons] at hr
    simp only [generated, sequences, Sequence.retired, Sequence.decoded, List.map_append,
      List.map_cons, List.map_nil, List.sum_append, List.sum_cons, List.sum_nil,
      List.length_append, List.length_singleton]
    omega
  | prefill ha hphase hc hchunk hfit =>
    rw [completions_of_ne (prefilled_ne_finished (by rw [hphase]; exact fun h => by cases h) _)]
    refine ⟨⟨hw, ?_⟩, List.prefix_refl _, rfl⟩
    simp only [ha, List.map_append, List.map_cons, List.sum_append, List.sum_cons] at hr
    simp only [generated, sequences, Sequence.generatedTokens_prefilled, List.map_append,
      List.map_cons, List.sum_append, List.sum_cons]
    exact hr
  | ready ha hphase hc =>
    refine ⟨⟨hw, ?_⟩, List.prefix_refl _, rfl⟩
    simp only [ha, List.map_append, List.map_cons, List.sum_append, List.sum_cons] at hr
    simp only [generated, sequences, Sequence.readied, List.map_append,
      List.map_cons, List.sum_append, List.sum_cons]
    exact hr
  | start hq hc hchunk hfit =>
    rw [hq, List.forall_mem_cons] at hw
    rw [completions_of_ne (prefilled_ne_finished hw.1 _)]
    refine ⟨⟨hw.2, ?_⟩, List.prefix_refl _, rfl⟩
    simp only [hq, List.map_append, List.map_cons, List.sum_append, List.sum_cons] at hr
    simp only [generated, sequences, Sequence.generatedTokens_prefilled, List.map_append,
      List.map_cons, List.map_nil, List.sum_append, List.sum_cons, List.sum_nil]
    omega
  | readyFront hq hc =>
    rw [hq, List.forall_mem_cons] at hw
    refine ⟨⟨?_, ?_⟩, List.prefix_refl _, rfl⟩
    · rw [List.forall_mem_cons]
      exact ⟨fun h => (by cases h), hw.2⟩
    · simp only [hq, List.map_append, List.map_cons, List.sum_append, List.sum_cons] at hr
      simp only [generated, sequences, Sequence.readied, List.map_append, List.map_cons,
        List.sum_append, List.sum_cons]
      exact hr

/-- **A whole step.** -/
theorem step_counted (hS : Counted S) (h : S.step clock = .ok (rs, S')) :
    Counted S' ∧ S.recorded <+: S'.recorded ∧
      S'.finished.length = S.finished.length + completions rs ∧
      S'.sequences.length = S.sequences.length := by
  refine (turns_of_step hS.waiting h).invariant (P := fun out T => Counted T ∧
    S.recorded <+: T.recorded ∧ T.finished.length = S.finished.length + completions out ∧
    T.sequences.length = S.sequences.length) ⟨hS, List.prefix_refl _, rfl, rfl⟩ ?_
  rintro out T ys T' ⟨hT, hpre, hfin, hlen⟩ ht
  obtain ⟨hT', hpre', hfin'⟩ := ht.counted hT
  refine ⟨hT', hpre.trans hpre', ?_, ?_⟩
  · rw [hfin', hfin, completions, completions, completions, List.countP_append, Nat.add_assoc]
  · have hperm := (ht.perm Sequence.fixed_id).length_eq
    rw [List.length_map, List.length_map] at hperm
    rw [hperm, hlen]

end Scheduler

namespace Bench

open Telemetry Fifo
open AtomicObject (Phase QueueEffect)
open Telemetry.Lifecycle (Empty Quiet drained)

/-! ## Calls on the flusher -/

/-- The flusher, its threads and the recorder, with the engine as the one recording thread. -/
abbrev Flushing := Lifecycle.State Unit

section Calls

variable {t t' : Flushing} {ms : List Lifecycle.Move}

/-- The owner calls, and is then at `o`. -/
def Calls (t : Flushing) (o : Lifecycle.Owner) (t' : Flushing) : Prop :=
  t.owner = .idle ∧ Lifecycle.Step t [.flush] t' ∧ t'.owner = o

/-- The owner's call returns. -/
def Returns (t t' : Flushing) : Prop :=
  t.owner ≠ .idle ∧ Lifecycle.Step t [.flush] t' ∧ t'.owner = .idle

/-- A step in which the owner neither calls nor returns, nobody calls `record`, and the switch
stays as it is. -/
structure Continues (t : Flushing) (ms : List Lifecycle.Move) (t' : Flushing) : Prop where
  step : Lifecycle.Step t ms t'
  owner : t'.owner = .idle ↔ t.owner = .idle
  recorder : t.recorders () = .idle → t'.recorders () = .idle
  enabled : t'.enabled = t.enabled

end Calls

/-! ## The threads -/

/-- `RunSummary`, without the times and the rates. -/
structure RunSummary where
  runIndex : ℤ
  admitted : UInt64
  rejectedBackpressure : UInt64
  completed : UInt64
  stillInFlightAtCutoff : UInt64
  tokensGenerated : UInt64
  ttft : MetricStats
  interToken : MetricStats
  droppedTelemetrySamples : UInt64

/-- The main thread: before and in `flusher.start()`, in the arrival loop, in `queue.try_push`
before it takes effect and after, in `engine_thread.join()`, before and in `flusher.stop()`, before
and in `flusher.snapshot()`, and at the end. -/
inductive Main
  | begin
  | starting
  | producing
  | pushing (seq : Sequence)
  | answered (pushed : Bool)
  | joining
  | joined
  | stopping
  | stopped
  | reading
  | done (summary : RunSummary)

/-- The engine thread: at the head of the loop, in `queue.try_pop` before it takes effect and
after, before `scheduler.step()`, in it with samples left to record, in the loop over the results,
and at the end. -/
inductive Engine
  | check
  | popping (drained : ℕ)
  | popped (drained : ℕ) (out : Option Sequence)
  | stepping
  | recording (samples : List MetricSample) (results : List StepResult)
  | counting (results : List StepResult)
  | exited

/-- The locals of `run_once` and the threads; `engine` is `none` until the thread is created. -/
structure State where
  runIndex : ℤ := 0
  main : Main := .begin
  engine : Option Engine := none
  queue : List Sequence := []
  stopEngine : Bool := false
  completed : UInt64 := 0
  nextSeqId : UInt64 := 1
  admitted : UInt64 := 0
  rejectedBackpressure : UInt64 := 0
  scheduler : Scheduler
  telemetry : Flushing := {}

/-- The threads that the queue serves. -/
inductive Who
  | main
  | engine
  deriving Repr, DecidableEq

/-- Where they are with the queue. -/
def State.phases (b : State) : Who → Phase (Op Sequence) (Reply Sequence)
  | .main =>
    match b.main with
    | .pushing s => .called (.push s)
    | .answered ok => .replied (.pushed ok)
    | _ => .idle
  | .engine =>
    match b.engine with
    | some (.popping _) => .called .pop
    | some (.popped _ out) => .replied (.popped out)
    | _ => .idle

/-- The summary after `snapshot` returned `snap`. -/
def State.summary (b : State) (snap : TelemetrySnapshot) : RunSummary where
  runIndex := b.runIndex
  admitted := b.admitted
  rejectedBackpressure := b.rejectedBackpressure
  completed := b.completed
  stillInFlightAtCutoff := b.admitted - b.completed
  tokensGenerated := UInt64.ofNat snap.ttft.count + UInt64.ofNat snap.interToken.count
  ttft := snap.ttft
  interToken := snap.interToken
  droppedTelemetrySamples := snap.droppedSamples

/-- One step of one thread. -/
inductive Step (clock : ℕ → ℤ) : State → State → Prop
  -- The flusher's thread, and calls on the flusher and the recorder that go on.
  | telemetry (b : State) (ms : List Lifecycle.Move) (t : Flushing) :
      Continues b.telemetry ms t → Step clock b { b with telemetry := t }
  -- The main thread.
  | start (b : State) (t : Flushing) : b.main = .begin → Calls b.telemetry .spawning t →
      Step clock b { b with main := .starting, telemetry := t }
  | started (b : State) (t : Flushing) : b.main = .starting → Returns b.telemetry t →
      Step clock b { b with main := .producing, engine := some .check, telemetry := t }
  | draw (b : State) (promptLen maxNewTokens : UInt32) (now : ℤ) : b.main = .producing →
      Step clock b { b with
        main := .pushing
          (.new b.nextSeqId (List.replicate promptLen.toNat 1) maxNewTokens now)
        nextSeqId := b.nextSeqId + 1 }
  | push (b : State) (s : Sequence) (ok : Bool) (queue : List Sequence) : b.main = .pushing s →
      QueueEffect kIngressQueueCapacity b.phases b.queue (.push s) (.pushed ok) queue →
      Step clock b { b with main := .answered ok, queue := queue }
  | admitted (b : State) : b.main = .answered true →
      Step clock b { b with main := .producing, admitted := b.admitted + 1 }
  | rejected (b : State) : b.main = .answered false →
      Step clock b { b with
        main := .producing
        rejectedBackpressure := b.rejectedBackpressure + 1 }
  | deadline (b : State) : b.main = .producing →
      Step clock b { b with main := .joining, stopEngine := true }
  | join (b : State) : b.main = .joining → b.engine = some .exited →
      Step clock b { b with main := .joined }
  | stop (b : State) (t : Flushing) : b.main = .joined → Calls b.telemetry (.joining false) t →
      Step clock b { b with main := .stopping, telemetry := t }
  | stopped (b : State) (t : Flushing) : b.main = .stopping → Returns b.telemetry t →
      Step clock b { b with main := .stopped, telemetry := t }
  | snapshot (b : State) (t : Flushing) : b.main = .stopped → Calls b.telemetry .reading t →
      Step clock b { b with main := .reading, telemetry := t }
  | report (b : State) (t : Flushing) (snap : TelemetrySnapshot) : b.main = .reading →
      Returns b.telemetry t → t.snapshots.getLast? = some (some snap) →
      Step clock b { b with main := .done (b.summary snap), telemetry := t }
  -- The engine thread.
  | loop (b : State) : b.engine = some .check → b.stopEngine = false →
      Step clock b { b with engine := some (.popping 0) }
  | exit (b : State) : b.engine = some .check → b.stopEngine = true →
      Step clock b { b with engine := some .exited }
  | pop (b : State) (n : ℕ) (out : Option Sequence) (queue : List Sequence) :
      b.engine = some (.popping n) →
      QueueEffect kIngressQueueCapacity b.phases b.queue .pop (.popped out) queue →
      Step clock b { b with engine := some (.popped n out), queue := queue }
  | admission (b : State) (n : ℕ) (s : Sequence) : b.engine = some (.popped n (some s)) →
      Step clock b { b with
        engine := some (if n + 1 < 256 then .popping (n + 1) else .stepping)
        scheduler := b.scheduler.admitSequence s }
  | drained (b : State) (n : ℕ) : b.engine = some (.popped n none) →
      Step clock b { b with engine := some .stepping }
  | step (b : State) (results : List StepResult) (S : Scheduler) : b.engine = some .stepping →
      b.scheduler.step clock = .ok (results, S) →
      Step clock b { b with
        engine := some (.recording (S.recorded.drop b.scheduler.recorded.length) results)
        scheduler := S }
  | record (b : State) (x : MetricSample) (samples : List MetricSample)
      (results : List StepResult) : b.engine = some (.recording (x :: samples) results) →
      b.telemetry.recorders () = .idle → b.telemetry.enabled = true →
      Step clock b { b with
        engine := some (.recording samples results)
        telemetry := { b.telemetry with
          recorders := Function.update b.telemetry.recorders () (.pushing x) } }
  | recorded (b : State) (results : List StepResult) : b.engine = some (.recording [] results) →
      b.telemetry.recorders () = .idle →
      Step clock b { b with engine := some (.counting results) }
  | count (b : State) (r : StepResult) (results : List StepResult) :
      b.engine = some (.counting (r :: results)) →
      Step clock b { b with
        engine := some (.counting results)
        completed := if r.phaseAfter = .finished then b.completed + 1 else b.completed }
  | again (b : State) : b.engine = some (.counting []) →
      Step clock b { b with engine := some .check }

/-! ## The samples -/

/-- The sample in the hand of a recording thread. -/
def hand : Lifecycle.Recorder → List MetricSample
  | .pushing x => [x]
  | _ => []

/-- A refused sample that is not counted yet. -/
def lost : Lifecycle.Recorder → ℕ
  | .refused => 1
  | _ => 0

/-- Every sample of the scheduler has entered the ring, is on its way, or was dropped. -/
structure Sampled (t : Flushing) (left samples : List MetricSample) : Prop where
  inv : Lifecycle.Inv t
  sublist : (t.recorded ++ (hand (t.recorders ()) ++ left)).Sublist samples
  dropped : ∃ n, t.dropped = UInt64.ofNat n ∧
    t.recorded.length + (hand (t.recorders ())).length + left.length + lost (t.recorders ()) + n =
      samples.length

section Samples

variable {t t' : Flushing} {ms : List Lifecycle.Move} {left samples : List MetricSample}

theorem sampled_of {r : Lifecycle.Recorder} (hI : Lifecycle.Inv t) (hr : t.recorders () = r)
    (hsub : (t.recorded ++ (hand r ++ left)).Sublist samples) (n : ℕ)
    (hn : t.dropped = UInt64.ofNat n)
    (hlen : t.recorded.length + (hand r).length + left.length + lost r + n = samples.length) :
    Sampled t left samples := by
  subst hr
  exact ⟨hI, hsub, n, hn, hlen⟩

/-- A step that moves samples from the hand into the ring or the counter. -/
theorem Sampled.moved (h : Sampled t left samples) (hI : Lifecycle.Inv t')
    {r r' : Lifecycle.Recorder} (hr : t.recorders () = r) (hr' : t'.recorders () = r') (k : ℕ)
    (hd : t'.dropped = t.dropped + UInt64.ofNat k)
    (hs : (t'.recorded ++ hand r').Sublist (t.recorded ++ hand r))
    (hlen : t'.recorded.length + (hand r').length + lost r' + k =
      t.recorded.length + (hand r).length + lost r) : Sampled t' left samples := by
  obtain ⟨-, hsub, n, hn, htotal⟩ := h
  rw [hr] at hsub htotal
  refine sampled_of hI hr' ?_ (n + k) ?_ (by omega)
  · rw [← List.append_assoc] at hsub ⊢
    exact (hs.append_right left).trans hsub
  · rw [hd, hn, UInt64.ofNat_add]

/-- What a step of the owner or of the background thread leaves alone. -/
theorem flush_frame (h : Lifecycle.Step t [.flush] t') :
    t'.recorders = t.recorders ∧ t'.dropped = t.dropped ∧ t'.recorded = t.recorded := by
  cases h with
  | stopAgain last | finalDrained last => cases last <;> exact ⟨rfl, rfl, rfl⟩
  | _ => exact ⟨rfl, rfl, rfl⟩

theorem Sampled.flush (h : Sampled t left samples) (hst : Lifecycle.Step t [.flush] t') :
    Sampled t' left samples := by
  obtain ⟨hr, hd, hs⟩ := flush_frame hst
  refine h.moved (Lifecycle.inv_step h.inv hst) rfl (congrFun hr ()) 0 ?_ ?_ ?_
  · rw [hd]
    exact (UInt64.add_zero _).symm
  · rw [hs]
  · rw [hs]
    rfl

theorem update_unit {β : Type} (f : Unit → β) (i : Unit) (v : β) : Function.update f i v () = v :=
  Function.update_self ..

/-- **A step in which nobody calls `record`** moves a sample on. -/
theorem Sampled.continues (h : Sampled t left samples) (hc : Continues t ms t') :
    Sampled t' left samples := by
  have hst := hc.step
  have hI := Lifecycle.inv_step h.inv hst
  have hzero : t.dropped = t.dropped + UInt64.ofNat 0 := (UInt64.add_zero _).symm
  cases hst with
  | setEnabled | disabled => exact h.moved hI rfl rfl 0 hzero (List.Sublist.refl _) rfl
  | record i x hi =>
    have hidle := (update_unit t.recorders i (.pushing x)).symm.trans (hc.recorder hi)
    cases hidle
  | push i x ring hi =>
    refine h.moved hI hi (update_unit t.recorders i .pushed) 0 hzero ?_ ?_
    · show (t.recorded ++ [x] ++ []).Sublist (t.recorded ++ [x])
      rw [List.append_nil]
    · simp [hand, lost]
  | refuse i x ring hi =>
    refine h.moved hI hi (update_unit t.recorders i .refused) 0 hzero ?_ ?_
    · exact (List.nil_sublist _).append_left _
    · simp [hand, lost]
  | pushReturn i hi =>
    exact h.moved hI hi (update_unit t.recorders i .idle) 0 hzero (List.Sublist.refl _) rfl
  | drop i hi =>
    exact h.moved hI hi (update_unit t.recorders i .idle) 1 rfl (List.Sublist.refl _) rfl
  | _ => exact h.flush hc.step

/-- The scheduler has new samples to record. -/
theorem Sampled.grow (h : Sampled t [] samples) (new : List MetricSample) :
    Sampled t new (samples ++ new) := by
  obtain ⟨hI, hsub, n, hn, hlen⟩ := h
  rw [List.append_nil] at hsub
  refine ⟨hI, ?_, n, hn, ?_⟩
  · rw [← List.append_assoc]
    exact hsub.append_right new
  · rw [List.length_append, ← hlen, List.length_nil]
    omega

/-- `record` is called for the next of them. -/
theorem Sampled.record {x : MetricSample} (h : Sampled t (x :: left) samples)
    (hidle : t.recorders () = .idle) :
    Sampled { t with recorders := Function.update t.recorders () (.pushing x) } left samples := by
  obtain ⟨hI, hsub, n, hn, hlen⟩ := h
  rw [hidle] at hsub hlen
  refine sampled_of { hI with } (update_unit t.recorders () (.pushing x)) hsub n hn ?_
  simp only [hand, lost, List.length_nil, List.length_cons] at hlen ⊢
  omega

end Samples

/-! ## Who is where -/

/-- The engine thread has not been created. -/
def Main.early : Main → Bool
  | .begin | .starting => true
  | _ => false

/-- The engine thread has been joined. -/
def Main.late : Main → Bool
  | .joined | .stopping | .stopped | .reading | .done _ => true
  | _ => false

/-- The engine is in `scheduler.step()`, recording. -/
def recording : Option Engine → Bool
  | some (.recording _ _) => true
  | _ => false

/-- The owner is in `snapshot`. -/
def Reads (o : Lifecycle.Owner) : Prop := o = .reading ∨ o = .copying

/-- What `stop` has done to the ring. -/
def Flushed (t : Flushing) : Main → Prop
  | .stopping => t.owner.unfinished = true ∨ Empty t
  | .stopped | .done _ => Empty t
  | .reading => Reads t.owner ∧ Empty t
  | _ => True

/-- Where the threads are. -/
structure Control (b : State) : Prop where
  unborn : b.main.early = true → b.engine = none
  joined : b.main.late = true → b.engine = some .exited
  silent : recording b.engine = false → b.telemetry.recorders () = .idle
  flushed : Flushed b.telemetry b.main

section Control

variable {clock : ℕ → ℤ} {b b' : State} {t t' : Flushing} {ms : List Lifecycle.Move}
  {o : Lifecycle.Owner} {m : Main} {e : Engine}

theorem flushed_of_not_late (hm : m.late = false) (t : Flushing) : Flushed t m := by
  cases m with
  | joined | stopping | stopped | reading | done => cases hm
  | _ => trivial

/-- `snapshot` goes on or returns. -/
theorem reads_step (ho : Reads t.owner) (h : Lifecycle.Step t [.flush] t') :
    Reads t'.owner ∨ t'.owner = .idle ∧ t'.snapshots = t.snapshots ++ [t.snapshot] := by
  cases h with
  | startAgain | loop | exit | runDrain | runDrained | wake => exact Or.inl ho
  | snapshotLock => exact Or.inl (Or.inr rfl)
  | snapshotReturn => exact Or.inr ⟨rfl, rfl⟩
  | start hi | spawn hi | stopAgain _ hi | stop _ hi | notJoinable _ hi | join _ hi
  | finalDrain _ _ _ _ hi | finalDrained _ _ _ hi | drainOnce hi | drain _ _ _ hi | drained _ _ hi
  | snapshot hi =>
    rw [hi] at ho
    rcases ho with ho | ho <;> cases ho

/-- While nobody records, only the flusher's threads do anything. -/
theorem Continues.flush (h : Continues t ms t') (hidle : t.recorders () = .idle) :
    t' = t ∨ Lifecycle.Step t [.flush] t' := by
  have hst := h.step
  have hon := h.enabled
  cases hst with
  | setEnabled on =>
    obtain rfl : on = t.enabled := hon
    exact Or.inl rfl
  | disabled => exact Or.inl rfl
  | record i x hi =>
    have hidle' := (update_unit t.recorders i (.pushing x)).symm.trans (h.recorder hi)
    cases hidle'
  | push i x ring hi | refuse i x ring hi => cases hi.symm.trans hidle
  | pushReturn i hi | drop i hi => cases hi.symm.trans hidle
  | _ => exact Or.inr h.step

/-- **The flusher's threads bring the samples home.** -/
theorem Flushed.continues (hI : Lifecycle.Inv t) (hF : Flushed t m)
    (hidle : m.late = true → t.recorders () = .idle) (h : Continues t ms t') : Flushed t' m := by
  cases hm : m.late with
  | false => exact flushed_of_not_late hm t'
  | true =>
    rcases h.flush (hidle hm) with rfl | hst
    · exact hF
    · cases m with
      | stopping =>
        rcases hF with hu | hE
        · exact Lifecycle.unfinished_step hI (fun _ => hidle hm) hu hst
        · exact Or.inr (Lifecycle.empty_step hE hst)
      | stopped | done => exact Lifecycle.empty_step hF hst
      | reading =>
        refine ⟨(reads_step hF.1 hst).resolve_right fun hr => ?_, Lifecycle.empty_step hF.2 hst⟩
        have ho := h.owner.1 hr.1
        rcases hF.1 with hF | hF <;> cases hF.symm.trans ho
      | _ => trivial

/-- An engine that is at work was created and not joined. -/
theorem Control.working (hC : Control b) (he : b.engine = some e) (hne : e ≠ .exited) :
    b.main.early = false ∧ b.main.late = false := by
  constructor
  · refine Bool.eq_false_iff.2 fun hm => ?_
    cases he.symm.trans (hC.unborn hm)
  · refine Bool.eq_false_iff.2 fun hm => hne ?_
    exact Option.some.inj (he.symm.trans (hC.joined hm))

/-- A step of the engine. -/
theorem Control.engine (hC : Control b) (he : b.engine = some e) (hne : e ≠ .exited)
    (hmain : b'.main = b.main)
    (hs : recording b'.engine = false → b'.telemetry.recorders () = .idle) : Control b' := by
  obtain ⟨hearly, hlate⟩ := hC.working he hne
  rw [← hmain] at hearly hlate
  exact ⟨fun h => absurd (hearly.symm.trans h) Bool.false_ne_true,
    fun h => absurd (hlate.symm.trans h) Bool.false_ne_true, hs, flushed_of_not_late hlate _⟩

/-- A step of the main thread in the arrival loop. -/
theorem Control.loop (hC : Control b) (he : b'.engine = b.engine)
    (ht : b'.telemetry = b.telemetry) (hearly : b'.main.early = false)
    (hlate : b'.main.late = false) : Control b' :=
  ⟨fun h => absurd (hearly.symm.trans h) Bool.false_ne_true,
    fun h => absurd (hlate.symm.trans h) Bool.false_ne_true,
    fun h => by rw [ht]; rw [he] at h; exact hC.silent h, flushed_of_not_late hlate _⟩

/-- **Every step keeps the threads where they belong.** -/
theorem control_step (hI : Lifecycle.Inv b.telemetry) (hC : Control b) (h : Step clock b b') :
    Control b' := by
  have hlate : b.main.late = true → b.telemetry.recorders () = .idle := fun hm =>
    hC.silent (by rw [hC.joined hm]; rfl)
  have hframe : ∀ {t}, Lifecycle.Step b.telemetry [.flush] t →
      recording b.engine = false → t.recorders () = .idle := by
    intro t hst hr
    rw [(flush_frame hst).1]
    exact hC.silent hr
  cases h with
  | telemetry ms t hc =>
    exact ⟨hC.unborn, hC.joined, fun hr => hc.recorder (hC.silent hr),
      hC.flushed.continues hI hlate hc⟩
  | start t hm hcall =>
    refine ⟨fun _ => hC.unborn (by rw [hm]; rfl), fun h => (by cases h), hframe hcall.2.1, trivial⟩
  | started t hm hret =>
    have hnone := hC.unborn (by rw [hm]; rfl)
    exact ⟨fun h => (by cases h), fun h => (by cases h),
      fun _ => hframe hret.2.1 (by rw [hnone]; rfl), trivial⟩
  | draw | push | admitted | rejected | deadline => exact hC.loop rfl rfl rfl rfl
  | join hm he => exact ⟨fun h => (by cases h), fun _ => he, hC.silent, trivial⟩
  | stop t hm hcall =>
    refine ⟨fun h => (by cases h), fun _ => hC.joined (by rw [hm]; rfl), hframe hcall.2.1,
      Or.inl ?_⟩
    rw [hcall.2.2]
    rfl
  | stopped t hm hret =>
    have hl : b.main.late = true := by rw [hm]; rfl
    have hF := hC.flushed
    rw [hm] at hF
    refine ⟨fun h => (by cases h), fun _ => hC.joined hl, hframe hret.2.1, ?_⟩
    rcases hF with hu | hE
    · refine (Lifecycle.unfinished_step hI (fun _ => hlate hl) hu hret.2.1).resolve_left
        fun hu => ?_
      rw [hret.2.2] at hu
      cases hu
    · exact Lifecycle.empty_step hE hret.2.1
  | snapshot t hm hcall =>
    have hl : b.main.late = true := by rw [hm]; rfl
    have hF := hC.flushed
    rw [hm] at hF
    exact ⟨fun h => (by cases h), fun _ => hC.joined hl, hframe hcall.2.1, Or.inl hcall.2.2,
      Lifecycle.empty_step hF hcall.2.1⟩
  | report t snap hm hret hsnap =>
    have hl : b.main.late = true := by rw [hm]; rfl
    have hF := hC.flushed
    rw [hm] at hF
    exact ⟨fun h => (by cases h), fun _ => hC.joined hl, hframe hret.2.1,
      Lifecycle.empty_step hF.2 hret.2.1⟩
  | loop he | exit he | pop _ _ _ he | admission _ _ he | drained _ he | count _ _ he | again he =>
    refine hC.engine he (fun h => by cases h) rfl fun _ => hC.silent ?_
    rw [he]
    rfl
  | step results S he =>
    exact hC.engine he (fun h => by cases h) rfl fun h => by cases h
  | record x samples results he =>
    exact hC.engine he (fun h => by cases h) rfl fun h => by cases h
  | recorded results he hidle => exact hC.engine he (fun h => by cases h) rfl fun _ => hidle

end Control

/-! ## The books -/

/-- The samples that `scheduler.step()` has still to record. -/
def left : Option Engine → List MetricSample
  | some (.recording samples _) => samples
  | _ => []

/-- The results that are not counted yet. -/
def uncounted : Option Engine → List StepResult
  | some (.recording _ results) => results
  | some (.counting results) => results
  | _ => []

/-- The sequence that is popped and not admitted yet. -/
def held : Option Engine → List Sequence
  | some (.popped _ (some s)) => [s]
  | _ => []

/-- The sequence that is drawn and not pushed yet. -/
def Main.drawn : Main → List Sequence
  | .pushing s => [s]
  | _ => []

/-- The answers of the queue that are not counted yet. -/
def Main.answer (ok : Bool) : Main → ℕ
  | .answered pushed => if pushed = ok then 1 else 0
  | _ => 0

/-- A sequence on its way to the scheduler. -/
def IsNew (s : Sequence) : Prop := s.phase = .prefill ∧ s.generatedTokens = []

/-- What the counters have counted. -/
structure Tally (b : State) : Prop where
  counted : b.scheduler.Counted
  fresh : ∀ s ∈ b.queue ++ (held b.engine ++ b.main.drawn), IsNew s
  requests : ∃ admitted rejected, b.admitted = UInt64.ofNat admitted ∧
    b.rejectedBackpressure = UInt64.ofNat rejected ∧
    admitted + b.main.answer true =
      b.queue.length + (held b.engine).length + b.scheduler.sequences.length ∧
    b.nextSeqId = UInt64.ofNat (1 + admitted + rejected + b.main.answer true +
      b.main.answer false + b.main.drawn.length)
  completed : ∃ completed, b.completed = UInt64.ofNat completed ∧
    completed + Scheduler.completions (uncounted b.engine) = b.scheduler.finished.length

section Books

variable {clock : ℕ → ℤ} {b b' : State}

theorem counted_admitSequence {S : Scheduler} (hS : S.Counted) {s : Sequence} (hs : IsNew s) :
    (S.admitSequence s).Counted := by
  refine ⟨?_, ?_⟩
  · show ∀ x ∈ S.waiting ++ [s], x.phase ≠ .finished
    rw [List.forall_mem_append, List.forall_mem_singleton, hs.1]
    exact ⟨hS.waiting, fun h => by cases h⟩
  · have hr := hS.recorded
    simp only [Scheduler.generated, Scheduler.sequences, Scheduler.admitSequence, List.map_append,
      List.map_cons, List.map_nil, List.sum_append, List.sum_cons, List.sum_nil, hs.2,
      List.length_nil] at hr ⊢
    omega

theorem length_admitSequence (S : Scheduler) (s : Sequence) :
    (S.admitSequence s).sequences.length = S.sequences.length + 1 := by
  simp only [Scheduler.sequences, Scheduler.admitSequence, List.length_append,
    List.length_singleton]
  omega

theorem completions_cons (r : StepResult) (rs : List StepResult) :
    Scheduler.completions (r :: rs) =
      Scheduler.completions rs + if r.phaseAfter = .finished then 1 else 0 := by
  simp only [Scheduler.completions, List.countP_cons, decide_eq_true_eq]

/-- A step that touches neither the queue nor the scheduler nor the counters. -/
theorem Tally.congr (hT : Tally b) (hq : b'.queue = b.queue) (hS : b'.scheduler = b.scheduler)
    (hheld : held b'.engine = held b.engine) (hun : uncounted b'.engine = uncounted b.engine)
    (hdrawn : b'.main.drawn = b.main.drawn) (hans : ∀ ok, b'.main.answer ok = b.main.answer ok)
    (hid : b'.nextSeqId = b.nextSeqId) (ha : b'.admitted = b.admitted)
    (hr : b'.rejectedBackpressure = b.rejectedBackpressure) (hc : b'.completed = b.completed) :
    Tally b' := by
  obtain ⟨hcount, hfresh, hreq, hcomp⟩ := hT
  refine ⟨?_, ?_, ?_, ?_⟩
  · rwa [hS]
  · rwa [hq, hheld, hdrawn]
  · rwa [hq, hheld, hdrawn, hS, hans, hans, hid, ha, hr]
  · rwa [hun, hS, hc]

/-- **Every step keeps the books.** -/
theorem tally_step (hC : Control b) (hT : Tally b) (h : Step clock b b') : Tally b' := by
  have hcounts := hT
  obtain ⟨hcount, hfresh, ⟨a, r, ha, hr, hlen, hid⟩, c, hc, hfin⟩ := hT
  cases h with
  | telemetry => exact hcounts.congr rfl rfl rfl rfl rfl (fun _ => rfl) rfl rfl rfl rfl
  | start t hm | deadline hm | join hm | stop t hm | stopped t hm | snapshot t hm
  | report t snap hm =>
    refine hcounts.congr rfl rfl rfl rfl ?_ (fun ok => ?_) rfl rfl rfl rfl
    · rw [hm]
      rfl
    · rw [hm]
      rfl
  | started t hm =>
    have hnone := hC.unborn (by rw [hm]; rfl)
    refine hcounts.congr rfl rfl ?_ ?_ ?_ (fun ok => ?_) rfl rfl rfl rfl
    · rw [hnone]
      rfl
    · rw [hnone]
      rfl
    · rw [hm]
      rfl
    · rw [hm]
      rfl
  | draw promptLen maxNewTokens now hm =>
    rw [hm] at hfresh hlen hid
    refine ⟨hcount, ?_, ⟨a, r, ha, hr, hlen, ?_⟩, c, hc, hfin⟩
    · simp only [Main.drawn, List.append_nil, List.forall_mem_append] at hfresh ⊢
      exact ⟨hfresh.1, hfresh.2, List.forall_mem_singleton.2 ⟨rfl, rfl⟩⟩
    · rw [hid, ← UInt64.ofNat_one, ← UInt64.ofNat_add]
      rfl
  | push s ok queue hm hq =>
    rw [hm] at hfresh hlen hid
    cases ok with
    | true =>
      rw [hq.push_true.1]
      refine ⟨hcount, ?_, ⟨a, r, ha, hr, ?_, hid⟩, c, hc, hfin⟩
      · simp only [Main.drawn, List.append_nil, List.forall_mem_append] at hfresh ⊢
        tauto
      · simp only [Main.answer, List.length_append, List.length_singleton, if_true] at hlen ⊢
        omega
    | false =>
      rw [hq.push_false.1]
      refine ⟨hcount, ?_, ⟨a, r, ha, hr, hlen, hid⟩, c, hc, hfin⟩
      simp only [Main.drawn, List.append_nil, List.forall_mem_append] at hfresh ⊢
      tauto
  | admitted hm =>
    rw [hm] at hfresh hlen hid
    refine ⟨hcount, hfresh, ⟨a + 1, r, ?_, hr, hlen, ?_⟩, c, hc, hfin⟩
    · rw [ha, UInt64.ofNat_add]
      rfl
    · rw [hid]
      congr 1
      simp only [Main.answer, Main.drawn]
      simp
      omega
  | rejected hm =>
    rw [hm] at hfresh hlen hid
    refine ⟨hcount, hfresh, ⟨a, r + 1, ha, ?_, hlen, ?_⟩, c, hc, hfin⟩
    · rw [hr, UInt64.ofNat_add]
      rfl
    · rw [hid]
      congr 1
  | loop he | exit he | drained _ he | again he =>
    refine hcounts.congr rfl rfl ?_ ?_ rfl (fun _ => rfl) rfl rfl rfl rfl
    · rw [he]
      rfl
    · rw [he]
      rfl
  | pop n out queue he hq =>
    rw [he] at hfresh hlen hfin
    cases out with
    | none =>
      rw [hq.pop_none.1]
      exact ⟨hcount, hfresh, ⟨a, r, ha, hr, hlen, hid⟩, c, hc, hfin⟩
    | some s =>
      rw [hq.pop_some] at hfresh hlen
      refine ⟨hcount, ?_, ⟨a, r, ha, hr, ?_, hid⟩, c, hc, hfin⟩
      · simp only [held, List.forall_mem_append, List.forall_mem_cons] at hfresh ⊢
        tauto
      · simp only [held, List.length_cons, List.length_nil] at hlen ⊢
        omega
  | admission n s he =>
    rw [he] at hfresh hlen hfin
    have hheld : held (some (if n + 1 < 256 then Engine.popping (n + 1) else .stepping)) = [] := by
      split_ifs <;> rfl
    have hun :
        uncounted (some (if n + 1 < 256 then Engine.popping (n + 1) else .stepping)) = [] := by
      split_ifs <;> rfl
    simp only [held, List.forall_mem_append, List.forall_mem_singleton] at hfresh
    refine ⟨counted_admitSequence hcount hfresh.2.1, ?_, ⟨a, r, ha, hr, ?_, hid⟩, c, hc, ?_⟩
    · rw [hheld, List.nil_append, List.forall_mem_append]
      exact ⟨hfresh.1, hfresh.2.2⟩
    · rw [hheld, length_admitSequence, hlen]
      simp only [held, List.length_nil, List.length_singleton]
      omega
    · rw [hun]
      exact hfin
  | step results S he hs =>
    rw [he] at hfresh hlen hfin
    obtain ⟨hcount', -, hfin', hlen'⟩ := Scheduler.step_counted hcount hs
    refine ⟨hcount', hfresh, ⟨a, r, ha, hr, ?_, hid⟩, c, hc, ?_⟩
    · rw [hlen']
      exact hlen
    · rw [hfin', ← hfin]
      rfl
  | record x samples results he | recorded results he =>
    refine hcounts.congr rfl rfl ?_ ?_ rfl (fun _ => rfl) rfl rfl rfl rfl
    · rw [he]
      rfl
    · rw [he]
      rfl
  | count x results he =>
    rw [he] at hfresh hlen hfin
    rw [uncounted, completions_cons] at hfin
    refine ⟨hcount, hfresh, ⟨a, r, ha, hr, hlen, hid⟩,
      c + (if x.phaseAfter = .finished then 1 else 0), ?_, ?_⟩
    · show (if x.phaseAfter = .finished then b.completed + 1 else b.completed) = _
      rw [hc]
      split_ifs
      · rw [UInt64.ofNat_add]
        rfl
      · rfl
    · show c + _ + Scheduler.completions results = b.scheduler.finished.length
      omega

/-- **Every step keeps the samples.** -/
theorem sampled_step (hC : Control b) (hT : Tally b)
    (hS : Sampled b.telemetry (left b.engine) b.scheduler.recorded) (h : Step clock b b') :
    Sampled b'.telemetry (left b'.engine) b'.scheduler.recorded := by
  cases h with
  | telemetry ms t hc => exact hS.continues hc
  | start t hm hcall | stop t hm hcall | snapshot t hm hcall => exact hS.flush hcall.2.1
  | started t hm hret =>
    rw [hC.unborn (by rw [hm]; rfl)] at hS
    exact hS.flush hret.2.1
  | stopped t hm hret | report t snap hm hret => exact hS.flush hret.2.1
  | draw | push | admitted | rejected | deadline | join => exact hS
  | loop he | exit he | pop _ _ _ he | drained _ he | recorded _ he | count _ _ he | again he =>
    rw [he] at hS
    exact hS
  | admission n s he =>
    rw [he] at hS
    have hleft : left (some (if n + 1 < 256 then Engine.popping (n + 1) else .stepping)) = [] := by
      split_ifs <;> rfl
    rw [hleft]
    exact hS
  | step results S he hs =>
    rw [he] at hS
    obtain ⟨-, ⟨new, hnew⟩, -, -⟩ := Scheduler.step_counted hT.counted hs
    have hdrop : S.recorded.drop b.scheduler.recorded.length = new := by
      rw [← hnew, List.drop_left]
    rw [hdrop, ← hnew]
    exact hS.grow new
  | record x samples results he hidle =>
    rw [he] at hS
    exact hS.record hidle

end Books

/-! ## The summary -/

/-- The summary is made of the counters and of a snapshot of everything that entered the ring. -/
def Reported (b : State) : Prop :=
  ∀ summary, b.main = .done summary → ∃ snap, summary = b.summary snap ∧
    Telemetry.snapshot () { dropped := b.telemetry.dropped,
                            flushers := fun _ => drained b.telemetry.recorded } = some snap

/-- The invariant of a run. -/
structure Adds (b : State) : Prop extends Control b, Tally b where
  sampled : Sampled b.telemetry (left b.engine) b.scheduler.recorded
  reported : Reported b

section Summary

variable {clock : ℕ → ℤ} {b b' : State} {summary : RunSummary}

theorem reported_step (hI : Lifecycle.Inv b.telemetry) (hC : Control b) (hR : Reported b)
    (h : Step clock b b') : Reported b' := by
  intro summary hdone
  have hworking : ∀ {e : Engine}, b.engine = some e → e ≠ .exited → b.main ≠ .done summary := by
    intro e he hne hm
    have hlate := (hC.working he hne).2
    rw [hm] at hlate
    cases hlate
  cases h with
  | telemetry ms t hc =>
    obtain ⟨snap, hs, hsnap⟩ := hR summary hdone
    refine ⟨snap, hs, ?_⟩
    change b.main = .done summary at hdone
    have hexited := hC.joined (by rw [hdone]; rfl)
    rcases hc.flush (hC.silent (by rw [hexited]; rfl)) with rfl | hst
    · exact hsnap
    · obtain ⟨-, hd, hr⟩ := flush_frame hst
      rw [hd, hr]
      exact hsnap
  | report t snap hm hret hsnap =>
    have hF := hC.flushed
    rw [hm] at hF
    obtain ⟨-, hst, hidle⟩ := hret
    obtain ⟨-, hd, hr⟩ := flush_frame hst
    have hmore : t.snapshots = b.telemetry.snapshots ++ [b.telemetry.snapshot] := by
      rcases reads_step hF.1 hst with hreads | ⟨-, hsnaps⟩
      · rw [hidle] at hreads
        rcases hreads with hreads | hreads <;> cases hreads
      · exact hsnaps
    rw [hmore, List.getLast?_concat] at hsnap
    cases hdone
    refine ⟨snap, rfl, ?_⟩
    show Telemetry.snapshot () { dropped := t.dropped, flushers := fun _ => drained t.recorded } = _
    rw [hd, hr, ← hI.complete hF.2]
    exact Option.some.inj hsnap
  | start | started | draw | push | admitted | rejected | deadline | join | stop | stopped
  | snapshot => cases hdone
  | loop he | exit he | pop _ _ _ he | admission _ _ he | drained _ he | step _ _ he
  | record _ _ _ he | recorded _ he | count _ _ he | again he =>
    exact absurd hdone (hworking he fun h => by cases h)

/-- **Every step of every thread keeps the books.** -/
theorem adds_step (hA : Adds b) (h : Step clock b b') : Adds b' := by
  have hI := hA.sampled.inv
  exact { control_step hI hA.toControl h, tally_step hA.toControl hA.toTally h with
    sampled := sampled_step hA.toControl hA.toTally hA.sampled h
    reported := reported_step hI hA.toControl hA.reported h }

/-- `run_once` at its start. -/
def State.start (runIndex : ℤ) (config : SchedulerConfig) (pt : PagedKVCacheAllocator) : State :=
  { runIndex := runIndex, scheduler := { pageTable := pt, config := config } }

theorem adds_start (runIndex : ℤ) (config : SchedulerConfig) (pt : PagedKVCacheAllocator) :
    Adds (.start runIndex config pt) where
  unborn _ := rfl
  joined h := by cases h
  silent _ := rfl
  flushed := trivial
  counted := ⟨List.forall_mem_nil _, rfl⟩
  fresh := List.forall_mem_nil _
  requests := ⟨0, 0, rfl, rfl, rfl, rfl⟩
  completed := ⟨0, rfl, rfl⟩
  sampled := ⟨Lifecycle.inv_init, List.nil_sublist _, 0, rfl, rfl⟩
  reported _ h := by cases h

/-- The counts of a snapshot. -/
theorem count_of_snapshot {kept : List MetricSample} {dropped : UInt64} {snap : TelemetrySnapshot}
    (h : Telemetry.snapshot () { dropped := dropped, flushers := fun _ => drained kept } =
      some snap) :
    snap.ttft.count + snap.interToken.count = kept.length ∧ snap.droppedSamples = dropped := by
  simp only [Telemetry.snapshot, Option.bind_eq_bind, Option.bind_eq_some_iff] at h
  obtain ⟨⟨ttft, sorted⟩, httft, ⟨interToken, sorted'⟩, hinter, h⟩ := h
  cases h
  refine ⟨?_, rfl⟩
  rw [count_of_computeStats httft, count_of_computeStats hinter]
  exact length_latencies kept

/-- **A benchmark run adds up.** In every run that has made its summary: every request that was
drawn was admitted or rejected; the admitted ones are in the queue or in the scheduler, the
completed ones are the finished ones, and the others are in flight; the statistics are those of
some of the samples of the scheduler, in their order, and each of the other samples was dropped; so
the tokens reported, with the samples dropped, are the tokens generated. All counts are words. -/
theorem bench_accounts {runIndex : ℤ} {config : SchedulerConfig} {pt : PagedKVCacheAllocator}
    (h : Relation.ReflTransGen (Step clock) (.start runIndex config pt) b)
    (hdone : b.main = .done summary) :
    summary.admitted + summary.rejectedBackpressure + 1 = b.nextSeqId ∧
    summary.admitted = UInt64.ofNat (b.queue.length + b.scheduler.sequences.length) ∧
    summary.completed = UInt64.ofNat b.scheduler.finished.length ∧
    summary.stillInFlightAtCutoff = UInt64.ofNat
      (b.queue.length + b.scheduler.waiting.length + b.scheduler.active.length) ∧
    summary.tokensGenerated + summary.droppedTelemetrySamples =
      UInt64.ofNat b.scheduler.generated ∧
    ∃ kept : List MetricSample, kept.Sublist b.scheduler.recorded ∧
      summary.droppedTelemetrySamples =
        UInt64.ofNat (b.scheduler.recorded.length - kept.length) ∧
      Telemetry.snapshot () { dropped := summary.droppedTelemetrySamples,
                              flushers := fun _ => drained kept } =
        some ⟨summary.ttft, summary.interToken, summary.droppedTelemetrySamples⟩ := by
  have hA : Adds b := Stepping.invariant (adds_start runIndex config pt)
    (fun _ _ hA hst => adds_step hA hst) h
  obtain ⟨snap, rfl, hsnap⟩ := hA.reported summary hdone
  have hexited := hA.joined (by rw [hdone]; rfl)
  obtain ⟨a, r, ha, hr, hlen, hid⟩ := hA.requests
  obtain ⟨c, hc, hfin⟩ := hA.completed
  obtain ⟨hI, hsub, n, hn, hsamples⟩ := hA.sampled
  have hidle := hA.silent (by rw [hexited]; rfl)
  rw [hexited, hdone] at hlen
  rw [hdone] at hid
  rw [hexited] at hfin
  rw [hexited, hidle] at hsub hsamples
  obtain ⟨hcount, hdropped⟩ := count_of_snapshot hsnap
  simp only [held, uncounted, left, hand, lost, Main.answer, Main.drawn, Scheduler.completions,
    List.countP_nil, List.length_nil, List.append_nil, Nat.add_zero] at hlen hid hfin hsub hsamples
  have hseq : b.scheduler.sequences.length = b.scheduler.waiting.length +
      b.scheduler.active.length + b.scheduler.finished.length := by
    simp only [Scheduler.sequences, List.length_append]
  refine ⟨?_, ?_, ?_, ?_, ?_, b.telemetry.recorded, hsub, ?_, ?_⟩
  · show b.admitted + b.rejectedBackpressure + 1 = b.nextSeqId
    rw [ha, hr, hid, ← UInt64.ofNat_one, ← UInt64.ofNat_add, ← UInt64.ofNat_add]
    congr 1
    omega
  · show b.admitted = _
    rw [ha, hlen]
  · show b.completed = _
    rw [hc, hfin]
  · show b.admitted - b.completed = _
    rw [ha, hc, ← UInt64.ofNat_sub (by omega)]
    congr 1
    omega
  · show UInt64.ofNat snap.ttft.count + UInt64.ofNat snap.interToken.count + snap.droppedSamples = _
    rw [← UInt64.ofNat_add, hcount, hdropped, hn, ← UInt64.ofNat_add, hsamples,
      hA.counted.recorded]
  · show snap.droppedSamples = _
    rw [hdropped, hn]
    congr 1
    omega
  · show Telemetry.snapshot () { dropped := snap.droppedSamples, flushers := _ } = some snap
    rw [hdropped]
    exact hsnap

end Summary

section Example

/-- One request for one token: drawn, pushed, prefilled, decoded and recorded; the run's summary
counts it. -/
theorem bench_accounts_one : ∃ (b : State) (summary : RunSummary), b.main = .done summary ∧
    summary.admitted = 1 ∧ summary.completed = 1 ∧ b.scheduler.generated = 1 ∧
    summary.tokensGenerated + summary.droppedTelemetrySamples =
      UInt64.ofNat b.scheduler.generated := by
  obtain ⟨snap, hsnap, -⟩ := exists_snapshot ()
    ({ flushers := fun _ => drained [⟨1, .ttft, 0⟩] } : Telemetry.State Unit)
  have r₁ : Relation.ReflTransGen (Step fun _ => 0)
      (.start 0 {} ((PagedKVCacheAllocator.create 1 4).get rfl)) _ :=
    .single (.start _ _ rfl ⟨rfl, .start _ rfl rfl, rfl⟩)
  have r₂ := r₁.tail (.started _ _ rfl ⟨fun h => (by cases h), .spawn _ rfl, rfl⟩)
  have r₃ := r₂.tail (.draw _ 1 1 0 rfl)
  have r₄ := r₃.tail (.push _ _ true _ rfl (.push [] _ (by decide)))
  have r₅ := r₄.tail (.admitted _ rfl)
  have r₆ := r₅.tail (.loop _ rfl rfl)
  have r₇ := r₆.tail (.pop _ 0 _ _ rfl (.pop [] _))
  have r₈ := r₇.tail (.admission _ 0 _ rfl)
  have r₉ := r₈.tail (.pop _ 1 _ _ rfl (.empty [] (Or.inl rfl)))
  have r₁₀ := r₉.tail (.drained _ 1 rfl)
  have r₁₁ := r₁₀.tail (.step _ _ _ rfl rfl)
  have r₁₂ := r₁₁.tail (.recorded _ _ rfl rfl)
  have r₁₃ := r₁₂.tail (.count _ _ _ rfl)
  have r₁₄ := r₁₃.tail (.again _ rfl)
  have r₁₅ := r₁₄.tail (.loop _ rfl rfl)
  have r₁₆ := r₁₅.tail (.pop _ 0 _ _ rfl (.empty [] (Or.inl rfl)))
  have r₁₇ := r₁₆.tail (.drained _ 0 rfl)
  have r₁₈ := r₁₇.tail (.step _ _ _ rfl rfl)
  have r₁₉ := r₁₈.tail (.record _ _ _ _ rfl rfl rfl)
  have r₂₀ := r₁₉.tail (.telemetry _ _ _ ⟨.push _ () _ _ rfl (.push [] _ (by decide)), Iff.rfl,
    fun h => (by cases h), rfl⟩)
  have r₂₁ := r₂₀.tail (.telemetry _ _ _ ⟨.pushReturn _ () rfl, Iff.rfl, fun _ => rfl, rfl⟩)
  have r₂₂ := r₂₁.tail (.recorded _ _ rfl rfl)
  have r₂₃ := r₂₂.tail (.count _ _ _ rfl)
  have r₂₄ := r₂₃.tail (.again _ rfl)
  have r₂₅ := r₂₄.tail (.deadline _ rfl)
  have r₂₆ := r₂₅.tail (.exit _ rfl rfl)
  have r₂₇ := r₂₆.tail (.join _ rfl rfl)
  have r₂₈ := r₂₇.tail (.stop _ _ rfl ⟨rfl, .stop _ false rfl rfl, rfl⟩)
  have r₂₉ := r₂₈.tail (.telemetry _ _ _ ⟨.exit _ rfl rfl, Iff.rfl, fun _ => rfl, rfl⟩)
  have r₃₀ := r₂₉.tail (.telemetry _ _ _ ⟨.join _ false rfl rfl, by simp, fun _ => rfl, rfl⟩)
  have r₃₁ := r₃₀.tail (.telemetry _ _ _ ⟨.finalDrain _ false _ _ _ rfl (.lock _ rfl), by simp,
    fun _ => rfl, rfl⟩)
  have r₃₂ := r₃₁.tail (.telemetry _ _ _ ⟨.finalDrain _ false _ _ _ rfl (.take _ _ _ (.pop [] _)),
    by simp, fun _ => rfl, rfl⟩)
  have r₃₃ := r₃₂.tail (.telemetry _ _ _ ⟨.finalDrain _ false _ _ _ rfl (.store _ _), by simp,
    fun _ => rfl, rfl⟩)
  have r₃₄ := r₃₃.tail (.telemetry _ _ _ ⟨.finalDrain _ false _ _ _ rfl
    (.empty _ _ (.empty [] (Or.inl rfl))), by simp, fun _ => rfl, rfl⟩)
  have r₃₅ := r₃₄.tail (.stopped _ _ rfl
    ⟨fun h => (by cases h), .finalDrained _ false _ _ rfl (.unlock _), rfl⟩)
  have r₃₆ := r₃₅.tail (.snapshot _ _ rfl ⟨rfl, .snapshot _ rfl, rfl⟩)
  have r₃₇ := r₃₆.tail (.telemetry _ _ _ ⟨.snapshotLock _ rfl rfl, by simp, fun _ => rfl, rfl⟩)
  have r₃₈ := r₃₇.tail (.report _ _ snap rfl ⟨fun h => (by cases h), .snapshotReturn _ rfl, rfl⟩
    (congrArg some hsnap))
  exact ⟨_, _, rfl, rfl, rfl, rfl, (bench_accounts r₃₈ rfl).2.2.2.2.1⟩

end Example

end Bench

end AetherMoE
