import AetherMoE.Core.RingQueue
import AetherMoE.Core.Scheduler
import Mathlib.Algebra.BigOperators.Group.Finset.Basic
import Mathlib.Algebra.BigOperators.Group.Finset.Piecewise
import Mathlib.Data.Fintype.Basic

/-!
# The telemetry recorder and its flushers

`TelemetryRecorder` and `TelemetryFlusher` of `telemetry.hpp`: a process-wide ring of samples with
an on/off switch and a drop counter, filled by any number of recording threads and drained by any
number of flushers. Every call is atomic. A call leaves `Mark`s behind, the history of the run.

* `record`, `drainOnce`, `perform`: the calls;
* `Effect`, `perform_spec`: what one call does, in terms of the ring's contents;
* `Kept`, **`kept_of_run`**: every run returns, and the ring holds what was pushed and not drained;
* `Conserved`, **`telemetry_conserved`**: every sample recorded while enabled has been drained,
  waits in the ring or was dropped, and a drop needs a full ring;
* `dropped_samples_wrap`: the counter of the drops is a word.
-/

namespace AetherMoE.Telemetry

open AetherMoE.Ring Fifo

variable {τ φ : Type}

/-! ## The calls -/

instance : Inhabited MetricSample := ⟨⟨0, .ttft, 0⟩⟩

/-- `MetricRing` has `capacity 15 = 65536` cells. -/
def ringBits : ℕ := 15

/-- The vectors of a `TelemetryFlusher`. -/
structure Flusher where
  ttftNs : List UInt64 := []
  interTokenNs : List UInt64 := []
  deriving Repr, DecidableEq

/-- The static members of `TelemetryRecorder`, and the flushers. -/
structure State (φ : Type) where
  enabled : Bool := true
  dropped : UInt64 := 0
  ring : Buffer MetricSample := .init
  flushers : φ → Flusher := fun _ => {}

/-- `dropped_samples`. -/
def State.droppedSamples (s : State φ) : UInt64 := s.dropped

/-- What a call did with a sample. -/
inductive Mark (φ : Type)
  | pushed (sample : MetricSample)
  | dropped (sample : MetricSample)
  | drained (flusher : φ) (sample : MetricSample)
  deriving Repr, DecidableEq

/-- `record`: nothing while disabled; a sample the ring refuses is counted and dropped. -/
def record (seqId : UInt64) (kind : MetricKind) (latency : ℤ) (s : State φ) :
    Option (List (Mark φ) × State φ) :=
  if !s.enabled then some ([], s)
  else
    let sample := MetricSample.record seqId kind latency
    (tryPush ringBits sample s.ring).map fun x =>
      if !x.1 then ([.dropped sample], { s with ring := x.2, dropped := s.dropped + 1 })
      else ([.pushed sample], { s with ring := x.2 })

/-- The vector of its kind takes the latency. -/
def Flusher.take (f : Flusher) (sample : MetricSample) : Flusher :=
  if sample.kind = .ttft then { f with ttftNs := f.ttftNs ++ [sample.latencyNs] }
  else { f with interTokenNs := f.interTokenNs ++ [sample.latencyNs] }

/-- The loop of `drain_once`, for at most `fuel` rounds: the samples popped, and what they leave. -/
def drainLoop : ℕ → Flusher → Buffer MetricSample →
    Option (List MetricSample × Flusher × Buffer MetricSample)
  | 0, _, _ => none
  | fuel + 1, f, ring => do
    let (out, ring) ← tryPop ringBits id ring
    match out with
    | none => return ([], f, ring)
    | some sample =>
      let (samples, f, ring) ← drainLoop fuel (f.take sample) ring
      return (sample :: samples, f, ring)

/-- `drain_once` of flusher `f`. A ring that nobody fills meanwhile is empty after at most
`Capacity` pops, and one more round sees that. -/
def drainOnce [DecidableEq φ] (f : φ) (s : State φ) : Option (List (Mark φ) × State φ) := do
  let (samples, flusher, ring) ← drainLoop (capacity ringBits + 1) (s.flushers f) s.ring
  return (samples.map (.drained f),
    { s with ring := ring, flushers := Function.update s.flushers f flusher })

/-- The calls, by threads `τ` and flushers `φ`. -/
inductive Call (τ φ : Type)
  | recordTtft (thread : τ) (seqId : UInt64) (latency : ℤ)
  | recordInterToken (thread : τ) (seqId : UInt64) (latency : ℤ)
  | setEnabled (thread : τ) (enabled : Bool)
  | drainOnce (flusher : φ)
  deriving Repr, DecidableEq

/-- One call. -/
def perform [DecidableEq φ] : Call τ φ → State φ → Option (List (Mark φ) × State φ)
  | .recordTtft _ seqId latency, s => record seqId .ttft latency s
  | .recordInterToken _ seqId latency, s => record seqId .interToken latency s
  | .setEnabled _ enabled, s => some ([], { s with enabled := enabled })
  | .drainOnce f, s => drainOnce f s

/-- The sample a record call carries. -/
def Call.sample? : Call τ φ → Option MetricSample
  | .recordTtft _ seqId latency => some (.record seqId .ttft latency)
  | .recordInterToken _ seqId latency => some (.record seqId .interToken latency)
  | _ => none

/-- The switch after a call. -/
def Call.switch (on : Bool) : Call τ φ → Bool
  | .setEnabled _ enabled => enabled
  | _ => on

/-- The samples of the record calls made while enabled, when the switch starts at `on`. -/
def recordedWhileEnabled : Bool → List (Call τ φ) → List MetricSample
  | _, [] => []
  | on, call :: calls =>
    (if on then call.sample?.toList else []) ++ recordedWhileEnabled (call.switch on) calls

/-! ## The history -/

/-- The sample of a record call made while enabled. -/
def Mark.recorded? : Mark φ → Option MetricSample
  | .pushed x | .dropped x => some x
  | .drained _ _ => none

/-- The sample that entered the ring. -/
def Mark.pushed? : Mark φ → Option MetricSample
  | .pushed x => some x
  | _ => none

/-- The sample that was dropped. -/
def Mark.dropped? : Mark φ → Option MetricSample
  | .dropped x => some x
  | _ => none

/-- The sample that left the ring. -/
def Mark.drained? : Mark φ → Option MetricSample
  | .drained _ x => some x
  | _ => none

/-- The sample that left the ring through flusher `f`. -/
def Mark.drainedBy? [DecidableEq φ] (f : φ) : Mark φ → Option MetricSample
  | .drained g x => if g = f then some x else none
  | _ => none

/-- The latencies of one kind, in order. -/
def latencies (kind : MetricKind) (samples : List MetricSample) : List UInt64 :=
  (samples.filter fun x => x.kind = kind).map MetricSample.latencyNs

theorem length_recorded (marks : List (Mark φ)) :
    (marks.filterMap Mark.recorded?).length =
      (marks.filterMap Mark.pushed?).length + (marks.filterMap Mark.dropped?).length := by
  induction marks with
  | nil => rfl
  | cons m marks ih =>
    cases m <;> simp only [List.filterMap_cons, Mark.recorded?, Mark.pushed?, Mark.dropped?,
      List.length_cons, ih] <;> omega

theorem pushed_sublist_recorded (marks : List (Mark φ)) :
    (marks.filterMap Mark.pushed?).Sublist (marks.filterMap Mark.recorded?) := by
  induction marks with
  | nil => exact .slnil
  | cons m marks ih =>
    cases m with
    | pushed x => exact ih.cons_cons x
    | dropped x => exact ih.cons x
    | drained f x => exact ih

theorem sum_length_drainedBy [Fintype φ] [DecidableEq φ] (marks : List (Mark φ)) :
    ∑ f, (marks.filterMap (Mark.drainedBy? f)).length =
      (marks.filterMap Mark.drained?).length := by
  induction marks with
  | nil => exact Finset.sum_const_zero
  | cons m marks ih =>
    cases m with
    | pushed x => exact ih
    | dropped x => exact ih
    | drained g x =>
      have hcons : ∀ f, ((Mark.drained g x :: marks).filterMap (Mark.drainedBy? f)).length =
          (if g = f then 1 else 0) + (marks.filterMap (Mark.drainedBy? f)).length := by
        intro f
        by_cases hf : g = f
        · simp only [List.filterMap_cons, Mark.drainedBy?, if_pos hf, List.length_cons]
          omega
        · simp only [List.filterMap_cons, Mark.drainedBy?, if_neg hf]
          omega
      simp only [hcons, Finset.sum_add_distrib, ih, Finset.sum_ite_eq, Finset.mem_univ, if_true]
      rw [List.filterMap_cons, Mark.drained?, List.length_cons]
      omega

theorem latencies_cons (kind : MetricKind) (x : MetricSample) (xs : List MetricSample) :
    latencies kind (x :: xs) = latencies kind [x] ++ latencies kind xs := by
  simp only [latencies, ← List.map_append, ← List.filter_append, List.singleton_append]

theorem length_latencies (samples : List MetricSample) :
    (latencies .ttft samples).length + (latencies .interToken samples).length =
      samples.length := by
  induction samples with
  | nil => rfl
  | cons x samples ih =>
    simp only [latencies, List.length_map, List.length_cons] at ih ⊢
    cases hk : x.kind <;> simp [hk] <;> omega

/-! ## What one call does -/

theorem ringBits_le : ringBits ≤ 61 := by decide

/-- The samples in the ring, oldest first. -/
def State.inRing (s : State φ) : List MetricSample := s.ring.contents ringBits

theorem Flusher.take_eq (f : Flusher) (x : MetricSample) :
    f.take x = ⟨f.ttftNs ++ latencies .ttft [x], f.interTokenNs ++ latencies .interToken [x]⟩ := by
  cases hk : x.kind <;> simp [take, latencies, hk]

/-- The loop of `drain_once` hands the whole ring over, oldest sample first. -/
theorem drainLoop_eq (fuel : ℕ) (f : Flusher) (ring : Buffer MetricSample)
    (h : WellFormed ringBits ring) (hfuel : ring.size < fuel) :
    ∃ ring', drainLoop fuel f ring = some (ring.contents ringBits,
        ⟨f.ttftNs ++ latencies .ttft (ring.contents ringBits),
          f.interTokenNs ++ latencies .interToken (ring.contents ringBits)⟩, ring') ∧
      WellFormed ringBits ring' ∧ ring'.contents ringBits = [] := by
  induction fuel generalizing f ring with
  | zero => omega
  | succ fuel ih =>
    rcases Nat.eq_zero_or_pos ring.size with hz | hpos
    · have hnil : ring.contents ringBits = [] :=
        List.length_eq_zero_iff.mp ((length_contents ring).trans hz)
      refine ⟨ring, ?_, h, hnil⟩
      rw [hnil, drainLoop, tryPop_of_zero h hz]
      simp [latencies]
    · have hpop : tryPop ringBits id ring = _ := tryPop_of_pos h hpos
      have hcons := contents_of_pos id h ringBits_le hpos
      have hsize : (ring.popped ringBits id).size = ring.size - 1 := size_popped hpos
      obtain ⟨ring', hrun, hwf, hnil⟩ := ih (f.take (ring.data (cellOf ringBits ring.dequeuePos)))
        (ring.popped ringBits id) (h.popped ringBits_le hpos) (by omega)
      refine ⟨ring', ?_, hwf, hnil⟩
      rw [Flusher.take_eq] at hrun
      rw [drainLoop, hpop, hcons]
      simp only [Option.bind_eq_bind, Option.bind_some, Flusher.take_eq, hrun, Option.pure_def,
        latencies_cons _ (ring.data _) (Buffer.contents _ _), List.append_assoc]

variable [DecidableEq φ]

/-- What a call does to the ring, the counter, the switch and the flushers. -/
inductive Effect (s : State φ) : Call τ φ → List (Mark φ) → State φ → Prop
  | disabled (call : Call τ φ) (x : MetricSample) (hx : call.sample? = some x)
      (hoff : s.enabled = false) : Effect s call [] s
  | switched (thread : τ) (on : Bool) :
      Effect s (.setEnabled thread on) [] { s with enabled := on }
  | pushed (call : Call τ φ) (x : MetricSample) (hx : call.sample? = some x)
      (hon : s.enabled = true) (ring : Buffer MetricSample)
      (hroom : s.inRing.length < capacity ringBits) (hwf : WellFormed ringBits ring)
      (hring : ring.contents ringBits = s.inRing ++ [x]) :
      Effect s call [.pushed x] { s with ring := ring }
  | dropped (call : Call τ φ) (x : MetricSample) (hx : call.sample? = some x)
      (hon : s.enabled = true) (hfull : s.inRing.length = capacity ringBits) :
      Effect s call [.dropped x] { s with dropped := s.dropped + 1 }
  | drained (f : φ) (ring : Buffer MetricSample) (hwf : WellFormed ringBits ring)
      (hnil : ring.contents ringBits = []) :
      Effect s (.drainOnce f) (s.inRing.map (.drained f))
        { s with
          ring := ring
          flushers := Function.update s.flushers f
            ⟨(s.flushers f).ttftNs ++ latencies .ttft s.inRing,
              (s.flushers f).interTokenNs ++ latencies .interToken s.inRing⟩ }

theorem record_effect {s : State φ} (h : WellFormed ringBits s.ring) (call : Call τ φ)
    (seqId : UInt64) (kind : MetricKind) (latency : ℤ)
    (hx : call.sample? = some (.record seqId kind latency)) :
    ∃ marks s', record seqId kind latency s = some (marks, s') ∧ Effect s call marks s' := by
  have hlen : s.inRing.length = s.ring.size := length_contents s.ring
  cases hon : s.enabled with
  | false => exact ⟨[], s, by simp [record, hon], .disabled call _ hx hon⟩
  | true =>
    rcases h.size_le.lt_or_eq with hlt | heq
    · refine ⟨_, _, ?_, .pushed call _ hx hon _ (hlen ▸ hlt) (h.pushed ringBits_le hlt)
        (contents_pushed ringBits_le hlt)⟩
      simp [record, hon, tryPush_of_lt h hlt]
    · refine ⟨_, _, ?_, .dropped call _ hx hon (hlen.trans heq)⟩
      simp [record, hon, tryPush_of_eq h ringBits_le heq]

/-- Every call returns, with one of the effects. -/
theorem perform_spec {s : State φ} (h : WellFormed ringBits s.ring) (call : Call τ φ) :
    ∃ marks s', perform call s = some (marks, s') ∧ Effect s call marks s' := by
  cases call with
  | recordTtft t seqId latency => exact record_effect h _ seqId .ttft latency rfl
  | recordInterToken t seqId latency => exact record_effect h _ seqId .interToken latency rfl
  | setEnabled t on => exact ⟨[], _, rfl, .switched t on⟩
  | drainOnce f =>
    obtain ⟨ring, hrun, hwf, hnil⟩ := drainLoop_eq (capacity ringBits + 1) (s.flushers f) s.ring h
      (by have := h.size_le; omega)
    refine ⟨_, _, ?_, .drained f ring hwf hnil⟩
    simp only [perform, drainOnce, hrun, Option.bind_eq_bind, Option.bind_some, Option.pure_def]
    rfl

theorem Effect.wellFormed {s s' : State φ} {call : Call τ φ} {marks : List (Mark φ)}
    (he : Effect s call marks s') (h : WellFormed ringBits s.ring) :
    WellFormed ringBits s'.ring := by
  cases he with
  | disabled | switched | dropped => exact h
  | pushed _ _ _ _ _ _ hwf => exact hwf
  | drained _ _ hwf => exact hwf

/-! ## Whole runs -/

/-- Where the samples of a run are, given the marks it left. -/
structure Kept (marks : List (Mark φ)) (s : State φ) : Prop where
  wellFormed : WellFormed ringBits s.ring
  queue : marks.filterMap Mark.pushed? = marks.filterMap Mark.drained? ++ s.inRing
  counter : s.dropped = UInt64.ofNat (marks.filterMap Mark.dropped?).length
  vectors : ∀ f, s.flushers f = ⟨latencies .ttft (marks.filterMap (Mark.drainedBy? f)),
    latencies .interToken (marks.filterMap (Mark.drainedBy? f))⟩

theorem latencies_append (kind : MetricKind) (xs ys : List MetricSample) :
    latencies kind (xs ++ ys) = latencies kind xs ++ latencies kind ys := by
  rw [latencies, List.filter_append, List.map_append]
  rfl

omit [DecidableEq φ] in
theorem filterMap_drained {β : Type} (f : φ) (xs : List MetricSample)
    (g : Mark φ → Option β) : (xs.map (Mark.drained f)).filterMap g =
      xs.filterMap fun x => g (.drained f x) := List.filterMap_map ..

theorem Kept.effect {marks ms : List (Mark φ)} {s s' : State φ} {call : Call τ φ}
    (h : Kept marks s) (he : Effect s call ms s') : Kept (marks ++ ms) s' := by
  have hwf := he.wellFormed h.wellFormed
  cases he with
  | disabled =>
    rw [List.append_nil]
    exact h
  | switched =>
    rw [List.append_nil]
    exact ⟨h.wellFormed, h.queue, h.counter, h.vectors⟩
  | pushed _ x _ _ ring _ _ hring =>
    refine ⟨hwf, ?_, ?_, fun f => ?_⟩
    · simp only [List.filterMap_append, h.queue, List.append_assoc]
      exact congrArg (_ ++ ·) hring.symm
    · rw [List.filterMap_append, List.length_append]
      exact h.counter
    · have hnone : [Mark.pushed x].filterMap (Mark.drainedBy? f) = [] := rfl
      rw [List.filterMap_append, hnone, List.append_nil]
      exact h.vectors f
  | dropped _ x =>
    refine ⟨hwf, ?_, ?_, fun f => ?_⟩
    · simp only [List.filterMap_append]
      exact (congrArg (· ++ []) h.queue).trans (by simp [Mark.drained?, State.inRing])
    · rw [List.filterMap_append, List.length_append, UInt64.ofNat_add, ← h.counter]
      rfl
    · have hnone : [Mark.dropped x].filterMap (Mark.drainedBy? f) = [] := rfl
      rw [List.filterMap_append, hnone, List.append_nil]
      exact h.vectors f
  | drained g ring _ hnil =>
    refine ⟨hwf, ?_, ?_, fun f => ?_⟩
    · simp only [List.filterMap_append, filterMap_drained, Mark.pushed?, Mark.drained?,
        List.filterMap_none, List.filterMap_some, List.append_nil, h.queue]
      exact (congrArg (_ ++ ·) hnil).trans (List.append_nil _) |>.symm
    · simp only [List.filterMap_append, filterMap_drained, Mark.dropped?, List.filterMap_none,
        List.append_nil]
      exact h.counter
    · simp only [List.filterMap_append, filterMap_drained, Mark.drainedBy?]
      by_cases hf : f = g
      · subst hf
        rw [Function.update_self, h.vectors f]
        simp [latencies_append]
      · rw [Function.update_of_ne hf, h.vectors f]
        simp [Ne.symm hf]

/-- Every run returns and keeps its samples. -/
theorem kept_of_run (calls : List (Call τ φ)) {s₀ : State φ} (h₀ : Kept [] s₀) :
    ∃ marks s, runAll perform calls s₀ = some (marks, s) ∧ Kept marks.flatten s := by
  have hstep : ∀ (call : Call τ φ) (s : State φ) (marks : List (List (Mark φ))),
      Kept marks.flatten s →
      ∃ ms s', perform call s = some (ms, s') ∧ Kept (marks ++ [ms]).flatten s' := by
    intro call s marks h
    obtain ⟨ms, s', hrun, he⟩ := perform_spec h.wellFormed call
    refine ⟨ms, s', hrun, ?_⟩
    rw [List.flatten_append, List.flatten_singleton]
    exact h.effect he
  have h : (fun marks s => Kept marks.flatten s) ([] : List (List (Mark φ))) s₀ := h₀
  exact runAll_total hstep calls h

/-- A call marks the sample it records while enabled, and only `set_enabled` turns the switch. -/
theorem recorded_perform {call : Call τ φ} {s s' : State φ} {ms : List (Mark φ)}
    (h : perform call s = some (ms, s')) (calls : List (Call τ φ)) :
    recordedWhileEnabled s.enabled (call :: calls) =
      ms.filterMap Mark.recorded? ++ recordedWhileEnabled s'.enabled calls := by
  have hrec : ∀ seqId kind latency, record seqId kind latency s = some (ms, s') →
      s'.enabled = s.enabled ∧ ms.filterMap Mark.recorded? =
        if s.enabled then [.record seqId kind latency] else [] := by
    intro seqId kind latency h
    rw [record] at h
    split_ifs at h with hoff
    · cases h
      rw [Bool.not_eq_true'] at hoff
      exact ⟨rfl, by rw [hoff]; rfl⟩
    · obtain ⟨⟨ok, ring⟩, -, h⟩ := Option.map_eq_some_iff.mp h
      have hon : s.enabled = true := by simpa using hoff
      cases ok <;> cases h <;> exact ⟨rfl, by rw [hon]; rfl⟩
  rw [recordedWhileEnabled]
  cases call with
  | recordTtft t seqId latency =>
    obtain ⟨he, hm⟩ := hrec _ _ _ h
    rw [hm, he]
    rfl
  | recordInterToken t seqId latency =>
    obtain ⟨he, hm⟩ := hrec _ _ _ h
    rw [hm, he]
    rfl
  | setEnabled t on =>
    cases h
    cases s.enabled <;> rfl
  | drainOnce f =>
    simp only [perform, drainOnce, Option.bind_eq_bind, Option.bind_eq_some_iff,
      Option.pure_def] at h
    obtain ⟨⟨samples, flusher, ring⟩, -, h⟩ := h
    cases h
    simp [Mark.recorded?, Call.sample?, Call.switch]

theorem recorded_run {calls : List (Call τ φ)} {s s' : State φ} {marks : List (List (Mark φ))}
    (h : runAll perform calls s = some (marks, s')) :
    recordedWhileEnabled s.enabled calls = marks.flatten.filterMap Mark.recorded? := by
  induction calls generalizing s marks with
  | nil =>
    cases h
    rfl
  | cons call calls ih =>
    obtain ⟨ms, t, marks', h1, h2, rfl⟩ := runAll_cons_inv h
    rw [recorded_perform h1, ih h2, List.flatten_cons, List.filterMap_append]

/-- The start of a run: the ring has been used but is empty, the counters are zero. -/
structure Start (s : State φ) : Prop where
  ring : ∃ ops replies, runAll (answer ringBits id) ops Buffer.init = some (replies, s.ring)
  empty : s.inRing = []
  counter : s.dropped = 0
  vectors : ∀ f, s.flushers f = {}

theorem Start.kept {s : State φ} (h : Start s) : Kept [] s := by
  obtain ⟨ops, replies, hrun⟩ := h.ring
  exact ⟨wellFormed_of_run ringBits_le hrun, h.empty.symm, h.counter, h.vectors⟩

/-- **Conservation** in the state `s` that the calls lead to, leaving `marks`. -/
structure Conserved [Fintype φ] (on : Bool) (calls : List (Call τ φ))
    (marks : List (List (Mark φ))) (s : State φ) : Prop where
  /-- Every sample recorded while enabled has been drained, waits in the ring, or was dropped. -/
  accounted : (recordedWhileEnabled on calls).length =
    ∑ f, ((s.flushers f).ttftNs.length + (s.flushers f).interTokenNs.length) +
      s.inRing.length + (marks.flatten.filterMap Mark.dropped?).length
  /-- The drop counter is a 64-bit word. -/
  counter : s.droppedSamples.toNat = (marks.flatten.filterMap Mark.dropped?).length % 2 ^ 64
  /-- A flusher holds what it drained, by kind. -/
  vectors : ∀ f, s.flushers f = ⟨latencies .ttft (marks.flatten.filterMap (Mark.drainedBy? f)),
    latencies .interToken (marks.flatten.filterMap (Mark.drainedBy? f))⟩
  /-- A single flusher has drained a beginning of what was recorded, in that order. -/
  ordered : Subsingleton φ → ∀ f, (marks.flatten.filterMap (Mark.drainedBy? f) ++
    s.inRing).Sublist (recordedWhileEnabled on calls)
  /-- The next call drops a sample, and counts a drop, only if the ring is full. -/
  full : ∀ (call : Call τ φ) ms s', perform call s = some (ms, s') →
    ms.filterMap Mark.dropped? ≠ [] ∨ s'.droppedSamples ≠ s.droppedSamples →
    s.inRing.length = 65536
  /-- The next record call changes nothing while disabled. -/
  disabled : s.enabled = false → ∀ call : Call τ φ, call.sample?.isSome →
    perform call s = some ([], s)

theorem drainedBy_eq [Subsingleton φ] (f : φ) (marks : List (Mark φ)) :
    marks.filterMap (Mark.drainedBy? f) = marks.filterMap Mark.drained? := by
  apply List.filterMap_congr
  intro m _
  cases m with
  | pushed | dropped => rfl
  | drained g x => exact if_pos (Subsingleton.elim g f)

theorem capacity_ringBits : capacity ringBits = 65536 := by decide

theorem Effect.full {s s' : State φ} {call : Call τ φ} {ms : List (Mark φ)}
    (he : Effect s call ms s')
    (h : ms.filterMap Mark.dropped? ≠ [] ∨ s'.droppedSamples ≠ s.droppedSamples) :
    s.inRing.length = 65536 := by
  cases he with
  | disabled => exact absurd h (by simp)
  | switched => exact absurd h (by simp [State.droppedSamples])
  | pushed => exact absurd h (by simp [Mark.dropped?, State.droppedSamples])
  | dropped _ _ _ _ hfull => exact hfull.trans capacity_ringBits
  | drained => exact absurd h (by simp [Mark.dropped?, State.droppedSamples])

theorem perform_disabled {s : State φ} (hoff : s.enabled = false) (call : Call τ φ)
    (hc : call.sample?.isSome) : perform call s = some ([], s) := by
  cases call with
  | recordTtft | recordInterToken => simp [perform, record, hoff]
  | setEnabled | drainOnce => cases hc

theorem Kept.conserved [Fintype φ] {calls : List (Call τ φ)} {s₀ s : State φ}
    {marks : List (List (Mark φ))} (hrun : runAll perform calls s₀ = some (marks, s))
    (h : Kept marks.flatten s) : Conserved s₀.enabled calls marks s := by
  have hvec : ∀ f, (s.flushers f).ttftNs.length + (s.flushers f).interTokenNs.length =
      (marks.flatten.filterMap (Mark.drainedBy? f)).length := by
    intro f
    rw [h.vectors f]
    exact length_latencies _
  refine ⟨?_, ?_, h.vectors, ?_, ?_, fun hoff call hc => perform_disabled hoff call hc⟩
  · rw [recorded_run hrun, length_recorded, h.queue, List.length_append,
      Finset.sum_congr rfl fun f _ => hvec f, sum_length_drainedBy]
  · rw [State.droppedSamples, h.counter, UInt64.toNat_ofNat']
  · intro _ f
    rw [recorded_run hrun, drainedBy_eq, ← h.queue]
    exact pushed_sublist_recorded _
  · intro call ms s' hcall hne
    obtain ⟨ms', t, hcall', he⟩ := perform_spec h.wellFormed call
    rw [hcall] at hcall'
    cases hcall'
    exact he.full hne

/-- **Telemetry conservation.** Whatever calls are made, in whatever order, by any recording
threads and flushers: all of them return, and afterwards every sample is accounted for. -/
theorem telemetry_conserved [Fintype φ] (calls : List (Call τ φ)) (s₀ : State φ)
    (h₀ : Start s₀) :
    ∃ marks s, runAll perform calls s₀ = some (marks, s) ∧
      Conserved s₀.enabled calls marks s := by
  obtain ⟨marks, s, hrun, hkept⟩ := kept_of_run calls h₀.kept
  exact ⟨marks, s, hrun, hkept.conserved hrun⟩

omit [DecidableEq φ] in
theorem start_init : Start ({} : State φ) :=
  ⟨⟨[], [], rfl⟩, (represents_init ringBits_le).2, rfl, fun _ => rfl⟩

/-- Two threads record, one of them while telemetry is off, and a flusher drains. -/
theorem telemetry_conserved_toggled :
    Start ({} : State Unit) ∧
    ∃ marks s, runAll perform [.recordTtft true 1 10, .setEnabled true false,
        .recordTtft false 2 20, .setEnabled true true, .recordInterToken false 1 30,
        .drainOnce ()] ({} : State Unit) = some (marks, s) ∧
      Conserved true [.recordTtft true 1 10, .setEnabled true false, .recordTtft false 2 20,
        .setEnabled true true, .recordInterToken false 1 30, .drainOnce ()] marks s :=
  ⟨start_init, telemetry_conserved _ _ start_init⟩

/-! ## The counter wraps -/

theorem flushers_of_records {calls : List (Call τ φ)} {s s' : State φ}
    {marks : List (List (Mark φ))} (hall : ∀ call ∈ calls, call.sample?.isSome)
    (hwf : WellFormed ringBits s.ring) (h : runAll perform calls s = some (marks, s')) :
    s'.flushers = s.flushers := by
  induction calls generalizing s marks with
  | nil =>
    cases h
    rfl
  | cons call calls ih =>
    obtain ⟨ms, t, marks', h1, h2, rfl⟩ := runAll_cons_inv h
    obtain ⟨ms', t', h1', he⟩ := perform_spec hwf call
    rw [h1] at h1'
    cases h1'
    have hrest := ih (fun c hc => hall c (List.mem_cons_of_mem _ hc)) (he.wellFormed hwf) h2
    have hone := hall call List.mem_cons_self
    cases he with
    | disabled | pushed | dropped => exact hrest
    | switched | drained => cases hone

omit [DecidableEq φ] in
theorem length_recordedWhileEnabled_replicate (n : ℕ) (thread : τ) (seqId : UInt64)
    (latency : ℤ) : (recordedWhileEnabled true
      (List.replicate n (.recordTtft thread seqId latency : Call τ φ))).length = n := by
  induction n with
  | zero => rfl
  | succ n ih =>
    rw [List.replicate_succ, recordedWhileEnabled, List.length_append]
    change 1 + (recordedWhileEnabled true _).length = _
    rw [ih]
    omega

/-- Without a flusher, the ring and the counter together hold less than `65536 + 2 ^ 64`. -/
theorem not_balanced_of_le (n : ℕ) (hn : 65536 + 2 ^ 64 ≤ n) :
    ¬ ∃ marks s, runAll perform (List.replicate n (.recordTtft () 1 10)) ({} : State Unit) =
        some (marks, s) ∧
      (recordedWhileEnabled true (List.replicate n (.recordTtft () 1 10 : Call Unit Unit))).length =
        ∑ f, ((s.flushers f).ttftNs.length + (s.flushers f).interTokenNs.length) +
          s.inRing.length + s.droppedSamples.toNat := by
  rintro ⟨marks, s, hrun, heq⟩
  obtain ⟨marks', s', hrun', hkept⟩ := kept_of_run
    (List.replicate n (.recordTtft () 1 10)) (start_init : Start ({} : State Unit)).kept
  rw [hrun] at hrun'
  cases hrun'
  have hfl : s.flushers = fun _ => {} := flushers_of_records
    (fun call hc => by rw [List.eq_of_mem_replicate hc]; rfl) start_init.kept.wellFormed hrun
  have hlen : s.inRing.length ≤ 65536 := by
    have := hkept.wellFormed.size_le
    rw [capacity_ringBits] at this
    exact (length_contents s.ring).trans_le this
  have hlt := s.droppedSamples.toNat_lt
  rw [length_recordedWhileEnabled_replicate, hfl] at heq
  simp only [List.length_nil, add_zero, Finset.sum_const_zero, zero_add] at heq
  omega

/-- After `2 ^ 64` drops the counter reads zero again. -/
theorem dropped_samples_wrap :
    ¬ ∃ marks s, runAll perform (List.replicate (65536 + 2 ^ 64) (.recordTtft () 1 10))
        ({} : State Unit) = some (marks, s) ∧
      (recordedWhileEnabled true
        (List.replicate (65536 + 2 ^ 64) (.recordTtft () 1 10 : Call Unit Unit))).length =
        ∑ f, ((s.flushers f).ttftNs.length + (s.flushers f).interTokenNs.length) +
          s.inRing.length + s.droppedSamples.toNat :=
  not_balanced_of_le _ le_rfl

end AetherMoE.Telemetry
