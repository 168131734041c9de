import AetherMoE.Core.PageTable
import AetherMoE.Lib.Sweep

/-!
# The continuous-batching scheduler

`Sequence` of `sequence.hpp` and `ContinuousBatchingScheduler` of `scheduler.hpp`. One call of
`step` runs three loops over a shared token budget: a decode turn for each active sequence in the
decode phase, a prefill chunk for each active sequence in the prefill phase, and admissions from
the front of the waiting queue.

* `Sequence`, `transitionTo`;
* `decodeTurn`, `doPrefillChunk`, `prefillTurn`, `admitLoop`: the bodies of the loops;
* `Scheduler`, `admitSequence`, `step`.
-/

namespace AetherMoE

open Sweeping

/-! ## Sequences -/

/-- `SequencePhase`. -/
inductive SequencePhase
  | prefill
  | decode
  | finished
  deriving Repr, DecidableEq

/-- `to_string`. -/
def SequencePhase.name : SequencePhase → String
  | prefill => "PREFILL"
  | decode => "DECODE"
  | finished => "FINISHED"

/-- The table of `transition_to`. -/
def SequencePhase.legal : SequencePhase → SequencePhase → Bool
  | prefill, _ => true
  | decode, next => next != prefill
  | finished, next => next == finished

/-- The `std::logic_error` of `transition_to`. -/
structure IllegalTransition where
  source : SequencePhase
  target : SequencePhase
  deriving Repr, DecidableEq

/-- Its text. -/
def IllegalTransition.what (e : IllegalTransition) : String :=
  "illegal sequence transition: " ++ e.source.name ++ " -> " ++ e.target.name

/-- `Sequence`. Times are nanoseconds of the steady clock. -/
structure Sequence where
  id : UInt64
  phase : SequencePhase := .prefill
  promptTokens : List UInt32
  generatedTokens : List UInt32 := []
  maxNewTokens : UInt32 := 0
  prefillCursor : ℕ := 0
  admittedAt : ℤ
  lastDecodeAt : ℤ := 0
  deriving Repr, DecidableEq

namespace Sequence

/-- The constructor, called at time `now`. -/
def new (seqId : UInt64) (prompt : List UInt32) (maxNew : UInt32) (now : ℤ) : Sequence :=
  { id := seqId, promptTokens := prompt, maxNewTokens := maxNew, admittedAt := now }

/-- `prefill_complete`. -/
def prefillComplete (s : Sequence) : Prop := s.promptTokens.length ≤ s.prefillCursor

instance (s : Sequence) : Decidable s.prefillComplete := inferInstanceAs (Decidable (_ ≤ _))

/-- `total_tokens`. -/
def totalTokens (s : Sequence) : ℕ := s.promptTokens.length + s.generatedTokens.length

/-- `transition_to`. -/
def transitionTo (s : Sequence) (next : SequencePhase) : Except IllegalTransition Sequence :=
  if s.phase.legal next then .ok { s with phase := next } else .error ⟨s.phase, next⟩

end Sequence

/-! ## Telemetry samples -/

/-- `MetricKind`. -/
inductive MetricKind
  | ttft
  | interToken
  deriving Repr, DecidableEq

/-- `MetricSample`. -/
structure MetricSample where
  seqId : UInt64
  kind : MetricKind
  latencyNs : UInt64
  deriving Repr, DecidableEq

/-- The sample a `record` call makes of a latency: the count is cast to 64 unsigned bits. -/
def MetricSample.record (seqId : UInt64) (kind : MetricKind) (latency : ℤ) : MetricSample :=
  ⟨seqId, kind, UInt64.ofInt latency⟩

/-! ## The scheduler -/

/-- `StepResult`. -/
structure StepResult where
  seqId : UInt64
  wasPrefillChunk : Bool
  tokensProcessed : ℕ
  phaseAfter : SequencePhase
  deriving Repr, DecidableEq

/-- `SchedulerConfig`. -/
structure SchedulerConfig where
  maxBatchTokens : ℕ := 2048
  maxPrefillChunk : ℕ := 512
  deriving Repr, DecidableEq

/-- What the loops of `step` write besides the two queues: the page table, and as a record of the
run the clock readings taken, the telemetry samples recorded and the sequences retired. -/
structure Machine where
  pageTable : PagedKVCacheAllocator
  ticks : ℕ := 0
  recorded : List MetricSample := []
  finished : List Sequence := []

/-- `ContinuousBatchingScheduler`. -/
structure Scheduler extends Machine where
  config : SchedulerConfig
  waiting : List Sequence := []
  active : List Sequence := []

/-- The machine during a step, with the locals of `step`. -/
structure Iteration extends Machine where
  budget : ℕ
  results : List StepResult := []

/-- `kPlaceholderToken`. -/
def kPlaceholderToken : UInt32 := 0xFFFFFFFF

namespace Sequence

/-- The sequence with one more generated token, decoded at time `now`. -/
def decoded (s : Sequence) (now : ℤ) : Sequence :=
  { s with lastDecodeAt := now, generatedTokens := s.generatedTokens ++ [kPlaceholderToken] }

/-- The telemetry sample of that decode: time to first token, then inter-token latency. -/
def decodeSample (s : Sequence) (now : ℤ) : MetricSample :=
  if s.generatedTokens.isEmpty then .record s.id .ttft (now - s.admittedAt)
  else .record s.id .interToken (now - s.lastDecodeAt)

/-- The sequence with `chunk` more prompt tokens prefilled. -/
def advanced (s : Sequence) (chunk : ℕ) : Sequence :=
  { s with prefillCursor := s.prefillCursor + chunk }

/-- The size of the prefill slice `do_prefill_chunk` asks for. -/
def chunk (s : Sequence) (config : SchedulerConfig) (budget : ℕ) : ℕ :=
  min (s.promptTokens.length - s.prefillCursor) (min config.maxPrefillChunk budget)

end Sequence

namespace Scheduler

/-- One pass through the body of the decode loop. -/
def decodeTurn (clock : ℕ → ℤ) (seq : Sequence) (it : Iteration) :
    Except IllegalTransition (Option Sequence × Iteration) :=
  if seq.phase = .decode then
    let (granted, pt) := it.pageTable.ensureCapacity seq.id (seq.totalTokens + 1)
    if granted = false then .ok (some seq, { it with pageTable := pt })
    else do
      let now := clock it.ticks
      let it := { it with
        pageTable := pt
        ticks := it.ticks + 1
        recorded := it.recorded ++ [seq.decodeSample now]
        budget := it.budget - 1 }
      let seq := seq.decoded now
      if seq.maxNewTokens.toNat ≤ seq.generatedTokens.length then do
        let seq ← seq.transitionTo .finished
        return (none, { it with
          pageTable := it.pageTable.freeSequence seq.id
          finished := it.finished ++ [seq]
          results := it.results ++ [⟨seq.id, false, 1, seq.phase⟩] })
      else return (some seq, { it with results := it.results ++ [⟨seq.id, false, 1, seq.phase⟩] })
  else .ok (some seq, it)

/-- `do_prefill_chunk`: the tokens processed, with the sequence and the page table after. -/
def doPrefillChunk (config : SchedulerConfig) (seq : Sequence) (budget : ℕ)
    (pt : PagedKVCacheAllocator) :
    Except IllegalTransition (ℕ × Sequence × PagedKVCacheAllocator) :=
  if seq.prefillComplete then do
    let seq ← seq.transitionTo .decode
    return (0, seq, pt)
  else
    let chunk := seq.chunk config budget
    if chunk = 0 then .ok (0, seq, pt)
    else
      let (granted, pt) := pt.ensureCapacity seq.id (seq.prefillCursor + chunk)
      if granted = false then .ok (0, seq, pt)
      else
        let seq := seq.advanced chunk
        if seq.prefillComplete then do
          let seq ← seq.transitionTo .decode
          return (chunk, seq, pt)
        else .ok (chunk, seq, pt)

/-- The iteration after a prefill chunk of `chunk` tokens. -/
def spend (it : Iteration) (chunk : ℕ) (seq : Sequence) (pt : PagedKVCacheAllocator) :
    Iteration :=
  { it with
    pageTable := pt
    budget := it.budget - chunk
    results := it.results ++ [⟨seq.id, true, chunk, seq.phase⟩] }

/-- One pass through the body of the prefill loop. -/
def prefillTurn (config : SchedulerConfig) (seq : Sequence) (it : Iteration) :
    Except IllegalTransition (Option Sequence × Iteration) :=
  if seq.phase ≠ .prefill then .ok (some seq, it)
  else do
    let (chunk, seq, pt) ← doPrefillChunk config seq it.budget it.pageTable
    if 0 < chunk then return (some seq, spend it chunk seq pt)
    else return (some seq, { it with pageTable := pt })

/-- The admission loop: the waiting queue it leaves and the sequences it appends to `active_`. -/
def admitLoop (config : SchedulerConfig) :
    List Sequence → Iteration →
      Except IllegalTransition (List Sequence × List Sequence × Iteration)
  | [], it => .ok ([], [], it)
  | seq :: waiting, it =>
    if it.budget = 0 then .ok (seq :: waiting, [], it)
    else do
      let (chunk, seq, pt) ← doPrefillChunk config seq it.budget it.pageTable
      if chunk = 0 then return (seq :: waiting, [], { it with pageTable := pt })
      else do
        let (waiting, admitted, it) ← admitLoop config waiting (spend it chunk seq pt)
        return (waiting, seq :: admitted, it)

/-- The budget loops stop when nothing is left. -/
def exhausted (it : Iteration) : Bool := it.budget == 0

/-- The scheduler made of an iteration's machine and the two queues. -/
def place (config : SchedulerConfig) (it : Iteration) (waiting active : List Sequence) :
    Scheduler :=
  { it.toMachine with config := config, waiting := waiting, active := active }

/-- `step`; `clock k` is the `k`-th reading of the steady clock. -/
def step (clock : ℕ → ℤ) (S : Scheduler) :
    Except IllegalTransition (List StepResult × Scheduler) := do
  let it : Iteration := { S.toMachine with budget := S.config.maxBatchTokens }
  let (active, it) ← sweep exhausted (decodeTurn clock) S.active it
  let (active, it) ← sweep exhausted (prefillTurn S.config) active it
  let (waiting, admitted, it) ← admitLoop S.config S.waiting it
  return (it.results, place S.config it waiting (active ++ admitted))

/-- `admit`. -/
def admitSequence (S : Scheduler) (seq : Sequence) : Scheduler :=
  { S with waiting := S.waiting ++ [seq] }

end Scheduler

end AetherMoE
