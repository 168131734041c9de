import AetherMoE.Core.Scheduler
import AetherMoE.Lib.Reach

/-!
# Turns and runs of the scheduler

* `decodeTurn_skip`, `decodeTurn_refused`, `decodeTurn_kept`, `decodeTurn_retired`, and
  `doPrefillChunk_complete`, `doPrefillChunk_idle`, `doPrefillChunk_refused`,
  `doPrefillChunk_granted`: the branches of the two loop bodies;
* `DecodeBranch`, `ChunkBranch`, `PrefillBranch`, **`decodeTurn_branch`**,
  **`doPrefillChunk_branch`**, **`prefillTurn_branch`**: there are no others;
* `Turn`: everything one visit of one sequence can do to the scheduler;
* **`step_turns`**, `Turns.keeps`: while no waiting sequence is finished, a step does not raise the
  illegal-transition error and is a chain of turns;
* `Next`, `Reachable`: the interleavings of `admit` of fresh sequences and `step`.
-/

namespace AetherMoE

open Sweeping Relation Stepping

namespace Sequence

/-- The sequence moved to the decode phase. -/
def readied (s : Sequence) : Sequence := { s with phase := .decode }

/-- The sequence after a prefill chunk. -/
def prefilled (s : Sequence) (chunk : ℕ) : Sequence :=
  if (s.advanced chunk).prefillComplete then (s.advanced chunk).readied else s.advanced chunk

/-- The sequence after its last decode. -/
def retired (s : Sequence) (now : ℤ) : Sequence := { s.decoded now with phase := .finished }

/-- One more token finishes the sequence. -/
def LastDecode (s : Sequence) : Prop := s.maxNewTokens.toNat ≤ s.generatedTokens.length + 1

theorem lastDecode_iff {s : Sequence} (now : ℤ) : s.LastDecode ↔
    (s.decoded now).maxNewTokens.toNat ≤ (s.decoded now).generatedTokens.length := by
  simp [LastDecode, decoded]

@[simp] theorem id_decoded (s : Sequence) (now : ℤ) : (s.decoded now).id = s.id := rfl
@[simp] theorem id_retired (s : Sequence) (now : ℤ) : (s.retired now).id = s.id := rfl
@[simp] theorem id_readied (s : Sequence) : s.readied.id = s.id := rfl

@[simp] theorem id_prefilled (s : Sequence) (c : ℕ) : (s.prefilled c).id = s.id := by
  unfold prefilled
  split_ifs <;> rfl

theorem transitionTo_decode {s : Sequence} (h : s.phase ≠ .finished) :
    s.transitionTo .decode = .ok s.readied := by
  unfold transitionTo
  cases hp : s.phase with
  | finished => exact absurd hp h
  | prefill => rfl
  | decode => rfl

theorem transitionTo_finished (s : Sequence) :
    s.transitionTo .finished = .ok { s with phase := .finished } := by
  unfold transitionTo
  cases s.phase <;> rfl

end Sequence

namespace Scheduler

/-! ## The branches of the loop bodies -/

section Branches

variable {clock : ℕ → ℤ} {config : SchedulerConfig} {seq : Sequence} {it : Iteration}
  {pt : PagedKVCacheAllocator} {budget : ℕ}

/-- The iteration after a granted decode of `seq`, up to its result. -/
def decodedIteration (clock : ℕ → ℤ) (seq : Sequence) (it : Iteration) : Iteration :=
  { it with
    pageTable := (it.pageTable.ensureCapacity seq.id (seq.totalTokens + 1)).2
    ticks := it.ticks + 1
    recorded := it.recorded ++ [seq.decodeSample (clock it.ticks)]
    budget := it.budget - 1 }

theorem decodeTurn_skip (h : seq.phase ≠ .decode) :
    decodeTurn clock seq it = .ok (some seq, it) := by
  rw [decodeTurn, if_neg h]

theorem decodeTurn_refused (h : seq.phase = .decode)
    (hfit : ¬ it.pageTable.Fits seq.id (seq.totalTokens + 1)) :
    decodeTurn clock seq it = .ok (some seq, { it with
      pageTable := (it.pageTable.ensureCapacity seq.id (seq.totalTokens + 1)).2 }) := by
  have hf : (it.pageTable.ensureCapacity seq.id (seq.totalTokens + 1)).1 = false := by
    rw [← Bool.not_eq_true, PagedKVCacheAllocator.ensureCapacity_fst]
    exact hfit
  rw [decodeTurn, if_pos h]
  simp only [hf, if_true]

theorem decodeTurn_kept (h : seq.phase = .decode)
    (hfit : it.pageTable.Fits seq.id (seq.totalTokens + 1)) (hmore : ¬ seq.LastDecode) :
    decodeTurn clock seq it = .ok (some (seq.decoded (clock it.ticks)),
      { decodedIteration clock seq it with
        results := it.results ++ [⟨seq.id, false, 1, seq.phase⟩] }) := by
  have hf := PagedKVCacheAllocator.ensureCapacity_fst.2 hfit
  rw [Sequence.lastDecode_iff (clock it.ticks)] at hmore
  rw [decodeTurn, if_pos h]
  simp only [hf, Bool.true_eq_false, if_false, if_neg hmore]
  rfl

theorem decodeTurn_retired (h : seq.phase = .decode)
    (hfit : it.pageTable.Fits seq.id (seq.totalTokens + 1)) (hlast : seq.LastDecode) :
    decodeTurn clock seq it = .ok (none, { decodedIteration clock seq it with
      pageTable := (decodedIteration clock seq it).pageTable.freeSequence seq.id
      finished := it.finished ++ [seq.retired (clock it.ticks)]
      results := it.results ++ [⟨seq.id, false, 1, .finished⟩] }) := by
  have hf := PagedKVCacheAllocator.ensureCapacity_fst.2 hfit
  rw [Sequence.lastDecode_iff (clock it.ticks)] at hlast
  rw [decodeTurn, if_pos h]
  simp only [hf, Bool.true_eq_false, if_false, if_pos hlast, Sequence.transitionTo_finished]
  rfl

theorem doPrefillChunk_complete (hc : seq.prefillComplete) (h : seq.phase ≠ .finished) :
    doPrefillChunk config seq budget pt = .ok (0, seq.readied, pt) := by
  rw [doPrefillChunk, if_pos hc, Sequence.transitionTo_decode h]
  rfl

theorem doPrefillChunk_idle (hc : ¬ seq.prefillComplete) (h : seq.chunk config budget = 0) :
    doPrefillChunk config seq budget pt = .ok (0, seq, pt) := by
  rw [doPrefillChunk, if_neg hc]
  simp only [h, if_true]

theorem doPrefillChunk_refused (hc : ¬ seq.prefillComplete) (h : seq.chunk config budget ≠ 0)
    (hfit : ¬ pt.Fits seq.id (seq.prefillCursor + seq.chunk config budget)) :
    doPrefillChunk config seq budget pt = .ok (0, seq,
      (pt.ensureCapacity seq.id (seq.prefillCursor + seq.chunk config budget)).2) := by
  have hf : (pt.ensureCapacity seq.id (seq.prefillCursor + seq.chunk config budget)).1 =
      false := by
    rw [← Bool.not_eq_true, PagedKVCacheAllocator.ensureCapacity_fst]
    exact hfit
  rw [doPrefillChunk, if_neg hc]
  simp only [if_neg h, hf, if_true]

theorem doPrefillChunk_granted (hc : ¬ seq.prefillComplete) (h : seq.chunk config budget ≠ 0)
    (hphase : seq.phase ≠ .finished)
    (hfit : pt.Fits seq.id (seq.prefillCursor + seq.chunk config budget)) :
    doPrefillChunk config seq budget pt = .ok (seq.chunk config budget,
      seq.prefilled (seq.chunk config budget),
      (pt.ensureCapacity seq.id (seq.prefillCursor + seq.chunk config budget)).2) := by
  have hf := PagedKVCacheAllocator.ensureCapacity_fst.2 hfit
  rw [doPrefillChunk, if_neg hc]
  simp only [if_neg h, hf, Bool.true_eq_false, if_false, Sequence.prefilled]
  split_ifs with hdone
  · rw [Sequence.transitionTo_decode (s := seq.advanced _) hphase]
    rfl
  · rfl

theorem prefillTurn_skip (h : seq.phase ≠ .prefill) :
    prefillTurn config seq it = .ok (some seq, it) := by
  rw [prefillTurn, if_pos h]

theorem prefillTurn_stuck (h : seq.phase = .prefill) {seq' : Sequence}
    (hchunk : doPrefillChunk config seq it.budget it.pageTable = .ok (0, seq', pt)) :
    prefillTurn config seq it = .ok (some seq', { it with pageTable := pt }) := by
  rw [prefillTurn, if_neg (not_not.2 h), hchunk]
  rfl

theorem prefillTurn_granted (h : seq.phase = .prefill) {seq' : Sequence} {n : ℕ} (hn : n ≠ 0)
    (hchunk : doPrefillChunk config seq it.budget it.pageTable = .ok (n, seq', pt)) :
    prefillTurn config seq it = .ok (some seq', spend it n seq' pt) := by
  rw [prefillTurn, if_neg (not_not.2 h), hchunk]
  exact if_pos (Nat.pos_of_ne_zero hn)

theorem admitLoop_stuck (h0 : it.budget ≠ 0) (w : List Sequence) {seq' : Sequence}
    (hchunk : doPrefillChunk config seq it.budget it.pageTable = .ok (0, seq', pt)) :
    admitLoop config (seq :: w) it = .ok (seq' :: w, [], { it with pageTable := pt }) := by
  rw [admitLoop, if_neg h0, hchunk]
  rfl

theorem admitLoop_granted (h0 : it.budget ≠ 0) (w : List Sequence) {seq' : Sequence} {n : ℕ}
    (hn : n ≠ 0)
    (hchunk : doPrefillChunk config seq it.budget it.pageTable = .ok (n, seq', pt)) :
    admitLoop config (seq :: w) it = admitLoop config w (spend it n seq' pt) >>=
      fun r => .ok (r.1, seq' :: r.2.1, r.2.2) := by
  rw [admitLoop, if_neg h0, hchunk]
  exact if_neg hn

end Branches

/-- The ways through the body of the decode loop. -/
inductive DecodeBranch (clock : ℕ → ℤ) (s : Sequence) (it : Iteration) :
    Option Sequence → Iteration → Prop
  | skip (hphase : s.phase ≠ .decode) : DecodeBranch clock s it (some s) it
  | refused (hphase : s.phase = .decode)
      (hfit : ¬ it.pageTable.Fits s.id (s.totalTokens + 1)) :
      DecodeBranch clock s it (some s) { it with
        pageTable := (it.pageTable.ensureCapacity s.id (s.totalTokens + 1)).2 }
  | kept (hphase : s.phase = .decode) (hfit : it.pageTable.Fits s.id (s.totalTokens + 1))
      (hmore : ¬ s.LastDecode) :
      DecodeBranch clock s it (some (s.decoded (clock it.ticks)))
        { decodedIteration clock s it with
          results := it.results ++ [⟨s.id, false, 1, s.phase⟩] }
  | retired (hphase : s.phase = .decode) (hfit : it.pageTable.Fits s.id (s.totalTokens + 1))
      (hlast : s.LastDecode) :
      DecodeBranch clock s it none { decodedIteration clock s it with
        pageTable := (decodedIteration clock s it).pageTable.freeSequence s.id
        finished := it.finished ++ [s.retired (clock it.ticks)]
        results := it.results ++ [⟨s.id, false, 1, .finished⟩] }

/-- The ways through `do_prefill_chunk`. -/
inductive ChunkBranch (config : SchedulerConfig) (s : Sequence) (budget : ℕ)
    (pt : PagedKVCacheAllocator) : ℕ → Sequence → PagedKVCacheAllocator → Prop
  | complete (hc : s.prefillComplete) : ChunkBranch config s budget pt 0 s.readied pt
  | idle (hc : ¬ s.prefillComplete) (hchunk : s.chunk config budget = 0) :
      ChunkBranch config s budget pt 0 s pt
  | refused (hc : ¬ s.prefillComplete) (hchunk : s.chunk config budget ≠ 0)
      (hfit : ¬ pt.Fits s.id (s.prefillCursor + s.chunk config budget)) :
      ChunkBranch config s budget pt 0 s
        (pt.ensureCapacity s.id (s.prefillCursor + s.chunk config budget)).2
  | granted (hc : ¬ s.prefillComplete) (hchunk : s.chunk config budget ≠ 0)
      (hfit : pt.Fits s.id (s.prefillCursor + s.chunk config budget)) :
      ChunkBranch config s budget pt (s.chunk config budget)
        (s.prefilled (s.chunk config budget))
        (pt.ensureCapacity s.id (s.prefillCursor + s.chunk config budget)).2

/-- The ways through the body of the prefill loop. -/
inductive PrefillBranch (config : SchedulerConfig) (s : Sequence) (it : Iteration) :
    Option Sequence → Iteration → Prop
  | skip (hphase : s.phase ≠ .prefill) : PrefillBranch config s it (some s) it
  | complete (hphase : s.phase = .prefill) (hc : s.prefillComplete) :
      PrefillBranch config s it (some s.readied) it
  | idle (hphase : s.phase = .prefill) (hc : ¬ s.prefillComplete)
      (hchunk : s.chunk config it.budget = 0) : PrefillBranch config s it (some s) it
  | refused (hphase : s.phase = .prefill) (hc : ¬ s.prefillComplete)
      (hchunk : s.chunk config it.budget ≠ 0)
      (hfit : ¬ it.pageTable.Fits s.id (s.prefillCursor + s.chunk config it.budget)) :
      PrefillBranch config s it (some s) { it with
        pageTable :=
          (it.pageTable.ensureCapacity s.id (s.prefillCursor + s.chunk config it.budget)).2 }
  | granted (hphase : s.phase = .prefill) (hc : ¬ s.prefillComplete)
      (hchunk : s.chunk config it.budget ≠ 0)
      (hfit : it.pageTable.Fits s.id (s.prefillCursor + s.chunk config it.budget)) :
      PrefillBranch config s it (some (s.prefilled (s.chunk config it.budget)))
        (spend it (s.chunk config it.budget) (s.prefilled (s.chunk config it.budget))
          (it.pageTable.ensureCapacity s.id (s.prefillCursor + s.chunk config it.budget)).2)

section Inversion

variable {clock : ℕ → ℤ} {config : SchedulerConfig} {s : Sequence} {s' : Option Sequence}
  {it it' : Iteration}

/-- **A visit of the decode loop** takes one of the four branches. -/
theorem decodeTurn_branch (clock : ℕ → ℤ) (s : Sequence) (it : Iteration) :
    ∃ s' it', decodeTurn clock s it = .ok (s', it') ∧ DecodeBranch clock s it s' it' := by
  by_cases hphase : s.phase = .decode
  · by_cases hfit : it.pageTable.Fits s.id (s.totalTokens + 1)
    · by_cases hlast : s.LastDecode
      · exact ⟨_, _, decodeTurn_retired hphase hfit hlast, .retired hphase hfit hlast⟩
      · exact ⟨_, _, decodeTurn_kept hphase hfit hlast, .kept hphase hfit hlast⟩
    · exact ⟨_, _, decodeTurn_refused hphase hfit, .refused hphase hfit⟩
  · exact ⟨_, _, decodeTurn_skip hphase, .skip hphase⟩

theorem decodeTurn_cases (h : decodeTurn clock s it = .ok (s', it')) :
    DecodeBranch clock s it s' it' := by
  obtain ⟨s'', it'', hrun, hway⟩ := decodeTurn_branch clock s it
  rw [h] at hrun
  cases hrun
  exact hway

/-- **A chunk** of a sequence that has not finished takes one of the four branches. -/
theorem doPrefillChunk_branch (config : SchedulerConfig) (budget : ℕ)
    (pt : PagedKVCacheAllocator) (h : s.phase ≠ .finished) :
    ∃ n s' pt', doPrefillChunk config s budget pt = .ok (n, s', pt') ∧
      ChunkBranch config s budget pt n s' pt' := by
  by_cases hc : s.prefillComplete
  · exact ⟨_, _, _, doPrefillChunk_complete hc h, .complete hc⟩
  by_cases hchunk : s.chunk config budget = 0
  · exact ⟨_, _, _, doPrefillChunk_idle hc hchunk, .idle hc hchunk⟩
  by_cases hfit : pt.Fits s.id (s.prefillCursor + s.chunk config budget)
  · exact ⟨_, _, _, doPrefillChunk_granted hc hchunk h hfit, .granted hc hchunk hfit⟩
  · exact ⟨_, _, _, doPrefillChunk_refused hc hchunk hfit, .refused hc hchunk hfit⟩

/-- **A visit of the prefill loop** passes over the sequence or tries a chunk of it. -/
theorem prefillTurn_branch (config : SchedulerConfig) (s : Sequence) (it : Iteration) :
    ∃ s' it', prefillTurn config s it = .ok (s', it') ∧ PrefillBranch config s it s' it' := by
  by_cases hphase : s.phase = .prefill
  · obtain ⟨n, s', pt, hrun, hway⟩ := doPrefillChunk_branch (s := s) config it.budget it.pageTable
      (by rw [hphase]; decide)
    cases hway with
    | complete hc => exact ⟨_, _, prefillTurn_stuck hphase hrun, .complete hphase hc⟩
    | idle hc hchunk => exact ⟨_, _, prefillTurn_stuck hphase hrun, .idle hphase hc hchunk⟩
    | refused hc hchunk hfit =>
      exact ⟨_, _, prefillTurn_stuck hphase hrun, .refused hphase hc hchunk hfit⟩
    | granted hc hchunk hfit =>
      exact ⟨_, _, prefillTurn_granted hphase hchunk hrun, .granted hphase hc hchunk hfit⟩
  · exact ⟨_, _, prefillTurn_skip hphase, .skip hphase⟩

theorem prefillTurn_cases (h : prefillTurn config s it = .ok (s', it')) :
    PrefillBranch config s it s' it' := by
  obtain ⟨s'', it'', hrun, hway⟩ := prefillTurn_branch config s it
  rw [h] at hrun
  cases hrun
  exact hway

end Inversion

/-! ## Turns -/

/-- What one visit of one sequence can do to the scheduler, with the results it reports. -/
inductive Turn (clock : ℕ → ℤ) : Scheduler → List StepResult → Scheduler → Prop
  /-- A request is refused. -/
  | refuse {S : Scheduler} {s : Sequence} (hs : s ∈ S.waiting ++ S.active) {t : ℕ}
      (hfit : ¬ S.pageTable.Fits s.id t) :
      Turn clock S [] { S with pageTable := (S.pageTable.ensureCapacity s.id t).2 }
  /-- An active sequence decodes a token and goes on. -/
  | decode {S : Scheduler} {l r : List Sequence} {s : Sequence} (ha : S.active = l ++ s :: r)
      (hphase : s.phase = .decode) (hfit : S.pageTable.Fits s.id (s.totalTokens + 1))
      (hmore : ¬ s.LastDecode) :
      Turn clock S [⟨s.id, false, 1, s.phase⟩] { S with
        pageTable := (S.pageTable.ensureCapacity s.id (s.totalTokens + 1)).2
        ticks := S.ticks + 1
        recorded := S.recorded ++ [s.decodeSample (clock S.ticks)]
        active := l ++ s.decoded (clock S.ticks) :: r }
  /-- An active sequence decodes its last token and leaves. -/
  | retire {S : Scheduler} {l r : List Sequence} {s : Sequence} (ha : S.active = l ++ s :: r)
      (hphase : s.phase = .decode) (hfit : S.pageTable.Fits s.id (s.totalTokens + 1))
      (hlast : s.LastDecode) :
      Turn clock S [⟨s.id, false, 1, .finished⟩] { S with
        pageTable := (S.pageTable.ensureCapacity s.id (s.totalTokens + 1)).2.freeSequence s.id
        ticks := S.ticks + 1
        recorded := S.recorded ++ [s.decodeSample (clock S.ticks)]
        finished := S.finished ++ [s.retired (clock S.ticks)]
        active := l ++ r }
  /-- A chunk of an active sequence's prompt is prefilled. -/
  | prefill {S : Scheduler} {l r : List Sequence} {s : Sequence} (ha : S.active = l ++ s :: r)
      (hphase : s.phase = .prefill) (hc : ¬ s.prefillComplete) {b : ℕ}
      (hchunk : s.chunk S.config b ≠ 0)
      (hfit : S.pageTable.Fits s.id (s.prefillCursor + s.chunk S.config b)) :
      Turn clock S
        [⟨(s.prefilled (s.chunk S.config b)).id, true, s.chunk S.config b,
          (s.prefilled (s.chunk S.config b)).phase⟩] { S with
        pageTable := (S.pageTable.ensureCapacity s.id (s.prefillCursor + s.chunk S.config b)).2
        active := l ++ s.prefilled (s.chunk S.config b) :: r }
  /-- An active sequence with its prompt done moves to the decode phase. -/
  | ready {S : Scheduler} {l r : List Sequence} {s : Sequence} (ha : S.active = l ++ s :: r)
      (hphase : s.phase = .prefill) (hc : s.prefillComplete) :
      Turn clock S [] { S with active := l ++ s.readied :: r }
  /-- The front of the waiting queue gets its first chunk and becomes active. -/
  | start {S : Scheduler} {w : List Sequence} {s : Sequence} (hw : S.waiting = s :: w)
      (hc : ¬ s.prefillComplete) {b : ℕ} (hchunk : s.chunk S.config b ≠ 0)
      (hfit : S.pageTable.Fits s.id (s.prefillCursor + s.chunk S.config b)) :
      Turn clock S
        [⟨(s.prefilled (s.chunk S.config b)).id, true, s.chunk S.config b,
          (s.prefilled (s.chunk S.config b)).phase⟩] { S with
        pageTable := (S.pageTable.ensureCapacity s.id (s.prefillCursor + s.chunk S.config b)).2
        waiting := w
        active := S.active ++ [s.prefilled (s.chunk S.config b)] }
  /-- An empty prompt at the front of the waiting queue changes phase and stays. -/
  | readyFront {S : Scheduler} {w : List Sequence} {s : Sequence} (hw : S.waiting = s :: w)
      (hc : s.prefillComplete) : Turn clock S [] { S with waiting := s.readied :: w }

/-- The turns of the loops of one step, from its start to some point in it. -/
def Turns (clock : ℕ → ℤ) (S : Scheduler) : List StepResult → Scheduler → Prop :=
  Trace (Turn clock) S

section Steps

variable {clock : ℕ → ℤ} {config : SchedulerConfig} {waiting pre post : List Sequence}
  {S : Scheduler} {s : Sequence} {it : Iteration}

/-- A turn without results. -/
theorem Turns.quiet {rs : List StepResult} {S' S'' : Scheduler} (h : Turns clock S rs S')
    (ht : Turn clock S' [] S'') : Turns clock S rs S'' := by
  have := Trace.snoc h ht
  rwa [List.append_nil] at this

theorem append_toList_some (s' : Sequence) :
    (pre ++ (some s').toList) ++ post = pre ++ s' :: post := by
  simp

theorem decodeTurn_turns
    (h : Turns clock S it.results (place config it waiting (pre ++ s :: post))) :
    ∃ s' it', decodeTurn clock s it = .ok (s', it') ∧
      Turns clock S it'.results (place config it' waiting ((pre ++ s'.toList) ++ post)) := by
  obtain ⟨s', it', hrun, hway⟩ := decodeTurn_branch clock s it
  refine ⟨s', it', hrun, ?_⟩
  cases hway with
  | skip hphase => rwa [append_toList_some]
  | refused hphase hfit =>
    rw [append_toList_some]
    exact h.quiet (Turn.refuse (by simp [place]) hfit)
  | kept hphase hfit hmore =>
    rw [append_toList_some]
    exact h.snoc (Turn.decode rfl hphase hfit hmore)
  | retired hphase hfit hlast =>
    simp only [Option.toList_none, List.append_nil]
    exact h.snoc (Turn.retire rfl hphase hfit hlast)

theorem prefillTurn_turns
    (h : Turns clock S it.results (place config it waiting (pre ++ s :: post))) :
    ∃ s' it', prefillTurn config s it = .ok (s', it') ∧
      Turns clock S it'.results (place config it' waiting ((pre ++ s'.toList) ++ post)) := by
  obtain ⟨s', it', hrun, hway⟩ := prefillTurn_branch config s it
  refine ⟨s', it', hrun, ?_⟩
  cases hway with
  | skip hphase => rwa [append_toList_some]
  | complete hphase hc =>
    rw [append_toList_some]
    exact h.quiet (Turn.ready rfl hphase hc)
  | idle hphase hc hchunk => rwa [append_toList_some]
  | refused hphase hc hchunk hfit =>
    rw [append_toList_some]
    exact h.quiet (Turn.refuse (by simp [place]) hfit)
  | granted hphase hc hchunk hfit =>
    rw [append_toList_some]
    exact h.snoc (Turn.prefill (S := place config it waiting (pre ++ s :: post)) rfl hphase hc
      hchunk hfit)

theorem admitLoop_turns (waiting : List Sequence) {active : List Sequence}
    (hw : ∀ s ∈ waiting, s.phase ≠ .finished)
    (h : Turns clock S it.results (place config it waiting active)) :
    ∃ waiting' admitted it', admitLoop config waiting it = .ok (waiting', admitted, it') ∧
      Turns clock S it'.results (place config it' waiting' (active ++ admitted)) := by
  induction waiting generalizing active it with
  | nil => exact ⟨[], [], it, rfl, by rwa [List.append_nil]⟩
  | cons s w ih =>
    by_cases h0 : it.budget = 0
    · exact ⟨s :: w, [], it, by rw [admitLoop, if_pos h0], by rwa [List.append_nil]⟩
    obtain ⟨n, s', pt, hrun, hway⟩ := doPrefillChunk_branch config it.budget it.pageTable
      (hw s List.mem_cons_self)
    cases hway with
    | complete hc =>
      refine ⟨_, _, _, admitLoop_stuck h0 w hrun, ?_⟩
      rw [List.append_nil]
      exact h.quiet (Turn.readyFront rfl hc)
    | idle hc hchunk =>
      refine ⟨_, _, _, admitLoop_stuck h0 w hrun, ?_⟩
      rwa [List.append_nil]
    | refused hc hchunk hfit =>
      refine ⟨_, _, _, admitLoop_stuck h0 w hrun, ?_⟩
      rw [List.append_nil]
      exact h.quiet (Turn.refuse (by simp [place]) hfit)
    | granted hc hchunk hfit =>
      let it₁ := spend it (s.chunk config it.budget) (s.prefilled (s.chunk config it.budget))
        (it.pageTable.ensureCapacity s.id (s.prefillCursor + s.chunk config it.budget)).2
      have hstart : Turns clock S it₁.results
          (place config it₁ w (active ++ [s.prefilled (s.chunk config it.budget)])) :=
        h.snoc (Turn.start (S := place config it (s :: w) active) (b := it.budget) rfl hc hchunk
          hfit)
      obtain ⟨waiting', admitted, it', hloop, hturns⟩ :=
        ih (fun s hs => hw s (List.mem_cons_of_mem _ hs)) hstart
      rw [List.append_assoc] at hturns
      refine ⟨waiting', _, it', ?_, hturns⟩
      rw [admitLoop_granted h0 w hchunk hrun, hloop]
      rfl

/-- **A step is a chain of turns**, and does not raise the illegal-transition error, while no
waiting sequence is finished. -/
theorem step_turns (clock : ℕ → ℤ) (hw : ∀ s ∈ S.waiting, s.phase ≠ .finished) :
    ∃ rs S', S.step clock = .ok (rs, S') ∧ Turns clock S rs S' := by
  let I : List Sequence → Iteration → List Sequence → Prop := fun pre it post =>
    Turns clock S it.results (place S.config it S.waiting (pre ++ post))
  obtain ⟨mid₁, rest₁, it₁, hrun₁, h₁, -⟩ := sweep_spec exhausted (decodeTurn clock) (I := I)
    (fun pre s post it h _ => decodeTurn_turns h) S.active []
    { S.toMachine with budget := S.config.maxBatchTokens } Trace.nil
  obtain ⟨mid₂, rest₂, it₂, hrun₂, h₂, -⟩ := sweep_spec exhausted (prefillTurn S.config) (I := I)
    (fun pre s post it h _ => prefillTurn_turns h) (mid₁ ++ rest₁) [] it₁ h₁
  obtain ⟨waiting', admitted, it₃, hrun₃, h₃⟩ := admitLoop_turns S.waiting hw h₂
  refine ⟨it₃.results, _, ?_, h₃⟩
  simp only [step, bind, Except.bind, hrun₁, hrun₂, hrun₃]
  rfl

theorem turns_of_step {rs : List StepResult} {S' : Scheduler}
    (hw : ∀ s ∈ S.waiting, s.phase ≠ .finished) (h : S.step clock = .ok (rs, S')) :
    Turns clock S rs S' := by
  obtain ⟨rs', S'', hok, hturns⟩ := step_turns clock hw
  rw [h] at hok
  cases hok
  exact hturns

/-- What every turn keeps, the turns of a step keep. -/
theorem Turns.keeps {P : Scheduler → Prop} {rs : List StepResult} {S' : Scheduler}
    (h : Turns clock S rs S') (hturn : ∀ S rs S', P S → Turn clock S rs S' → P S') (hS : P S) :
    P S' :=
  h.invariant (P := fun _ S => P S) hS fun _ S rs S' => hturn S rs S'

end Steps

/-! ## Runs -/

/-- Every sequence admitted so far. -/
def sequences (S : Scheduler) : List Sequence := S.waiting ++ S.active ++ S.finished

/-- One call: `admit` of a fresh sequence with an unused id, or `step`. -/
inductive Next (clock : ℕ → ℤ) (Fresh : Sequence → Prop) : Scheduler → Scheduler → Prop
  | arrive {S : Scheduler} (seqId : UInt64) (prompt : List UInt32) (maxNew : UInt32) (now : ℤ)
      (hfresh : Fresh (Sequence.new seqId prompt maxNew now))
      (hid : seqId ∉ S.sequences.map Sequence.id) :
      Next clock Fresh S (S.admitSequence (Sequence.new seqId prompt maxNew now))
  | step {S S' : Scheduler} {rs : List StepResult} (h : S.step clock = .ok (rs, S')) :
      Next clock Fresh S S'

/-- The scheduler after one call of `step`. -/
def advance (clock : ℕ → ℤ) (S : Scheduler) : Scheduler :=
  match S.step clock with
  | .ok (_, S') => S'
  | .error _ => S

theorem step_advance {clock : ℕ → ℤ} {S : Scheduler} (hw : ∀ s ∈ S.waiting, s.phase ≠ .finished) :
    ∃ rs, S.step clock = .ok (rs, S.advance clock) := by
  obtain ⟨rs, S', hok, -⟩ := step_turns clock hw
  rw [advance, hok]
  exact ⟨rs, rfl⟩

/-- The states of a scheduler that owns the allocator `pt`, between calls. -/
def Reachable (clock : ℕ → ℤ) (Fresh : Sequence → Prop) (config : SchedulerConfig)
    (pt : PagedKVCacheAllocator) : Scheduler → Prop :=
  ReflTransGen (Next clock Fresh) { pageTable := pt, config := config }

end Scheduler

end AetherMoE
