import AetherMoE.Core.Orderly

/-!
# No sequence is lost, and none overtakes another

Runs of the scheduler together with the list of the sequences admitted so far, in order.

* `identity`: what never changes about a sequence;
* `Logged`: one call, with the sequence it admits; `Conserved`: where the admitted sequences are;
* **`Turn.sublist`**: a turn keeps the order of the two queues;
* **`sequences_conserved`**: in every run, every admitted sequence is in one place, in the state
  that place asks for, and in the order of admission.
-/

namespace AetherMoE

open Relation Stepping

namespace Sequence

/-- What the constructor sets and nothing changes. -/
def identity (s : Sequence) : UInt64 × List UInt32 × UInt32 × ℤ :=
  (s.id, s.promptTokens, s.maxNewTokens, s.admittedAt)

theorem fixed_identity : Fixed identity :=
  ⟨fun _ _ => rfl, fun _ _ => rfl, fun _ => rfl, fun _ _ => rfl⟩

/-- The identity has the prompt and the number of tokens to generate. -/
theorem eq_of_identity {s s' : Sequence} (h : s.identity = s'.identity) :
    s.promptTokens = s'.promptTokens ∧ s.maxNewTokens = s'.maxNewTokens := by
  simp only [identity, Prod.mk.injEq] at h
  exact ⟨h.2.1, h.2.2.1⟩

theorem InFlight.cursor_le {s : Sequence} (h : s.InFlight) :
    s.prefillCursor ≤ s.promptTokens.length := by
  rcases h with ⟨-, hlt, -⟩ | ⟨-, heq, -⟩
  · exact hlt.le
  · exact heq.le

theorem InFlight.prefill_iff {s : Sequence} (h : s.InFlight) :
    s.phase = .prefill ↔ s.prefillCursor < s.promptTokens.length := by
  rcases h with ⟨hp, hlt, -⟩ | ⟨hp, heq, -⟩
  · exact iff_of_true hp hlt
  · refine iff_of_false ?_ heq.not_lt
    rw [hp]
    decide

theorem InFlight.decode_iff {s : Sequence} (h : s.InFlight) :
    s.phase = .decode ↔ ¬ s.prefillCursor < s.promptTokens.length := by
  rcases h with ⟨hp, hlt, -⟩ | ⟨hp, heq, -⟩
  · refine iff_of_false ?_ (not_not.2 hlt)
    rw [hp]
    decide
  · exact iff_of_true hp heq.not_lt

theorem InFlight.decode_of_generated {s : Sequence} (h : s.InFlight)
    (hg : s.generatedTokens ≠ []) : s.phase = .decode := by
  rcases h with ⟨-, -, hnil⟩ | ⟨hp, -⟩
  · exact absurd hnil hg
  · exact hp

end Sequence

namespace Scheduler

/-- One call, with the sequence it admits, if any: `admit` of a fresh sequence with an unused id,
or `step`. -/
inductive Logged (clock : ℕ → ℤ) : Scheduler → List Sequence → Scheduler → Prop
  | arrive {S : Scheduler} (seqId : UInt64) (prompt : List UInt32) (maxNew : UInt32) (now : ℤ)
      (hid : seqId ∉ S.sequences.map Sequence.id) :
      Logged clock S [Sequence.new seqId prompt maxNew now]
        (S.admitSequence (Sequence.new seqId prompt maxNew now))
  | step {S S' : Scheduler} {rs : List StepResult} (h : S.step clock = .ok (rs, S')) :
      Logged clock S [] S'

/-- Where the sequences admitted so far are, and in what state. -/
structure Conserved (clock : ℕ → ℤ) (admitted : List Sequence) (S : Scheduler) : Prop where
  /-- The next step does not throw. -/
  steps : ∃ rs S', S.step clock = .ok (rs, S')
  /-- The two queues and the finished sequences are the admitted ones, each of them once. -/
  once : ((S.waiting ++ S.active ++ S.finished).map Sequence.identity).Perm
    (admitted.map Sequence.identity)
  distinct : ((S.waiting ++ S.active ++ S.finished).map Sequence.id).Nodup
  finished : ∀ s ∈ S.finished, s.phase = .finished
  unfinished : ∀ s ∈ S.waiting ++ S.active, s.phase ≠ .finished
  /-- The active and then the waiting sequences come in the order of admission. -/
  order : ((S.active ++ S.waiting).map Sequence.identity).Sublist
    (admitted.map Sequence.identity)
  waiting : ∀ s ∈ S.waiting, s.prefillCursor = 0 ∧ s.generatedTokens = []
  active : ∀ s ∈ S.active, s.prefillCursor ≤ s.promptTokens.length ∧
    (s.phase = .prefill ↔ s.prefillCursor < s.promptTokens.length) ∧
    (s.phase = .decode ↔ ¬ s.prefillCursor < s.promptTokens.length) ∧
    (s.generatedTokens ≠ [] → s.phase = .decode)

section Turns

variable {clock : ℕ → ℤ} {S S' : Scheduler} {rs : List StepResult}

/-- **A turn keeps the order**: it takes an active sequence out, or moves the first waiting one to
the end of the active ones. -/
theorem Turn.sublist {β : Type} {f : Sequence → β} (hf : Sequence.Fixed f)
    (h : Turn clock S rs S') :
    ((S'.active ++ S'.waiting).map f).Sublist ((S.active ++ S.waiting).map f) := by
  cases h with
  | refuse hs hfit => exact .refl _
  | decode ha hphase hfit hmore => simp [ha, hf.decoded]
  | retire ha hphase hfit hlast =>
    refine List.Sublist.map f (List.Sublist.append_right ?_ _)
    rw [ha]
    exact List.Sublist.append_left (List.sublist_cons_self _ _) _
  | prefill ha hphase hc hchunk hfit => simp [ha, hf.prefilled]
  | ready ha hphase hc => simp [ha, hf.readied]
  | start hw hc hchunk hfit => simp [hw, hf.prefilled]
  | readyFront hw hc => simp [hw, hf.readied]

end Turns

section Runs

variable {clock : ℕ → ℤ} {config : SchedulerConfig} {pt : PagedKVCacheAllocator}

/-- What the run lemma carries along. -/
structure InOrder (admitted : List Sequence) (S : Scheduler) : Prop extends Orderly S where
  perm : (S.sequences.map Sequence.identity).Perm (admitted.map Sequence.identity)
  order : ((S.active ++ S.waiting).map Sequence.identity).Sublist
    (admitted.map Sequence.identity)

theorem InOrder.arrive {admitted : List Sequence} {S : Scheduler} (h : InOrder admitted S)
    {s : Sequence} (hs : s.Queued) (hid : s.id ∉ S.sequences.map Sequence.id) :
    InOrder (admitted ++ [s]) (S.admitSequence s) where
  toOrderly := h.toOrderly.arrive hs hid
  perm := by
    have hperm : (S.admitSequence s).sequences.Perm (S.sequences ++ [s]) := by
      rw [← Multiset.coe_eq_coe]
      simp only [sequences, admitSequence, ← Multiset.coe_add]
      abel
    refine (hperm.map _).trans ?_
    rw [List.map_append, List.map_append]
    exact h.perm.append_right _
  order := by
    have hs := h.order.append_right ([s].map Sequence.identity)
    rwa [← List.map_append, ← List.map_append, List.append_assoc] at hs

theorem InOrder.turn {admitted : List Sequence} {S S' : Scheduler} {rs : List StepResult}
    (h : InOrder admitted S) (ht : Turn clock S rs S') : InOrder admitted S' where
  toOrderly := h.toOrderly.turn ht
  perm := (ht.perm Sequence.fixed_identity).trans h.perm
  order := (ht.sublist Sequence.fixed_identity).trans h.order

/-- Every call keeps the order and the places. -/
theorem InOrder.logged {admitted ys : List Sequence} {S S' : Scheduler} (h : InOrder admitted S)
    (hcall : Logged clock S ys S') : InOrder (admitted ++ ys) S' := by
  cases hcall with
  | arrive seqId prompt maxNew now hid => exact h.arrive (Sequence.queued_new ..) hid
  | step hstep =>
    have hturns := turns_of_step (fun s hs => (h.waiting s hs).ne_finished) hstep
    rw [List.append_nil]
    exact hturns.keeps (fun _ _ _ hS ht => hS.turn ht) h

/-- **Sequence conservation and order.** For every configuration, allocator and clock, and every
interleaving of `admit` of fresh sequences with `step`. -/
theorem sequences_conserved (clock : ℕ → ℤ) (config : SchedulerConfig)
    (pt : PagedKVCacheAllocator) (admitted : List Sequence) (S : Scheduler)
    (h : Trace (Logged clock) { pageTable := pt, config := config } admitted S) :
    Conserved clock admitted S := by
  have hin : InOrder admitted S :=
    h.invariant (P := InOrder) ⟨orderly_init, .refl _, .refl _⟩ fun _ _ _ _ hS hc => hS.logged hc
  obtain ⟨rs, S', hok, -⟩ := step_turns clock fun s hs => (hin.waiting s hs).ne_finished
  refine ⟨⟨rs, S', hok⟩, hin.perm, hin.nodup, fun s hs => (hin.finished s hs).phase, ?_, hin.order,
    fun s hs => ⟨(hin.waiting s hs).cursor, (hin.waiting s hs).generated⟩, fun s hs => ?_⟩
  · intro s hs
    rcases List.mem_append.1 hs with hw | ha
    · exact (hin.waiting s hw).ne_finished
    · rcases hin.active s ha with ⟨hp, -⟩ | ⟨hp, -⟩ <;> rw [hp] <;> decide
  · have ha := hin.active s hs
    exact ⟨ha.cursor_le, ha.prefill_iff, ha.decode_iff, ha.decode_of_generated⟩

/-- Four blocks of one token. -/
def fourBlocks : PagedKVCacheAllocator :=
  (PagedKVCacheAllocator.create 1 4).get PagedKVCacheAllocator.isSome_create_four

/-- A prompt of two tokens waits. -/
def oneWaiting : Scheduler :=
  ({ pageTable := fourBlocks, config := ⟨2, 1⟩ } : Scheduler).admitSequence
    (Sequence.new 1 [7, 8] 2 0)

/-- A prompt of two tokens, a step, and then an empty prompt. -/
theorem sequences_conserved_two :
    ∃ S, Trace (Logged fun _ => 0) { pageTable := fourBlocks, config := ⟨2, 1⟩ }
        [Sequence.new 1 [7, 8] 2 0, Sequence.new 2 [] 1 0] S ∧
      Conserved (fun _ => 0) [Sequence.new 1 [7, 8] 2 0, Sequence.new 2 [] 1 0] S := by
  have h₁ : Trace (Logged fun _ => 0) { pageTable := fourBlocks, config := ⟨2, 1⟩ }
      [Sequence.new 1 [7, 8] 2 0] oneWaiting :=
    Trace.nil.snoc (Logged.arrive 1 [7, 8] 2 0 List.not_mem_nil)
  have hstep : ∃ rs, oneWaiting.step (fun _ => 0) = .ok (rs, oneWaiting.advance fun _ => 0) :=
    ⟨_, rfl⟩
  obtain ⟨rs, hstep⟩ := hstep
  have h₂ : Trace (Logged fun _ => 0) { pageTable := fourBlocks, config := ⟨2, 1⟩ }
      [Sequence.new 1 [7, 8] 2 0] (oneWaiting.advance fun _ => 0) :=
    h₁.snoc (Logged.step hstep)
  have h₃ : Trace (Logged fun _ => 0) { pageTable := fourBlocks, config := ⟨2, 1⟩ }
      [Sequence.new 1 [7, 8] 2 0, Sequence.new 2 [] 1 0] _ :=
    h₂.snoc (Logged.arrive 2 [] 1 0 (by decide))
  exact ⟨_, h₃, sequences_conserved _ _ _ _ _ h₃⟩

end Runs

end Scheduler

end AetherMoE
