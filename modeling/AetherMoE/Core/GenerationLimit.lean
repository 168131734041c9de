import AetherMoE.Core.Reports

/-!
# The generation limit

The decode loop compares the number of generated tokens with `max_new_tokens` after it has appended
one. A sequence with `max_new_tokens` 0 gets that one.

* `Call`: `admit` or `step`, with no condition on the ids;
* `Limited`: no sequence is beyond its limit, and a finished one is at it;
* `BelowLimit`, `BelowLimit.turn`: an active sequence is below its limit, if none that can become
  active has the limit 0; **`limited_of_belowLimit`**;
* `step_prefills`, `step_decodes`: a sequence that always fits is decoded in the second step;
* **`limited_iff`**: the runs of a class of sequences keep the limit exactly if no sequence of the
  class has a prompt and the limit 0.
-/

namespace AetherMoE

open Relation Stepping PagedKVCacheAllocator Sweeping

namespace Scheduler

/-- One call: `admit` of a fresh sequence of the class, whatever its id, or `step`. -/
inductive Call (clock : ℕ → ℤ) (Fresh : Sequence → Prop) : Scheduler → Scheduler → Prop
  | arrive {S : Scheduler} (seqId : UInt64) (prompt : List UInt32) (maxNew : UInt32) (now : ℤ)
      (hfresh : Fresh (Sequence.new seqId prompt maxNew now)) :
      Call clock Fresh S (S.admitSequence (Sequence.new seqId prompt maxNew now))
  | step {S S' : Scheduler} {rs : List StepResult} (h : S.step clock = .ok (rs, S')) :
      Call clock Fresh S S'

theorem call_advance {clock : ℕ → ℤ} {Fresh : Sequence → Prop} {S : Scheduler}
    (hw : ∀ s ∈ S.waiting, s.phase ≠ .finished) : Call clock Fresh S (S.advance clock) := by
  obtain ⟨rs, hok⟩ := step_advance hw
  exact .step hok

/-- No sequence has more generated tokens than `max_new_tokens`, and a finished one has as many. -/
def Limited (S : Scheduler) : Prop :=
  ∀ s ∈ S.sequences, s.generatedTokens.length ≤ s.maxNewTokens.toNat ∧
    (s.phase = .finished → s.generatedTokens.length = s.maxNewTokens.toNat)

instance (S : Scheduler) : Decidable S.Limited := inferInstanceAs (Decidable (∀ s ∈ _, _ ∧ _))

/-! ## Where the limit holds -/

section Limit

variable {clock : ℕ → ℤ} {Fresh : Sequence → Prop} {config : SchedulerConfig}
  {pt : PagedKVCacheAllocator} {S S' : Scheduler} {rs : List StepResult}

/-- A waiting sequence has generated nothing and, if it has a prompt, a limit to reach; an active
one is below its limit; a finished one is at it. -/
structure BelowLimit (S : Scheduler) : Prop where
  waiting : ∀ s ∈ S.waiting, s.phase ≠ .finished ∧ s.generatedTokens = [] ∧
    (s.promptTokens ≠ [] → s.maxNewTokens ≠ 0)
  active : ∀ s ∈ S.active, s.phase ≠ .finished ∧
    s.generatedTokens.length < s.maxNewTokens.toNat
  finished : ∀ s ∈ S.finished, s.generatedTokens.length = s.maxNewTokens.toNat

theorem phase_prefilled {s : Sequence} (h : s.phase ≠ .finished) (c : ℕ) :
    (s.prefilled c).phase ≠ .finished := by
  unfold Sequence.prefilled
  split_ifs
  · exact SequencePhase.noConfusion
  · exact h

theorem BelowLimit.turn (hS : BelowLimit S) (h : Turn clock S rs S') : BelowLimit S' := by
  have hact := hS.active
  have hwait := hS.waiting
  cases h with
  | refuse hs hfit => exact { hS with }
  | @decode l r s ha hphase hfit hmore =>
    rw [ha, List.forall_mem_append, List.forall_mem_cons] at hact
    refine { hS with
      active := List.forall_mem_append.2 ⟨hact.1, List.forall_mem_cons.2 ⟨?_, hact.2.2⟩⟩ }
    refine ⟨hact.2.1.1, ?_⟩
    simpa [Sequence.LastDecode, Sequence.decoded] using hmore
  | @retire l r s ha hphase hfit hlast =>
    rw [ha, List.forall_mem_append, List.forall_mem_cons] at hact
    have hlen : s.maxNewTokens.toNat ≤ s.generatedTokens.length + 1 := hlast
    have hlt := hact.2.1.2
    refine { hS with
      active := List.forall_mem_append.2 ⟨hact.1, hact.2.2⟩
      finished := List.forall_mem_append.2 ⟨hS.finished, List.forall_mem_singleton.2 ?_⟩ }
    simp only [Sequence.retired, Sequence.decoded, List.length_append, List.length_singleton]
    omega
  | @prefill l r s ha hphase hc b hchunk hfit =>
    rw [ha, List.forall_mem_append, List.forall_mem_cons] at hact
    refine { hS with
      active := List.forall_mem_append.2 ⟨hact.1, List.forall_mem_cons.2 ⟨?_, hact.2.2⟩⟩ }
    refine ⟨phase_prefilled hact.2.1.1 _, ?_⟩
    rw [Sequence.generatedTokens_prefilled, Sequence.maxNewTokens_prefilled]
    exact hact.2.1.2
  | @ready l r s ha hphase hc =>
    rw [ha, List.forall_mem_append, List.forall_mem_cons] at hact
    refine { hS with
      active := List.forall_mem_append.2 ⟨hact.1, List.forall_mem_cons.2 ⟨?_, hact.2.2⟩⟩ }
    exact ⟨SequencePhase.noConfusion, hact.2.1.2⟩
  | @start w s hw hc b hchunk hfit =>
    rw [hw, List.forall_mem_cons] at hwait
    obtain ⟨⟨hphase, hnil, hlimit⟩, hrest⟩ := hwait
    refine { hS with
      waiting := hrest
      active := List.forall_mem_append.2 ⟨hS.active, List.forall_mem_singleton.2 ?_⟩ }
    -- an empty prompt is complete, so the sequence has one and with it a limit
    have hprompt : s.promptTokens ≠ [] := by
      intro h0
      refine hc ?_
      simp [Sequence.prefillComplete, h0]
    refine ⟨phase_prefilled hphase _, ?_⟩
    rw [Sequence.generatedTokens_prefilled, Sequence.maxNewTokens_prefilled, hnil]
    exact Nat.pos_of_ne_zero fun h0 => hlimit hprompt (UInt32.toNat_inj.1 h0)
  | @readyFront w s hw hc =>
    rw [hw, List.forall_mem_cons] at hwait
    refine { hS with waiting := List.forall_mem_cons.2 ⟨?_, hwait.2⟩ }
    exact ⟨SequencePhase.noConfusion, hwait.1.2⟩

/-- **Below the limit, within the limit.** -/
theorem limited_of_belowLimit (hS : BelowLimit S) : S.Limited := by
  intro s hs
  obtain hw | ha | hf := mem_sequences.1 hs
  · obtain ⟨hphase, hnil, -⟩ := hS.waiting s hw
    rw [hnil]
    exact ⟨Nat.zero_le _, fun hfin => absurd hfin hphase⟩
  · obtain ⟨hphase, hlt⟩ := hS.active s ha
    exact ⟨hlt.le, fun hfin => absurd hfin hphase⟩
  · exact ⟨(hS.finished s hf).le, fun _ => hS.finished s hf⟩

/-- The run lemma. -/
theorem belowLimit_of_calls
    (hF : ∀ seqId prompt maxNew now, Fresh (Sequence.new seqId prompt maxNew now) →
      prompt ≠ [] → maxNew ≠ 0)
    (h : ReflTransGen (Call clock Fresh) { pageTable := pt, config := config } S) :
    BelowLimit S := by
  refine invariant (P := BelowLimit)
    ⟨List.forall_mem_nil _, List.forall_mem_nil _, List.forall_mem_nil _⟩ ?_ h
  intro S S' hS hcall
  cases hcall with
  | arrive seqId prompt maxNew now hfresh =>
    refine { hS with
      waiting := List.forall_mem_append.2 ⟨hS.waiting, List.forall_mem_singleton.2 ?_⟩ }
    exact ⟨SequencePhase.noConfusion, rfl, hF seqId prompt maxNew now hfresh⟩
  | step hstep =>
    have hturns := turns_of_step (fun s hs => (hS.waiting s hs).1) hstep
    exact hturns.keeps (fun _ _ _ hT ht => hT.turn ht) hS

end Limit

/-! ## Where it does not -/

section Exceeded

/-- A step is its three loops. -/
theorem step_of_loops {clock : ℕ → ℤ} {S : Scheduler} {a₁ a₂ w ad : List Sequence}
    {it₁ it₂ it₃ : Iteration}
    (h₁ : sweep exhausted (decodeTurn clock) S.active
      { S.toMachine with budget := S.config.maxBatchTokens } = .ok (a₁, it₁))
    (h₂ : sweep exhausted (prefillTurn S.config) a₁ it₁ = .ok (a₂, it₂))
    (h₃ : admitLoop S.config S.waiting it₂ = .ok (w, ad, it₃)) :
    S.step clock = .ok (it₃.results, place S.config it₃ w (a₂ ++ ad)) := by
  simp only [step, bind, Except.bind, h₁, h₂, h₃]
  rfl

section LargeBlock

variable {pt : PagedKVCacheAllocator} {i : UInt64}

/-- One block, and any sequence fits into it. -/
structure LargeBlock (pt : PagedKVCacheAllocator) (i : UInt64) : Prop where
  size : pt.blockSize = 2 ^ 64 - 1
  room : 1 ≤ (pt.blocksOf i).length + pt.freeBlocks.length

theorem LargeBlock.fits (h : LargeBlock pt i) (t : ℕ) : pt.Fits i t := by
  have hneeded : pt.blocksNeededFor t ≤ 1 := by
    rw [blocksNeededFor, h.size]
    omega
  exact hneeded.trans h.room

theorem LargeBlock.granted (h : LargeBlock pt i) (t : ℕ) :
    LargeBlock (pt.ensureCapacity i t).2 i := by
  refine ⟨blockSize_ensureCapacity.trans h.size, ?_⟩
  have hroom := h.room
  rw [blocksOf_ensureCapacity (h.fits t), freeBlocks_ensureCapacity (h.fits t), List.length_append,
    List.length_take, List.length_drop]
  omega

theorem exists_largeBlock (i : UInt64) :
    ∃ bs n pt, create bs n = some pt ∧ LargeBlock pt i := by
  have hvalid : ¬ ((0xFFFFFFFFFFFFFFFF : UInt64) = 0 ∨ (1 : UInt64) = 0) := by decide
  refine ⟨0xFFFFFFFFFFFFFFFF, 1, _, dif_neg hvalid, ?_, Nat.le_add_left 1 _⟩
  exact UInt64.toNat_ofNat_of_lt (by decide)

end LargeBlock

variable (clock : ℕ → ℤ) (seqId : UInt64) (now : ℤ) {prompt : List UInt32} {S : Scheduler}
  {s : Sequence}

/-- A step with one sequence, waiting and sure to fit, prefills its whole prompt if the
configuration lets it. -/
theorem step_prefills (hconfig : S.config = ⟨s.promptTokens.length, s.promptTokens.length⟩)
    (ha : S.active = []) (hw : S.waiting = [s]) (hs : s.phase = .prefill)
    (hcur : s.prefillCursor = 0) (hprompt : s.promptTokens ≠ [])
    (hpt : LargeBlock S.pageTable s.id) :
    ∃ rs S', S.step clock = .ok (rs, S') ∧ S'.config = S.config ∧ S'.waiting = [] ∧
      S'.active = [(s.advanced s.promptTokens.length).readied] ∧ LargeBlock S'.pageTable s.id := by
  have hlen : s.promptTokens.length ≠ 0 := fun h0 => hprompt (List.length_eq_zero_iff.1 h0)
  have hchunk : s.chunk S.config s.promptTokens.length = s.promptTokens.length := by
    simp [Sequence.chunk, hconfig, hcur]
  have hc : ¬ s.prefillComplete := by
    rw [Sequence.prefillComplete, hcur]
    omega
  have hdone : s.prefilled s.promptTokens.length = (s.advanced s.promptTokens.length).readied :=
    if_pos (Nat.le_add_left _ _)
  have hrun : doPrefillChunk S.config s s.promptTokens.length S.pageTable = _ :=
    doPrefillChunk_granted hc (by rwa [hchunk]) (by rw [hs]; exact SequencePhase.noConfusion)
      (hpt.fits _)
  rw [hchunk, hdone] at hrun
  let it : Iteration := { S.toMachine with budget := s.promptTokens.length }
  have h₁ : sweep exhausted (decodeTurn clock) S.active
      { S.toMachine with budget := S.config.maxBatchTokens } = .ok ([], it) := by
    rw [ha, hconfig]
    rfl
  have h₃ : admitLoop S.config [s] it = _ := admitLoop_granted hlen [] hlen hrun
  rw [← hw] at h₃
  exact ⟨_, _, step_of_loops h₁ rfl h₃, rfl, rfl, rfl, hpt.granted _⟩

/-- A step with one sequence, decoding, sure to fit and due for its last token, retires it. -/
theorem step_decodes (hbudget : S.config.maxBatchTokens ≠ 0) (hw : S.waiting = [])
    (ha : S.active = [s]) (hphase : s.phase = .decode) (hpt : LargeBlock S.pageTable s.id)
    (hlast : s.LastDecode) :
    ∃ rs S', S.step clock = .ok (rs, S') ∧ s.retired (clock S.ticks) ∈ S'.finished := by
  let it : Iteration := { S.toMachine with budget := S.config.maxBatchTokens }
  have hturn : decodeTurn clock s it = _ := decodeTurn_retired hphase (hpt.fits _) hlast
  have h₁ := sweep_singleton exhausted (decodeTurn clock) (beq_eq_false_iff_ne.2 hbudget) hturn
  rw [← ha] at h₁
  refine ⟨_, _, step_of_loops h₁ rfl (by rw [hw]; rfl), ?_⟩
  exact List.mem_append_right _ List.mem_cons_self

/-- **Limit 0 is exceeded**, on some scheduler. -/
theorem exists_not_limited (hprompt : prompt ≠ []) {Fresh : Sequence → Prop}
    (hfresh : Fresh (Sequence.new seqId prompt 0 now)) :
    ∃ config bs n pt S, create bs n = some pt ∧
      ReflTransGen (Call clock Fresh) { pageTable := pt, config := config } S ∧ ¬ S.Limited := by
  obtain ⟨bs, n, pt, hpt, hlarge⟩ := exists_largeBlock seqId
  let S₀ : Scheduler := { pageTable := pt, config := ⟨prompt.length, prompt.length⟩ }
  obtain ⟨rs₁, S₁, hok₁, hconfig, hw, ha, hlarge₁⟩ := step_prefills clock
    (S := S₀.admitSequence (Sequence.new seqId prompt 0 now)) rfl rfl rfl rfl rfl hprompt hlarge
  have hbudget : S₁.config.maxBatchTokens ≠ 0 := by
    rw [hconfig]
    exact fun h0 => hprompt (List.length_eq_zero_iff.1 h0)
  obtain ⟨rs₂, S₂, hok₂, hfin⟩ := step_decodes clock hbudget hw ha rfl hlarge₁ (Nat.zero_le _)
  have hcalls := ((ReflTransGen.single (.arrive seqId prompt 0 now hfresh)).tail
    (.step hok₁)).tail (Call.step hok₂)
  refine ⟨_, bs, n, pt, S₂, hpt, hcalls, fun hlim => ?_⟩
  exact Nat.not_succ_le_zero 0 (hlim _ (List.mem_append_right _ hfin)).1

end Exceeded

/-- **The limit**: the runs over a class of fresh sequences, whatever their ids, the configuration
and the pool, never leave a sequence beyond its limit or finished short of it, exactly if no
sequence of the class has a non-empty prompt and `max_new_tokens` 0. -/
theorem limited_iff (clock : ℕ → ℤ) (Fresh : Sequence → Prop) :
    (∀ config bs n pt, create bs n = some pt → ∀ S,
      ReflTransGen (Call clock Fresh) { pageTable := pt, config := config } S → S.Limited) ↔
    ∀ seqId prompt maxNew now, Fresh (Sequence.new seqId prompt maxNew now) →
      prompt ≠ [] → maxNew ≠ 0 := by
  constructor
  · rintro h seqId prompt _ now hfresh hprompt rfl
    obtain ⟨config, bs, n, pt, S, hpt, hcalls, hnot⟩ :=
      exists_not_limited clock seqId now hprompt hfresh
    exact hnot (h config bs n pt hpt S hcalls)
  · intro hF config bs n pt _ S hcalls
    exact limited_of_belowLimit (belowLimit_of_calls hF hcalls)

/-- One prompt token and no new token asked for, on four blocks of one token: the second step
generates one. -/
theorem not_limited_zero : ∃ pt S, create 1 4 = some pt ∧
    ReflTransGen (Call (fun _ => 0) fun _ => True) { pageTable := pt, config := {} } S ∧
    ¬ S.Limited := by
  let S₀ : Scheduler := { pageTable := (create 1 4).get isSome_create_four, config := {} }
  let S₁ := S₀.admitSequence (Sequence.new 1 [7] 0 0)
  have harrive : ReflTransGen (Call (fun _ => 0) fun _ => True) S₀ S₁ :=
    .single (.arrive 1 [7] 0 0 trivial)
  exact ⟨_, (S₁.advance fun _ => 0).advance fun _ => 0, rfl,
    (harrive.tail (call_advance (by decide))).tail (call_advance (by decide)), by decide⟩

end Scheduler

end AetherMoE
