import AetherMoE.Core.Progress

/-!
# Why the admission loop stops

`do_prefill_chunk` returns `0` when the budget is used up, when the allocator refuses, and when the
prompt has nothing left to prefill; the admission loop stops for all three. The last one is an
empty prompt at the front of the queue, which then stays there.

* `spent`, `Spent`: the tokens a step reports and the budget it has left add up;
* **`spent_of_step`**: a step stays within its budget;
* **`front_of_admitLoop`**: what the sequence that the admission loop leaves in front looks like;
* `Explained`: a step that leaves a sequence waiting has no budget, or no blocks for it;
* **`explained_iff_nonempty`**: this holds in every run exactly if no empty prompt is admitted.
-/

namespace AetherMoE

open Sweeping Relation PagedKVCacheAllocator

namespace Scheduler

/-! ## The budget -/

/-- The tokens a step reports. -/
def spent (rs : List StepResult) : ℕ := (rs.map StepResult.tokensProcessed).sum

theorem spent_append (rs rs' : List StepResult) : spent (rs ++ rs') = spent rs + spent rs' := by
  rw [spent, List.map_append, List.sum_append]
  rfl

/-- What is left of the budget `B` and what has been spent add up. -/
def Spent (B : ℕ) (it : Iteration) : Prop := it.budget + spent it.results = B

section Budget

variable {clock : ℕ → ℤ} {config : SchedulerConfig} {B : ℕ} {s : Sequence} {it it' : Iteration}

/-- A turn that reports `n` tokens, within the budget, and lowers the budget by `n`. -/
theorem Spent.report (h : Spent B it) {n : ℕ} (hn : n ≤ it.budget) {r : StepResult}
    (hr : r.tokensProcessed = n) (hb : it'.budget = it.budget - n)
    (hrs : it'.results = it.results ++ [r]) : Spent B it' := by
  unfold Spent at h ⊢
  have hone : spent [r] = n := by rw [spent, List.map_singleton, List.sum_singleton, hr]
  rw [hb, hrs, spent_append, hone]
  omega

theorem decodeTurn_spent {s' : Option Sequence} (hb : exhausted it = false)
    (h : decodeTurn clock s it = .ok (s', it')) (hit : Spent B it) : Spent B it' := by
  have hpos : 1 ≤ it.budget := Nat.one_le_iff_ne_zero.2 fun h0 => by
    rw [exhausted, h0] at hb
    cases hb
  cases decodeTurn_cases h with
  | skip hphase => exact hit
  | refused hphase hfit => exact hit
  | kept hphase hfit hmore => exact hit.report hpos rfl rfl rfl
  | retired hphase hfit hlast => exact hit.report hpos rfl rfl rfl

theorem chunk_le_budget (s : Sequence) (config : SchedulerConfig) (budget : ℕ) :
    s.chunk config budget ≤ budget := (min_le_right _ _).trans (min_le_right _ _)

theorem Spent.spend (h : Spent B it) (s s' : Sequence) (pt : PagedKVCacheAllocator) :
    Spent B (spend it (s.chunk config it.budget) s' pt) :=
  h.report (chunk_le_budget s config it.budget) rfl rfl rfl

theorem prefillTurn_spent {s' : Option Sequence} (h : prefillTurn config s it = .ok (s', it'))
    (hit : Spent B it) : Spent B it' := by
  cases prefillTurn_cases h with
  | skip hphase => exact hit
  | complete hphase hc => exact hit
  | idle hphase hc hchunk => exact hit
  | refused hphase hc hchunk hfit => exact hit
  | granted hphase hc hchunk hfit => exact hit.spend s _ _

theorem admitLoop_spent {w w' l : List Sequence} (hw : ∀ s ∈ w, s.Queued)
    (h : admitLoop config w it = .ok (w', l, it')) (hit : Spent B it) : Spent B it' := by
  induction w generalizing it w' l with
  | nil =>
    cases h
    exact hit
  | cons s w ih =>
    rw [List.forall_mem_cons] at hw
    by_cases h0 : it.budget = 0
    · rw [admitLoop, if_pos h0] at h
      cases h
      exact hit
    obtain ⟨n, s', pt, hrun, hway⟩ := doPrefillChunk_branch config it.budget it.pageTable
      hw.1.ne_finished
    cases hway with
    | complete hc =>
      rw [admitLoop_stuck h0 w hrun] at h
      cases h
      exact hit
    | idle hc hn =>
      rw [admitLoop_stuck h0 w hrun] at h
      cases h
      exact hit
    | refused hc hn hfit =>
      rw [admitLoop_stuck h0 w hrun] at h
      cases h
      exact hit
    | granted hc hn hfit =>
      rw [admitLoop_granted h0 w hn hrun] at h
      obtain ⟨⟨w₁, l₁, it₁⟩, hloop, h⟩ := bind_eq_ok.1 h
      cases h
      exact ih hw.2 hloop (hit.spend s _ _)

/-- What is left of the budget after the loops of a step, and what they report. -/
theorem spent_of_loops {S : Scheduler} (hS : Orderly S) {a₁ a₂ w ad : List Sequence}
    {it₁ it₂ it₃ : Iteration}
    (h₁ : sweep exhausted (decodeTurn clock) S.active
      { S.toMachine with budget := S.config.maxBatchTokens } = .ok (a₁, it₁))
    (h₂ : sweep exhausted (prefillTurn S.config) a₁ it₁ = .ok (a₂, it₂))
    (h₃ : admitLoop S.config S.waiting it₂ = .ok (w, ad, it₃)) :
    Spent S.config.maxBatchTokens it₃ := by
  have hspent₀ : Spent S.config.maxBatchTokens
      { S.toMachine with budget := S.config.maxBatchTokens } := Nat.add_zero _
  have hspent₁ : Spent S.config.maxBatchTokens it₁ :=
    sweep_keeps _ _ (fun s it s' it' hb hv => decodeTurn_spent hb hv) h₁ hspent₀
  have hspent₂ : Spent S.config.maxBatchTokens it₂ :=
    sweep_keeps _ _ (fun s it s' it' _ hv => prefillTurn_spent hv) h₂ hspent₁
  exact admitLoop_spent hS.waiting h₃ hspent₂

/-- **A step stays within its budget.** -/
theorem spent_of_step {S S' : Scheduler} {rs : List StepResult} (hS : Orderly S)
    (hok : S.step clock = .ok (rs, S')) : spent rs ≤ S.config.maxBatchTokens := by
  obtain ⟨a₁, it₁, a₂, it₂, w, ad, it₃, h₁, h₂, h₃, rfl, -⟩ := loops_of_step hok
  have hspent := spent_of_loops hS h₁ h₂ h₃
  unfold Spent at hspent
  omega

end Budget

/-! ## The front of the queue -/

/-- Why a sequence is left in front of the queue: no budget, no blocks, or no prompt. -/
def Held (config : SchedulerConfig) (s : Sequence) (it : Iteration) : Prop :=
  it.budget = 0 ∨ ¬ it.pageTable.Fits s.id (s.prefillCursor + s.chunk config it.budget) ∨
    s.promptTokens = []

/-- **The sequence the admission loop leaves in front.** -/
theorem front_of_admitLoop {config : SchedulerConfig} (hchunk : 1 ≤ config.maxPrefillChunk)
    (w : List Sequence) (hw : ∀ s ∈ w, s.Queued) {it it' : Iteration} {w' l : List Sequence}
    (h : admitLoop config w it = .ok (w', l, it')) : ∀ s ∈ w'.head?, Held config s it' := by
  induction w generalizing it l with
  | nil =>
    cases h
    exact fun s hs => nomatch hs
  | cons s w ih =>
    rw [List.forall_mem_cons] at hw
    by_cases h0 : it.budget = 0
    · rw [admitLoop, if_pos h0] at h
      cases h
      exact fun s _ => .inl h0
    obtain ⟨n, s', pt, hrun, hway⟩ := doPrefillChunk_branch config it.budget it.pageTable
      hw.1.ne_finished
    cases hway with
    | complete hc =>
      rw [admitLoop_stuck h0 w hrun] at h
      cases h
      refine fun t ht => .inr (.inr ?_)
      obtain rfl := Option.some.inj ht
      unfold Sequence.prefillComplete at hc
      rw [hw.1.cursor, Nat.le_zero, List.length_eq_zero_iff] at hc
      exact hc
    | idle hc hn => exact absurd hn (chunk_ne_zero hc hchunk h0)
    | refused hc hn hfit =>
      rw [admitLoop_stuck h0 w hrun] at h
      cases h
      refine fun t ht => .inr (.inl ?_)
      obtain rfl := Option.some.inj ht
      exact fun hfit' => hfit (((quiet_refused hfit).fits_iff _ _).1 hfit')
    | granted hc hn hfit =>
      rw [admitLoop_granted h0 w hn hrun] at h
      obtain ⟨⟨w₁, l₁, it₁⟩, hloop, h⟩ := bind_eq_ok.1 h
      cases h
      exact ih hw.2 hloop

/-- The next step returns, and if it leaves a sequence waiting then it has used up
`max_batch_tokens`, or the free blocks are too few for the sequence's chunk, which is bounded by
the prompt, by `max_prefill_chunk` and by the unused budget. -/
def Explained (clock : ℕ → ℤ) (S : Scheduler) : Prop :=
  ∃ rs S', S.step clock = .ok (rs, S') ∧ ∀ s ∈ S'.waiting.head?,
    spent rs = S.config.maxBatchTokens ∨
    ¬ S'.pageTable.Fits s.id
      (s.prefillCursor + s.chunk S.config (S.config.maxBatchTokens - spent rs))

section Runs

variable {clock : ℕ → ℤ} {Fresh : Sequence → Prop} {config : SchedulerConfig}
  {pt : PagedKVCacheAllocator} {S : Scheduler}

/-- Where a step leaves its budget and the front of the queue. -/
theorem held_of_step {S' : Scheduler} {rs : List StepResult} (hS : Orderly S)
    (hchunk : 1 ≤ S.config.maxPrefillChunk) (hok : S.step clock = .ok (rs, S')) :
    spent rs ≤ S.config.maxBatchTokens ∧ ∀ s ∈ S'.waiting.head?,
      spent rs = S.config.maxBatchTokens ∨
      ¬ S'.pageTable.Fits s.id
        (s.prefillCursor + s.chunk S.config (S.config.maxBatchTokens - spent rs)) ∨
      s.promptTokens = [] := by
  obtain ⟨a₁, it₁, a₂, it₂, w, ad, it₃, h₁, h₂, h₃, rfl, rfl⟩ := loops_of_step hok
  have hspent := spent_of_loops hS h₁ h₂ h₃
  have hheld := front_of_admitLoop hchunk S.waiting hS.waiting h₃
  unfold Spent at hspent
  refine ⟨by omega, fun s hs => ?_⟩
  have hbudget : S.config.maxBatchTokens - spent it₃.results = it₃.budget := by omega
  rw [hbudget]
  rcases hheld s hs with h0 | hno | hnil
  · left
    omega
  · exact .inr (.inl hno)
  · exact .inr (.inr hnil)

/-- A step with no empty prompt in the queue can be explained. -/
theorem explained_of_nonempty (hS : Orderly S) (hchunk : 1 ≤ S.config.maxPrefillChunk)
    (hw : ∀ s ∈ S.waiting, s.promptTokens ≠ []) : S.Explained clock := by
  obtain ⟨rs, S', hok, hturns⟩ := step_turns clock fun s hs => (hS.waiting s hs).ne_finished
  have hw' : ∀ s ∈ S'.waiting, s.promptTokens ≠ [] :=
    hturns.keeps (fun _ _ _ h ht => ht.prompts h) hw
  refine ⟨rs, S', hok, fun s hs => ?_⟩
  rcases (held_of_step hS hchunk hok).2 s hs with hall | hno | hnil
  · exact .inl hall
  · exact .inr hno
  · exact absurd hnil (hw' s (List.mem_of_mem_head? hs))

/-- A step that may spend nothing has used up all it may spend. -/
theorem explained_of_zero (hS : Orderly S) (hchunk : 1 ≤ S.config.maxPrefillChunk)
    (hbatch : S.config.maxBatchTokens = 0) : S.Explained clock := by
  obtain ⟨rs, S', hok, -⟩ := step_turns clock fun s hs => (hS.waiting s hs).ne_finished
  have hle := (held_of_step hS hchunk hok).1
  exact ⟨rs, S', hok, fun s _ => .inl (by omega)⟩

/-- The scheduler with one sequence, of an empty prompt, waiting. -/
def withEmptyPrompt (config : SchedulerConfig) (pt : PagedKVCacheAllocator) (seqId : UInt64)
    (maxNew : UInt32) (now : ℤ) : Scheduler :=
  ({ pageTable := pt, config := config } : Scheduler).admitSequence
    (Sequence.new seqId [] maxNew now)

/-- A step finds nothing to do for it, spends nothing, and leaves it in front. -/
theorem step_withEmptyPrompt (hbatch : config.maxBatchTokens ≠ 0) (seqId : UInt64)
    (maxNew : UInt32) (now : ℤ) :
    (withEmptyPrompt config pt seqId maxNew now).step clock = .ok ([],
      { pageTable := pt, config := config,
        waiting := [(Sequence.new seqId [] maxNew now).readied] }) := by
  have hloop : admitLoop config [Sequence.new seqId [] maxNew now]
      { pageTable := pt, budget := config.maxBatchTokens } =
        .ok ([(Sequence.new seqId [] maxNew now).readied], [],
          { pageTable := pt, budget := config.maxBatchTokens }) :=
    admitLoop_stuck hbatch [] (doPrefillChunk_complete (Nat.zero_le _)
      (Sequence.queued_new seqId [] maxNew now).ne_finished)
  change (admitLoop config [Sequence.new seqId [] maxNew now]
    { pageTable := pt, budget := config.maxBatchTokens } >>= fun x =>
      pure (x.2.2.results, place config x.2.2 x.1 ([] ++ x.2.1))) = _
  rw [hloop]
  rfl

theorem not_explained_withEmptyPrompt (hbatch : config.maxBatchTokens ≠ 0) (seqId : UInt64)
    (maxNew : UInt32) (now : ℤ) :
    ¬ (withEmptyPrompt config pt seqId maxNew now).Explained clock := by
  rintro ⟨rs, S', hok, h⟩
  rw [step_withEmptyPrompt hbatch] at hok
  cases hok
  rcases h _ rfl with hall | hno
  · exact hbatch hall.symm
  · -- an empty chunk needs no block
    refine hno (le_trans (le_of_eq ?_) (Nat.zero_le _))
    have hpos := pt.blockSize_pos
    have hlt := pt.blockSize_lt
    change (0 + min (0 - 0) _ + pt.blockSize - 1) % 2 ^ 64 / pt.blockSize = 0
    rw [Nat.sub_zero, Nat.zero_min, Nat.zero_add, Nat.mod_eq_of_lt (by omega)]
    exact Nat.div_eq_of_lt (by omega)

/-- **Admission stops only for budget or capacity, in every run, exactly if no sequence with an
empty prompt is admitted** (or every step has nothing to spend). -/
theorem explained_iff_nonempty (clock : ℕ → ℤ) (Fresh : Sequence → Prop)
    (config : SchedulerConfig) (pt : PagedKVCacheAllocator)
    (hchunk : 1 ≤ config.maxPrefillChunk) :
    (∀ S, Reachable clock Fresh config pt S → S.Explained clock) ↔
      config.maxBatchTokens = 0 ∨
        ∀ seqId maxNew now, ¬ Fresh (Sequence.new seqId [] maxNew now) := by
  constructor
  · intro h
    rw [or_iff_not_imp_left]
    intro hbatch seqId maxNew now hfresh
    refine not_explained_withEmptyPrompt hbatch seqId maxNew now
      (h (withEmptyPrompt config pt seqId maxNew now) ?_)
    exact ReflTransGen.single (.arrive seqId [] maxNew now hfresh List.not_mem_nil)
  · rintro (hbatch | hF) S hS
    · obtain rfl := config_of_reachable hS
      exact explained_of_zero (Orderly.of_reachable hS) hchunk hbatch
    · have hS' : Reachable clock (fun s => s.promptTokens ≠ []) config pt S := by
        refine hS.mono fun seqId prompt maxNew now hfresh hnil => ?_
        change prompt = [] at hnil
        subst hnil
        exact hF seqId maxNew now hfresh
      obtain ⟨rfl, hw⟩ := prompts_of_reachable (fun _ hs => hs) hS'
      exact explained_of_nonempty (Orderly.of_reachable hS) hchunk hw

end Runs

section Examples

/-- One block of one token. -/
def oneBlock : PagedKVCacheAllocator := (create 1 1).get rfl

/-- With non-empty prompts only, the first step of a run can be explained. -/
theorem explained_iff_nonempty_prompts :
    (admitSequence { pageTable := oneBlock, config := ⟨2, 1⟩ }
      (Sequence.new 1 [7] 1 0)).Explained fun _ => 0 :=
  (explained_iff_nonempty (fun _ => 0) (fun s => s.promptTokens ≠ []) ⟨2, 1⟩ oneBlock
    (by decide)).2 (.inr fun _ _ _ h => h rfl) _
    (ReflTransGen.single (.arrive 1 [7] 1 0 (List.cons_ne_nil 7 []) List.not_mem_nil))

/-- **An empty prompt blocks the queue** with the whole budget and the only block left. -/
theorem not_explained_emptyPrompt : ∃ S, create 1 1 = some oneBlock ∧
    Reachable (fun _ => 0) (fun _ => True) ⟨2, 1⟩ oneBlock S ∧ ¬ S.Explained fun _ => 0 :=
  ⟨withEmptyPrompt ⟨2, 1⟩ oneBlock 1 1 0, rfl,
    ReflTransGen.single (.arrive 1 [] 1 0 trivial List.not_mem_nil),
    not_explained_withEmptyPrompt (by decide) 1 1 0⟩

end Examples

end Scheduler

end AetherMoE
