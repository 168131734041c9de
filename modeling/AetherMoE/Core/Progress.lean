import AetherMoE.Core.Accounting

/-!
# When a step makes progress

Every refusal of the allocator is answered with "retry next iteration", so a step can come back
empty although sequences are left. `Room` is the condition on the state before the step under
which it does not.

* `Quiet`: an iteration that has refused requests and done nothing else;
* `decodeLoop_progress`, `prefillLoop_progress`, `admitLoop_progress`: each loop either produces a
  result, from a request that fitted at the start, or stays quiet because none did;
* **`progress_iff_room`**: in every reachable state, a step returns a result exactly if there is
  room.
-/

namespace AetherMoE

open Sweeping Relation PagedKVCacheAllocator

namespace Scheduler

/-! ## Quiet iterations -/

/-- `it'` comes from `it` by refused requests only. -/
structure Quiet (it it' : Iteration) : Prop where
  blockSize : it'.pageTable.blockSize = it.pageTable.blockSize
  freeBlocks : it'.pageTable.freeBlocks = it.pageTable.freeBlocks
  blocksOf : ∀ i, it'.pageTable.blocksOf i = it.pageTable.blocksOf i
  budget : it'.budget = it.budget
  results : it'.results = it.results

theorem Quiet.refl (it : Iteration) : Quiet it it := ⟨rfl, rfl, fun _ => rfl, rfl, rfl⟩

theorem Quiet.trans {it it' it'' : Iteration} (h : Quiet it it') (h' : Quiet it' it'') :
    Quiet it it'' :=
  ⟨h'.blockSize.trans h.blockSize, h'.freeBlocks.trans h.freeBlocks,
    fun i => (h'.blocksOf i).trans (h.blocksOf i), h'.budget.trans h.budget,
    h'.results.trans h.results⟩

/-- The same requests fit after a quiet stretch. -/
theorem Quiet.fits_iff {it it' : Iteration} (h : Quiet it it') (i : UInt64) (t : ℕ) :
    it'.pageTable.Fits i t ↔ it.pageTable.Fits i t := by
  unfold Fits blocksNeededFor
  rw [h.blockSize, h.freeBlocks, h.blocksOf]

theorem quiet_refused {it : Iteration} {i : UInt64} {t : ℕ} (h : ¬ it.pageTable.Fits i t) :
    Quiet it { it with pageTable := (it.pageTable.ensureCapacity i t).2 } :=
  ⟨blockSize_ensureCapacity, freeBlocks_refused h, blocksOf_refused h, rfl, rfl⟩

/-! ## The loops -/

section Loops

variable {clock : ℕ → ℤ} {config : SchedulerConfig} {it : Iteration}

/-- A decoding sequence whose next token fits. -/
def CanDecode (pt : PagedKVCacheAllocator) (s : Sequence) : Prop :=
  s.phase = .decode ∧ pt.Fits s.id (s.totalTokens + 1)

/-- A prefilling sequence whose next chunk fits. -/
def CanPrefill (config : SchedulerConfig) (budget : ℕ) (pt : PagedKVCacheAllocator)
    (s : Sequence) : Prop :=
  s.phase = .prefill ∧ pt.Fits s.id (s.prefillCursor + s.chunk config budget)

/-- The outcome of a loop over `l`: it produced a result, from a candidate of the initial state,
or there was none and it was quiet. -/
def Outcome (Can : Sequence → Prop) (l : List Sequence) (it : Iteration) (l' : List Sequence)
    (it' : Iteration) : Prop :=
  (it'.results ≠ [] ∧ ∃ s ∈ l, Can s) ∨ (l' = l ∧ Quiet it it' ∧ ∀ s ∈ l, ¬ Can s)

/-- The rule for both sweeps: a visit from a quiet iteration is decided by the candidate, and a
visit never removes a result. -/
theorem sweep_outcome {visit : Sequence → Iteration → Except IllegalTransition
      (Option Sequence × Iteration)} {Can : Sequence → Prop} {l : List Sequence}
    (hbudget : it.budget ≠ 0)
    (hquiet : ∀ s ∈ l, ∀ it', Quiet it it' → ∃ s' it'', visit s it' = .ok (s', it'') ∧
      ((it''.results ≠ [] ∧ Can s) ∨ (s' = some s ∧ Quiet it' it'' ∧ ¬ Can s)))
    (hgrow : ∀ s it', it'.results ≠ [] → ∃ s' it'', visit s it' = .ok (s', it'') ∧
      it''.results ≠ []) :
    ∃ l' it', sweep exhausted visit l it = .ok (l', it') ∧ Outcome Can l it l' it' := by
  obtain ⟨mid, rest, it', hrun, hI, hrest⟩ := sweep_spec exhausted visit
    (I := fun pre it' post => (it'.results ≠ [] ∧ ∃ s ∈ l, Can s) ∨
      (pre ++ post = l ∧ Quiet it it' ∧ ∀ s ∈ pre, ¬ Can s))
    (fun pre s post it' hI _ => by
      obtain ⟨hne, hcan⟩ | ⟨happ, hq, hpre⟩ := hI
      · obtain ⟨s', it'', hv, hne'⟩ := hgrow s it' hne
        exact ⟨s', it'', hv, Or.inl ⟨hne', hcan⟩⟩
      · have hs : s ∈ l := by simp [← happ]
        obtain ⟨s', it'', hv, ⟨hne, hc⟩ | ⟨rfl, hq', hc⟩⟩ := hquiet s hs it' hq
        · exact ⟨s', it'', hv, Or.inl ⟨hne, s, hs, hc⟩⟩
        · refine ⟨_, it'', hv, Or.inr ⟨?_, hq.trans hq', ?_⟩⟩
          · simp [← happ]
          · simpa [or_imp, forall_and] using ⟨hpre, hc⟩)
    l [] it (Or.inr ⟨rfl, Quiet.refl it, List.forall_mem_nil _⟩)
  refine ⟨mid ++ rest, it', hrun, ?_⟩
  obtain h | ⟨happ, hq, hpre⟩ := hI
  · exact Or.inl h
  · have hnil : rest = [] := by
      refine hrest.resolve_right fun hstop => hbudget ?_
      rw [← hq.budget]
      exact beq_iff_eq.1 hstop
    refine Or.inr ⟨happ, hq, ?_⟩
    rw [← happ, hnil, List.append_nil]
    exact hpre

theorem decodeLoop_progress (clock : ℕ → ℤ) (it : Iteration) (l : List Sequence)
    (hbudget : it.budget ≠ 0) :
    ∃ l' it', sweep exhausted (decodeTurn clock) l it = .ok (l', it') ∧
      Outcome (CanDecode it.pageTable) l it l' it' := by
  refine sweep_outcome hbudget ?_ ?_
  · intro s _ it' hq
    obtain ⟨s', it'', hrun, hway⟩ := decodeTurn_branch clock s it'
    refine ⟨s', it'', hrun, ?_⟩
    cases hway with
    | skip hphase => exact Or.inr ⟨rfl, Quiet.refl it', fun h => hphase h.1⟩
    | refused hphase hfit =>
      exact Or.inr ⟨rfl, quiet_refused hfit, fun h => hfit ((hq.fits_iff _ _).2 h.2)⟩
    | kept hphase hfit hmore => exact Or.inl ⟨by simp, hphase, (hq.fits_iff _ _).1 hfit⟩
    | retired hphase hfit hlast => exact Or.inl ⟨by simp, hphase, (hq.fits_iff _ _).1 hfit⟩
  · intro s it' hne
    obtain ⟨s', it'', hrun, hway⟩ := decodeTurn_branch clock s it'
    refine ⟨s', it'', hrun, ?_⟩
    cases hway with
    | skip hphase => exact hne
    | refused hphase hfit => exact hne
    | kept hphase hfit hmore => simp
    | retired hphase hfit hlast => simp

theorem chunk_ne_zero {s : Sequence} {budget : ℕ} (hc : ¬ s.prefillComplete)
    (hchunk : 1 ≤ config.maxPrefillChunk) (hbudget : budget ≠ 0) : s.chunk config budget ≠ 0 := by
  unfold Sequence.prefillComplete at hc
  unfold Sequence.chunk
  omega

theorem prefillTurn_results {s : Sequence} {s' : Option Sequence} {it' : Iteration}
    (h : prefillTurn config s it = .ok (s', it')) (hne : it.results ≠ []) : it'.results ≠ [] := by
  cases prefillTurn_cases h with
  | skip hphase => exact hne
  | complete hphase hc => exact hne
  | idle hphase hc hchunk => exact hne
  | refused hphase hc hchunk hfit => exact hne
  | granted hphase hc hchunk hfit => simp [spend]

theorem prefillLoop_progress (config : SchedulerConfig) (l : List Sequence)
    (hl : ∀ s ∈ l, s.InFlight) (hbudget : it.budget ≠ 0) (hchunk : 1 ≤ config.maxPrefillChunk) :
    ∃ l' it', sweep exhausted (prefillTurn config) l it = .ok (l', it') ∧
      Outcome (CanPrefill config it.budget it.pageTable) l it l' it' := by
  refine sweep_outcome hbudget ?_ ?_
  · intro s hs it' hq
    have hb : it'.budget ≠ 0 := by rwa [hq.budget]
    obtain ⟨s', it'', hrun, hway⟩ := prefillTurn_branch config s it'
    refine ⟨s', it'', hrun, ?_⟩
    cases hway with
    | skip hphase => exact Or.inr ⟨rfl, Quiet.refl it', fun h => hphase h.1⟩
    | complete hphase hc =>
      exact absurd hc (not_le.2 ((hl s hs).prefilling hphase).1)
    | idle hphase hc hn => exact absurd hn (chunk_ne_zero hc hchunk hb)
    | refused hphase hc hn hfit =>
      refine Or.inr ⟨rfl, quiet_refused hfit, fun h => hfit ?_⟩
      rw [hq.budget]
      exact (hq.fits_iff _ _).2 h.2
    | granted hphase hc hn hfit =>
      refine Or.inl ⟨by simp [spend], hphase, ?_⟩
      rw [← hq.budget]
      exact (hq.fits_iff _ _).1 hfit
  · intro s it' hne
    obtain ⟨s', it'', hrun, -⟩ := prefillTurn_branch config s it'
    exact ⟨s', it'', hrun, prefillTurn_results hrun hne⟩

theorem admitLoop_results {w w' l : List Sequence} {it' : Iteration}
    (h : admitLoop config w it = .ok (w', l, it')) (hne : it.results ≠ []) : it'.results ≠ [] := by
  induction w generalizing it w' l with
  | nil =>
    obtain ⟨-, -, rfl⟩ := by simpa using Except.ok.inj h
    exact hne
  | cons s w ih =>
    rw [admitLoop] at h
    split_ifs at h with h0
    · obtain ⟨-, -, rfl⟩ := by simpa using Except.ok.inj h
      exact hne
    · obtain ⟨⟨n, s', pt⟩, -, h⟩ := bind_eq_ok.1 h
      dsimp only at h
      split_ifs at h with hn
      · obtain ⟨-, -, rfl⟩ := by simpa [pure, Except.pure] using h
        exact hne
      · obtain ⟨⟨w₁, l₁, it₁⟩, hrun, h⟩ := bind_eq_ok.1 h
        obtain ⟨-, -, rfl⟩ := by simpa [pure, Except.pure] using h
        exact ih hrun (by simp [spend])

/-- The admission loop, from a quiet iteration: the front of the queue decides. -/
theorem admitLoop_progress (w : List Sequence) (hw : ∀ s ∈ w, s.Queued ∧ s.promptTokens ≠ [])
    (hbudget : it.budget ≠ 0) (hchunk : 1 ≤ config.maxPrefillChunk) {w' l : List Sequence}
    {it' : Iteration} (h : admitLoop config w it = .ok (w', l, it')) (hnil : it.results = []) :
    it'.results ≠ [] ↔ ∃ s ∈ w.head?, it.pageTable.Fits s.id
      (s.prefillCursor + s.chunk config it.budget) := by
  cases w with
  | nil =>
    obtain ⟨-, -, rfl⟩ := by simpa using Except.ok.inj h
    simp [hnil]
  | cons s w =>
    obtain ⟨hq, hprompt⟩ := hw s List.mem_cons_self
    have hc : ¬ s.prefillComplete := by
      unfold Sequence.prefillComplete
      rw [hq.cursor, Nat.le_zero, List.length_eq_zero_iff]
      exact hprompt
    have hn := chunk_ne_zero hc hchunk hbudget
    rw [List.head?_cons]
    by_cases hfit : it.pageTable.Fits s.id (s.prefillCursor + s.chunk config it.budget)
    · refine iff_of_true ?_ ⟨s, rfl, hfit⟩
      rw [admitLoop_granted hbudget w hn
        (doPrefillChunk_granted hc hn hq.ne_finished hfit)] at h
      obtain ⟨⟨w₁, l₁, it₁⟩, hrun, h⟩ := bind_eq_ok.1 h
      obtain ⟨-, -, rfl⟩ := by simpa using h
      exact admitLoop_results hrun (by simp [spend])
    · refine iff_of_false ?_ (by simpa using hfit)
      rw [admitLoop_stuck hbudget w (doPrefillChunk_refused hc hn hfit)] at h
      obtain ⟨-, -, rfl⟩ := by simpa using h
      simpa using hnil

end Loops

/-! ## Room -/

/-- The free list can serve one of the requests the next step makes first: the next token of some
decoding sequence, the next chunk of some prefilling one, or the first chunk of the front of the
waiting queue. -/
def Room (S : Scheduler) : Prop :=
  (∃ s ∈ S.active, CanDecode S.pageTable s) ∨
  (∃ s ∈ S.active, CanPrefill S.config S.config.maxBatchTokens S.pageTable s) ∨
  ∃ s ∈ S.waiting.head?, S.pageTable.Fits s.id
    (s.prefillCursor + s.chunk S.config S.config.maxBatchTokens)

/-- The sequences of the workload: each could run alone in the pool. -/
structure Admissible (pt : PagedKVCacheAllocator) (s : Sequence) : Prop where
  prompt : s.promptTokens ≠ []
  maxNew : 1 ≤ s.maxNewTokens.toNat
  alone : pt.blocksNeededFor (s.promptTokens.length + s.maxNewTokens.toNat) ≤ pt.numBlocks

/-- A successful step is its three loops. -/
theorem loops_of_step {clock : ℕ → ℤ} {S S' : Scheduler} {rs : List StepResult}
    (h : S.step clock = .ok (rs, S')) :
    ∃ a₁ it₁ a₂ it₂ w ad it₃,
      sweep exhausted (decodeTurn clock) S.active
        { S.toMachine with budget := S.config.maxBatchTokens } = .ok (a₁, it₁) ∧
      sweep exhausted (prefillTurn S.config) a₁ it₁ = .ok (a₂, it₂) ∧
      admitLoop S.config S.waiting it₂ = .ok (w, ad, it₃) ∧
      rs = it₃.results ∧ S' = place S.config it₃ w (a₂ ++ ad) := by
  obtain ⟨⟨a₁, it₁⟩, h₁, h⟩ := bind_eq_ok.1 h
  obtain ⟨⟨a₂, it₂⟩, h₂, h⟩ := bind_eq_ok.1 h
  obtain ⟨⟨w, ad, it₃⟩, h₃, h⟩ := bind_eq_ok.1 h
  obtain ⟨rfl, rfl⟩ := Prod.mk.inj (Except.ok.inj h)
  exact ⟨a₁, it₁, a₂, it₂, w, ad, it₃, h₁, h₂, h₃, rfl, rfl⟩

/-- A step from an orderly state with non-empty prompts returns a result exactly if there is
room. -/
theorem results_ne_nil_iff {clock : ℕ → ℤ} {S S' : Scheduler} {rs : List StepResult}
    (hS : Orderly S) (hprompt : ∀ s ∈ S.waiting, s.promptTokens ≠ [])
    (hbatch : 1 ≤ S.config.maxBatchTokens) (hchunk : 1 ≤ S.config.maxPrefillChunk)
    (h : S.step clock = .ok (rs, S')) : rs ≠ [] ↔ S.Room := by
  obtain ⟨a₁, it₁, a₂, it₂, w, ad, it₃, h₁, h₂, h₃, rfl, -⟩ := loops_of_step h
  have hB : S.config.maxBatchTokens ≠ 0 := Nat.one_le_iff_ne_zero.1 hbatch
  obtain ⟨_, _, hrun₁, hout₁⟩ := decodeLoop_progress clock
    { S.toMachine with budget := S.config.maxBatchTokens } S.active hB
  rw [h₁] at hrun₁
  obtain ⟨rfl, rfl⟩ := Prod.mk.inj (Except.ok.inj hrun₁)
  obtain ⟨hne, hcan⟩ | ⟨rfl, hq₁, hno₁⟩ := hout₁
  · refine iff_of_true (admitLoop_results h₃ ?_) (Or.inl hcan)
    refine sweep_keeps _ _ (Q := fun it => it.results ≠ []) ?_ h₂ hne
    intro s it s' it' _ hv hne
    exact prefillTurn_results hv hne
  have hB₁ : it₁.budget ≠ 0 := by rwa [hq₁.budget]
  obtain ⟨_, _, hrun₂, hout₂⟩ := prefillLoop_progress S.config S.active hS.active hB₁
    hchunk
  rw [h₂] at hrun₂
  obtain ⟨rfl, rfl⟩ := Prod.mk.inj (Except.ok.inj hrun₂)
  have hcan : ∀ s, CanPrefill S.config it₁.budget it₁.pageTable s ↔
      CanPrefill S.config S.config.maxBatchTokens S.pageTable s := by
    intro s
    unfold CanPrefill
    rw [hq₁.fits_iff, hq₁.budget]
  simp only [Outcome, hcan] at hout₂
  obtain ⟨hne, hc⟩ | ⟨-, hq₂, hno₂⟩ := hout₂
  · exact iff_of_true (admitLoop_results h₃ hne) (Or.inr (Or.inl hc))
  have hq := hq₁.trans hq₂
  have hB₂ : it₂.budget ≠ 0 := by rwa [hq.budget]
  rw [admitLoop_progress S.waiting (fun s hs => ⟨hS.waiting s hs, hprompt s hs⟩) hB₂ hchunk h₃
    hq.results]
  simp only [hq.fits_iff, hq.budget]
  constructor
  · exact fun hw => Or.inr (Or.inr hw)
  · rintro (⟨s, hs, hc⟩ | ⟨s, hs, hc⟩ | hw)
    · exact absurd hc (hno₁ s hs)
    · exact absurd hc (hno₂ s hs)
    · exact hw

/-! ## Runs -/

section Runs

variable {clock : ℕ → ℤ} {config : SchedulerConfig} {pt : PagedKVCacheAllocator} {S : Scheduler}

/-- A turn puts no empty prompt into the waiting queue. -/
theorem Turn.prompts {S' : Scheduler} {rs : List StepResult} (h : Turn clock S rs S')
    (hw : ∀ s ∈ S.waiting, s.promptTokens ≠ []) : ∀ s ∈ S'.waiting, s.promptTokens ≠ [] := by
  cases h with
  | refuse hs hfit => exact hw
  | decode ha hphase hfit hmore => exact hw
  | retire ha hphase hfit hlast => exact hw
  | prefill ha hphase hc hchunk hfit => exact hw
  | ready ha hphase hc => exact hw
  | start hwait hc hchunk hfit =>
    rw [hwait, List.forall_mem_cons] at hw
    exact hw.2
  | readyFront hwait hc =>
    rw [hwait, List.forall_mem_cons] at hw
    exact List.forall_mem_cons.2 hw

/-- A run over non-empty prompts keeps only such sequences waiting. -/
theorem prompts_of_reachable {Fresh : Sequence → Prop}
    (hF : ∀ s, Fresh s → s.promptTokens ≠ []) (h : Reachable clock Fresh config pt S) :
    S.config = config ∧ ∀ s ∈ S.waiting, s.promptTokens ≠ [] := by
  have hP : Orderly S ∧ S.config = config ∧ ∀ s ∈ S.waiting, s.promptTokens ≠ [] := by
    refine h.induction (P := fun S => Orderly S ∧ S.config = config ∧
      ∀ s ∈ S.waiting, s.promptTokens ≠ []) (fun _ hS => hS.1)
      ⟨orderly_init, rfl, List.forall_mem_nil _⟩ ?_ ?_
    · rintro S s ⟨hS, hcfg, hw⟩ hs hfresh hid
      refine ⟨hS.arrive hs hid, hcfg, ?_⟩
      exact List.forall_mem_append.2 ⟨hw, List.forall_mem_singleton.2 (hF s hfresh)⟩
    · rintro S rs S' ⟨hS, hcfg, hw⟩ ht
      exact ⟨hS.turn ht, ht.sizes.2.2.trans hcfg, ht.prompts hw⟩
  exact hP.2

/-- **When the scheduler makes progress**: in every state reached by admitting sequences that each
fit the pool alone and stepping, the next step returns a non-empty list exactly if there is room
for one of its first requests. -/
theorem progress_iff_room (hbatch : 1 ≤ config.maxBatchTokens)
    (hchunk : 1 ≤ config.maxPrefillChunk)
    (h : Reachable clock (Admissible pt) config pt S) :
    (∃ r rs S', S.step clock = .ok (r :: rs, S')) ↔ S.Room := by
  have hS := Orderly.of_reachable h
  obtain ⟨rfl, hprompt⟩ := prompts_of_reachable (fun _ hs => hs.prompt) h
  obtain ⟨rs, S', hok, -⟩ := step_turns clock fun s hs => (hS.waiting s hs).ne_finished
  rw [← results_ne_nil_iff hS hprompt hbatch hchunk hok]
  constructor
  · rintro ⟨r, rs', S'', h'⟩
    rw [hok] at h'
    obtain ⟨rfl, -⟩ := Prod.mk.inj (Except.ok.inj h')
    exact List.cons_ne_nil _ _
  · intro hne
    obtain ⟨r, rs', rfl⟩ := List.exists_cons_of_ne_nil hne
    exact ⟨r, rs', S', hok⟩

end Runs

section Examples

/-- Two blocks of one token. -/
def twoBlocks : PagedKVCacheAllocator := (create 1 2).get rfl

/-- Two sequences of one prompt token and one new token, both waiting. -/
def twoSequences : Scheduler :=
  (({ pageTable := twoBlocks, config := ⟨2, 1⟩ } : Scheduler).admitSequence
    (Sequence.new 1 [7] 1 0)).admitSequence (Sequence.new 2 [8] 1 0)

theorem reachable_twoSequences :
    Reachable (fun _ => 0) (Admissible twoBlocks) ⟨2, 1⟩ twoBlocks twoSequences :=
  (ReflTransGen.single (Next.arrive 1 [7] 1 0 ⟨by decide, by decide, by decide⟩ (by decide))).tail
    (Next.arrive 2 [8] 1 0 ⟨by decide, by decide, by decide⟩ (by decide))

/-- Before the first step there is room, and the step prefills both. -/
theorem progress_iff_room_two : twoSequences.Room ∧
    ∃ r rs S', twoSequences.step (fun _ => 0) = .ok (r :: rs, S') := by
  have hroom : twoSequences.Room :=
    Or.inr (Or.inr ⟨Sequence.new 1 [7] 1 0, rfl, by decide⟩)
  exact ⟨hroom, (progress_iff_room (by decide) (by decide) reachable_twoSequences).2 hroom⟩

/-- After it, each holds one of the two blocks and needs another: the scheduler is wedged with two
active sequences. -/
theorem not_progress_wedged : ∃ S, create 1 2 = some twoBlocks ∧
    Reachable (fun _ => 0) (Admissible twoBlocks) ⟨2, 1⟩ twoBlocks S ∧ S.active ≠ [] ∧
    ∃ S', S.step (fun _ => 0) = .ok ([], S') :=
  ⟨twoSequences.advance fun _ => 0, rfl, reachable_twoSequences.advance, by decide, _, rfl⟩

end Examples

end Scheduler

end AetherMoE
