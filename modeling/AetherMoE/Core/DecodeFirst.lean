import AetherMoE.Core.Admission
import AetherMoE.Core.Undisturbed

/-!
# Decodes come before prefills

A refused decode costs no budget, and a sequence that retires gives its blocks back in the middle
of the loop, so whom a step decodes depends on the whole walk over `active_`.

* `atTurn`, `refusedAtTurn`: the decode loop when it comes to a sequence, and its answer to it;
* **`decodeLoop_serves_first`**: the decode loop serves the first `max_batch_tokens` sequences in
  the decode phase that it does not refuse;
* `Chunks`: the other two loops only append prefill entries, and none without a budget;
* **`decode_first`**.
-/

namespace AetherMoE

open Sweeping Relation PagedKVCacheAllocator

namespace Scheduler

/-- The machine at the start of a step. -/
def opening (S : Scheduler) : Iteration :=
  { S.toMachine with budget := S.config.maxBatchTokens }

/-- The iteration with which the decode loop comes to `s`. -/
def atTurn (clock : ℕ → ℤ) (S : Scheduler) (s : Sequence) : Except IllegalTransition Iteration :=
  Prod.snd <$> sweep exhausted (decodeTurn clock) (S.active.takeWhile fun x => x.id != s.id)
    S.opening

/-- The decode loop comes to `s` with some budget, and `ensure_capacity` refuses it. -/
def refusedAtTurn (clock : ℕ → ℤ) (S : Scheduler) (s : Sequence) : Bool :=
  match S.atTurn clock s with
  | .ok it => !exhausted it && !(it.pageTable.ensureCapacity s.id (s.totalTokens + 1)).1
  | .error _ => false

/-- The decode entries of a list of results. -/
def decodes (rs : List StepResult) : List StepResult := rs.filter fun r => !r.wasPrefillChunk

/-- The sequences in the decode phase that are not refused at their turn. -/
def servable (clock : ℕ → ℤ) (S : Scheduler) (l : List Sequence) : List Sequence :=
  l.filter fun s => s.phase = .decode ∧ S.refusedAtTurn clock s = false

/-! ## The decode loop -/

section Decode

variable {clock : ℕ → ℤ} {S : Scheduler} {s : Sequence} {pre post pre' : List Sequence}
  {it : Iteration}

/-- The turn of a sequence comes after those in front of it. -/
theorem refusedAtTurn_iff (hnd : (S.active.map Sequence.id).Nodup)
    (ha : S.active = pre ++ s :: post)
    (hrun : sweep exhausted (decodeTurn clock) pre S.opening = .ok (pre', it))
    (hbudget : exhausted it = false) :
    S.refusedAtTurn clock s = true ↔ ¬ it.pageTable.Fits s.id (s.totalTokens + 1) := by
  have hpre : (S.active.takeWhile fun x => x.id != s.id) = pre := by
    rw [ha, List.map_append, List.map_cons, List.nodup_middle, List.nodup_cons] at hnd
    rw [ha, List.takeWhile_append_of_pos]
    · simp
    · intro x hx
      refine bne_iff_ne.2 fun hid => hnd.1 (List.mem_append_left _ ?_)
      rw [← hid]
      exact List.mem_map_of_mem hx
  have hturn : S.atTurn clock s = .ok it := by
    rw [atTurn, hpre, hrun]
    rfl
  rw [refusedAtTurn, hturn, ← ensureCapacity_fst]
  simp [hbudget]

/-- The decode loop after it has walked the sequences `pre` of `S`. -/
structure ServesFirst (clock : ℕ → ℤ) (S : Scheduler) (pre : List Sequence) (it : Iteration) :
    Prop where
  ids : it.results.map StepResult.seqId =
    ((S.servable clock pre).take S.config.maxBatchTokens).map Sequence.id
  decodes : ∀ r ∈ it.results, r.wasPrefillChunk = false
  budget : it.budget + it.results.length = S.config.maxBatchTokens

theorem servable_snoc (pre : List Sequence) (s : Sequence) :
    S.servable clock (pre ++ [s]) = S.servable clock pre ++
      if s.phase = .decode ∧ S.refusedAtTurn clock s = false then [s] else [] := by
  simp only [servable, List.filter_append, List.filter_cons, List.filter_nil, decide_eq_true_eq]

/-- A sequence that is not servable changes nothing. -/
theorem ServesFirst.pass (h : ServesFirst clock S pre it) {it' : Iteration}
    (hs : ¬ (s.phase = .decode ∧ S.refusedAtTurn clock s = false))
    (hrs : it'.results = it.results) (hb : it'.budget = it.budget) :
    ServesFirst clock S (pre ++ [s]) it' := by
  refine ⟨?_, ?_, ?_⟩
  · rw [servable_snoc, if_neg hs, List.append_nil, hrs]
    exact h.ids
  · rw [hrs]
    exact h.decodes
  · rw [hrs, hb]
    exact h.budget

/-- The number of servable sequences that have been served. -/
theorem ServesFirst.length (h : ServesFirst clock S pre it) :
    it.results.length = min S.config.maxBatchTokens (S.servable clock pre).length := by
  have hlen := congrArg List.length h.ids
  rwa [List.length_map, List.length_map, List.length_take] at hlen

/-- A servable sequence is served while there is a budget. -/
theorem ServesFirst.serve (h : ServesFirst clock S pre it) {it' : Iteration} {r : StepResult}
    (hs : s.phase = .decode ∧ S.refusedAtTurn clock s = false) (hbudget : it.budget ≠ 0)
    (hr : r.seqId = s.id ∧ r.wasPrefillChunk = false)
    (hrs : it'.results = it.results ++ [r]) (hb : it'.budget = it.budget - 1) :
    ServesFirst clock S (pre ++ [s]) it' := by
  have hlen := h.length
  have hsum := h.budget
  have htake : (S.servable clock pre).take S.config.maxBatchTokens = S.servable clock pre :=
    List.take_of_length_le (by omega)
  refine ⟨?_, ?_, ?_⟩
  · have hids := h.ids
    rw [htake] at hids
    rw [servable_snoc, if_pos hs, hrs, List.take_of_length_le, List.map_append, List.map_append,
      hids, List.map_singleton, List.map_singleton, hr.1]
    rw [List.length_append, List.length_singleton]
    omega
  · rw [hrs]
    exact List.forall_mem_append.2 ⟨h.decodes, List.forall_mem_singleton.2 hr.2⟩
  · rw [hrs, hb, List.length_append, List.length_singleton]
    omega

/-- **The decode loop serves the first `max_batch_tokens` sequences that it does not refuse.** -/
theorem decodeLoop_serves_first (clock : ℕ → ℤ) (hnd : (S.active.map Sequence.id).Nodup) :
    ∃ a it, sweep exhausted (decodeTurn clock) S.active S.opening = .ok (a, it) ∧
      ServesFirst clock S S.active it := by
  refine sweep_prefixes exhausted (decodeTurn clock) ?_ ?_ ?_
  · exact ⟨by simp [servable, opening], List.forall_mem_nil _, Nat.add_zero _⟩
  · intro pre s post pre' it ha hrun hI hbudget
    have hiff := refusedAtTurn_iff hnd ha hrun hbudget
    have hb : it.budget ≠ 0 := beq_eq_false_iff_ne.1 hbudget
    obtain ⟨s', it', hv, hway⟩ := decodeTurn_branch clock s it
    refine ⟨s', it', hv, ?_⟩
    cases hway with
    | skip hphase => exact hI.pass (fun h => hphase h.1) rfl rfl
    | refused hphase hfit =>
      refine hI.pass (fun h => ?_) rfl rfl
      rw [hiff.2 hfit] at h
      exact Bool.noConfusion h.2
    | kept hphase hfit hmore =>
      have hno : S.refusedAtTurn clock s = false := Bool.eq_false_iff.2 fun h => hiff.1 h hfit
      exact hI.serve ⟨hphase, hno⟩ hb ⟨rfl, rfl⟩ rfl rfl
    | retired hphase hfit hlast =>
      have hno : S.refusedAtTurn clock s = false := Bool.eq_false_iff.2 fun h => hiff.1 h hfit
      exact hI.serve ⟨hphase, hno⟩ hb ⟨rfl, rfl⟩ rfl rfl
  · intro pre s it hI hstop
    -- the budget is used up, so as many have been served as may be
    have hb : it.budget = 0 := beq_iff_eq.1 hstop
    have hlen := hI.length
    have hsum := hI.budget
    refine ⟨?_, hI.decodes, hsum⟩
    rw [hI.ids, servable_snoc, List.take_append_of_le_length]
    omega

end Decode

/-! ## The other loops -/

section Chunks

variable {config : SchedulerConfig} {it it' it'' : Iteration} {s : Sequence}

/-- `rs'` has prefill entries after those of `rs`. -/
def AppendsPrefills (rs rs' : List StepResult) : Prop :=
  ∃ ps, rs' = rs ++ ps ∧ ∀ r ∈ ps, r.wasPrefillChunk = true

theorem AppendsPrefills.refl (rs : List StepResult) : AppendsPrefills rs rs :=
  ⟨[], (List.append_nil rs).symm, List.forall_mem_nil _⟩

theorem AppendsPrefills.snoc (rs : List StepResult) {r : StepResult}
    (hr : r.wasPrefillChunk = true) : AppendsPrefills rs (rs ++ [r]) :=
  ⟨[r], rfl, List.forall_mem_singleton.2 hr⟩

theorem AppendsPrefills.trans {rs rs' rs'' : List StepResult} (h : AppendsPrefills rs rs')
    (h' : AppendsPrefills rs' rs'') : AppendsPrefills rs rs'' := by
  obtain ⟨ps, rfl, hps⟩ := h
  obtain ⟨ps', rfl, hps'⟩ := h'
  exact ⟨ps ++ ps', List.append_assoc _ _ _, List.forall_mem_append.2 ⟨hps, hps'⟩⟩

/-- `it'` comes from `it` by prefill chunks, and by none if `it` has no budget. -/
structure Chunks (it it' : Iteration) : Prop where
  results : AppendsPrefills it.results it'.results
  idle : it.budget = 0 → it' = it

theorem Chunks.trans (h : Chunks it it') (h' : Chunks it' it'') : Chunks it it'' := by
  refine ⟨h.results.trans h'.results, fun hb => ?_⟩
  have heq := h.idle hb
  rw [← heq] at hb
  exact (h'.idle hb).trans heq

theorem prefillTurn_appends {s' : Option Sequence} (h : prefillTurn config s it = .ok (s', it')) :
    AppendsPrefills it.results it'.results := by
  cases prefillTurn_cases h with
  | skip | complete | idle | refused => exact .refl _
  | granted => exact .snoc _ rfl

theorem prefillLoop_chunks {a a' : List Sequence}
    (h : sweep exhausted (prefillTurn config) a it = .ok (a', it')) : Chunks it it' := by
  refine ⟨?_, fun hb => ?_⟩
  · refine sweep_keeps exhausted (prefillTurn config)
      (Q := fun it' => AppendsPrefills it.results it'.results) ?_ h (.refl _)
    exact fun s it₁ s' it₂ _ hv hQ => hQ.trans (prefillTurn_appends hv)
  · rw [sweep_of_stop exhausted (prefillTurn config) (beq_iff_eq.2 hb)] at h
    exact (Prod.mk.inj (Except.ok.inj h)).2.symm

theorem admitLoop_chunks {w w' l : List Sequence} (hw : ∀ s ∈ w, s.phase ≠ .finished)
    (h : admitLoop config w it = .ok (w', l, it')) : Chunks it it' := by
  induction w generalizing it w' l with
  | nil =>
    cases h
    exact ⟨.refl _, fun _ => rfl⟩
  | cons s w ih =>
    rw [List.forall_mem_cons] at hw
    by_cases h0 : it.budget = 0
    · rw [admitLoop, if_pos h0] at h
      cases h
      exact ⟨.refl _, fun _ => rfl⟩
    refine ⟨?_, fun hb => absurd hb h0⟩
    obtain ⟨n, s', pt, hrun, -⟩ := doPrefillChunk_branch config it.budget it.pageTable hw.1
    by_cases hn : n = 0
    · subst hn
      rw [admitLoop_stuck h0 w hrun] at h
      cases h
      exact .refl _
    · rw [admitLoop_granted h0 w hn hrun] at h
      obtain ⟨⟨w₁, l₁, it₁⟩, hloop, h⟩ := bind_eq_ok.1 h
      cases h
      have hone : AppendsPrefills it.results (spend it n s' pt).results := .snoc _ rfl
      exact hone.trans (ih hw.2 hloop).results

end Chunks

/-! ## A step -/

/-- The results `rs` of a step from `S` put decodes before prefills. -/
structure DecodeFirst (clock : ℕ → ℤ) (S : Scheduler) (rs : List StepResult) : Prop where
  /-- The decode entries come first. -/
  before : ∃ ps, rs = decodes rs ++ ps ∧ ∀ r ∈ ps, r.wasPrefillChunk = true
  /-- If anything is prefilled, every active sequence in the decode phase is decoded, or is refused
  at its turn. -/
  served : (∃ r ∈ rs, r.wasPrefillChunk = true) → ∀ s ∈ S.active, s.phase = .decode →
    s.id ∈ (decodes rs).map StepResult.seqId ∨ S.refusedAtTurn clock s = true
  /-- The decoded sequences are the first that are not refused. -/
  first : (decodes rs).map StepResult.seqId =
    ((S.servable clock S.active).take S.config.maxBatchTokens).map Sequence.id
  /-- They are `max_batch_tokens` many if the decode loop uses up the budget. -/
  full : ∀ a it, sweep exhausted (decodeTurn clock) S.active S.opening = .ok (a, it) →
    it.budget = 0 → (decodes rs).length = S.config.maxBatchTokens

section Runs

variable {clock : ℕ → ℤ} {Fresh : Sequence → Prop} {config : SchedulerConfig}
  {pt : PagedKVCacheAllocator} {S S' : Scheduler} {rs : List StepResult}

theorem decodes_append {ds ps : List StepResult} (hds : ∀ r ∈ ds, r.wasPrefillChunk = false)
    (hps : ∀ r ∈ ps, r.wasPrefillChunk = true) : decodes (ds ++ ps) = ds := by
  have hd : decodes ds = ds := List.filter_eq_self.2 fun r hr => by rw [hds r hr]; rfl
  have hp : decodes ps = [] := List.filter_eq_nil_iff.2 fun r hr => by rw [hps r hr]; decide
  rw [decodes, List.filter_append]
  exact (congrArg₂ (· ++ ·) hd hp).trans (List.append_nil ds)

theorem decodeFirst_of_step (hS : Orderly S) (hok : S.step clock = .ok (rs, S')) :
    DecodeFirst clock S rs := by
  obtain ⟨a₁, it₁, a₂, it₂, w, ad, it₃, h₁, h₂, h₃, rfl, -⟩ := loops_of_step hok
  obtain ⟨_, _, hrun, hserve⟩ := decodeLoop_serves_first clock hS.nodup_active
  have hrun' := h₁.symm.trans hrun
  cases hrun'
  have hchunks := (prefillLoop_chunks h₂).trans
    (admitLoop_chunks (fun s hs => (hS.waiting s hs).ne_finished) h₃)
  obtain ⟨ps, hrs, hps⟩ := hchunks.results
  have hdec : decodes it₃.results = it₁.results := by
    rw [hrs]
    exact decodes_append hserve.decodes hps
  refine ⟨⟨ps, by rw [hdec, hrs], hps⟩, ?_, by rw [hdec, hserve.ids], ?_⟩
  · rintro ⟨r, hr, hpre⟩ s hs hphase
    -- a prefill entry means that the decode loop has left some budget
    have hb : it₁.budget ≠ 0 := by
      intro hb
      rw [hchunks.idle hb] at hr
      rw [hserve.decodes r hr] at hpre
      cases hpre
    have hlen := hserve.length
    have hsum := hserve.budget
    rw [hdec, hserve.ids, List.take_of_length_le (by omega)]
    cases href : S.refusedAtTurn clock s with
    | true => exact Or.inr rfl
    | false =>
      refine Or.inl (List.mem_map_of_mem ?_)
      exact List.mem_filter.2 ⟨hs, decide_eq_true ⟨hphase, href⟩⟩
  · intro a it hrun' hb
    have heq := h₁.symm.trans hrun'
    cases heq
    have hsum := hserve.budget
    rw [hdec]
    omega

/-- **Decodes come before prefills**: in every state reached by admitting sequences with distinct
ids and stepping, the next step returns, and serves the decoding sequences first. -/
theorem decode_first (h : Reachable clock Fresh config pt S) :
    ∃ rs S', S.step clock = .ok (rs, S') ∧ DecodeFirst clock S rs := by
  have hS := Orderly.of_reachable h
  obtain ⟨rs, S', hok, -⟩ := step_turns clock fun s hs => (hS.waiting s hs).ne_finished
  exact ⟨rs, S', hok, decodeFirst_of_step hS hok⟩

end Runs

section Examples

/-- A step that decodes one sequence and prefills another. -/
theorem decode_first_arrival : ∃ rs S', decodingAndWaiting.step (fun _ => 0) = .ok (rs, S') ∧
    DecodeFirst (fun _ => 0) decodingAndWaiting rs := by
  have h : Reachable (fun _ => 0) (fun _ => True) ⟨2, 2⟩ ((create 1 4).get isSome_create_four)
      decodingAndWaiting := reachable_decoding.tail (.arrive 2 [8] 1 0 trivial (by decide))
  exact decode_first h

end Examples

end Scheduler

end AetherMoE
