import AetherMoE.Core.Admission
import AetherMoE.Core.Reports

/-!
# The results of a step account for it

Three loops share the budget of a step, and a sequence may change phase between two of them. The
results are the only account of what happened.

* `Describes`: what one result says of a sequence before and after the step;
* `Turn.effect`: a turn changes one sequence at most, as its result describes;
* `Ledger`, **`Ledger.turn`**: the results so far account for the turns so far, as long as no turn
  serves a sequence that has a result;
* `decodeLoop_ledger`, `prefillLoop_ledger`, `admitLoop_ledger`: none of the loops does;
* **`step_accounts`**.
-/

namespace AetherMoE

open Sweeping Relation PagedKVCacheAllocator

/-- What the result `r` of a step says of a sequence that was `s` before it and is `s'` after. -/
structure StepResult.Describes (maxChunk : ℕ) (r : StepResult) (s s' : Sequence) : Prop where
  phase : r.phaseAfter = s'.phase
  prefill : r.wasPrefillChunk = true → 1 ≤ r.tokensProcessed ∧ r.tokensProcessed ≤ maxChunk ∧
    s'.prefillCursor = s.prefillCursor + r.tokensProcessed ∧
    s'.generatedTokens = s.generatedTokens
  decode : r.wasPrefillChunk = false → r.tokensProcessed = 1 ∧
    s'.generatedTokens.length = s.generatedTokens.length + r.tokensProcessed ∧
    s'.prefillCursor = s.prefillCursor

/-- A sequence without progress. -/
def Sequence.SameProgress (s s' : Sequence) : Prop :=
  s'.prefillCursor = s.prefillCursor ∧ s'.generatedTokens = s.generatedTokens

namespace Sequence

theorem prefillCursor_prefilled (s : Sequence) (c : ℕ) :
    (s.prefilled c).prefillCursor = s.prefillCursor + c := by
  unfold prefilled
  split_ifs <;> rfl

theorem chunk_le_max (s : Sequence) (config : SchedulerConfig) (budget : ℕ) :
    s.chunk config budget ≤ config.maxPrefillChunk := (min_le_right _ _).trans (min_le_left _ _)

/-- The result of a prefill chunk describes it. -/
theorem describes_prefilled (s : Sequence) (config : SchedulerConfig) (budget : ℕ)
    (hchunk : s.chunk config budget ≠ 0) :
    StepResult.Describes config.maxPrefillChunk
      ⟨(s.prefilled (s.chunk config budget)).id, true, s.chunk config budget,
        (s.prefilled (s.chunk config budget)).phase⟩
      s (s.prefilled (s.chunk config budget)) where
  phase := rfl
  prefill _ := ⟨Nat.one_le_iff_ne_zero.2 hchunk, s.chunk_le_max config budget,
    s.prefillCursor_prefilled _, s.generatedTokens_prefilled _⟩
  decode h := nomatch h

theorem describes_decoded (s : Sequence) (maxChunk : ℕ) (now : ℤ) :
    StepResult.Describes maxChunk ⟨s.id, false, 1, s.phase⟩ s (s.decoded now) where
  phase := rfl
  prefill h := nomatch h
  decode _ := ⟨rfl, List.length_append, rfl⟩

theorem describes_retired (s : Sequence) (maxChunk : ℕ) (now : ℤ) :
    StepResult.Describes maxChunk ⟨s.id, false, 1, .finished⟩ s (s.retired now) where
  phase := rfl
  prefill h := nomatch h
  decode _ := ⟨rfl, List.length_append, rfl⟩

end Sequence

/-- A description from an earlier state with the same progress. -/
theorem StepResult.Describes.of_same {maxChunk : ℕ} {r : StepResult} {s₀ s s' : Sequence}
    (h : r.Describes maxChunk s s') (hsame : s₀.SameProgress s) : r.Describes maxChunk s₀ s' := by
  obtain ⟨hcursor, hgen⟩ := hsame
  refine ⟨h.phase, ?_, ?_⟩
  · rw [← hcursor, ← hgen]
    exact h.prefill
  · rw [← hcursor, ← hgen]
    exact h.decode

namespace Scheduler

variable {clock : ℕ → ℤ} {S₀ S S' : Scheduler} {rs out : List StepResult}

/-! ## One turn -/

/-- What a turn with the results `rs` can do to a sequence `s` of `S`. -/
inductive TurnEffect (S : Scheduler) (rs : List StepResult) (s s' : Sequence) : Prop
  | untouched (h : s' = s) (hno : s.id ∉ rs.map StepResult.seqId)
  | reported (r : StepResult) (hrs : rs = [r]) (hid : r.seqId = s.id)
      (h : r.Describes S.config.maxPrefillChunk s s')
  | readied (hrs : rs = []) (hw : s ∈ S.waiting) (h : s' = s.readied)

/-- A turn that replaces one sequence leaves the others alone. -/
theorem Replaces.effect {s x x' : Sequence} (hS : Orderly S) (h : Replaces S S' x x')
    (heff : TurnEffect S rs x x') (hrs : ∀ i ∈ rs.map StepResult.seqId, i = x.id)
    (hs : s ∈ S.sequences) : ∃ s' ∈ S'.sequences, s'.id = s.id ∧ TurnEffect S rs s s' := by
  by_cases hsx : s = x
  · subst hsx
    exact ⟨x', h.mem', h.id, heff⟩
  · have hne : s.id ≠ x.id := fun hid => hsx (hS.eq_of_id hs h.mem hid)
    exact ⟨s, (h.old s hs).resolve_left hsx, rfl, .untouched rfl fun hmem => hne (hrs _ hmem)⟩

/-- **A turn changes one sequence at most**, and reports it. -/
theorem Turn.effect (hS : Orderly S) (h : Turn clock S rs S') {s : Sequence}
    (hs : s ∈ S.sequences) : ∃ s' ∈ S'.sequences, s'.id = s.id ∧ TurnEffect S rs s s' := by
  cases h with
  | refuse hs' hfit => exact ⟨s, hs, rfl, .untouched rfl List.not_mem_nil⟩
  | @decode l r x ha hphase hfit hmore =>
    exact Replaces.effect hS (replaces_active ha rfl rfl rfl rfl)
      (.reported _ rfl rfl (x.describes_decoded _ _)) (by simp) hs
  | @retire l r x ha hphase hfit hlast =>
    exact Replaces.effect hS (replaces_retired ha rfl rfl rfl rfl)
      (.reported _ rfl rfl (x.describes_retired _ _)) (by simp) hs
  | @prefill l r x ha hphase hc b hchunk hfit =>
    exact Replaces.effect hS (replaces_active ha rfl rfl rfl (x.id_prefilled _))
      (.reported _ rfl (x.id_prefilled _) (x.describes_prefilled _ _ hchunk)) (by simp) hs
  | @ready l r x ha hphase hc =>
    have hact := hS.active x (by rw [ha]; simp)
    exact absurd hc (not_le.2 (hact.prefilling hphase).1)
  | @start w x hw hc b hchunk hfit =>
    exact Replaces.effect hS (replaces_started hw rfl rfl rfl (x.id_prefilled _))
      (.reported _ rfl (x.id_prefilled _) (x.describes_prefilled _ _ hchunk)) (by simp) hs
  | @readyFront w x hw hc =>
    have hx : x ∈ S.waiting := by
      rw [hw]
      exact List.mem_cons_self
    exact Replaces.effect hS (replaces_front hw rfl rfl rfl rfl) (.readied rfl hx rfl) (by simp) hs

/-- A turn reports no sequence that waits after it. -/
theorem Turn.notMem_waiting (hS' : Orderly S') (h : Turn clock S rs S') {s : Sequence}
    (hs : s ∈ S'.waiting) : s.id ∉ rs.map StepResult.seqId := by
  have hserved : ∀ i ∈ rs.map StepResult.seqId,
      i ∈ (S'.active ++ S'.finished).map Sequence.id := by
    cases h with
    | refuse | ready | readyFront => exact fun i hi => nomatch hi
    | decode | retire | prefill | start => simp
  have hnd := hS'.nodup
  rw [sequences, List.append_assoc, List.map_append, List.nodup_append] at hnd
  exact fun hmem => hnd.2.2 _ (List.mem_map_of_mem hs) _ (hserved _ hmem) rfl

/-! ## The results so far -/

/-- What the results `out` say of a sequence that was `s` at the start and is `s'` now. -/
structure Booked (maxChunk : ℕ) (out : List StepResult) (s s' : Sequence) : Prop where
  entry : ∀ r ∈ out, r.seqId = s.id → r.Describes maxChunk s s'
  quiet : s.id ∉ out.map StepResult.seqId → s.SameProgress s'

/-- The results `out` account for the turns from `S₀` to `S`. -/
structure Ledger (S₀ : Scheduler) (out : List StepResult) (S : Scheduler) : Prop where
  orderly : Orderly S
  config : S.config = S₀.config
  ids : (S.sequences.map Sequence.id).Perm (S₀.sequences.map Sequence.id)
  once : (out.map StepResult.seqId).Nodup
  fresh : ∀ s ∈ S.waiting, s.id ∉ out.map StepResult.seqId
  booked : ∀ s ∈ S₀.sequences, ∃ s' ∈ S.sequences, s'.id = s.id ∧
    Booked S₀.config.maxPrefillChunk out s s'

theorem Ledger.start (hS : Orderly S) : Ledger S [] S :=
  ⟨hS, rfl, List.Perm.refl _, List.nodup_nil, fun _ _ => List.not_mem_nil,
    fun s hs => ⟨s, hs, rfl, List.forall_mem_nil _ , fun _ => ⟨rfl, rfl⟩⟩⟩

theorem Booked.turn {s₀ s s' : Sequence}
    (h : Booked S.config.maxPrefillChunk out s₀ s) (hid : s.id = s₀.id)
    (hfresh : ∀ x ∈ S.waiting, x.id ∉ out.map StepResult.seqId)
    (hnew : ∀ i ∈ rs.map StepResult.seqId, i ∉ out.map StepResult.seqId)
    (heff : TurnEffect S rs s s') : Booked S.config.maxPrefillChunk (out ++ rs) s₀ s' := by
  cases heff with
  | untouched heq hno =>
    subst heq
    rw [hid] at hno
    refine ⟨fun r hr hrid => ?_, fun hout => h.quiet fun hmem => hout ?_⟩
    · obtain hr | hr := List.mem_append.1 hr
      · exact h.entry r hr hrid
      · exact absurd (hrid ▸ List.mem_map_of_mem hr) hno
    · rw [List.map_append]
      exact List.mem_append_left _ hmem
  | reported r hrs hrid hdesc =>
    subst hrs
    have hout : s₀.id ∉ out.map StepResult.seqId := by
      rw [← hid, ← hrid]
      exact hnew _ (List.mem_singleton_self _)
    refine ⟨fun r' hr' hrid' => ?_, fun hno => absurd ?_ hno⟩
    · obtain hr' | hr' := List.mem_append.1 hr'
      · exact absurd (hrid' ▸ List.mem_map_of_mem hr') hout
      · obtain rfl := List.mem_singleton.1 hr'
        exact hdesc.of_same (h.quiet hout)
    · rw [← hid, ← hrid, List.map_append]
      exact List.mem_append_right _ (List.mem_singleton_self _)
  | readied hrs hw heq =>
    subst hrs heq
    rw [List.append_nil]
    have hout : s₀.id ∉ out.map StepResult.seqId := hid ▸ hfresh s hw
    refine ⟨fun r hr hrid => ?_, fun _ => h.quiet hout⟩
    exact absurd (hrid ▸ List.mem_map_of_mem hr) hout

/-- **A turn is booked**, if it serves nobody for the second time. -/
theorem Ledger.turn (h : Ledger S₀ out S) (ht : Turn clock S rs S')
    (hnew : ∀ i ∈ rs.map StepResult.seqId, i ∉ out.map StepResult.seqId) :
    Ledger S₀ (out ++ rs) S' := by
  have hS' := h.orderly.turn ht
  refine ⟨hS', ht.sizes.2.2.trans h.config, (ht.perm Sequence.fixed_id).trans h.ids, ?_, ?_, ?_⟩
  · rw [List.map_append, List.nodup_append]
    refine ⟨h.once, ?_, fun i hi j hj hij => hnew j hj (hij ▸ hi)⟩
    cases ht <;> simp
  · intro s hs
    have hout : s.id ∉ out.map StepResult.seqId := by
      have hfresh := h.fresh
      cases ht with
      | refuse | decode | retire | prefill | ready => exact hfresh s hs
      | start hw =>
        rw [hw, List.forall_mem_cons] at hfresh
        exact hfresh.2 s hs
      | readyFront hw =>
        rw [hw, List.forall_mem_cons] at hfresh
        rcases List.mem_cons.1 hs with rfl | hs
        · exact hfresh.1
        · exact hfresh.2 s hs
    rw [List.map_append, List.mem_append, not_or]
    exact ⟨hout, ht.notMem_waiting hS' hs⟩
  · intro s₀ hs₀
    obtain ⟨s, hs, hid, hbooked⟩ := h.booked s₀ hs₀
    obtain ⟨s', hs', hid', heff⟩ := ht.effect h.orderly hs
    refine ⟨s', hs', hid'.trans hid, ?_⟩
    rw [← h.config] at hbooked ⊢
    exact hbooked.turn hid h.fresh hnew heff

/-- A refusal has nothing to book. -/
theorem Ledger.refused (h : Ledger S₀ out S) {s : Sequence} (hs : s ∈ S.waiting ++ S.active)
    {t : ℕ} (hfit : ¬ S.pageTable.Fits s.id t) :
    Ledger S₀ out { S with pageTable := (S.pageTable.ensureCapacity s.id t).2 } := by
  have ht : Turn (fun _ => 0) S [] _ := Turn.refuse hs hfit
  have hled := h.turn ht fun i hi => nomatch hi
  rwa [List.append_nil] at hled

/-! ## The three loops -/

section Loops

variable {config : SchedulerConfig} {it : Iteration} {s : Sequence}
  {waiting pre post : List Sequence}

theorem notMem_snoc {i : UInt64} {r : StepResult} (h : i ∉ out.map StepResult.seqId)
    (hne : i ≠ r.seqId) : i ∉ (out ++ [r]).map StepResult.seqId := by
  rw [List.map_append, List.mem_append, not_or]
  exact ⟨h, fun hmem => hne (List.mem_singleton.1 hmem)⟩

/-- The decode loop, between two visits: it has no result for what it has yet to visit, nor for
what the prefill loop is going to serve. -/
structure DecodeLedger (S₀ : Scheduler) (pre : List Sequence) (it : Iteration)
    (post : List Sequence) : Prop where
  ledger : Ledger S₀ it.results (place S₀.config it S₀.waiting (pre ++ post))
  passed : ∀ s ∈ pre, s.phase = .prefill → s.id ∉ it.results.map StepResult.seqId
  ahead : ∀ s ∈ post, s.id ∉ it.results.map StepResult.seqId

/-- A decode visit serves `s` for the first time and passes it in the decode phase, or drops it. -/
theorem DecodeLedger.serve (clock : ℕ → ℤ) (h : DecodeLedger S₀ pre it (s :: post))
    {it' : Iteration} {s' : Option Sequence} {r : StepResult} (hr : r.seqId = s.id)
    (hrs : it'.results = it.results ++ [r]) (hs' : ∀ x ∈ s', x.phase = .decode)
    (ht : Turn clock (place S₀.config it S₀.waiting (pre ++ s :: post)) [r]
      (place S₀.config it' S₀.waiting ((pre ++ s'.toList) ++ post))) :
    DecodeLedger S₀ (pre ++ s'.toList) it' post := by
  have hne : ∀ x ∈ pre ++ post, x.id ≠ r.seqId := by
    rw [hr]
    exact h.ledger.orderly.ne_of_split rfl
  have hnew := h.ahead s List.mem_cons_self
  refine ⟨?_, ?_, ?_⟩
  · rw [hrs]
    refine h.ledger.turn ht fun i hi => ?_
    rwa [List.mem_singleton.1 hi, hr]
  · intro x hx hphase
    rw [hrs]
    obtain hx | hx := List.mem_append.1 hx
    · exact notMem_snoc (h.passed x hx hphase) (hne x (List.mem_append_left _ hx))
    · rw [hs' x (Option.mem_toList.1 hx)] at hphase
      cases hphase
  · intro x hx
    rw [hrs]
    exact notMem_snoc (h.ahead x (List.mem_cons_of_mem _ hx)) (hne x (List.mem_append_right _ hx))

theorem decodeTurn_ledger (h : DecodeLedger S₀ pre it (s :: post)) :
    ∃ s' it', decodeTurn clock s it = .ok (s', it') ∧
      DecodeLedger S₀ (pre ++ s'.toList) it' post := by
  have hpass : ∀ x ∈ pre ++ [s], x.phase = .prefill → x.id ∉ it.results.map StepResult.seqId :=
    List.forall_mem_append.2 ⟨h.passed,
      List.forall_mem_singleton.2 fun _ => h.ahead s List.mem_cons_self⟩
  have hahead := (List.forall_mem_cons.1 h.ahead).2
  obtain ⟨s', it', hrun, hway⟩ := decodeTurn_branch clock s it
  refine ⟨s', it', hrun, ?_⟩
  cases hway with
  | skip hphase =>
    refine ⟨?_, hpass, hahead⟩
    rw [append_toList_some]
    exact h.ledger
  | refused hphase hfit =>
    refine ⟨?_, hpass, hahead⟩
    rw [append_toList_some]
    exact h.ledger.refused (by simp [place]) hfit
  | kept hphase hfit hmore =>
    have ht : Turn clock (place S₀.config it S₀.waiting (pre ++ s :: post)) _ _ :=
      Turn.decode rfl hphase hfit hmore
    refine h.serve clock rfl rfl (fun x hx => ?_) ?_
    · obtain rfl := Option.some.inj hx
      exact hphase
    · rw [append_toList_some]
      exact ht
  | retired hphase hfit hlast =>
    have ht : Turn clock (place S₀.config it S₀.waiting (pre ++ s :: post)) _ _ :=
      Turn.retire rfl hphase hfit hlast
    refine h.serve clock rfl rfl (fun x hx => by cases hx) ?_
    simp only [Option.toList_none, List.append_nil]
    exact ht

/-- The prefill loop, between two visits. -/
structure PrefillLedger (S₀ : Scheduler) (pre : List Sequence) (it : Iteration)
    (post : List Sequence) : Prop where
  ledger : Ledger S₀ it.results (place S₀.config it S₀.waiting (pre ++ post))
  ahead : ∀ s ∈ post, s.phase = .prefill → s.id ∉ it.results.map StepResult.seqId

theorem prefillTurn_ledger (h : PrefillLedger S₀ pre it (s :: post)) :
    ∃ s' it', prefillTurn S₀.config s it = .ok (s', it') ∧
      PrefillLedger S₀ (pre ++ s'.toList) it' post := by
  have hahead := (List.forall_mem_cons.1 h.ahead).2
  obtain ⟨s', it', hrun, hway⟩ := prefillTurn_branch S₀.config s it
  refine ⟨s', it', hrun, ?_⟩
  cases hway with
  | skip hphase =>
    refine ⟨?_, hahead⟩
    rw [append_toList_some]
    exact h.ledger
  | complete hphase hc =>
    have hact := h.ledger.orderly.active s (List.mem_append_right _ List.mem_cons_self)
    exact absurd hc (not_le.2 (hact.prefilling hphase).1)
  | idle hphase hc hchunk =>
    refine ⟨?_, hahead⟩
    rw [append_toList_some]
    exact h.ledger
  | refused hphase hc hchunk hfit =>
    refine ⟨?_, hahead⟩
    rw [append_toList_some]
    exact h.ledger.refused (by simp [place]) hfit
  | granted hphase hc hchunk hfit =>
    have hne := h.ledger.orderly.ne_of_split (l := pre) (r := post) rfl
    have hnew := h.ahead s List.mem_cons_self hphase
    refine ⟨?_, fun x hx hp => ?_⟩
    · rw [append_toList_some]
      have ht : Turn (fun _ => 0) (place S₀.config it S₀.waiting (pre ++ s :: post)) _ _ :=
        Turn.prefill rfl hphase hc hchunk hfit
      refine h.ledger.turn ht fun i hi => ?_
      rw [List.mem_singleton.1 hi]
      exact (s.id_prefilled _).symm ▸ hnew
    · refine notMem_snoc (hahead x hx hp) ?_
      exact (s.id_prefilled _).symm ▸ hne x (List.mem_append_right _ hx)

theorem admitLoop_ledger (waiting : List Sequence) {active : List Sequence}
    (h : Ledger S₀ it.results (place S₀.config it waiting active)) :
    ∃ waiting' admitted it', admitLoop S₀.config waiting it = .ok (waiting', admitted, it') ∧
      Ledger S₀ it'.results (place S₀.config it' waiting' (active ++ admitted)) := by
  induction waiting generalizing active it with
  | nil => exact ⟨[], [], it, rfl, by rwa [List.append_nil]⟩
  | cons s w ih =>
    by_cases h0 : it.budget = 0
    · exact ⟨s :: w, [], it, by rw [admitLoop, if_pos h0], by rwa [List.append_nil]⟩
    have hwait := h.orderly.waiting s List.mem_cons_self
    obtain ⟨n, s', pt, hrun, hway⟩ := doPrefillChunk_branch S₀.config it.budget it.pageTable
      hwait.ne_finished
    cases hway with
    | complete hc =>
      refine ⟨_, _, _, admitLoop_stuck h0 w hrun, ?_⟩
      have ht : Turn (fun _ => 0) (place S₀.config it (s :: w) active) [] _ :=
        Turn.readyFront rfl hc
      have hled := h.turn ht (fun i hi => absurd hi List.not_mem_nil)
      rwa [List.append_nil] at hled ⊢
    | idle hc hchunk =>
      refine ⟨_, _, _, admitLoop_stuck h0 w hrun, ?_⟩
      rwa [List.append_nil]
    | refused hc hchunk hfit =>
      refine ⟨_, _, _, admitLoop_stuck h0 w hrun, ?_⟩
      rw [List.append_nil]
      exact h.refused (by simp [place]) hfit
    | granted hc hchunk hfit =>
      have ht : Turn (fun _ => 0) (place S₀.config it (s :: w) active) _ _ :=
        Turn.start rfl hc hchunk hfit
      let it₁ := spend it (s.chunk S₀.config it.budget) (s.prefilled (s.chunk S₀.config it.budget))
        (it.pageTable.ensureCapacity s.id (s.prefillCursor + s.chunk S₀.config it.budget)).2
      have hled : Ledger S₀ it₁.results (place S₀.config it₁ w
          (active ++ [s.prefilled (s.chunk S₀.config it.budget)])) := by
        refine h.turn ht fun i hi => ?_
        rw [List.mem_singleton.1 hi]
        exact (s.id_prefilled _).symm ▸ h.fresh s List.mem_cons_self
      obtain ⟨waiting', admitted, it', hloop, hled'⟩ := ih hled
      rw [List.append_assoc] at hled'
      refine ⟨waiting', _, it', ?_, hled'⟩
      rw [admitLoop_granted h0 w hchunk hrun, hloop]
      rfl

end Loops

/-! ## A step -/

/-- The results `rs` of a step from `S` to `S'` account for it. -/
structure StepAccount (S : Scheduler) (rs : List StepResult) (S' : Scheduler) : Prop where
  /-- The results stay within the budget. -/
  budget : spent rs ≤ S.config.maxBatchTokens
  /-- No sequence has two results. -/
  once : (rs.map StepResult.seqId).Nodup
  /-- The sequences after the step are those before it, and the results are theirs. -/
  ids : (S'.sequences.map Sequence.id).Perm (S.sequences.map Sequence.id)
  named : ∀ r ∈ rs, ∃ s ∈ S.sequences, s.id = r.seqId
  /-- A result describes its sequence. -/
  entry : ∀ s ∈ S.sequences, ∀ s' ∈ S'.sequences, s'.id = s.id →
    ∀ r ∈ rs, r.seqId = s.id → r.Describes S.config.maxPrefillChunk s s'
  /-- A sequence without a result has made no progress. -/
  quiet : ∀ s ∈ S.sequences, ∀ s' ∈ S'.sequences, s'.id = s.id →
    (∀ r ∈ rs, r.seqId ≠ s.id) → s.SameProgress s'

/-- A step from an orderly state is booked. -/
theorem step_ledger (hS : Orderly S) (hok : S.step clock = .ok (rs, S')) : Ledger S rs S' := by
  obtain ⟨a₁, it₁, a₂, it₂, w, ad, it₃, h₁, h₂, h₃, rfl, rfl⟩ := loops_of_step hok
  obtain ⟨mid₁, rest₁, _, hrun₁, hI₁, -⟩ := sweep_spec exhausted (decodeTurn clock)
    (I := DecodeLedger S) (fun pre s post it h _ => decodeTurn_ledger h) S.active []
    { S.toMachine with budget := S.config.maxBatchTokens }
    ⟨Ledger.start hS, List.forall_mem_nil _, fun _ _ => List.not_mem_nil⟩
  rw [h₁] at hrun₁
  cases hrun₁
  have hstart : PrefillLedger S [] it₁ (mid₁ ++ rest₁) :=
    ⟨hI₁.ledger, List.forall_mem_append.2 ⟨hI₁.passed, fun s hs _ => hI₁.ahead s hs⟩⟩
  obtain ⟨mid₂, rest₂, _, hrun₂, hI₂, -⟩ := sweep_spec exhausted (prefillTurn S.config)
    (I := PrefillLedger S) (fun pre s post it h _ => prefillTurn_ledger h) (mid₁ ++ rest₁) [] it₁
    hstart
  rw [h₂] at hrun₂
  cases hrun₂
  obtain ⟨w', ad', it', hrun₃, hledger⟩ := admitLoop_ledger S.waiting hI₂.ledger
  rw [h₃] at hrun₃
  cases hrun₃
  exact hledger

/-- **A step accounts for itself**: in every state reached by admitting sequences with distinct ids
and stepping, the next step returns, and its results tell exactly what it has done. -/
theorem step_accounts {Fresh : Sequence → Prop} {config : SchedulerConfig}
    {pt : PagedKVCacheAllocator} (h : Reachable clock Fresh config pt S) :
    ∃ rs S', S.step clock = .ok (rs, S') ∧ StepAccount S rs S' := by
  have hS := Orderly.of_reachable h
  obtain ⟨rs, S', hok, -⟩ := step_turns clock fun s hs => (hS.waiting s hs).ne_finished
  have hledger := step_ledger hS hok
  have hbooked : ∀ s ∈ S.sequences, ∀ s' ∈ S'.sequences, s'.id = s.id →
      Booked S.config.maxPrefillChunk rs s s' := by
    intro s hs s' hs' hid
    obtain ⟨x, hx, hxid, hbook⟩ := hledger.booked s hs
    rwa [hledger.orderly.eq_of_id hs' hx (hid.trans hxid.symm)]
  refine ⟨rs, S', hok, spent_of_step hS hok, hledger.once, hledger.ids, fun r hr => ?_, ?_, ?_⟩
  · obtain ⟨x, hx, hid, -⟩ := (step_reports hS hok).sound r hr
    have hmem := hledger.ids.mem_iff.1 (List.mem_map_of_mem hx)
    rw [hid] at hmem
    exact List.mem_map.1 hmem
  · intro s hs s' hs' hid
    exact (hbooked s hs s' hs' hid).entry
  · intro s hs s' hs' hid hno
    refine (hbooked s hs s' hs' hid).quiet fun hmem => ?_
    obtain ⟨r, hr, hrid⟩ := List.mem_map.1 hmem
    exact hno r hr hrid

/-- The step that prefills two waiting sequences. -/
theorem step_accounts_two : ∃ rs S', twoSequences.step (fun _ => 0) = .ok (rs, S') ∧
    StepAccount twoSequences rs S' := step_accounts reachable_twoSequences

end Scheduler

end AetherMoE
