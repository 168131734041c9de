import AetherMoE.Core.Orderly

/-!
# What the results of a step say

A step reports a phase for every sequence it advanced. The reports are in the order of the
advances, never ahead of the sequence and never behind where it stood before the step, and every
retirement is reported.

* `SequencePhase.rank`: the order of the state machine;
* `Replaces`: what a turn does to the sequences;
* `Turn.phase_mono`, `Turn.reported`, `Turn.retirement`: one turn;
* `Reports`: the same for the turns of a step; **`step_reports`**.
-/

namespace AetherMoE

open Stepping

/-- The order of the phases. -/
def SequencePhase.rank : SequencePhase → ℕ
  | prefill => 0
  | decode => 1
  | finished => 2

theorem SequencePhase.rank_le_decode {p : SequencePhase} (h : p ≠ .finished) :
    p.rank ≤ SequencePhase.decode.rank := by
  cases p with
  | finished => exact absurd rfl h
  | prefill => exact Nat.zero_le _
  | decode => exact le_refl _

theorem Sequence.rank_le_prefilled {s : Sequence} (h : s.phase ≠ .finished) (c : ℕ) :
    s.phase.rank ≤ (s.prefilled c).phase.rank := by
  unfold Sequence.prefilled
  split_ifs
  · exact SequencePhase.rank_le_decode h
  · exact le_refl _

namespace Scheduler

variable {clock : ℕ → ℤ} {S₀ S S' : Scheduler} {rs out : List StepResult}

/-! ## One turn -/

theorem mem_sequences {s : Sequence} :
    s ∈ S.sequences ↔ s ∈ S.waiting ∨ s ∈ S.active ∨ s ∈ S.finished := by
  simp [sequences]

/-- `S'` holds a later state of every sequence of `S`. -/
def PhasesGrow (S S' : Scheduler) : Prop :=
  ∀ s ∈ S.sequences, ∃ s' ∈ S'.sequences, s'.id = s.id ∧ s.phase.rank ≤ s'.phase.rank

theorem PhasesGrow.trans {S'' : Scheduler} (h : PhasesGrow S S') (h' : PhasesGrow S' S'') :
    PhasesGrow S S'' := by
  intro s hs
  obtain ⟨s', hs', hid, hle⟩ := h s hs
  obtain ⟨s'', hs'', hid', hle'⟩ := h' s' hs'
  exact ⟨s'', hs'', hid'.trans hid, hle.trans hle'⟩

/-- `S'` has `s'` in the place of the sequence `s` of `S`, or in another place, and is otherwise the
same. -/
structure Replaces (S S' : Scheduler) (s s' : Sequence) : Prop where
  mem : s ∈ S.sequences
  mem' : s' ∈ S'.sequences
  id : s'.id = s.id
  old : ∀ x ∈ S.sequences, x = s ∨ x ∈ S'.sequences
  new : ∀ x ∈ S'.sequences, x = s' ∨ x ∈ S.sequences

section Replaces

variable {l r w : List Sequence} {s s' : Sequence}

theorem replaces_active (ha : S.active = l ++ s :: r) (hwait : S'.waiting = S.waiting)
    (hact : S'.active = l ++ s' :: r) (hfin : S'.finished = S.finished) (hid : s'.id = s.id) :
    Replaces S S' s s' := by
  constructor
  · simp [mem_sequences, ha]
  · simp [mem_sequences, hact]
  · exact hid
  all_goals
    simp only [mem_sequences, ha, hwait, hact, hfin, List.mem_append, List.mem_cons]
    tauto

theorem replaces_retired (ha : S.active = l ++ s :: r) (hwait : S'.waiting = S.waiting)
    (hact : S'.active = l ++ r) (hfin : S'.finished = S.finished ++ [s']) (hid : s'.id = s.id) :
    Replaces S S' s s' := by
  constructor
  · simp [mem_sequences, ha]
  · simp [mem_sequences, hfin]
  · exact hid
  all_goals
    simp only [mem_sequences, ha, hwait, hact, hfin, List.mem_append, List.mem_cons]
    tauto

theorem replaces_started (hw : S.waiting = s :: w) (hwait : S'.waiting = w)
    (hact : S'.active = S.active ++ [s']) (hfin : S'.finished = S.finished) (hid : s'.id = s.id) :
    Replaces S S' s s' := by
  constructor
  · simp [mem_sequences, hw]
  · simp [mem_sequences, hact]
  · exact hid
  all_goals
    simp only [mem_sequences, hw, hwait, hact, hfin, List.mem_append, List.mem_cons]
    tauto

theorem replaces_front (hw : S.waiting = s :: w) (hwait : S'.waiting = s' :: w)
    (hact : S'.active = S.active) (hfin : S'.finished = S.finished) (hid : s'.id = s.id) :
    Replaces S S' s s' := by
  constructor
  · simp [mem_sequences, hw]
  · simp [mem_sequences, hwait]
  · exact hid
  all_goals
    simp only [mem_sequences, hw, hwait, hact, hfin, List.mem_cons]
    tauto

/-- A turn that replaces one sequence by a later state of it. -/
theorem Replaces.phasesGrow (h : Replaces S S' s s') (hle : s.phase.rank ≤ s'.phase.rank) :
    PhasesGrow S S' := by
  intro x hx
  obtain rfl | hx' := h.old x hx
  · exact ⟨s', h.mem', h.id, hle⟩
  · exact ⟨x, hx', rfl, le_refl _⟩

end Replaces

theorem Turn.phase_mono (hS : Orderly S) (h : Turn clock S rs S') : PhasesGrow S S' := by
  cases h with
  | refuse hs hfit => exact fun s hs => ⟨s, hs, rfl, le_refl _⟩
  | decode ha hphase hfit hmore =>
    exact Replaces.phasesGrow (replaces_active ha rfl rfl rfl rfl) (le_refl _)
  | retire ha hphase hfit hlast =>
    refine Replaces.phasesGrow (replaces_retired ha rfl rfl rfl rfl) ?_
    rw [hphase]
    exact Nat.le_succ 1
  | prefill ha hphase hc hchunk hfit =>
    refine Replaces.phasesGrow (replaces_active ha rfl rfl rfl (Sequence.id_prefilled ..)) ?_
    rw [hphase]
    exact Nat.zero_le _
  | ready ha hphase hc =>
    refine Replaces.phasesGrow (replaces_active ha rfl rfl rfl rfl) ?_
    rw [hphase]
    exact Nat.zero_le _
  | @start w s hw hc b hchunk hfit =>
    have hne := (hS.waiting s (by simp [hw])).ne_finished
    exact Replaces.phasesGrow (replaces_started hw rfl rfl rfl (s.id_prefilled _))
      (Sequence.rank_le_prefilled hne _)
  | @readyFront w s hw hc =>
    have hne := (hS.waiting s (by simp [hw])).ne_finished
    exact Replaces.phasesGrow (replaces_front hw rfl rfl rfl rfl) (SequencePhase.rank_le_decode hne)

/-- A result names a sequence and its phase after the turn. -/
theorem Turn.reported (h : Turn clock S rs S') {r : StepResult} (hr : r ∈ rs) :
    ∃ s ∈ S'.sequences, s.id = r.seqId ∧ s.phase = r.phaseAfter := by
  cases h with
  | refuse hs hfit => cases hr
  | @decode l r' s ha hphase hfit hmore =>
    obtain rfl := List.mem_singleton.1 hr
    exact ⟨s.decoded (clock S.ticks), by simp [mem_sequences], rfl, rfl⟩
  | @retire l r' s ha hphase hfit hlast =>
    obtain rfl := List.mem_singleton.1 hr
    exact ⟨s.retired (clock S.ticks), by simp [mem_sequences], rfl, rfl⟩
  | prefill ha hphase hc hchunk hfit =>
    obtain rfl := List.mem_singleton.1 hr
    exact ⟨_, by simp [mem_sequences], rfl, rfl⟩
  | ready ha hphase hc => cases hr
  | start hw hc hchunk hfit =>
    obtain rfl := List.mem_singleton.1 hr
    exact ⟨_, by simp [mem_sequences], rfl, rfl⟩
  | readyFront hw hc => cases hr

/-- A retirement is reported. -/
theorem Turn.retirement (h : Turn clock S rs S') {s : Sequence} (hs : s ∈ S'.finished) :
    s ∈ S.finished ∨ ∃ r ∈ rs, r.seqId = s.id ∧ r.phaseAfter = .finished := by
  cases h with
  | retire ha hphase hfit hlast =>
    obtain hs | hs := List.mem_append.1 hs
    · exact Or.inl hs
    · obtain rfl := List.mem_singleton.1 hs
      exact Or.inr ⟨_, List.mem_singleton_self _, rfl, rfl⟩
  | refuse => exact Or.inl hs
  | decode => exact Or.inl hs
  | prefill => exact Or.inl hs
  | ready => exact Or.inl hs
  | start => exact Or.inl hs
  | readyFront => exact Or.inl hs

/-! ## A step -/

/-- The results `out` of the turns from `S₀` to `S`. -/
structure Reports (S₀ : Scheduler) (out : List StepResult) (S : Scheduler) : Prop where
  orderly : Orderly S
  ids : (S.sequences.map Sequence.id).Perm (S₀.sequences.map Sequence.id)
  grow : PhasesGrow S₀ S
  sound : ∀ r ∈ out, ∃ s ∈ S.sequences, s.id = r.seqId ∧ r.phaseAfter.rank ≤ s.phase.rank
  later : ∀ r ∈ out, ∀ s ∈ S₀.sequences, s.id = r.seqId → s.phase.rank ≤ r.phaseAfter.rank
  sorted : out.Pairwise fun r r' => r.seqId = r'.seqId → r.phaseAfter.rank ≤ r'.phaseAfter.rank
  retired : ∀ s ∈ S.finished, s ∈ S₀.finished ∨
    ∃ r ∈ out, r.seqId = s.id ∧ r.phaseAfter = .finished

/-- Sequences with one id are one sequence. -/
theorem Orderly.eq_of_id (hS : Orderly S) {s s' : Sequence} (hs : s ∈ S.sequences)
    (hs' : s' ∈ S.sequences) (hid : s.id = s'.id) : s = s' :=
  List.inj_on_of_nodup_map hS.nodup hs hs' hid

theorem Reports.snoc (h : Reports S₀ out S) (ht : Turn clock S rs S') :
    Reports S₀ (out ++ rs) S' := by
  have hS' := h.orderly.turn ht
  have hgrow := ht.phase_mono h.orderly
  -- a sequence that stood at some phase before the turn is not reported behind it
  have hahead : ∀ r ∈ rs, ∀ s ∈ S.sequences, s.id = r.seqId →
      s.phase.rank ≤ r.phaseAfter.rank := by
    intro r hr s hs hid
    obtain ⟨s', hs', hid', hle⟩ := hgrow s hs
    obtain ⟨x, hx, hxid, hxp⟩ := ht.reported hr
    have : x = s' := hS'.eq_of_id hx hs' (by rw [hxid, hid', hid])
    rwa [← hxp, this]
  refine ⟨hS', (ht.perm Sequence.fixed_id).trans h.ids, h.grow.trans hgrow, ?_, ?_, ?_, ?_⟩
  · intro r hr
    obtain hr | hr := List.mem_append.1 hr
    · obtain ⟨s, hs, hid, hle⟩ := h.sound r hr
      obtain ⟨s', hs', hid', hle'⟩ := hgrow s hs
      exact ⟨s', hs', hid'.trans hid, hle.trans hle'⟩
    · obtain ⟨s, hs, hid, hp⟩ := ht.reported hr
      exact ⟨s, hs, hid, by rw [hp]⟩
  · intro r hr s hs hid
    obtain hr | hr := List.mem_append.1 hr
    · exact h.later r hr s hs hid
    · obtain ⟨s', hs', hid', hle⟩ := h.grow s hs
      exact hle.trans (hahead r hr s' hs' (hid'.trans hid))
  · rw [List.pairwise_append]
    refine ⟨h.sorted, ?_, ?_⟩
    · cases ht <;> simp
    · intro r hr r' hr' hid
      obtain ⟨s, hs, hsid, hle⟩ := h.sound r hr
      exact hle.trans (hahead r' hr' s hs (hsid.trans hid))
  · intro s hs
    obtain hs | ⟨r, hr, hrs⟩ := ht.retirement hs
    · obtain hs | ⟨r, hr, hrs⟩ := h.retired s hs
      · exact Or.inl hs
      · exact Or.inr ⟨r, List.mem_append_left _ hr, hrs⟩
    · exact Or.inr ⟨r, List.mem_append_right _ hr, hrs⟩

/-- **The results of a step** from an orderly state. -/
theorem step_reports (hS : Orderly S) (h : S.step clock = .ok (rs, S')) : Reports S rs S' := by
  have hturns := turns_of_step (fun s hs => (hS.waiting s hs).ne_finished) h
  have h₀ : Reports S [] S :=
    ⟨hS, List.Perm.refl _, fun s hs => ⟨s, hs, rfl, le_refl _⟩, List.forall_mem_nil _,
      List.forall_mem_nil _, List.Pairwise.nil, fun s hs => Or.inl hs⟩
  exact hturns.invariant h₀ fun _ _ _ _ hP ht => hP.snoc ht

end Scheduler

end AetherMoE
