import AetherMoE.Api.Ingress
import Mathlib.Data.List.Perm.Basic

/-!
# The status a client sees

* `Forward`: an action moves no stored phase backwards; `Reported`: at rest, a finished sequence
  is reported finished;
* `Timely`: a handler's upsert happens before the engine has stored a later phase for its id, and
  ids are not used up;
* `Ids`, `Phases`: the invariants of timely runs, on the ids in flight and on the stored phases;
* **`status_monotone`**: every timely run moves forward and reports every finished sequence.
-/

namespace AetherMoE

open Relation Stepping

namespace Server

/-- No stored phase moves backwards. -/
def Forward (v v' : Server) : Prop :=
  ∀ i st, v.table i = some st → ∃ st', v'.table i = some st' ∧ st.phase.rank ≤ st'.phase.rank

/-- Every handler that started has returned, and the engine has stored its last results. -/
structure AtRest (v : Server) : Prop where
  handlers : ∀ h, v.handler h = .start ∨ ∃ r, v.handler h = .returned r
  engine : v.pending = []

/-- At rest, every finished sequence is reported finished. -/
def Reported (v : Server) : Prop :=
  v.AtRest → ∀ s ∈ v.scheduler.sequences, s.phase = .finished →
    ∃ st, v.table s.id = some st ∧ st.phase = .finished

/-- The race is not lost: a handler upserts `PREFILL` over nothing later, and no id is handed out
twice. -/
def Timely (v : Server) : Action → Prop
  | .upsertNew h => ∀ i st, v.handler h = .pushed i → v.table i = some st → st.phase = .prefill
  | .fetchId .. => v.requests < 2 ^ 64
  | _ => True

/-- The states reached by actions that meet `Ok`. -/
def Run (clock : ℕ → ℤ) (Ok : Server → Action → Prop) : Server → Server → Prop :=
  ReflTransGen fun v v' => ∃ a, Ok v a ∧ v.perform clock a = some v'

/-! ## The ids in flight -/

/-- The sequence that was popped and is not admitted yet. -/
def inHand (v : Server) : List Sequence :=
  match v.engine with
  | .popped _ seq => [seq]
  | _ => []

/-- The sequences that have reached the queue. -/
def arrived (v : Server) : List Sequence := v.queue ++ v.inHand ++ v.scheduler.sequences

/-- Which request an id was handed out to. -/
def number (i : UInt64) : ℕ := (i - 1).toNat

/-- The ids in flight are distinct and were handed out before. -/
structure Ids (v : Server) : Prop where
  orderly : v.scheduler.Orderly
  next : v.nextSeqId = UInt64.ofNat v.requests + 1
  queued : ∀ s ∈ v.queue ++ v.inHand, s.Queued
  nodup : (v.arrived.map Sequence.id).Nodup
  issued : ∀ s ∈ v.arrived, number s.id < v.requests
  held : ∀ h s, v.handler h = .hasSequence s →
    s.Queued ∧ s.id ∉ v.arrived.map Sequence.id ∧ number s.id < v.requests
  distinct : ∀ h s h' s', v.handler h = .hasSequence s → v.handler h' = .hasSequence s' →
    s.id = s'.id → h = h'

theorem number_next {n : ℕ} (hn : n < 2 ^ 64) : number (UInt64.ofNat n + 1) = n := by
  unfold number
  rw [UInt64.add_sub_cancel]
  exact UInt64.toNat_ofNat_of_lt' hn

theorem ids_init (S : Scheduler) (hS : S.Orderly) (hnil : S.sequences = []) :
    Ids { scheduler := S } := by
  refine ⟨hS, rfl, List.forall_mem_nil _, ?_, ?_, ?_, ?_⟩
  · simp [arrived, inHand, hnil]
  · simp [arrived, inHand, hnil]
  · intro h s hs
    cases hs
  · intro h s h' s' hs
    cases hs

/-- A handler that moves on without a sequence in hand. -/
theorem Ids.setHandler {v : Server} (hv : Ids v) (h : ℕ) {x : Handler}
    (hx : ∀ s, x ≠ .hasSequence s) : Ids (v.setHandler h x) := by
  have hold : ∀ i s, (v.setHandler h x).handler i = .hasSequence s →
      v.handler i = .hasSequence s := by
    intro i s hs
    rw [handler_setHandler] at hs
    split_ifs at hs with hi
    · exact absurd hs (hx s)
    · exact hs
  refine { hv with held := ?_, distinct := ?_ }
  · intro i s hs
    exact hv.held i s (hold i s hs)
  · intro i s i' s' hs hs'
    exact hv.distinct i s i' s' (hold i s hs) (hold i' s' hs')

/-- The ids after an action that only moves sequences on from the queue to the scheduler. -/
theorem Ids.of_perm {v v' : Server} (hv : Ids v) (ho : v'.scheduler.Orderly)
    (hnext : v'.nextSeqId = v.nextSeqId) (hreq : v'.requests = v.requests)
    (hh : v'.handler = v.handler) (hq : ∀ s ∈ v'.queue ++ v'.inHand, s.Queued)
    (hp : (v'.arrived.map Sequence.id).Perm (v.arrived.map Sequence.id)) : Ids v' := by
  refine ⟨ho, ?_, hq, hp.nodup_iff.2 hv.nodup, ?_, ?_, ?_⟩
  · rw [hnext, hreq]
    exact hv.next
  · intro s hs
    have hmem := hp.mem_iff.1 (List.mem_map_of_mem hs)
    obtain ⟨s', hs', hid⟩ := List.mem_map.1 hmem
    rw [hreq, ← hid]
    exact hv.issued s' hs'
  · intro h s hs
    rw [hh] at hs
    rw [hp.mem_iff, hreq]
    exact hv.held h s hs
  · intro h s h' s' hs hs'
    rw [hh] at hs hs'
    exact hv.distinct h s h' s' hs hs'

theorem arrived_keep {v v' : Server} (hs : v'.scheduler = v.scheduler) (hq : v'.queue = v.queue)
    (hhand : v'.inHand = v.inHand) : v'.arrived = v.arrived := by
  rw [arrived, arrived, hq, hhand, hs]

/-- The ids after an action that moves no sequence. -/
theorem Ids.keep {v v' : Server} (hv : Ids v) (hs : v'.scheduler = v.scheduler)
    (hnext : v'.nextSeqId = v.nextSeqId) (hreq : v'.requests = v.requests)
    (hh : v'.handler = v.handler) (hq : v'.queue = v.queue) (hhand : v'.inHand = v.inHand) :
    Ids v' := by
  refine hv.of_perm (hs ▸ hv.orderly) hnext hreq hh ?_ ?_
  · rw [hq, hhand]
    exact hv.queued
  · rw [arrived_keep hs hq hhand]

theorem Ids.fetchId {v : Server} (hv : Ids v) (hn : v.requests < 2 ^ 64) (h : ℕ)
    (prompt : List UInt32) (maxNew : UInt32) (now : ℤ) :
    Ids ({ v with nextSeqId := v.nextSeqId + 1, requests := v.requests + 1 }.setHandler h
      (.hasSequence (Sequence.new v.nextSeqId prompt maxNew now))) := by
  have hnum : number v.nextSeqId = v.requests := by
    rw [hv.next]
    exact number_next hn
  have hlt : ∀ i, number i < v.requests → i ≠ v.nextSeqId := by
    intro i hi he
    rw [he, hnum] at hi
    exact lt_irrefl _ hi
  refine { hv with next := ?_, issued := ?_, held := ?_, distinct := ?_ }
  · change v.nextSeqId + 1 = UInt64.ofNat (v.requests + 1) + 1
    rw [hv.next, UInt64.ofNat_add]
    rfl
  · intro s hs
    exact (hv.issued s hs).trans (Nat.lt_succ_self _)
  · intro i s hs
    rw [handler_setHandler] at hs
    split_ifs at hs with hi
    · obtain rfl := Handler.hasSequence.inj hs
      refine ⟨Sequence.queued_new .., ?_, ?_⟩
      · intro hmem
        obtain ⟨s', hs', hid⟩ := List.mem_map.1 hmem
        exact hlt _ (hv.issued s' hs') hid
      · change number v.nextSeqId < v.requests + 1
        rw [hnum]
        exact Nat.lt_succ_self _
    · obtain ⟨hq, hmem, hlt'⟩ := hv.held i s hs
      exact ⟨hq, hmem, hlt'.trans (Nat.lt_succ_self _)⟩
  · intro i s i' s' hs hs' hid
    rw [handler_setHandler] at hs hs'
    split_ifs at hs hs' with hi hi' hi'
    · rw [hi, hi']
    · obtain rfl := Handler.hasSequence.inj hs
      exact absurd hid.symm (hlt _ (hv.held i' s' hs').2.2)
    · obtain rfl := Handler.hasSequence.inj hs'
      exact absurd hid (hlt _ (hv.held i s hs).2.2)
    · exact hv.distinct i s i' s' hs hs' hid

theorem Ids.push {v : Server} (hv : Ids v) {h : ℕ} {s : Sequence}
    (hh : v.handler h = .hasSequence s) :
    Ids ({ v with queue := v.queue ++ [s] }.setHandler h (.pushing s.id)) := by
  obtain ⟨hq, hnew, hnum⟩ := hv.held h s hh
  have hperm : (((v.queue ++ [s]) ++ v.inHand ++ v.scheduler.sequences).map Sequence.id).Perm
      (s.id :: v.arrived.map Sequence.id) := by
    simp only [arrived, List.append_assoc, List.singleton_append, List.map_append, List.map_cons]
    exact List.perm_middle
  have hold : ∀ i s', ({ v with queue := v.queue ++ [s] }.setHandler h (.pushing s.id)).handler i =
      .hasSequence s' → i ≠ h ∧ v.handler i = .hasSequence s' := by
    intro i s' hs'
    rw [handler_setHandler] at hs'
    split_ifs at hs' with hi
    exact ⟨hi, hs'⟩
  refine { hv with queued := ?_, nodup := ?_, issued := ?_, held := ?_, distinct := ?_ }
  · intro x hx
    rcases List.mem_append.1 hx with hx | hx
    · rcases List.mem_append.1 hx with hx | hx
      · exact hv.queued x (List.mem_append_left _ hx)
      · rwa [List.mem_singleton.1 hx]
    · exact hv.queued x (List.mem_append_right _ hx)
  · exact hperm.nodup_iff.2 (List.nodup_cons.2 ⟨hnew, hv.nodup⟩)
  · intro x hx
    have hmem := hperm.mem_iff.1 (List.mem_map_of_mem hx)
    obtain hid | hmem := List.mem_cons.1 hmem
    · rw [hid]
      exact hnum
    · obtain ⟨x', hx', hid⟩ := List.mem_map.1 hmem
      rw [← hid]
      exact hv.issued x' hx'
  · intro i s' hs'
    obtain ⟨hi, hs'⟩ := hold i s' hs'
    obtain ⟨hq', hnew', hnum'⟩ := hv.held i s' hs'
    refine ⟨hq', fun hmem => ?_, hnum'⟩
    obtain hid | hmem := List.mem_cons.1 (hperm.mem_iff.1 hmem)
    · exact hi (hv.distinct i s' h s hs' hh hid)
    · exact hnew' hmem
  · intro i s₁ i' s₂ h₁ h₂
    exact hv.distinct i s₁ i' s₂ (hold i s₁ h₁).2 (hold i' s₂ h₂).2

theorem inHand_of_draining {v : Server} {n : ℕ} (he : v.engine = .draining n) :
    v.inHand = [] := by
  rw [inHand, he]

/-- A sequence on its way from the queue to the scheduler. -/
theorem arrived_pop {v : Server} {n : ℕ} {seq : Sequence} {queue : List Sequence}
    (he : v.engine = .draining n) (hq : v.queue = seq :: queue) :
    (arrived { v with queue := queue, engine := .popped n seq }).Perm v.arrived := by
  rw [arrived, arrived, inHand_of_draining he, hq, List.append_nil]
  exact (List.perm_append_singleton seq queue).append_right _

theorem arrived_admitPopped {v : Server} {n : ℕ} {seq : Sequence} (he : v.engine = .popped n seq) :
    (arrived { v with
      scheduler := v.scheduler.admitSequence seq
      engine := .draining (n + 1) }).Perm v.arrived := by
  have hhand : v.inHand = [seq] := by rw [inHand, he]
  rw [arrived, arrived, hhand, inHand, List.append_nil, List.append_assoc]
  refine List.Perm.append_left _ ?_
  simp only [Scheduler.sequences, Scheduler.admitSequence, List.append_assoc]
  rw [List.singleton_append]
  exact List.perm_middle

theorem arrived_step {v : Server} {n : ℕ} {S' : Scheduler} {rs : List StepResult}
    (he : v.engine = .draining n)
    (hS : (S'.sequences.map Sequence.id).Perm (v.scheduler.sequences.map Sequence.id)) :
    ((arrived { v with scheduler := S', engine := .storing rs }).map Sequence.id).Perm
      (v.arrived.map Sequence.id) := by
  rw [arrived, arrived, inHand_of_draining he]
  show ((v.queue ++ [] ++ S'.sequences).map Sequence.id).Perm
    ((v.queue ++ [] ++ v.scheduler.sequences).map Sequence.id)
  simp only [List.map_append]
  exact List.Perm.append_left _ hS

theorem Ids.pop {v : Server} (hv : Ids v) {n : ℕ} {seq : Sequence} {queue : List Sequence}
    (he : v.engine = .draining n) (hq : v.queue = seq :: queue) :
    Ids { v with queue := queue, engine := .popped n seq } := by
  refine hv.of_perm hv.orderly rfl rfl rfl ?_ ((arrived_pop he hq).map _)
  intro x hx
  refine hv.queued x ?_
  rw [hq, inHand_of_draining he, List.append_nil]
  exact (List.perm_append_singleton seq queue).mem_iff.1 hx

/-- The sequence in the engine's hand is new to the scheduler. -/
theorem Ids.hand {v : Server} (hv : Ids v) {n : ℕ} {seq : Sequence}
    (he : v.engine = .popped n seq) :
    seq.Queued ∧ seq.id ∉ v.scheduler.sequences.map Sequence.id := by
  have hhand : v.inHand = [seq] := by rw [inHand, he]
  refine ⟨hv.queued seq (List.mem_append_right _ (by rw [hhand]; exact List.mem_cons_self)), ?_⟩
  have hnd := hv.nodup
  rw [arrived, hhand, List.append_assoc, List.map_append, List.singleton_append, List.map_cons,
    List.nodup_append] at hnd
  exact (List.nodup_cons.1 hnd.2.1).1

theorem Ids.admitPopped {v : Server} (hv : Ids v) {n : ℕ} {seq : Sequence}
    (he : v.engine = .popped n seq) :
    Ids { v with
      scheduler := v.scheduler.admitSequence seq
      engine := .draining (n + 1) } := by
  obtain ⟨hqueued, hnew⟩ := hv.hand he
  refine hv.of_perm (hv.orderly.arrive hqueued hnew) rfl rfl rfl ?_ ((arrived_admitPopped he).map _)
  intro x hx
  rw [inHand, List.append_nil] at hx
  exact hv.queued x (List.mem_append_left _ hx)

/-- The ids do not look at what handlers upsert. -/
theorem Ids.upsertNew {v : Server} (hv : Ids v) (h : ℕ) (i : UInt64) :
    Ids ((v.upsert i .prefill 0).setHandler h (.returned (.accepted i))) := by
  have hup : Ids (v.upsert i .prefill 0) := { hv with }
  exact hup.setHandler _ fun s hs => by cases hs

theorem Ids.schedulerStep {clock : ℕ → ℤ} {v : Server} (hv : Ids v) {n : ℕ}
    (he : v.engine = .draining n) {rs : List StepResult} {S' : Scheduler}
    (hs : v.scheduler.step clock = .ok (rs, S')) :
    Ids { v with scheduler := S', engine := .storing rs } := by
  have hrep := Scheduler.step_reports hv.orderly hs
  have hqueued := hv.queued
  rw [inHand_of_draining he] at hqueued
  exact hv.of_perm hrep.orderly rfl rfl rfl hqueued (arrived_step he hrep.ids)

/-- The ids are not used up. -/
def Issued (v : Server) : Action → Prop
  | .fetchId .. => v.requests < 2 ^ 64
  | _ => True

theorem Timely.issued {v : Server} {a : Action} (h : Timely v a) : Issued v a := by
  cases a with
  | fetchId => exact h
  | _ => trivial

/-- **Every action keeps the ids in flight distinct**, as long as they are not used up. -/
theorem Ids.step {clock : ℕ → ℤ} {v v' : Server} {a : Action} (hv : Ids v) (ht : Issued v a)
    (h : Step clock v a v') : Ids v' := by
  cases h with
  | fetchId hh => exact hv.fetchId ht _ _ _ _
  | reject hh | full hh hq | refuse hh he | pushReturn hh =>
    exact hv.setHandler _ fun s hs => by cases hs
  | push hh hq => exact hv.push hh
  | upsertNew hh => exact hv.upsertNew _ _
  | pop he hq hd => exact hv.pop he hq
  | admitPopped he => exact hv.admitPopped he
  | step he hd hs => exact hv.schedulerStep he hs
  | store he | again he => exact hv.keep rfl rfl rfl rfl rfl (by rw [inHand, inHand, he])

/-! ## The stored phases -/

/-- The table is behind the results still to be stored, and those are behind the scheduler. -/
structure Phases (v : Server) : Prop where
  stored : ∀ i st, v.table i = some st → st.phase = .prefill ∨
    ∃ s ∈ v.scheduler.sequences, s.id = i ∧ st.phase.rank ≤ s.phase.rank
  sound : ∀ r ∈ v.pending, ∃ s ∈ v.scheduler.sequences, s.id = r.seqId ∧
    r.phaseAfter.rank ≤ s.phase.rank
  sorted : v.pending.Pairwise fun r r' =>
    r.seqId = r'.seqId → r.phaseAfter.rank ≤ r'.phaseAfter.rank
  later : ∀ r ∈ v.pending, ∀ st, v.table r.seqId = some st → st.phase.rank ≤ r.phaseAfter.rank
  finished : ∀ s ∈ v.scheduler.finished,
    (∃ st, v.table s.id = some st ∧ st.phase = .finished) ∨
      ∃ r ∈ v.pending, r.seqId = s.id ∧ r.phaseAfter = .finished

theorem phases_init (S : Scheduler) (hnil : S.sequences = []) : Phases { scheduler := S } := by
  refine ⟨?_, List.forall_mem_nil _, List.Pairwise.nil, List.forall_mem_nil _, ?_⟩
  · intro i st h
    cases h
  · intro s hs
    have : s ∈ S.sequences := Scheduler.mem_sequences.2 (Or.inr (Or.inr hs))
    rw [hnil] at this
    cases this

/-- An action that touches neither the table nor the pending results nor the scheduler. -/
theorem Phases.congr {v v' : Server} (hv : Phases v) (ht : v'.table = v.table)
    (hp : v'.pending = v.pending) (hs : v'.scheduler = v.scheduler) : Phases v' := by
  obtain ⟨h1, h2, h3, h4, h5⟩ := hv
  rw [← ht, ← hs] at h1
  rw [← hp, ← hs] at h2
  rw [← hp] at h3
  rw [← hp, ← ht] at h4
  rw [← ht, ← hp, ← hs] at h5
  exact ⟨h1, h2, h3, h4, h5⟩

theorem Phases.upsertNew {v : Server} (hv : Phases v) {i : UInt64}
    (ht : ∀ st, v.table i = some st → st.phase = .prefill) : Phases (v.upsert i .prefill 0) := by
  refine ⟨?_, hv.sound, hv.sorted, ?_, ?_⟩
  · intro j st hst
    rw [table_upsert] at hst
    split_ifs at hst with hj
    · obtain rfl := Option.some.inj hst
      exact Or.inl rfl
    · exact hv.stored j st hst
  · intro r hr st hst
    rw [table_upsert] at hst
    split_ifs at hst with hj
    · obtain rfl := Option.some.inj hst
      exact Nat.zero_le _
    · exact hv.later r hr st hst
  · intro s hs
    refine (hv.finished s hs).imp_left ?_
    rintro ⟨st, hst, hfin⟩
    refine ⟨st, ?_, hfin⟩
    rw [table_upsert, if_neg, hst]
    rintro rfl
    rw [ht st hst] at hfin
    cases hfin

theorem Phases.admitPopped {v : Server} (hv : Phases v) {seq : Sequence} {n : ℕ}
    (he : v.pending = []) :
    Phases { v with
      scheduler := v.scheduler.admitSequence seq
      engine := .draining n } := by
  refine ⟨?_, List.forall_mem_nil _, List.Pairwise.nil, List.forall_mem_nil _, ?_⟩
  · intro i st hst
    refine (hv.stored i st hst).imp_right ?_
    rintro ⟨s, hs, hid, hle⟩
    refine ⟨s, ?_, hid, hle⟩
    rw [Scheduler.mem_sequences] at hs ⊢
    exact hs.imp_left (List.mem_append_left _)
  · intro s hs
    refine (hv.finished s hs).imp_right ?_
    rw [he]
    exact id

theorem Phases.schedulerStep {clock : ℕ → ℤ} {v : Server} (hv : Phases v) (ho : v.scheduler.Orderly)
    (he : v.pending = []) {rs : List StepResult} {S' : Scheduler}
    (hs : v.scheduler.step clock = .ok (rs, S')) :
    Phases { v with scheduler := S', engine := .storing rs } := by
  have hrep := Scheduler.step_reports ho hs
  refine ⟨?_, hrep.sound, hrep.sorted, ?_, ?_⟩
  · intro i st hst
    refine (hv.stored i st hst).imp_right ?_
    rintro ⟨s, hs, hid, hle⟩
    obtain ⟨s', hs', hid', hle'⟩ := hrep.grow s hs
    exact ⟨s', hs', hid'.trans hid, hle.trans hle'⟩
  · intro r hr st hst
    obtain hpre | ⟨s, hs, hid, hle⟩ := hv.stored r.seqId st hst
    · rw [hpre]
      exact Nat.zero_le _
    · exact hle.trans (hrep.later r hr s hs hid)
  · intro s hs
    obtain hs | hr := hrep.retired s hs
    · refine Or.inl ((hv.finished s hs).resolve_right ?_)
      rw [he]
      rintro ⟨r, hr, -⟩
      cases hr
    · exact Or.inr hr

theorem Phases.store {v : Server} (hv : Phases v) {r : StepResult} {rs : List StepResult}
    (he : v.engine = .storing (r :: rs)) :
    Phases { v.upsert r.seqId r.phaseAfter 0 with engine := .storing rs } := by
  have hp : v.pending = r :: rs := by rw [pending, he]
  have hsound := hv.sound
  have hsorted := hv.sorted
  have hlater := hv.later
  rw [hp, List.forall_mem_cons] at hsound hlater
  rw [hp, List.pairwise_cons] at hsorted
  refine ⟨?_, hsound.2, hsorted.2, ?_, ?_⟩
  · intro j st hst
    change (v.upsert r.seqId r.phaseAfter 0).table j = some st at hst
    rw [table_upsert] at hst
    split_ifs at hst with hj
    · obtain rfl := Option.some.inj hst
      obtain ⟨s, hs, hid, hle⟩ := hsound.1
      exact Or.inr ⟨s, hs, hid.trans hj.symm, hle⟩
    · exact hv.stored j st hst
  · intro r' hr' st hst
    change (v.upsert r.seqId r.phaseAfter 0).table r'.seqId = some st at hst
    rw [table_upsert] at hst
    split_ifs at hst with hj
    · obtain rfl := Option.some.inj hst
      exact hsorted.1 r' hr' hj.symm
    · exact hlater.2 r' hr' st hst
  · intro s hs
    change (∃ st, (v.upsert r.seqId r.phaseAfter 0).table s.id = some st ∧ st.phase = .finished) ∨ _
    rw [table_upsert]
    have hfin := hv.finished s hs
    rw [hp] at hfin
    obtain ⟨st, hst, hf⟩ | ⟨r', hr', hid, hf⟩ := hfin
    · refine Or.inl ?_
      split_ifs with hj
      · refine ⟨_, rfl, ?_⟩
        -- the stored phase was final, so what is stored over it is final too
        have hle := hlater.1 st (hj ▸ hst)
        rw [hf] at hle
        cases hr : r.phaseAfter with
        | finished => rfl
        | prefill => simp [hr, SequencePhase.rank] at hle
        | decode => simp [hr, SequencePhase.rank] at hle
      · exact ⟨st, hst, hf⟩
    · obtain rfl | hr' := List.mem_cons.1 hr'
      · rw [if_pos hid.symm]
        exact Or.inl ⟨_, rfl, hf⟩
      · exact Or.inr ⟨r', hr', hid, hf⟩

/-! ## Timely runs -/

/-- The invariant of timely runs. -/
structure Inv (v : Server) : Prop extends Ids v, Phases v

theorem pending_of_draining {v : Server} {n : ℕ} (he : v.engine = .draining n) :
    v.pending = [] := by
  rw [pending, he]

theorem pending_of_popped {v : Server} {n : ℕ} {seq : Sequence} (he : v.engine = .popped n seq) :
    v.pending = [] := by
  rw [pending, he]

theorem Inv.step {clock : ℕ → ℤ} {v v' : Server} {a : Action} (hv : Inv v) (ht : Timely v a)
    (h : Step clock v a v') : Inv v' := by
  have hids := hv.toIds.step ht.issued h
  have hph := hv.toPhases
  have hph' : Phases v' := by
    cases h with
    | reject | fetchId | push | full | refuse | pushReturn => exact hph.congr rfl rfl rfl
    | upsertNew hh => exact (hph.upsertNew fun st => ht _ st hh).congr rfl rfl rfl
    | pop he hq hd => exact hph.congr rfl (pending_of_draining he).symm rfl
    | admitPopped he => exact hph.admitPopped (pending_of_popped he)
    | step he hd hs => exact hph.schedulerStep hv.orderly (pending_of_draining he) hs
    | store he => exact hph.store he
    | again he => exact hph.congr rfl (by simp [pending, he]) rfl
  exact { hids, hph' with }

theorem forward_of_table {v v' : Server} (h : v'.table = v.table) : Forward v v' := by
  intro i st hst
  exact ⟨st, by rw [h, hst], le_refl _⟩

/-- An upsert moves forward exactly if it stores nothing earlier than what is there. -/
theorem forward_upsert {v : Server} (i : UInt64) (p : SequencePhase) (n : ℕ) :
    Forward v (v.upsert i p n) ↔ ∀ st, v.table i = some st → st.phase.rank ≤ p.rank := by
  constructor
  · intro h st hst
    obtain ⟨st', hst', hle⟩ := h i st hst
    rw [table_upsert, if_pos rfl] at hst'
    obtain rfl := Option.some.inj hst'
    exact hle
  · intro h j st hst
    rw [table_upsert]
    split_ifs with hj
    · exact ⟨_, rfl, h st (hj ▸ hst)⟩
    · exact ⟨st, hst, le_refl _⟩

theorem Inv.forward {clock : ℕ → ℤ} {v v' : Server} {a : Action} (hv : Inv v) (ht : Timely v a)
    (h : Step clock v a v') : Forward v v' := by
  cases h with
  | @upsertNew k i hh =>
    refine (forward_upsert i .prefill 0).2 fun st hst => ?_
    rw [ht i st hh hst]
  | @store r rs he =>
    refine (forward_upsert r.seqId r.phaseAfter 0).2 (hv.later r ?_)
    rw [pending, he]
    exact List.mem_cons_self
  | _ => exact forward_of_table rfl

theorem Inv.reported {v : Server} (hv : Inv v) : v.Reported := by
  intro hrest s hs hfin
  obtain hs | hs | hs := Scheduler.mem_sequences.1 hs
  · exact absurd hfin (hv.orderly.waiting s hs).ne_finished
  · obtain ⟨hp, -⟩ | ⟨hp, -⟩ := hv.orderly.active s hs <;> rw [hp] at hfin <;> cases hfin
  · refine (hv.finished s hs).resolve_right ?_
    rw [hrest.engine]
    rintro ⟨r, hr, -⟩
    cases hr

theorem Inv.of_run {clock : ℕ → ℤ} {config : SchedulerConfig} {pt : PagedKVCacheAllocator}
    {v : Server} (h : Run clock Timely { scheduler := { pageTable := pt, config := config } } v) :
    Inv v := by
  refine Stepping.invariant (P := Inv) ?_ ?_ h
  · exact { ids_init _ Scheduler.orderly_init rfl, phases_init _ rfl with }
  · rintro v v' hv ⟨a, ht, hp⟩
    exact hv.step ht (step_of_perform hp)

/-- **The status of a sequence never moves backwards** in a run whose actions are all timely, and
when such a run is at rest every finished sequence is reported finished. A handler's upsert that
is not timely does move a phase backwards. -/
theorem status_monotone {clock : ℕ → ℤ} {config : SchedulerConfig} {pt : PagedKVCacheAllocator}
    {v : Server} (h : Run clock Timely { scheduler := { pageTable := pt, config := config } } v) :
    v.Reported ∧
    (∀ a v', Timely v a → v.perform clock a = some v' → Forward v v') ∧
    ∀ k v', v.perform clock (.upsertNew k) = some v' → Forward v v' → Timely v (.upsertNew k) := by
  have hv := Inv.of_run h
  refine ⟨hv.reported, fun a v' ht hp => hv.forward ht (step_of_perform hp), ?_⟩
  intro k v' hp hf
  cases step_of_perform hp with
  | @upsertNew _ i hh =>
    intro j st hj hst
    obtain rfl := Handler.pushed.inj (hh.symm.trans hj)
    have hle := (forward_upsert i .prefill 0).1 hf st hst
    cases hr : st.phase with
    | prefill => rfl
    | decode => simp [hr, SequencePhase.rank] at hle
    | finished => simp [hr, SequencePhase.rank] at hle

section Examples

/-- Perform a list of actions. -/
def performAll (v : Server) (as : List Action) : Option Server :=
  as.foldlM (fun v a => v.perform (fun _ => 0) a) v

/-- The server of `main`, with a small page table. -/
def small : Server :=
  { scheduler := { pageTable := (PagedKVCacheAllocator.create 16 4).get rfl, config := {} } }

/-- A request of one token, from the id to the moment the engine has stored `FINISHED`. -/
def late : Server :=
  (small.performAll [.fetchId 0 [7] 1 0, .push 0, .pushReturn 0, .pop, .admitPopped, .step none,
    .store, .again, .step none, .store]).get (by decide)

/-- The handler's upsert after it. -/
def lateUpsert : Server := (late.perform (fun _ => 0) (.upsertNew 0)).get (by decide)

theorem run_performAll {Ok : Server → Action → Prop} {v v' : Server} {as : List Action}
    (hok : ∀ v a, Ok v a) (h : v.performAll as = some v') : Run (fun _ => 0) Ok v v' := by
  induction as generalizing v with
  | nil =>
    obtain rfl := Option.some.inj h
    exact ReflTransGen.refl
  | cons a as ih =>
    rw [performAll, List.foldlM_cons] at h
    obtain ⟨v₁, h₁, h⟩ := Option.bind_eq_some_iff.1 h
    exact (ih h).head ⟨a, hok v a, h₁⟩

/-- The engine finishes the sequence before the handler's upsert runs: the upsert then takes the
stored phase from `FINISHED` back to `PREFILL`, where it stays. -/
theorem not_status_monotone : ∃ v v', Run (fun _ => 0) (fun _ _ => True) small v ∧
    v.perform (fun _ => 0) (.upsertNew 0) = some v' ∧ ¬ Forward v v' ∧ ¬ v'.Reported := by
  refine ⟨late, lateUpsert, ?_, (Option.some_get _).symm, ?_, ?_⟩
  · exact run_performAll (fun _ _ => trivial) (Option.some_get _).symm
  · intro h
    obtain ⟨st', hst', hle⟩ := h 1 ⟨.finished, 0⟩ rfl
    obtain rfl := Option.some.inj hst'
    exact absurd hle (by decide)
  · intro h
    have hrest : lateUpsert.AtRest := by
      refine ⟨fun k => ?_, rfl⟩
      by_cases hk : k = 0
      · subst hk
        exact Or.inr ⟨.accepted 1, rfl⟩
      · refine Or.inl ?_
        change Function.update (Function.update (Function.update (Function.update
          (fun _ => Handler.start) 0 _) 0 _) 0 _) 0 _ k = _
        rw [Function.update_of_ne hk, Function.update_of_ne hk, Function.update_of_ne hk,
          Function.update_of_ne hk]
    obtain ⟨st, hst, hfin⟩ := h hrest
      { Sequence.new 1 [7] 1 0 with
        phase := .finished, prefillCursor := 1, generatedTokens := [kPlaceholderToken] }
      (by decide) rfl
    obtain rfl := Option.some.inj hst
    cases hfin

/-- With the upsert before the engine's first store, the client ends up seeing `FINISHED`. -/
theorem status_monotone_finished : ∃ v, Run (fun _ => 0) Timely small v ∧ v.Reported ∧
    v.table 1 = some ⟨.finished, 0⟩ := by
  have hrun : Run (fun _ => 0) Timely small _ :=
    ((((((((((ReflTransGen.single ⟨.fetchId 0 [7] 1 0, Nat.two_pow_pos 64, rfl⟩).tail
      ⟨.push 0, trivial, rfl⟩).tail ⟨.pushReturn 0, trivial, rfl⟩).tail
      ⟨.upsertNew 0, ?_, rfl⟩).tail ⟨.pop, trivial, rfl⟩).tail ⟨.admitPopped, trivial, rfl⟩).tail
      ⟨.step none, trivial, rfl⟩).tail ⟨.store, trivial, rfl⟩).tail ⟨.again, trivial, rfl⟩).tail
      ⟨.step none, trivial, rfl⟩).tail ⟨.store, trivial, rfl⟩
  · intro i st hi hst
    obtain rfl := Handler.pushed.inj hi
    cases hst
  · exact ⟨_, hrun, (status_monotone hrun).1, rfl⟩

end Examples

end Server

end AetherMoE
