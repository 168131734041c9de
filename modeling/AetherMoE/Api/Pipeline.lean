import AetherMoE.Api.StatusTable

/-!
# Every accepted request is served

The way of a request through `ingress_server.cpp` and the engine loop of `main.cpp`, in any
interleaving of handlers and engine: an answer of `accepted` is kept, and nothing else is served.

* `getStatus`: the answer of `GET /status`;
* `Issued`: the ids are not used up; `Belongs`: a handler has pushed the sequence with an id;
* `Served`, **`served_step`**: the invariant of the whole pipeline;
* **`accepted_served`**: accepted requests and the sequences in the engine are in bijection, and a
  client that was told `accepted` is never told `unknown seq_id`;
* `Acts`, `Ahead`, **`admitted_within`**: a queued sequence is admitted within seventeen steps of
  the scheduler, whatever arrives behind it, if those are not counted before which a handler in the
  middle of its push has cut the drain loop short.
-/

namespace AetherMoE

open Relation Stepping

/-- The answer to `GET /status/:id`: status 200 with a body, or 404. -/
inductive StatusResponse
  | found (seqId : UInt64) (phase : String) (generatedCount : ℕ)
  | notFound (status : ℕ) (error : String)
  deriving Repr, DecidableEq

namespace Server

/-- The handler of `GET /status/:id`, for the number in the path. `std::stoull` throws when it
does not fit: `none`. -/
def getStatus (v : Server) (n : ℕ) : Option StatusResponse :=
  if n < 2 ^ 64 then
    match v.table (UInt64.ofNat n) with
    | some st => some (.found (UInt64.ofNat n) st.phase.name st.generatedCount)
    | none => some (.notFound 404 "unknown seq_id")
  else none

/-- The handler has pushed the sequence with id `i`, and may have answered. -/
def Belongs (x : Handler) (i : UInt64) : Prop :=
  x = .pushing i ∨ x = .pushed i ∨ x = .returned (.accepted i)

/-- The ids that have reached the queue. -/
def arrivedIds (v : Server) : List UInt64 := v.arrived.map Sequence.id

variable {clock : ℕ → ℤ} {v v' : Server} {a : Action}

/-! ## The invariant -/

/-- The pipeline keeps its promises. -/
structure Served (v : Server) : Prop extends Ids v where
  kept : ∀ h i, Belongs (v.handler h) i → i ∈ v.arrivedIds
  only : ∀ i ∈ v.arrivedIds, ∃ h, Belongs (v.handler h) i
  unique : ∀ h h' i, Belongs (v.handler h) i → Belongs (v.handler h') i → h = h'
  known : ∀ h i, v.handler h = .returned (.accepted i) → ∃ st, v.table i = some st
  stored : ∀ i st, v.table i = some st → i ∈ v.arrivedIds ∧ st.generatedCount = 0
  reported : ∀ r ∈ v.pending, r.seqId ∈ v.arrivedIds
  bounded : v.queue.length ≤ kIngressQueueCapacity

theorem arrivedIds_push (s : Sequence) (h : ℕ) (x : Handler) :
    (arrivedIds ({ v with queue := v.queue ++ [s] }.setHandler h x)).Perm
      (s.id :: v.arrivedIds) := by
  simp only [arrivedIds, arrived, queue_setHandler, scheduler_setHandler, List.append_assoc,
    List.singleton_append, List.map_append, List.map_cons]
  exact List.perm_middle

/-- A handler that has the same sequence pushed before and after. -/
theorem belongs_setHandler {h : ℕ} {x : Handler} (hx : ∀ i, Belongs x i ↔ Belongs (v.handler h) i)
    (k : ℕ) (i : UInt64) : Belongs ((v.setHandler h x).handler k) i ↔ Belongs (v.handler k) i := by
  rw [handler_setHandler]
  split_ifs with hk
  · rw [hk]
    exact hx i
  · exact Iff.rfl

theorem not_belongs_rejected (status : ℕ) (reason : String) (i : UInt64) :
    ¬ Belongs (.returned (.rejected status reason)) i := by
  rintro (h | h | h) <;> cases h

theorem not_belongs_start (i : UInt64) : ¬ Belongs .start i := by
  rintro (h | h | h) <;> cases h

theorem not_belongs_hasSequence (s : Sequence) (i : UInt64) : ¬ Belongs (.hasSequence s) i := by
  rintro (h | h | h) <;> cases h

/-- An action that stores nothing and only moves sequences on. -/
theorem Served.of_perm (hv : Served v) (hids : Ids v')
    (hb : ∀ h i, Belongs (v'.handler h) i ↔ Belongs (v.handler h) i)
    (ha : ∀ h i, v'.handler h = .returned (.accepted i) → v.handler h = .returned (.accepted i))
    (hp : v'.arrivedIds.Perm v.arrivedIds) (ht : v'.table = v.table)
    (hr : ∀ r ∈ v'.pending, r.seqId ∈ v'.arrivedIds)
    (hq : v'.queue.length ≤ kIngressQueueCapacity) : Served v' := by
  refine { hids with
    kept := ?_, only := ?_, unique := ?_, known := ?_, stored := ?_, reported := hr, bounded := hq }
  · intro h i hi
    exact hp.mem_iff.2 (hv.kept h i ((hb h i).1 hi))
  · intro i hi
    obtain ⟨h, hh⟩ := hv.only i (hp.mem_iff.1 hi)
    exact ⟨h, (hb h i).2 hh⟩
  · intro h h' i hi hi'
    exact hv.unique h h' i ((hb h i).1 hi) ((hb h' i).1 hi')
  · intro h i hi
    rw [ht]
    exact hv.known h i (ha h i hi)
  · intro i st hst
    rw [ht] at hst
    exact ⟨hp.mem_iff.2 (hv.stored i st hst).1, (hv.stored i st hst).2⟩

theorem Served.push (hv : Served v) {h : ℕ} {s : Sequence} (hh : v.handler h = .hasSequence s)
    (hq : v.queue.length < kIngressQueueCapacity)
    (hids : Ids ({ v with queue := v.queue ++ [s] }.setHandler h (.pushing s.id))) :
    Served ({ v with queue := v.queue ++ [s] }.setHandler h (.pushing s.id)) := by
  have hp := arrivedIds_push (v := v) s h (.pushing s.id)
  have hb : ∀ k i, Belongs (({ v with queue := v.queue ++ [s] }.setHandler h
      (.pushing s.id)).handler k) i ↔ k = h ∧ i = s.id ∨ Belongs (v.handler k) i := by
    intro k i
    rw [handler_setHandler]
    split_ifs with hk
    · subst hk
      rw [hh]
      constructor
      · rintro (hi | hi | hi) <;> cases hi
        exact Or.inl ⟨rfl, rfl⟩
      · rintro (⟨-, rfl⟩ | hi)
        · exact Or.inl rfl
        · exact absurd hi (not_belongs_hasSequence s i)
    · exact ⟨Or.inr, fun hi => hi.resolve_left fun hc => hk hc.1⟩
  have hnew : ∀ k, ¬ Belongs (v.handler k) s.id := fun k hk =>
    (hv.held h s hh).2.1 (hv.kept k s.id hk)
  refine { hids with
    kept := ?_, only := ?_, unique := ?_, known := ?_, stored := ?_, reported := ?_, bounded := ?_ }
  · intro k i hi
    rw [hp.mem_iff]
    rcases (hb k i).1 hi with ⟨-, rfl⟩ | hi
    · exact List.mem_cons_self
    · exact List.mem_cons_of_mem _ (hv.kept k i hi)
  · intro i hi
    rcases List.mem_cons.1 (hp.mem_iff.1 hi) with rfl | hi
    · exact ⟨h, (hb h _).2 (Or.inl ⟨rfl, rfl⟩)⟩
    · obtain ⟨k, hk⟩ := hv.only i hi
      exact ⟨k, (hb k i).2 (Or.inr hk)⟩
  · intro k k' i hi hi'
    rcases (hb k i).1 hi with ⟨hk, hid⟩ | hold
    · rcases (hb k' i).1 hi' with ⟨hk', -⟩ | hold'
      · rw [hk, hk']
      · exact absurd (hid ▸ hold') (hnew k')
    · rcases (hb k' i).1 hi' with ⟨-, hid⟩ | hold'
      · exact absurd (hid ▸ hold) (hnew k)
      · exact hv.unique k k' i hold hold'
  · intro k i hi
    rw [handler_setHandler] at hi
    split_ifs at hi with hk
    exact hv.known k i hi
  · intro i st hst
    exact ⟨hp.mem_iff.2 (List.mem_cons_of_mem _ (hv.stored i st hst).1), (hv.stored i st hst).2⟩
  · intro r hr
    exact hp.mem_iff.2 (List.mem_cons_of_mem _ (hv.reported r hr))
  · rw [queue_setHandler, List.length_append, List.length_singleton]
    exact hq

theorem Served.upsertNew (hv : Served v) {h : ℕ} {i : UInt64} (hh : v.handler h = .pushed i)
    (hids : Ids ((v.upsert i .prefill 0).setHandler h (.returned (.accepted i)))) :
    Served ((v.upsert i .prefill 0).setHandler h (.returned (.accepted i))) := by
  have hb := belongs_setHandler (v := v.upsert i .prefill 0) (h := h)
    (x := .returned (.accepted i)) fun j => by
      rw [handler_upsert, hh]
      constructor
      · rintro (hj | hj | hj) <;> cases hj
        exact Or.inr (Or.inl rfl)
      · rintro (hj | hj | hj) <;> cases hj
        exact Or.inr (Or.inr rfl)
  refine { hids with
    kept := ?_, only := ?_, unique := ?_, known := ?_, stored := ?_, reported := hv.reported,
    bounded := hv.bounded }
  · intro k j hj
    exact hv.kept k j ((hb k j).1 hj)
  · intro j hj
    obtain ⟨k, hk⟩ := hv.only j hj
    exact ⟨k, (hb k j).2 hk⟩
  · intro k k' j hj hj'
    exact hv.unique k k' j ((hb k j).1 hj) ((hb k' j).1 hj')
  · intro k j hj
    rw [table_setHandler, table_upsert]
    split_ifs with hji
    · exact ⟨_, rfl⟩
    · rw [handler_setHandler] at hj
      split_ifs at hj with hk
      · cases hj
        exact absurd rfl hji
      · exact hv.known k j hj
  · intro j st hst
    rw [table_setHandler, table_upsert] at hst
    split_ifs at hst with hji
    · cases hst
      exact ⟨hji ▸ hv.kept h i (Or.inr (Or.inl hh)), rfl⟩
    · exact hv.stored j st hst

theorem Served.store (hv : Served v) {r : StepResult} {rs : List StepResult}
    (he : v.engine = .storing (r :: rs))
    (hids : Ids { v.upsert r.seqId r.phaseAfter 0 with engine := .storing rs }) :
    Served { v.upsert r.seqId r.phaseAfter 0 with engine := .storing rs } := by
  have hrep := hv.reported
  rw [pending, he] at hrep
  have harr : arrivedIds { v.upsert r.seqId r.phaseAfter 0 with engine := .storing rs } =
      v.arrivedIds :=
    congrArg (List.map Sequence.id) (arrived_keep rfl rfl (by rw [inHand, inHand, he]))
  refine { hids with
    kept := harr ▸ hv.kept, only := harr ▸ hv.only, unique := hv.unique, known := ?_, stored := ?_,
    reported := ?_, bounded := hv.bounded }
  · intro k j hj
    show ∃ st, (v.upsert r.seqId r.phaseAfter 0).table j = some st
    rw [table_upsert]
    split_ifs
    · exact ⟨_, rfl⟩
    · exact hv.known k j hj
  · intro j st hst
    change (v.upsert r.seqId r.phaseAfter 0).table j = some st at hst
    rw [table_upsert] at hst
    rw [harr]
    split_ifs at hst with hj
    · cases hst
      exact ⟨hj ▸ hrep r List.mem_cons_self, rfl⟩
    · exact hv.stored j st hst
  · rw [harr]
    exact fun r' hr' => hrep r' (List.mem_cons_of_mem _ hr')

/-- A handler that is not told `accepted` now was told so before. -/
theorem accepted_setHandler {h : ℕ} {x : Handler} (hx : ∀ i, x ≠ .returned (.accepted i)) {k : ℕ}
    {i : UInt64} (hk : (v.setHandler h x).handler k = .returned (.accepted i)) :
    v.handler k = .returned (.accepted i) := by
  rw [handler_setHandler] at hk
  split_ifs at hk
  · exact absurd hk (hx i)
  · exact hk

/-- **Every action keeps the promises.** -/
theorem served_step (hv : Served v) (ht : Issued v a) (h : Step clock v a v') : Served v' := by
  have hids := hv.toIds.step ht h
  cases h with
  | reject hh =>
    refine hv.of_perm hids (belongs_setHandler fun i => ?_)
      (fun k i => accepted_setHandler fun i hc => by cases hc) (List.Perm.refl _) rfl hv.reported
      hv.bounded
    rw [hh]
    exact iff_of_false (not_belongs_rejected _ _ i) (not_belongs_start i)
  | @fetchId k prompt maxNew now hh =>
    refine hv.of_perm hids (belongs_setHandler (v := { v with
        nextSeqId := v.nextSeqId + 1, requests := v.requests + 1 }) fun i => ?_)
      (fun k i => accepted_setHandler (v := { v with
        nextSeqId := v.nextSeqId + 1, requests := v.requests + 1 }) fun i hc => by cases hc)
      (List.Perm.refl _) rfl hv.reported hv.bounded
    show Belongs _ i ↔ Belongs (v.handler k) i
    rw [hh]
    exact iff_of_false (not_belongs_hasSequence _ i) (not_belongs_start i)
  | push hh hq => exact hv.push hh hq hids
  | full hh | refuse hh =>
    refine hv.of_perm hids (belongs_setHandler fun i => ?_)
      (fun k i => accepted_setHandler fun i hc => by cases hc) (List.Perm.refl _) rfl hv.reported
      hv.bounded
    rw [hh]
    exact iff_of_false (not_belongs_rejected _ _ i) (not_belongs_hasSequence _ i)
  | pushReturn hh =>
    refine hv.of_perm hids (belongs_setHandler fun i => ?_)
      (fun k i => accepted_setHandler fun i hc => by cases hc) (List.Perm.refl _) rfl hv.reported
      hv.bounded
    rw [hh]
    constructor
    · rintro (hi | hi | hi) <;> cases hi
      exact Or.inl rfl
    · rintro (hi | hi | hi) <;> cases hi
      exact Or.inr (Or.inl rfl)
  | upsertNew hh => exact hv.upsertNew hh hids
  | pop he hq hd =>
    have hlen := hv.bounded
    rw [hq, List.length_cons] at hlen
    exact hv.of_perm hids (fun _ _ => Iff.rfl) (fun _ _ hk => hk) ((arrived_pop he hq).map _) rfl
      (List.forall_mem_nil _) ((Nat.le_succ _).trans hlen)
  | admitPopped he =>
    exact hv.of_perm hids (fun _ _ => Iff.rfl) (fun _ _ hk => hk) ((arrived_admitPopped he).map _)
      rfl (List.forall_mem_nil _) hv.bounded
  | step he hd hs =>
    have hrep := Scheduler.step_reports hv.orderly hs
    refine hv.of_perm hids (fun _ _ => Iff.rfl) (fun _ _ hk => hk) (arrived_step he hrep.ids) rfl
      ?_ hv.bounded
    intro r hr
    obtain ⟨s, hs, hid, -⟩ := hrep.sound r hr
    rw [← hid]
    exact List.mem_map_of_mem (List.mem_append_right _ hs)
  | store he => exact hv.store he hids
  | again he =>
    have harr : arrived { v with engine := .draining 0 } = v.arrived :=
      arrived_keep rfl rfl (by rw [inHand, inHand, he])
    exact hv.of_perm hids (fun _ _ => Iff.rfl) (fun _ _ hk => hk)
      (.of_eq (congrArg (List.map Sequence.id) harr)) rfl (List.forall_mem_nil _) hv.bounded

theorem served_init (config : SchedulerConfig) (pt : PagedKVCacheAllocator) :
    Served { scheduler := { pageTable := pt, config := config } } := by
  refine { ids_init _ Scheduler.orderly_init rfl with
    kept := ?_, only := ?_, unique := ?_, known := ?_, stored := ?_, reported := ?_, bounded := ?_ }
  · intro h i hi
    exact absurd hi (not_belongs_start i)
  · intro i hi
    cases hi
  · intro h h' i hi
    exact absurd hi (not_belongs_start i)
  · intro h i hi
    cases hi
  · intro i st hst
    cases hst
  · exact List.forall_mem_nil _
  · exact Nat.zero_le _

/-- The invariant of every run whose ids are not used up. -/
theorem served_of_run {config : SchedulerConfig} {pt : PagedKVCacheAllocator}
    (h : Run clock Issued { scheduler := { pageTable := pt, config := config } } v) : Served v := by
  refine Stepping.invariant (served_init config pt) ?_ h
  rintro v v' hv ⟨a, ht, hp⟩
  exact served_step hv ht (step_of_perform hp)

theorem Served.getStatus (hv : Served v) {n : ℕ} {i : UInt64} {phase : String} {count : ℕ}
    (h : v.getStatus n = some (.found i phase count)) :
    count = 0 ∧ ∃ k, Belongs (v.handler k) i := by
  unfold Server.getStatus at h
  split_ifs at h
  cases hst : v.table (UInt64.ofNat n) with
  | none =>
    rw [hst] at h
    cases h
  | some st =>
    rw [hst] at h
    cases h
    obtain ⟨hmem, hcount⟩ := hv.stored _ st hst
    exact ⟨hcount, hv.only _ hmem⟩

/-- **Every accepted request is served, and nothing else is.** In every run whose ids are not used
up: a request that was answered `accepted` has its sequence in the queue, in the engine's hand or in
the scheduler, and `GET /status` knows it, with a count of zero; every sequence in one of these is
there once and belongs to exactly one request, which was or will be answered `accepted`; and
`GET /status` knows nothing else. -/
theorem accepted_served {config : SchedulerConfig} {pt : PagedKVCacheAllocator}
    (h : Run clock Issued { scheduler := { pageTable := pt, config := config } } v) :
    (∀ k i, v.handler k = .returned (.accepted i) →
      i ∈ v.arrivedIds ∧ ∃ phase, v.getStatus i.toNat = some (.found i phase 0)) ∧
    v.arrivedIds.Nodup ∧
    (∀ i ∈ v.arrivedIds, ∃ k, Belongs (v.handler k) i ∧
      ∀ k', Belongs (v.handler k') i → k' = k) ∧
    ∀ n i phase count, v.getStatus n = some (.found i phase count) →
      count = 0 ∧ ∃ k, Belongs (v.handler k) i := by
  have hv := served_of_run h
  refine ⟨fun k i hk => ⟨hv.kept k i (Or.inr (Or.inr hk)), ?_⟩, hv.nodup, fun i hi => ?_,
    fun n i phase count hs => hv.getStatus hs⟩
  · obtain ⟨st, hst⟩ := hv.known k i hk
    have hcount := (hv.stored i st hst).2
    refine ⟨st.phase.name, ?_⟩
    rw [Server.getStatus, if_pos i.toNat_lt, UInt64.ofNat_toNat, hst, ← hcount]
  · obtain ⟨k, hk⟩ := hv.only i hi
    exact ⟨k, hk, fun k' hk' => hv.unique k' k i hk' hk⟩

/-! ## How long a queued sequence waits -/

/-- The actions of a run, in order. -/
def Acts (clock : ℕ → ℤ) (v : Server) (as : List Action) (v' : Server) : Prop :=
  ∃ a, as = [a] ∧ Issued v a ∧ v.perform clock a = some v'

/-- What the engine has popped since it last stepped the scheduler. -/
def drained (v : Server) : ℕ :=
  match v.engine with
  | .draining n => n
  | .popped n _ => n + 1
  | .storing _ => 0

/-- The sequence is in the queue, the `n`th from its head, or with `n = 0` in the engine's hand. -/
def Ahead (s : Sequence) (n : ℕ) (v : Server) : Prop :=
  (∃ pre post, v.queue = pre ++ s :: post ∧ pre.length + 1 = n) ∨ v.inHand = [s] ∧ n = 0

/-- The scheduler has the sequence. -/
def Admitted (i : UInt64) (v : Server) : Prop := i ∈ v.scheduler.sequences.map Sequence.id

theorem admitted_step {i : UInt64} (ho : v.scheduler.Orderly) (hi : Admitted i v)
    (h : Step clock v a v') : Admitted i v' := by
  cases h with
  | admitPopped he =>
    obtain ⟨s, hs, hid⟩ := List.mem_map.1 hi
    refine List.mem_map.2 ⟨s, ?_, hid⟩
    rw [Scheduler.mem_sequences] at hs ⊢
    exact hs.imp_left (List.mem_append_left _)
  | step he hd hs => exact (Scheduler.step_reports ho hs).ids.mem_iff.2 hi
  | _ => exact hi

/-- A sequence that was popped counts among the drained. -/
theorem Ahead.pos {s : Sequence} {n : ℕ} (hs : Ahead s n v) : 1 ≤ v.drained + n := by
  rcases hs with ⟨pre, post, -, rfl⟩ | ⟨hhand, rfl⟩
  · omega
  · cases he : v.engine with
    | popped d s' =>
      rw [drained, he]
      exact Nat.le_add_left 1 d
    | draining d | storing rs => simp [inHand, he] at hhand

/-- A sequence waits while the engine steps the scheduler: it is in the queue, and 256 others have
been drained. -/
theorem Ahead.full {s : Sequence} {n d : ℕ} (hs : Ahead s n v) (he : v.engine = .draining d)
    (hd : v.DrainEnds d none) : 256 ≤ v.drained ∧ 1 ≤ n := by
  rcases hs with ⟨pre, post, hq, rfl⟩ | ⟨hhand, -⟩
  · rw [drained, he]
    refine ⟨hd.resolve_right fun hnil => ?_, Nat.le_add_left 1 _⟩
    simp [hnil] at hq
  · simp [inHand_of_draining he] at hhand

/-- A pop moves the sequence up by one. -/
theorem Ahead.pop {s seq : Sequence} {queue : List Sequence} {n d : ℕ} (hs : Ahead s n v)
    (he : v.engine = .draining d) (hcons : v.queue = seq :: queue) :
    ∃ n', n = n' + 1 ∧ Ahead s n' { v with queue := queue, engine := .popped d seq } := by
  rcases hs with ⟨pre, post, hq, hn⟩ | ⟨hhand, -⟩
  · rw [hq] at hcons
    cases pre with
    | nil =>
      cases hcons
      exact ⟨0, hn.symm, Or.inr ⟨rfl, rfl⟩⟩
    | cons x pre =>
      cases hcons
      exact ⟨pre.length + 1, hn.symm, Or.inl ⟨pre, post, rfl, rfl⟩⟩
  · simp [inHand_of_draining he] at hhand

/-- **One action** admits the sequence, or does not move it back; and unless a handler is in the
middle of its push the scheduler steps only after 256 sequences have been drained. -/
theorem ahead_step {s : Sequence} {n : ℕ} (hs : Ahead s n v) (h : Step clock v a v') :
    Admitted s.id v' ∨
      ∃ n', Ahead s n' v' ∧ 256 * [a].count (.step none) + v'.drained + n' ≤ v.drained + n := by
  have hidle : ∀ {a : Action} {d : ℕ}, a ≠ .step none → d ≤ v.drained →
      256 * [a].count (.step none) + d + n ≤ v.drained + n := by
    intro a d ha hd
    have hcount : [a].count (Action.step none) = 0 := by simp [ha]
    omega
  cases h with
  | reject | fetchId | full | refuse | pushReturn | upsertNew =>
    exact Or.inr ⟨n, hs, hidle (fun hc => by cases hc) (le_refl _)⟩
  | @push k seq hh hlt =>
    refine Or.inr ⟨n, ?_, hidle (fun hc => by cases hc) (le_refl _)⟩
    rcases hs with ⟨pre, post, hq, hn⟩ | hhand
    · refine Or.inl ⟨pre, post ++ [seq], ?_, hn⟩
      show v.queue ++ [seq] = _
      rw [hq, List.append_assoc]
      rfl
    · exact Or.inr hhand
  | @pop d seq queue he hcons hd =>
    have hd' : v.drained = d := by rw [Server.drained, he]
    have hcount : [Action.pop].count (.step none) = 0 := rfl
    obtain ⟨n', rfl, hs'⟩ := hs.pop he hcons
    refine Or.inr ⟨n', hs', ?_⟩
    rw [hcount, hd']
    show 256 * 0 + (d + 1) + n' ≤ d + (n' + 1)
    omega
  | @admitPopped d seq he =>
    have hd' : v.drained = d + 1 := by rw [Server.drained, he]
    rcases hs with ⟨pre, post, hq, hn⟩ | ⟨hhand, -⟩
    · exact Or.inr ⟨n, Or.inl ⟨pre, post, hq, hn⟩, hidle (fun hc => by cases hc) hd'.ge⟩
    · rw [inHand, he, List.singleton_inj] at hhand
      subst hhand
      refine Or.inl (List.mem_map.2 ⟨seq, ?_, rfl⟩)
      rw [Scheduler.mem_sequences]
      exact Or.inl (List.mem_append_right _ (List.mem_singleton.2 rfl))
  | @step d stalled results S' he hd hstep =>
    have hkeep : Ahead s n { v with scheduler := S', engine := .storing results } :=
      hs.imp_right fun hhand => by simp [inHand_of_draining he] at hhand
    refine Or.inr ⟨n, hkeep, ?_⟩
    cases stalled with
    | some k => exact hidle (fun hc => by cases hc) (Nat.zero_le _)
    | none =>
      have hfull := (hs.full he hd).1
      have hcount : [Action.step none].count (.step none) = 1 := rfl
      rw [hcount]
      show 256 * 1 + 0 + n ≤ v.drained + n
      omega
  | store he | again he =>
    refine Or.inr ⟨n, ?_, hidle (fun hc => by cases hc) (Nat.zero_le _)⟩
    exact hs.imp_right fun hhand => by simp [inHand, he] at hhand

theorem drained_step (hd : v.drained ≤ 256) (h : Step clock v a v') : v'.drained ≤ 256 := by
  cases h with
  | pop he hq hlt => exact hlt
  | admitPopped he => rwa [Server.drained, he] at hd
  | step | store | again => exact Nat.zero_le _
  | _ => exact hd

/-- The sequence has been admitted, or the steps of the scheduler are paid for by the sequences
drained from before it. -/
theorem waits {s : Sequence} {n : ℕ} {out : List Action} (hv : Served v) (hs : Ahead s n v)
    (hrun : Trace (Acts clock) v out v') :
    Admitted s.id v' ∨
      ∃ n', Ahead s n' v' ∧ 256 * out.count (.step none) + v'.drained + n' ≤ v.drained + n := by
  let P : List Action → Server → Prop := fun out v' => Served v' ∧ (Admitted s.id v' ∨
    ∃ n', Ahead s n' v' ∧ 256 * out.count (.step none) + v'.drained + n' ≤ v.drained + n)
  have hstep : ∀ out v₁ as v₂, P out v₁ → Acts clock v₁ as v₂ → P (out ++ as) v₂ := by
    intro out v₁ as v₂ hP hact
    obtain ⟨hv₁, hP⟩ := hP
    obtain ⟨a, rfl, ht, hp⟩ := hact
    have hst := step_of_perform hp
    refine ⟨served_step hv₁ ht hst, ?_⟩
    rcases hP with hadm | ⟨n₁, hs₁, hle₁⟩
    · exact Or.inl (admitted_step hv₁.orderly hadm hst)
    · rcases ahead_step hs₁ hst with hadm | ⟨n₂, hs₂, hle₂⟩
      · exact Or.inl hadm
      · refine Or.inr ⟨n₂, hs₂, ?_⟩
        rw [List.count_append]
        omega
  have hinit : P [] v := ⟨hv, Or.inr ⟨n, hs, by simp⟩⟩
  exact (hrun.invariant (P := P) hinit hstep).2

/-- A sequence that has not been admitted is not far back in the queue. -/
theorem Served.ahead {s : Sequence} (hv : Served v) (hs : s ∈ v.queue ++ v.inHand) :
    ∃ n ≤ kIngressQueueCapacity, Ahead s n v := by
  rcases List.mem_append.1 hs with hq | hhand
  · obtain ⟨pre, post, hsplit⟩ := List.append_of_mem hq
    have hlen := hv.bounded
    rw [hsplit, List.length_append, List.length_cons] at hlen
    exact ⟨pre.length + 1, by omega, Or.inl ⟨pre, post, hsplit, rfl⟩⟩
  · refine ⟨0, Nat.zero_le _, Or.inr ⟨?_, rfl⟩⟩
    cases he : v.engine with
    | popped d s' =>
      rw [inHand, he] at hhand ⊢
      rw [List.mem_singleton.1 hhand]
    | draining d | storing rs => simp [inHand, he] at hhand

/-- **A queued sequence is admitted within seventeen steps of the scheduler**, in every run whose
ids are not used up, whatever other requests arrive. A step counts unless a handler in the middle
of its push has cut the drain loop before it short. -/
theorem admitted_within {config : SchedulerConfig} {pt : PagedKVCacheAllocator} {s : Sequence}
    {out : List Action}
    (h : Run clock Issued { scheduler := { pageTable := pt, config := config } } v)
    (hs : s ∈ v.queue ++ v.inHand) (hrun : Trace (Acts clock) v out v')
    (hlong : 17 ≤ out.count (.step none)) : Admitted s.id v' := by
  have hv := served_of_run h
  have hround : v.drained ≤ 256 := by
    refine Stepping.invariant (P := fun v => v.drained ≤ 256) (Nat.zero_le _) ?_ h
    rintro v v' hd ⟨a, -, hp⟩
    exact drained_step hd (step_of_perform hp)
  obtain ⟨n, hn, hahead⟩ := hv.ahead hs
  rw [kIngressQueueCapacity] at hn
  rcases waits hv hahead hrun with hadm | ⟨n', hahead', hle⟩
  · exact hadm
  · have hpos := hahead'.pos
    omega

section Examples

/-- One request, accepted. -/
theorem accepted_served_one : ∃ v : Server, v.handler 0 = .returned (.accepted 1) ∧
    v.arrivedIds = [1] ∧ v.getStatus 1 = some (.found 1 "PREFILL" 0) ∧ v.arrivedIds.Nodup := by
  have hrun : Run (fun _ => 0) Issued small _ :=
    (((ReflTransGen.single ⟨.fetchId 0 [7] 1 0, Nat.two_pow_pos 64, rfl⟩).tail
      ⟨.push 0, trivial, rfl⟩).tail ⟨.pushReturn 0, trivial, rfl⟩).tail
      ⟨.upsertNew 0, trivial, rfl⟩
  exact ⟨_, rfl, rfl, rfl, (accepted_served hrun).2.1⟩

/-- The trace of a list of actions. -/
theorem trace_performAll {Ok : Server → Action → Prop} {v v' : Server} {as : List Action}
    (hok : ∀ v, ∀ a ∈ as, Ok v a) (h : v.performAll as = some v') :
    Trace (fun v as v' => ∃ a, as = [a] ∧ Ok v a ∧ v.perform (fun _ => 0) a = some v') v as v' := by
  induction as generalizing v with
  | nil =>
    obtain rfl := Option.some.inj h
    exact .nil
  | cons a as ih =>
    rw [performAll, List.foldlM_cons] at h
    obtain ⟨v₁, h₁, h⟩ := Option.bind_eq_some_iff.1 h
    have hact : ∃ a', [a] = [a'] ∧ Ok v a' ∧ v.perform (fun _ => 0) a' = some v₁ :=
      ⟨a, rfl, hok v a List.mem_cons_self, h₁⟩
    exact Trace.append (.single hact) (ih (fun v a ha => hok v a (List.mem_cons_of_mem _ ha)) h)

/-- One request in the queue. -/
def waiting : Server := (small.performAll [.fetchId 0 [7] 1 0, .push 0]).get (by decide)

/-- The handler, in the middle of its push, cuts a round short; then the engine drains the sequence
and steps the scheduler seventeen times. -/
def seventeen : List Action :=
  [.step (some 0), .again, .pop, .admitPopped, .step none, .store, .again, .step none, .store,
    .again] ++ (List.replicate 15 [Action.step none, .again]).flatten

theorem admitted_within_one : ∃ v', waiting.performAll seventeen = some v' ∧ Admitted 1 v' := by
  have hrun : Run (fun _ => 0) Issued small waiting :=
    (ReflTransGen.single ⟨.fetchId 0 [7] 1 0, Nat.two_pow_pos 64, rfl⟩).tail
      ⟨.push 0, trivial, rfl⟩
  have hsome : (waiting.performAll seventeen).isSome = true := by decide
  obtain ⟨v', hv'⟩ := Option.isSome_iff_exists.1 hsome
  have hok : ∀ v, ∀ a ∈ seventeen, Issued v a := by
    intro v a ha
    cases a with
    | fetchId => exact absurd ha (by simp [seventeen])
    | _ => trivial
  exact ⟨v', hv', admitted_within (s := Sequence.new 1 [7] 1 0) hrun (by decide)
    (trace_performAll hok hv') (by decide)⟩

end Examples

end Server

end AetherMoE
