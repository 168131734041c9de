import AetherMoE.Core.SchedulerRuns

/-!
# The queues of the scheduler

* `Queued`, `InFlight`, `Retired`: a sequence in the waiting queue, in the active queue, and after
  it has left;
* `Orderly`: every sequence is in one place and in the state that place asks for;
  **`Orderly.turn`**: every turn keeps it;
* `Reachable.induction`: the induction rule for runs of `admit` and `step`;
  **`Orderly.of_reachable`**.
-/

namespace AetherMoE

open Relation PagedKVCacheAllocator

namespace Sequence

/-- The tokens a sequence generates before it retires: at least one. -/
def quota (s : Sequence) : ℕ := max 1 s.maxNewTokens.toNat

/-- A sequence in the waiting queue. -/
structure Queued (s : Sequence) : Prop where
  cursor : s.prefillCursor = 0
  generated : s.generatedTokens = []
  phase : s.phase = .prefill ∨ s.phase = .decode ∧ s.promptTokens = []

/-- An active sequence. -/
def InFlight (s : Sequence) : Prop :=
  s.phase = .prefill ∧ s.prefillCursor < s.promptTokens.length ∧ s.generatedTokens = [] ∨
  s.phase = .decode ∧ s.prefillCursor = s.promptTokens.length ∧
    s.generatedTokens.length < s.quota

/-- A retired sequence. -/
structure Retired (s : Sequence) : Prop where
  phase : s.phase = .finished
  cursor : s.prefillCursor = s.promptTokens.length
  generated : s.generatedTokens.length = s.quota

theorem Queued.ne_finished {s : Sequence} (h : s.Queued) : s.phase ≠ .finished := by
  rcases h.phase with h | ⟨h, -⟩ <;> rw [h] <;> decide

theorem queued_new (seqId : UInt64) (prompt : List UInt32) (maxNew : UInt32) (now : ℤ) :
    (Sequence.new seqId prompt maxNew now).Queued :=
  ⟨rfl, rfl, Or.inl rfl⟩

/-- In the prefill phase there is prompt left. -/
theorem InFlight.prefilling {s : Sequence} (h : s.InFlight) (hp : s.phase = .prefill) :
    s.prefillCursor < s.promptTokens.length ∧ s.generatedTokens = [] := by
  rcases h with ⟨-, h⟩ | ⟨hd, -⟩
  · exact h
  · rw [hp] at hd
    cases hd

/-- In the decode phase there are tokens left to generate. -/
theorem InFlight.decoding {s : Sequence} (h : s.InFlight) (hd : s.phase = .decode) :
    s.prefillCursor = s.promptTokens.length ∧ s.generatedTokens.length < s.quota := by
  rcases h with ⟨hp, -⟩ | ⟨-, h⟩
  · rw [hd] at hp
    cases hp
  · exact h

theorem InFlight.decoded {s : Sequence} (h : s.InFlight) (hp : s.phase = .decode)
    (hmore : ¬ s.LastDecode) (now : ℤ) : (s.decoded now).InFlight := by
  refine Or.inr ⟨hp, (h.decoding hp).1, ?_⟩
  change (s.generatedTokens ++ [kPlaceholderToken]).length < max 1 s.maxNewTokens.toNat
  unfold LastDecode at hmore
  rw [List.length_append, List.length_singleton]
  omega

theorem InFlight.retired {s : Sequence} (h : s.InFlight) (hp : s.phase = .decode)
    (hlast : s.LastDecode) (now : ℤ) : (s.retired now).Retired := by
  obtain ⟨hc, hg⟩ := h.decoding hp
  refine ⟨rfl, hc, ?_⟩
  change (s.generatedTokens ++ [kPlaceholderToken]).length = max 1 s.maxNewTokens.toNat
  change s.generatedTokens.length < max 1 s.maxNewTokens.toNat at hg
  unfold LastDecode at hlast
  rw [List.length_append, List.length_singleton]
  omega

theorem chunk_le (s : Sequence) (config : SchedulerConfig) (budget : ℕ) :
    s.chunk config budget ≤ s.promptTokens.length - s.prefillCursor := min_le_left _ _

/-- A chunk within the prompt leaves the sequence in flight. -/
theorem inFlight_prefilled {s : Sequence} {c : ℕ} (hp : s.phase = .prefill)
    (hg : s.generatedTokens = []) (hc : s.prefillCursor + c ≤ s.promptTokens.length) :
    (s.prefilled c).InFlight := by
  unfold prefilled
  split_ifs with h
  · refine Or.inr ⟨rfl, le_antisymm hc h, ?_⟩
    change s.generatedTokens.length < s.quota
    rw [hg]
    exact lt_max_of_lt_left Nat.zero_lt_one
  · exact Or.inl ⟨hp, not_le.1 h, hg⟩

theorem promptTokens_prefilled (s : Sequence) (c : ℕ) :
    (s.prefilled c).promptTokens = s.promptTokens := by
  unfold prefilled
  split_ifs <;> rfl

theorem maxNewTokens_prefilled (s : Sequence) (c : ℕ) :
    (s.prefilled c).maxNewTokens = s.maxNewTokens := by
  unfold prefilled
  split_ifs <;> rfl

theorem generatedTokens_prefilled (s : Sequence) (c : ℕ) :
    (s.prefilled c).generatedTokens = s.generatedTokens := by
  unfold prefilled
  split_ifs <;> rfl

/-- A reading of sequences that no turn changes. -/
structure Fixed {β : Type} (f : Sequence → β) : Prop where
  decoded : ∀ s now, f (s.decoded now) = f s
  retired : ∀ s now, f (s.retired now) = f s
  readied : ∀ s, f s.readied = f s
  advanced : ∀ s c, f (s.advanced c) = f s

theorem Fixed.prefilled {β : Type} {f : Sequence → β} (hf : Fixed f) (s : Sequence) (c : ℕ) :
    f (s.prefilled c) = f s := by
  unfold Sequence.prefilled
  split_ifs
  · rw [hf.readied, hf.advanced]
  · exact hf.advanced s c

theorem fixed_id : Fixed Sequence.id :=
  ⟨fun _ _ => rfl, fun _ _ => rfl, fun _ => rfl, fun _ _ => rfl⟩

end Sequence

namespace Scheduler

/-! ## The queues -/

/-- What the sequences of a reachable state look like. -/
structure Orderly (S : Scheduler) : Prop where
  nodup : (S.sequences.map Sequence.id).Nodup
  waiting : ∀ s ∈ S.waiting, s.Queued
  active : ∀ s ∈ S.active, s.InFlight
  finished : ∀ s ∈ S.finished, s.Retired

section Turns

variable {clock : ℕ → ℤ} {S S' : Scheduler} {rs : List StepResult}

/-- A turn neither adds nor loses a sequence. -/
theorem Turn.perm {β : Type} {f : Sequence → β} (hf : Sequence.Fixed f) (h : Turn clock S rs S') :
    (S'.sequences.map f).Perm (S.sequences.map f) := by
  rw [← Multiset.coe_eq_coe]
  unfold sequences
  cases h with
  | refuse hs hfit => rfl
  | decode ha hphase hfit hmore => simp [ha, hf.decoded]
  | retire ha hphase hfit hlast =>
    simp only [ha, List.map_append, List.map_cons, List.map_nil, hf.retired,
      ← Multiset.coe_add, ← Multiset.cons_coe, Multiset.coe_nil]
    simp only [← Multiset.singleton_add]
    abel
  | prefill ha hphase hc hchunk hfit => simp [ha, hf.prefilled]
  | ready ha hphase hc => simp [ha, hf.readied]
  | start hw hc hchunk hfit =>
    simp only [hw, List.map_append, List.map_cons, List.map_nil, hf.prefilled,
      ← Multiset.coe_add, ← Multiset.cons_coe, Multiset.coe_nil]
    simp only [← Multiset.singleton_add]
    abel
  | readyFront hw hc => simp [hw, hf.readied]

/-- **Every turn keeps the queues orderly.** -/
theorem Orderly.turn (hS : Orderly S) (h : Turn clock S rs S') : Orderly S' := by
  have hids : (S'.sequences.map Sequence.id).Nodup :=
    (h.perm Sequence.fixed_id).nodup_iff.2 hS.nodup
  cases h with
  | refuse hs hfit => exact { hS with nodup := hids }
  | @decode l r s ha hphase hfit hmore =>
    refine { hS with nodup := hids, active := ?_ }
    have hact := hS.active
    rw [ha, List.forall_mem_append, List.forall_mem_cons] at hact
    change ∀ x ∈ l ++ s.decoded (clock S.ticks) :: r, x.InFlight
    rw [List.forall_mem_append, List.forall_mem_cons]
    exact ⟨hact.1, hact.2.1.decoded hphase hmore _, hact.2.2⟩
  | @retire l r s ha hphase hfit hlast =>
    have hact := hS.active
    rw [ha, List.forall_mem_append, List.forall_mem_cons] at hact
    refine { hS with nodup := hids, active := ?_, finished := ?_ }
    · exact List.forall_mem_append.2 ⟨hact.1, hact.2.2⟩
    · refine List.forall_mem_append.2 ⟨hS.finished, List.forall_mem_singleton.2 ?_⟩
      exact hact.2.1.retired hphase hlast _
  | @prefill l r s ha hphase hc b hchunk hfit =>
    refine { hS with nodup := hids, active := ?_ }
    have hact := hS.active
    rw [ha, List.forall_mem_append, List.forall_mem_cons] at hact
    refine List.forall_mem_append.2 ⟨hact.1, List.forall_mem_cons.2 ⟨?_, hact.2.2⟩⟩
    obtain ⟨hcur, hg⟩ := hact.2.1.prefilling hphase
    refine Sequence.inFlight_prefilled hphase hg ?_
    have := s.chunk_le S.config b
    omega
  | @ready l r s ha hphase hc =>
    have hact := hS.active s (by rw [ha]; simp)
    exact absurd hc (not_le.2 (hact.prefilling hphase).1)
  | @start w s hw hc b hchunk hfit =>
    have hwait := hS.waiting
    rw [hw, List.forall_mem_cons] at hwait
    refine { hS with nodup := hids, waiting := hwait.2, active := ?_ }
    refine List.forall_mem_append.2 ⟨hS.active, List.forall_mem_singleton.2 ?_⟩
    have hcur := hwait.1.cursor
    obtain hp | ⟨-, hnil⟩ := hwait.1.phase
    · refine Sequence.inFlight_prefilled hp hwait.1.generated ?_
      have := s.chunk_le S.config b
      omega
    · refine absurd ?_ hc
      simp [Sequence.prefillComplete, hnil]
  | @readyFront w s hw hc =>
    have hwait := hS.waiting
    rw [hw, List.forall_mem_cons] at hwait
    refine { hS with nodup := hids, waiting := List.forall_mem_cons.2 ⟨?_, hwait.2⟩ }
    refine ⟨hwait.1.cursor, hwait.1.generated, Or.inr ⟨rfl, ?_⟩⟩
    have hlen : s.promptTokens.length ≤ s.prefillCursor := hc
    rw [hwait.1.cursor] at hlen
    exact List.length_eq_zero_iff.1 (Nat.le_zero.1 hlen)

theorem Orderly.nodup_active (hS : Orderly S) : (S.active.map Sequence.id).Nodup := by
  refine hS.nodup.sublist (List.Sublist.map _ ?_)
  exact (List.sublist_append_right _ _).trans (List.sublist_append_left _ _)

/-- The other active sequences have other ids. -/
theorem Orderly.ne_of_split (hS : Orderly S) {l r : List Sequence} {s : Sequence}
    (ha : S.active = l ++ s :: r) : ∀ x ∈ l ++ r, x.id ≠ s.id := by
  have hnd := hS.nodup_active
  rw [ha, List.map_append, List.map_cons, List.nodup_middle, List.nodup_cons] at hnd
  intro x hx hid
  refine hnd.1 ?_
  rw [← List.map_append, ← hid]
  exact List.mem_map_of_mem hx

/-- A waiting sequence has an id that no active one has. -/
theorem Orderly.notMem_active (hS : Orderly S) {s : Sequence} (hs : s ∈ S.waiting) :
    s.id ∉ S.active.map Sequence.id := by
  have hnd := hS.nodup
  rw [sequences, List.append_assoc, List.map_append, List.nodup_append] at hnd
  intro hmem
  refine hnd.2.2 _ (List.mem_map_of_mem hs) _ ?_ rfl
  rw [List.map_append]
  exact List.mem_append_left _ hmem

/-- The sizes never change. -/
theorem Turn.sizes (h : Turn clock S rs S') : S'.pageTable.blockSize = S.pageTable.blockSize ∧
    S'.pageTable.numBlocks = S.pageTable.numBlocks ∧ S'.config = S.config := by
  cases h <;> simp

end Turns

/-! ## Runs -/

section Runs

variable {clock : ℕ → ℤ} {Fresh : Sequence → Prop} {config : SchedulerConfig}
  {pt : PagedKVCacheAllocator} {S S' : Scheduler}

/-- What every turn and every admission keep, every run keeps. -/
theorem Reachable.induction {P : Scheduler → Prop} (hP : ∀ S, P S → Orderly S)
    (hinit : P { pageTable := pt, config := config })
    (hnew : ∀ S s, P S → s.Queued → Fresh s → s.id ∉ S.sequences.map Sequence.id →
      P (S.admitSequence s))
    (hturn : ∀ S rs S', P S → Turn clock S rs S' → P S')
    (h : Reachable clock Fresh config pt S) : P S := by
  refine Stepping.invariant hinit ?_ h
  intro S S' hS hnext
  cases hnext with
  | arrive seqId prompt maxNew now hfresh hid =>
    exact hnew S _ hS (Sequence.queued_new ..) hfresh hid
  | step hstep =>
    have hturns := turns_of_step (fun s hs => ((hP S hS).waiting s hs).ne_finished) hstep
    exact hturns.keeps hturn hS

theorem orderly_init : Orderly { pageTable := pt, config := config } :=
  ⟨List.nodup_nil, List.forall_mem_nil _, List.forall_mem_nil _, List.forall_mem_nil _⟩

theorem Orderly.arrive (hS : Orderly S) {s : Sequence} (hs : s.Queued)
    (hid : s.id ∉ S.sequences.map Sequence.id) : Orderly (S.admitSequence s) := by
  refine { hS with
    nodup := ?_
    waiting := List.forall_mem_append.2 ⟨hS.waiting, List.forall_mem_singleton.2 hs⟩ }
  have hperm : ((S.admitSequence s).sequences.map Sequence.id).Perm
      (s.id :: S.sequences.map Sequence.id) := by
    simp only [admitSequence, sequences, List.append_assoc, List.singleton_append, List.map_append,
      List.map_cons]
    exact List.perm_middle
  exact hperm.nodup_iff.2 (List.nodup_cons.2 ⟨hid, hS.nodup⟩)

/-- The queues are orderly in every run. -/
theorem Orderly.of_reachable (h : Reachable clock Fresh config pt S) : Orderly S :=
  h.induction (fun _ hS => hS) orderly_init (fun _ _ hS hs _ hid => hS.arrive hs hid)
    fun _ _ _ hS ht => hS.turn ht

theorem config_of_reachable (h : Reachable clock Fresh config pt S) : S.config = config := by
  have hP : Orderly S ∧ S.config = config :=
    h.induction (P := fun S => Orderly S ∧ S.config = config) (fun _ hS => hS.1)
      ⟨orderly_init, rfl⟩ (fun _ _ hS hs _ hid => ⟨hS.1.arrive hs hid, hS.2⟩)
      fun _ _ _ hS ht => ⟨hS.1.turn ht, ht.sizes.2.2.trans hS.2⟩
  exact hP.2

/-- A run over sequences that are also in a larger class. -/
theorem Reachable.mono {Fresh' : Sequence → Prop}
    (hF : ∀ seqId prompt maxNew now, Fresh (Sequence.new seqId prompt maxNew now) →
      Fresh' (Sequence.new seqId prompt maxNew now))
    (h : Reachable clock Fresh config pt S) : Reachable clock Fresh' config pt S := by
  refine ReflTransGen.mono ?_ _ _ h
  intro S S' hnext
  cases hnext with
  | arrive seqId prompt maxNew now hfresh hid =>
    exact .arrive seqId prompt maxNew now (hF _ _ _ _ hfresh) hid
  | step hstep => exact .step hstep

/-- A step from a reachable state leads to a reachable state. -/
theorem Reachable.advance (h : Reachable clock Fresh config pt S) :
    Reachable clock Fresh config pt (S.advance clock) := by
  obtain ⟨rs, hok⟩ := step_advance fun s hs => ((Orderly.of_reachable h).waiting s hs).ne_finished
  exact ReflTransGen.tail h (Next.step hok)

end Runs

end Scheduler

end AetherMoE
