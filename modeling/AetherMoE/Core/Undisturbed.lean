import AetherMoE.Core.Progress

/-!
# Decoding is not disturbed by new arrivals

Two runs from one state, of which the second also admits sequences. What the decode loop does with
the sequences in front of `active_` depends on the budget and on them alone.

* `timeless`: a sequence but for the time of its last decode;
* `serve`: what a decode loop with enough memory makes of a list of decoding sequences;
* `Run`: steps whose decode requests are granted, with arrivals between them;
* `Tracks`: the sequences followed are in front of the active ones, or finished;
  **`Tracks.step`**: a step serves them;
* **`decode_undisturbed`**: in both runs they are the same after each step.
-/

namespace AetherMoE

open Sweeping Relation PagedKVCacheAllocator

namespace Sequence

/-- The sequence but for the time of its last decode. -/
def timeless (s : Sequence) : Sequence := { s with lastDecodeAt := 0 }

theorem timeless_decoded (s : Sequence) (now : ℤ) :
    (s.decoded now).timeless = s.timeless.decoded 0 := rfl

theorem timeless_retired (s : Sequence) (now : ℤ) :
    (s.retired now).timeless = s.timeless.retired 0 := rfl

end Sequence

namespace Scheduler

/-! ## The sequences served -/

/-- A decode loop with `budget` tokens and enough memory, over sequences that all decode: those
that stay and those that finish. -/
def serve : ℕ → List Sequence → List Sequence × List Sequence
  | 0, l => (l, [])
  | _ + 1, [] => ([], [])
  | budget + 1, s :: l =>
    let (stay, done) := serve budget l
    if s.maxNewTokens.toNat ≤ s.generatedTokens.length + 1 then (stay, s.retired 0 :: done)
    else (s.decoded 0 :: stay, done)

/-- The sequences that still decode and those that have finished, after `n` such loops. -/
def served (budget : ℕ) (l : List Sequence) : ℕ → List Sequence × List Sequence
  | 0 => (l, [])
  | n + 1 => ((serve budget (served budget l n).1).1,
      (served budget l n).2 ++ (serve budget (served budget l n).1).2)

theorem serve_last {s : Sequence} (h : s.LastDecode) (budget : ℕ) (l : List Sequence) :
    serve (budget + 1) (s :: l) =
      ((serve budget l).1, s.retired 0 :: (serve budget l).2) := by
  rw [serve]
  exact if_pos h

theorem serve_more {s : Sequence} (h : ¬ s.LastDecode) (budget : ℕ) (l : List Sequence) :
    serve (budget + 1) (s :: l) =
      (s.decoded 0 :: (serve budget l).1, (serve budget l).2) := by
  rw [serve]
  exact if_neg h

/-- No sequence gets lost. -/
theorem ids_serve (budget : ℕ) (l : List Sequence) :
    (((serve budget l).1 ++ (serve budget l).2).map Sequence.id).Perm (l.map Sequence.id) := by
  induction l generalizing budget with
  | nil => cases budget <;> exact .refl _
  | cons s l ih =>
    cases budget with
    | zero => rw [serve, List.append_nil]
    | succ budget =>
      have ih := ih budget
      by_cases h : s.LastDecode
      · rw [serve_last h]
        rw [List.map_append] at ih ⊢
        exact List.perm_middle.trans (ih.cons _)
      · rw [serve_more h]
        exact ih.cons _

theorem ids_served (budget : ℕ) (l : List Sequence) (n : ℕ) :
    (((served budget l n).1 ++ (served budget l n).2).map Sequence.id).Perm
      (l.map Sequence.id) := by
  induction n with
  | zero => rw [served, List.append_nil]
  | succ n ih =>
    have hserve := ids_serve budget (served budget l n).1
    rw [← Multiset.coe_eq_coe] at ih hserve ⊢
    simp only [served, List.map_append, ← Multiset.coe_add] at ih hserve ⊢
    rw [← ih, ← hserve]
    abel

/-! ## One step -/

section Loops

variable {clock : ℕ → ℤ} {config : SchedulerConfig} {it it' : Iteration}

/-- Every decode request of the sweep over these sequences is granted. -/
def DecodesGranted (clock : ℕ → ℤ) : List Sequence → Iteration → Prop
  | [], _ => True
  | s :: l, it => it.budget = 0 ∨
      (s.phase = .decode → it.pageTable.Fits s.id (s.totalTokens + 1)) ∧
      ∀ s' it', decodeTurn clock s it = .ok (s', it') → DecodesGranted clock l it'

/-- What has finished stays finished. -/
theorem decodeTurn_finished {s : Sequence} {s' : Option Sequence}
    (h : decodeTurn clock s it = .ok (s', it')) : ∀ f ∈ it.finished, f ∈ it'.finished := by
  intro f hf
  cases decodeTurn_cases h with
  | skip hphase => exact hf
  | refused hphase hfit => exact hf
  | kept hphase hfit hmore => exact hf
  | retired hphase hfit hlast => exact List.mem_append_left _ hf

theorem decodeLoop_finished {l l' : List Sequence}
    (h : sweep exhausted (decodeTurn clock) l it = .ok (l', it')) :
    ∀ f ∈ it.finished, f ∈ it'.finished := by
  intro f hf
  exact sweep_keeps _ _ (Q := fun it => f ∈ it.finished)
    (fun s it s' it' _ hv hf => decodeTurn_finished hv f hf) h hf

/-- **The decode loop serves the sequences in front** out of the budget, whatever comes behind. -/
theorem decodeLoop_serves (p q : List Sequence) {l' : List Sequence}
    (hp : ∀ s ∈ p, s.phase = .decode) (hgrant : DecodesGranted clock (p ++ q) it)
    (h : sweep exhausted (decodeTurn clock) (p ++ q) it = .ok (l', it')) :
    ∃ p' q', l' = p' ++ q' ∧ (∀ s ∈ p', s.phase = .decode) ∧
      p'.map Sequence.timeless = (serve it.budget (p.map Sequence.timeless)).1 ∧
      ∀ d ∈ (serve it.budget (p.map Sequence.timeless)).2,
        ∃ f ∈ it'.finished, f.timeless = d := by
  induction p generalizing it l' with
  | nil =>
    refine ⟨[], l', rfl, List.forall_mem_nil _, ?_, ?_⟩
    · cases it.budget <;> rfl
    · cases it.budget <;> exact List.forall_mem_nil _
  | cons s p ih =>
    rw [List.forall_mem_cons] at hp
    rw [List.cons_append, sweep] at h
    by_cases h0 : it.budget = 0
    · rw [exhausted, h0] at h
      cases h
      rw [h0]
      exact ⟨s :: p, q, rfl, List.forall_mem_cons.2 hp, rfl, List.forall_mem_nil _⟩
    obtain ⟨b, hb⟩ := Nat.exists_eq_succ_of_ne_zero h0
    obtain ⟨hfit, hrest⟩ := hgrant.resolve_left h0
    rw [if_neg (by simpa [exhausted] using h0)] at h
    obtain ⟨⟨s', it₁⟩, hv, h⟩ := bind_eq_ok.1 h
    obtain ⟨⟨l₁, it₂⟩, hl, h⟩ := bind_eq_ok.1 h
    cases h
    have hgrant' := hrest s' it₁ hv
    rw [hb, List.map_cons]
    have hb' : it.budget - 1 = b := by omega
    by_cases hlast : s.LastDecode
    · rw [decodeTurn_retired hp.1 (hfit hp.1) hlast] at hv
      cases hv
      obtain ⟨p', q', rfl, hp', hstay, hdone⟩ := ih hp.2 hgrant' hl
      simp only [decodedIteration, hb'] at hstay hdone
      rw [serve_last (s := s.timeless) hlast]
      refine ⟨p', q', rfl, hp', hstay, List.forall_mem_cons.2 ⟨?_, hdone⟩⟩
      refine ⟨s.retired (clock it.ticks), decodeLoop_finished hl _ ?_, s.timeless_retired _⟩
      exact List.mem_append_right _ (List.mem_singleton_self _)
    · rw [decodeTurn_kept hp.1 (hfit hp.1) hlast] at hv
      cases hv
      obtain ⟨p', q', rfl, hp', hstay, hdone⟩ := ih hp.2 hgrant' hl
      simp only [decodedIteration, hb'] at hstay hdone
      rw [serve_more (s := s.timeless) hlast]
      refine ⟨s.decoded (clock it.ticks) :: p', q', rfl, List.forall_mem_cons.2 ⟨hp.1, hp'⟩, ?_,
        hdone⟩
      rw [List.map_cons, hstay, s.timeless_decoded]

theorem prefillTurn_finished {s : Sequence} {s' : Option Sequence}
    (h : prefillTurn config s it = .ok (s', it')) : it'.finished = it.finished := by
  cases prefillTurn_cases h with
  | skip hphase => rfl
  | complete hphase hc => rfl
  | idle hphase hc hchunk => rfl
  | refused hphase hc hchunk hfit => rfl
  | granted hphase hc hchunk hfit => rfl

/-- The prefill loop passes over the sequences in front that decode. -/
theorem prefillLoop_passes (p q : List Sequence) {l' : List Sequence}
    (hp : ∀ s ∈ p, s.phase = .decode)
    (h : sweep exhausted (prefillTurn config) (p ++ q) it = .ok (l', it')) :
    (∃ q', l' = p ++ q') ∧ it'.finished = it.finished := by
  constructor
  · induction p generalizing it l' with
    | nil => exact ⟨l', rfl⟩
    | cons s p ih =>
      rw [List.forall_mem_cons] at hp
      have hskip : s.phase ≠ .prefill := by rw [hp.1]; decide
      rw [List.cons_append, sweep] at h
      split_ifs at h
      · cases h
        exact ⟨q, rfl⟩
      · rw [prefillTurn_skip hskip] at h
        obtain ⟨_, hv, h⟩ := bind_eq_ok.1 h
        cases hv
        obtain ⟨⟨l₁, it₁⟩, hl, h⟩ := bind_eq_ok.1 h
        cases h
        obtain ⟨q', rfl⟩ := ih hp.2 hl
        exact ⟨q', rfl⟩
  · refine sweep_keeps _ _ (Q := fun it₁ => it₁.finished = it.finished) ?_ h rfl
    intro s it₁ s' it₂ _ hv hit
    exact (prefillTurn_finished hv).trans hit

theorem admitLoop_finished {w w' l : List Sequence}
    (h : admitLoop config w it = .ok (w', l, it')) : it'.finished = it.finished := by
  induction w generalizing it w' l with
  | nil =>
    cases h
    rfl
  | cons s w ih =>
    rw [admitLoop] at h
    split_ifs at h
    · cases h
      rfl
    · obtain ⟨⟨n, t, pt⟩, -, h⟩ := bind_eq_ok.1 h
      dsimp only at h
      split_ifs at h
      · cases h
        rfl
      · obtain ⟨⟨w₁, l₁, it₁⟩, hrun, h⟩ := bind_eq_ok.1 h
        cases h
        exact (ih hrun).trans rfl

end Loops

/-! ## Runs -/

/-- `n` steps from `S₀` whose decode requests are all granted, with any number of fresh sequences
of the class `Fresh` admitted between them. -/
inductive Run (clock : ℕ → ℤ) (Fresh : Sequence → Prop) (S₀ : Scheduler) : ℕ → Scheduler → Prop
  | start : Run clock Fresh S₀ 0 S₀
  | arrive {n : ℕ} {S : Scheduler} (h : Run clock Fresh S₀ n S) (seqId : UInt64)
      (prompt : List UInt32) (maxNew : UInt32) (now : ℤ)
      (hfresh : Fresh (Sequence.new seqId prompt maxNew now))
      (hid : seqId ∉ S.sequences.map Sequence.id) :
      Run clock Fresh S₀ n (S.admitSequence (Sequence.new seqId prompt maxNew now))
  | step {n : ℕ} {S S' : Scheduler} {rs : List StepResult} (h : Run clock Fresh S₀ n S)
      (hgrant : DecodesGranted clock S.active
        { S.toMachine with budget := S.config.maxBatchTokens })
      (hok : S.step clock = .ok (rs, S')) : Run clock Fresh S₀ (n + 1) S'

/-- The sequences `still` are in front of the active ones and decode; the sequences `done` have
finished. -/
structure Tracks (still done : List Sequence) (S : Scheduler) : Prop where
  front : ∃ p q, S.active = p ++ q ∧ (∀ s ∈ p, s.phase = .decode) ∧
    p.map Sequence.timeless = still
  finished : ∀ d ∈ done, ∃ f ∈ S.finished, f.timeless = d

section Runs

variable {clock : ℕ → ℤ} {Fresh : Sequence → Prop} {config : SchedulerConfig}
  {pt : PagedKVCacheAllocator} {still done : List Sequence} {S₀ S S' : Scheduler}
  {rs : List StepResult} {n : ℕ}

/-- **A step serves the sequences in front.** -/
theorem Tracks.step (hS : Tracks still done S)
    (hgrant : DecodesGranted clock S.active { S.toMachine with budget := S.config.maxBatchTokens })
    (hok : S.step clock = .ok (rs, S')) :
    Tracks (serve S.config.maxBatchTokens still).1
      (done ++ (serve S.config.maxBatchTokens still).2) S' := by
  obtain ⟨a₁, it₁, a₂, it₂, w, ad, it₃, h₁, h₂, h₃, rfl, rfl⟩ := loops_of_step hok
  obtain ⟨p, q, hact, hp, rfl⟩ := hS.front
  rw [hact] at h₁ hgrant
  obtain ⟨p', q', rfl, hp', hstay, hdone⟩ := decodeLoop_serves p q hp hgrant h₁
  obtain ⟨⟨q'', rfl⟩, hfin₂⟩ := prefillLoop_passes p' q' hp' h₂
  have hfin : it₃.finished = it₁.finished := (admitLoop_finished h₃).trans hfin₂
  refine ⟨⟨p', q'' ++ ad, List.append_assoc _ _ _, hp', hstay⟩, ?_⟩
  change ∀ d ∈ done ++ _, ∃ f ∈ it₃.finished, f.timeless = d
  rw [hfin, List.forall_mem_append]
  refine ⟨fun d hd => ?_, hdone⟩
  obtain ⟨f, hf, hfd⟩ := hS.finished d hd
  exact ⟨f, decodeLoop_finished h₁ f hf, hfd⟩

theorem config_step (hok : S.step clock = .ok (rs, S')) : S'.config = S.config := by
  obtain ⟨a₁, it₁, a₂, it₂, w, ad, it₃, h₁, h₂, h₃, rfl, rfl⟩ := loops_of_step hok
  rfl

/-- The run lemma. -/
theorem Run.tracks (hS₀ : Orderly S₀) (hdec : ∀ s ∈ S₀.active, s.phase = .decode)
    (h : Run clock Fresh S₀ n S) :
    Orderly S ∧ S.config = S₀.config ∧
      Tracks (served S₀.config.maxBatchTokens (S₀.active.map Sequence.timeless) n).1
        (served S₀.config.maxBatchTokens (S₀.active.map Sequence.timeless) n).2 S := by
  induction h with
  | start =>
    refine ⟨hS₀, rfl, ⟨S₀.active, [], (List.append_nil _).symm, hdec, rfl⟩, ?_⟩
    exact List.forall_mem_nil _
  | arrive h seqId prompt maxNew now hfresh hid ih =>
    obtain ⟨hord, hcfg, htrack⟩ := ih
    exact ⟨hord.arrive (Sequence.queued_new ..) hid, hcfg, htrack.front, htrack.finished⟩
  | @step n S S' rs h hgrant hok ih =>
    obtain ⟨hord, hcfg, htrack⟩ := ih
    have hturns := turns_of_step (fun s hs => (hord.waiting s hs).ne_finished) hok
    refine ⟨?_, (config_step hok).trans hcfg, ?_⟩
    · exact hturns.keeps (fun _ _ _ hT ht => hT.turn ht) hord
    · have hnext := htrack.step hgrant hok
      rw [hcfg] at hnext
      exact hnext

/-- A followed sequence is still there. -/
theorem Tracks.exists_mem (hS : Tracks still done S) {v : Sequence} (hv : v ∈ still ++ done) :
    ∃ s ∈ S.sequences, s.timeless = v := by
  obtain ⟨p, q, hact, -, rfl⟩ := hS.front
  rcases List.mem_append.1 hv with hv | hv
  · obtain ⟨s, hs, rfl⟩ := List.mem_map.1 hv
    exact ⟨s, by simp [sequences, hact, hs], rfl⟩
  · obtain ⟨f, hf, rfl⟩ := hS.finished v hv
    exact ⟨f, by simp [sequences, hf], rfl⟩

/-- **In-flight decode is not disturbed**: from any reachable state in which every active sequence
decodes, take `n` steps, and take `n` steps with any sequences admitted between them, neither run
being refused memory for a decode. Then every sequence that was active at the start is in both
final states, in the same phase and with the same generated tokens. -/
theorem decode_undisturbed {clock₁ clock₂ : ℕ → ℤ} {S₁ S₂ : Scheduler}
    (h₀ : Reachable clock (fun _ => True) config pt S₀)
    (hdec : ∀ s ∈ S₀.active, s.phase = .decode)
    (h₁ : Run clock₁ (fun _ => False) S₀ n S₁) (h₂ : Run clock₂ (fun _ => True) S₀ n S₂) :
    ∀ s ∈ S₀.active,
      (∃ s₁ ∈ S₁.sequences, s₁.id = s.id) ∧ (∃ s₂ ∈ S₂.sequences, s₂.id = s.id) ∧
      ∀ s₁ ∈ S₁.sequences, s₁.id = s.id → ∀ s₂ ∈ S₂.sequences, s₂.id = s.id →
        s₁.phase = s₂.phase ∧ s₁.generatedTokens = s₂.generatedTokens := by
  intro s hs
  have hS₀ := Orderly.of_reachable h₀
  obtain ⟨hord₁, -, htrack₁⟩ := h₁.tracks hS₀ hdec
  obtain ⟨hord₂, -, htrack₂⟩ := h₂.tracks hS₀ hdec
  obtain ⟨v, hv, hvid⟩ := List.mem_map.1
    ((ids_served S₀.config.maxBatchTokens (S₀.active.map Sequence.timeless) n).symm.subset
      (List.mem_map_of_mem (List.mem_map_of_mem hs)))
  obtain ⟨t₁, ht₁, hv₁⟩ := htrack₁.exists_mem hv
  obtain ⟨t₂, ht₂, hv₂⟩ := htrack₂.exists_mem hv
  have hid₁ : t₁.id = s.id := (congrArg Sequence.id hv₁).trans hvid
  have hid₂ : t₂.id = s.id := (congrArg Sequence.id hv₂).trans hvid
  refine ⟨⟨t₁, ht₁, hid₁⟩, ⟨t₂, ht₂, hid₂⟩, ?_⟩
  intro s₁ hs₁ hs₁id s₂ hs₂ hs₂id
  obtain rfl := List.inj_on_of_nodup_map hord₁.nodup hs₁ ht₁ (hs₁id.trans hid₁.symm)
  obtain rfl := List.inj_on_of_nodup_map hord₂.nodup hs₂ ht₂ (hs₂id.trans hid₂.symm)
  have heq : s₁.timeless = s₂.timeless := hv₁.trans hv₂.symm
  have hphase : s₁.timeless.phase = s₂.timeless.phase := by rw [heq]
  have hgen : s₁.timeless.generatedTokens = s₂.timeless.generatedTokens := by rw [heq]
  exact ⟨hphase, hgen⟩

end Runs

section Examples

/-- One sequence, with its prompt prefilled, out of four blocks of one token. -/
def decoding : Scheduler :=
  (({ pageTable := (create 1 4).get isSome_create_four,
      config := ⟨2, 2⟩ } : Scheduler).admitSequence (Sequence.new 1 [7] 2 0)).advance fun _ => 0

/-- The same with a second sequence waiting. -/
def decodingAndWaiting : Scheduler := decoding.admitSequence (Sequence.new 2 [8] 1 0)

theorem reachable_decoding :
    Reachable (fun _ => 0) (fun _ => True) ⟨2, 2⟩ ((create 1 4).get isSome_create_four) decoding :=
  Reachable.advance (ReflTransGen.single (.arrive 1 [7] 2 0 trivial List.not_mem_nil))

/-- The second sequence is prefilled in the step in which the first decodes. -/
theorem decode_undisturbed_arrival : ∃ S₁ S₂, decoding.active ≠ [] ∧
    Run (fun _ => 0) (fun _ => False) decoding 1 S₁ ∧
    Run (fun _ => 5) (fun _ => True) decoding 1 S₂ ∧ S₂.active.length = 2 ∧
    ∀ s ∈ decoding.active,
      (∃ s₁ ∈ S₁.sequences, s₁.id = s.id) ∧ (∃ s₂ ∈ S₂.sequences, s₂.id = s.id) ∧
      ∀ s₁ ∈ S₁.sequences, s₁.id = s.id → ∀ s₂ ∈ S₂.sequences, s₂.id = s.id →
        s₁.phase = s₂.phase ∧ s₁.generatedTokens = s₂.generatedTokens := by
  have h₁ : Run (fun _ => 0) (fun _ => False) decoding 1 (decoding.advance fun _ => 0) :=
    .step .start (.inr ⟨fun _ => by decide, fun _ _ _ => trivial⟩) rfl
  have h₂ : Run (fun _ => 5) (fun _ => True) decoding 1 (decodingAndWaiting.advance fun _ => 5) :=
    .step (.arrive .start 2 [8] 1 0 trivial (by decide))
      (.inr ⟨fun _ => by decide, fun _ _ _ => trivial⟩) rfl
  exact ⟨_, _, by decide, h₁, h₂, by decide,
    decode_undisturbed reachable_decoding (by decide) h₁ h₂⟩

end Examples

end Scheduler

end AetherMoE
