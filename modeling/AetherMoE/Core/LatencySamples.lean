import AetherMoE.Core.Reports
import AetherMoE.Core.Telemetry
import AetherMoE.Lib.Gaps
import Mathlib.Data.Int.ConditionallyCompleteOrder

/-!
# The latency samples of a run

A decode reads the clock once, records the time since admission or since the last decode, and
remembers the reading.

* `stamps`: one TTFT sample and then inter-token samples;
* `Stamped`: the samples of a sequence are the gaps between its readings of the clock;
* `Clocked`, **`Clocked.turn`**: those of every sequence, through every turn;
* `Undropped`, `pushed_of_undropped`: a recorder that is enabled throughout and drops nothing has
  pushed what was recorded;
* **`samples_telescope`**.
-/

namespace AetherMoE

open Relation Stepping Telescoping PagedKVCacheAllocator

/-! ## Samples -/

/-- A count of nanoseconds, a signed 64-bit word. -/
def Nanoseconds (t : ℤ) : Prop := -2 ^ 63 ≤ t ∧ t < 2 ^ 63

namespace MetricSample

/-- A latency that is not negative is recorded as it is. -/
theorem latency_record (seqId : UInt64) (kind : MetricKind) {d : ℤ} (h0 : 0 ≤ d)
    (hlt : d < 2 ^ 64) : ((record seqId kind d).latencyNs.toNat : ℤ) = d := by
  change ((UInt64.ofNat (d % 2 ^ 64).toNat).toNat : ℤ) = d
  rw [Int.emod_eq_of_lt h0 hlt, UInt64.toNat_ofNat']
  omega

/-- One sample for each latency: time to first token, then inter-token latencies. -/
def stamps (seqId : UInt64) : List ℤ → List MetricSample
  | [] => []
  | d :: ds => record seqId .ttft d :: ds.map (record seqId .interToken)

theorem stamps_concat (seqId : UInt64) (ds : List ℤ) (d : ℤ) :
    stamps seqId (ds ++ [d]) = stamps seqId ds ++
      [record seqId (if ds.isEmpty then .ttft else .interToken) d] := by
  cases ds with
  | nil => rfl
  | cons e ds => simp [stamps]

/-- The kinds of the samples of a sequence with `g` generated tokens. -/
def kinds : ℕ → List MetricKind
  | 0 => []
  | g + 1 => .ttft :: List.replicate g .interToken

theorem kind_stamps (seqId : UInt64) (ds : List ℤ) :
    (stamps seqId ds).map kind = kinds ds.length := by
  cases ds with
  | nil => rfl
  | cons d ds =>
    simp only [stamps, kinds, List.map_cons, List.map_map, List.length_cons]
    exact congrArg _ (List.map_const' ..)

theorem latencies_stamps (seqId : UInt64) {ds : List ℤ} (h : ∀ d ∈ ds, 0 ≤ d ∧ d < 2 ^ 64) :
    (stamps seqId ds).map (fun x => (x.latencyNs.toNat : ℤ)) = ds := by
  cases ds with
  | nil => rfl
  | cons d ds =>
    obtain ⟨hd, hds⟩ := List.forall_mem_cons.1 h
    simp only [stamps, List.map_cons, List.map_map]
    rw [latency_record seqId .ttft hd.1 hd.2]
    refine congrArg _ ((List.map_congr_left fun e he => ?_).trans (List.map_id ds))
    exact latency_record seqId .interToken (hds e he).1 (hds e he).2

end MetricSample

namespace Scheduler

open MetricSample

/-- The samples of one sequence. -/
def samplesOf (seqId : UInt64) (samples : List MetricSample) : List MetricSample :=
  samples.filter fun x => x.seqId = seqId

/-! ## One sequence -/

/-- What the latencies of a sequence depend on. -/
def timing (s : Sequence) : UInt64 × List UInt32 × ℤ × ℤ :=
  (s.id, s.generatedTokens, s.admittedAt, s.lastDecodeAt)

theorem timing_prefilled (s : Sequence) (c : ℕ) : timing (s.prefilled c) = timing s := by
  unfold Sequence.prefilled
  split_ifs <;> rfl

/-- After `n` readings of the clock, the samples of `s` are the gaps between its admission and the
readings `ticks`, one for each generated token. -/
structure Stamped (clock : ℕ → ℤ) (n : ℕ) (recorded : List MetricSample) (s : Sequence)
    (ticks : List ℕ) : Prop where
  count : ticks.length = s.generatedTokens.length
  increasing : ticks.Pairwise (· < ·)
  past : ∀ k ∈ ticks, k < n
  samples : samplesOf s.id recorded = stamps s.id (gaps s.admittedAt (ticks.map clock))
  last : s.generatedTokens ≠ [] → s.lastDecodeAt = (ticks.map clock).getLastD s.admittedAt
  admitted : ∀ k, k ∈ ticks ∨ n ≤ k → s.admittedAt ≤ clock k
  range : Nanoseconds s.admittedAt

section Stamps

variable {clock : ℕ → ℤ} {n : ℕ} {recorded : List MetricSample} {s s' : Sequence} {ticks : List ℕ}

theorem Stamped.congr (h : Stamped clock n recorded s ticks) (ht : timing s' = timing s) :
    Stamped clock n recorded s' ticks := by
  simp only [timing, Prod.mk.injEq] at ht
  obtain ⟨hid, hgen, hadm, hlast⟩ := ht
  constructor
  · rw [hgen]
    exact h.count
  · exact h.increasing
  · exact h.past
  · rw [hid, hadm]
    exact h.samples
  · rw [hgen, hlast, hadm]
    exact h.last
  · rw [hadm]
    exact h.admitted
  · rw [hadm]
    exact h.range

/-- The decode of another sequence. -/
theorem Stamped.other (h : Stamped clock n recorded s ticks) {x : MetricSample}
    (hx : x.seqId ≠ s.id) : Stamped clock (n + 1) (recorded ++ [x]) s ticks := by
  refine { h with past := ?_, samples := ?_, admitted := ?_ }
  · exact fun k hk => (h.past k hk).trans (Nat.lt_succ_self n)
  · rw [samplesOf, List.filter_append, List.filter_singleton, decide_eq_false hx]
    exact (List.append_nil _).trans h.samples
  · rintro k (hk | hk)
    · exact h.admitted k (Or.inl hk)
    · exact h.admitted k (Or.inr (Nat.le_of_succ_le hk))

/-- The sample of a decode is the gap since the last reading. -/
theorem Stamped.decodeSample_eq (h : Stamped clock n recorded s ticks) (now : ℤ) :
    s.decodeSample now = record s.id
      (if (gaps s.admittedAt (ticks.map clock)).isEmpty then .ttft else .interToken)
      (now - (ticks.map clock).getLastD s.admittedAt) := by
  have hcount := h.count
  unfold Sequence.decodeSample
  cases hg : s.generatedTokens with
  | nil =>
    have hnil : ticks = [] := List.length_eq_zero_iff.1 (by rw [hcount, hg]; rfl)
    rw [hnil]
    rfl
  | cons t ts =>
    have hne : ticks ≠ [] := by
      intro h0
      rw [h0, hg] at hcount
      cases hcount
    rw [← h.last (by rw [hg]; exact List.cons_ne_nil t ts)]
    cases ticks with
    | nil => exact absurd rfl hne
    | cons k ks => rfl

/-- **A decode** at the reading `n`. -/
theorem Stamped.decoded (h : Stamped clock n recorded s ticks) :
    Stamped clock (n + 1) (recorded ++ [s.decodeSample (clock n)]) (s.decoded (clock n))
      (ticks ++ [n]) := by
  have hid : (s.decodeSample (clock n)).seqId = s.id := by
    rw [h.decodeSample_eq]
    rfl
  constructor
  · simp [Sequence.decoded, h.count]
  · rw [List.pairwise_append]
    refine ⟨h.increasing, List.pairwise_singleton _ _, fun k hk j hj => ?_⟩
    rw [List.mem_singleton.1 hj]
    exact h.past k hk
  · refine List.forall_mem_append.2
      ⟨fun k hk => ?_, List.forall_mem_singleton.2 (Nat.lt_succ_self n)⟩
    exact (h.past k hk).trans (Nat.lt_succ_self n)
  · change samplesOf s.id _ = stamps s.id (gaps s.admittedAt _)
    rw [samplesOf, List.filter_append, List.filter_singleton, decide_eq_true hid]
    rw [List.map_append, List.map_singleton, gaps_concat, stamps_concat, ← h.decodeSample_eq]
    exact congrArg (· ++ _) h.samples
  · intro _
    rw [List.map_append, List.map_singleton, List.getLastD_concat]
    rfl
  · rintro k (hk | hk)
    · obtain hk | hk := List.mem_append.1 hk
      · exact h.admitted k (Or.inl hk)
      · rw [List.mem_singleton.1 hk]
        exact h.admitted n (Or.inr le_rfl)
    · exact h.admitted k (Or.inr (Nat.le_of_succ_le hk))
  · exact h.range

end Stamps

/-! ## A turn -/

section Turns

variable {clock : ℕ → ℤ} {S S' : Scheduler} {rs : List StepResult}

/-- What a turn does to the clock, the samples and the times of the sequences: nothing, or one
decode. -/
inductive Timing (clock : ℕ → ℤ) (S S' : Scheduler) : Prop
  | unread (hticks : S'.ticks = S.ticks) (hrec : S'.recorded = S.recorded)
      (hseq : ∀ s' ∈ S'.sequences, ∃ s ∈ S.sequences, timing s' = timing s)
  | decoded (s : Sequence) (hs : s ∈ S.sequences) (hticks : S'.ticks = S.ticks + 1)
      (hrec : S'.recorded = S.recorded ++ [s.decodeSample (clock S.ticks)])
      (hseq : ∀ s' ∈ S'.sequences, timing s' = timing (s.decoded (clock S.ticks)) ∨
        s' ∈ S.sequences ∧ s'.id ≠ s.id)

/-- A turn that replaces a sequence by one with the same times. -/
theorem Replaces.unread {s s' : Sequence} (h : Replaces S S' s s') (ht : timing s' = timing s)
    (hticks : S'.ticks = S.ticks) (hrec : S'.recorded = S.recorded) : Timing clock S S' := by
  refine .unread hticks hrec fun x hx => ?_
  obtain rfl | hx := h.new x hx
  · exact ⟨s, h.mem, ht⟩
  · exact ⟨x, hx, rfl⟩

/-- A turn that replaces a sequence by one with the times of a decode. -/
theorem Replaces.decoded (hS' : Orderly S') {s s' : Sequence} (h : Replaces S S' s s')
    (ht : timing s' = timing (s.decoded (clock S.ticks))) (hticks : S'.ticks = S.ticks + 1)
    (hrec : S'.recorded = S.recorded ++ [s.decodeSample (clock S.ticks)]) :
    Timing clock S S' := by
  refine .decoded s h.mem hticks hrec fun x hx => ?_
  by_cases hxs : x = s'
  · rw [hxs]
    exact Or.inl ht
  · refine Or.inr ⟨(h.new x hx).resolve_left hxs, fun hid => hxs ?_⟩
    exact hS'.eq_of_id hx h.mem' (hid.trans h.id.symm)

theorem Turn.timing (hS : Orderly S) (h : Turn clock S rs S') : Timing clock S S' := by
  have hS' := hS.turn h
  cases h with
  | refuse hs hfit => exact .unread rfl rfl fun s hs => ⟨s, hs, rfl⟩
  | decode ha hphase hfit hmore =>
    exact Replaces.decoded hS' (replaces_active ha rfl rfl rfl rfl) rfl rfl rfl
  | retire ha hphase hfit hlast =>
    exact Replaces.decoded hS' (replaces_retired ha rfl rfl rfl rfl) rfl rfl rfl
  | prefill ha hphase hc hchunk hfit =>
    exact Replaces.unread (replaces_active ha rfl rfl rfl (Sequence.id_prefilled ..))
      (timing_prefilled ..) rfl rfl
  | ready ha hphase hc =>
    exact Replaces.unread (replaces_active ha rfl rfl rfl rfl) rfl rfl rfl
  | start hw hc hchunk hfit =>
    exact Replaces.unread (replaces_started hw rfl rfl rfl (Sequence.id_prefilled ..))
      (timing_prefilled ..) rfl rfl
  | readyFront hw hc =>
    exact Replaces.unread (replaces_front hw rfl rfl rfl rfl) rfl rfl rfl

/-- **The samples of every sequence are stamped**, and there are no others. -/
structure Clocked (clock : ℕ → ℤ) (S : Scheduler) : Prop extends Orderly S where
  stamped : ∀ s ∈ S.sequences, ∃ ticks, Stamped clock S.ticks S.recorded s ticks
  known : ∀ x ∈ S.recorded, x.seqId ∈ S.sequences.map Sequence.id

theorem Clocked.turn (hS : Clocked clock S) (h : Turn clock S rs S') : Clocked clock S' := by
  have hids := h.perm Sequence.fixed_id
  cases h.timing hS.toOrderly with
  | unread hticks hrec hseq =>
    refine ⟨hS.toOrderly.turn h, fun s' hs' => ?_, fun x hx => ?_⟩
    · obtain ⟨s, hs, ht⟩ := hseq s' hs'
      obtain ⟨ticks, hst⟩ := hS.stamped s hs
      rw [hticks, hrec]
      exact ⟨ticks, hst.congr ht⟩
    · rw [hrec] at hx
      exact hids.mem_iff.2 (hS.known x hx)
  | decoded s hs hticks hrec hseq =>
    obtain ⟨ticks, hst⟩ := hS.stamped s hs
    have hid : (s.decodeSample (clock S.ticks)).seqId = s.id := by
      rw [hst.decodeSample_eq]
      rfl
    refine ⟨hS.toOrderly.turn h, fun s' hs' => ?_, fun x hx => ?_⟩
    · rw [hticks, hrec]
      obtain ht | ⟨hold, hne⟩ := hseq s' hs'
      · exact ⟨ticks ++ [S.ticks], hst.decoded.congr ht⟩
      · obtain ⟨ticks', hst'⟩ := hS.stamped s' hold
        exact ⟨ticks', hst'.other (hid ▸ hne.symm)⟩
    · rw [hrec] at hx
      refine hids.mem_iff.2 ?_
      obtain hx | hx := List.mem_append.1 hx
      · exact hS.known x hx
      · rw [List.mem_singleton.1 hx, hid]
        exact List.mem_map_of_mem hs

end Turns

/-! ## Runs -/

/-- One call on a running clock: `admit` of a fresh sequence with an unused id, constructed no later
than the next reading, or `step`. -/
inductive ClockedCall (clock : ℕ → ℤ) : Scheduler → Scheduler → Prop
  | arrive {S : Scheduler} (seqId : UInt64) (prompt : List UInt32) (maxNew : UInt32) (now : ℤ)
      (hid : seqId ∉ S.sequences.map Sequence.id) (hnow : now ≤ clock S.ticks)
      (hrange : Nanoseconds now) :
      ClockedCall clock S (S.admitSequence (Sequence.new seqId prompt maxNew now))
  | step {S S' : Scheduler} {rs : List StepResult} (h : S.step clock = .ok (rs, S')) :
      ClockedCall clock S S'

section Runs

variable {clock : ℕ → ℤ} {config : SchedulerConfig} {pt : PagedKVCacheAllocator} {S : Scheduler}

theorem Clocked.arrive (hmono : Monotone clock) (hS : Clocked clock S) (seqId : UInt64)
    (prompt : List UInt32) (maxNew : UInt32) {now : ℤ}
    (hid : seqId ∉ S.sequences.map Sequence.id) (hnow : now ≤ clock S.ticks)
    (hrange : Nanoseconds now) :
    Clocked clock (S.admitSequence (Sequence.new seqId prompt maxNew now)) := by
  have hmem : ∀ x, x ∈ (S.admitSequence (Sequence.new seqId prompt maxNew now)).sequences ↔
      x ∈ S.sequences ∨ x = Sequence.new seqId prompt maxNew now := by
    intro x
    simp only [mem_sequences, admitSequence, List.mem_append, List.mem_singleton]
    tauto
  refine ⟨hS.toOrderly.arrive (Sequence.queued_new ..) hid, fun s hs => ?_, fun x hx => ?_⟩
  · obtain hs | rfl := (hmem s).1 hs
    · exact hS.stamped s hs
    · refine ⟨[], rfl, List.Pairwise.nil, List.forall_mem_nil _, ?_, fun h => absurd rfl h, ?_,
        hrange⟩
      · refine List.filter_eq_nil_iff.2 fun x hx hxid => hid ?_
        have hseq : x.seqId = seqId := of_decide_eq_true hxid
        rw [← hseq]
        exact hS.known x hx
      · rintro k (hk | hk)
        · cases hk
        · exact hnow.trans (hmono hk)
  · obtain ⟨s, hs, hsid⟩ := List.mem_map.1 (hS.known x hx)
    exact List.mem_map.2 ⟨s, (hmem s).2 (Or.inl hs), hsid⟩

/-- The run lemma. -/
theorem clocked_of_calls (hmono : Monotone clock)
    (h : ReflTransGen (ClockedCall clock) { pageTable := pt, config := config } S) :
    Clocked clock S := by
  refine invariant (P := Clocked clock)
    ⟨orderly_init, List.forall_mem_nil _, List.forall_mem_nil _⟩ ?_ h
  intro S S' hS hcall
  cases hcall with
  | arrive seqId prompt maxNew now hid hnow hrange =>
    exact hS.arrive hmono seqId prompt maxNew hid hnow hrange
  | step hstep =>
    have hturns := turns_of_step (fun s hs => (hS.waiting s hs).ne_finished) hstep
    exact hturns.keeps (fun _ _ _ hT ht => hT.turn ht) hS

/-- The samples of the sequence `s` telescope. -/
structure Telescopes (clock : ℕ → ℤ) (s : Sequence) (samples : List MetricSample) : Prop where
  /-- One TTFT sample and then inter-token samples, one sample for each generated token. -/
  kinds : samples.map MetricSample.kind = MetricSample.kinds s.generatedTokens.length
  /-- The latencies are the gaps between the admission and consecutive readings of the clock. -/
  latencies : ∃ ticks : List ℕ, ticks.Pairwise (· < ·) ∧
    samples.map (fun x => (x.latencyNs.toNat : ℤ)) = gaps s.admittedAt (ticks.map clock)
  /-- They add up to the time from the admission to the last decode. -/
  total : s.generatedTokens ≠ [] →
    (samples.map fun x => (x.latencyNs.toNat : ℤ)).sum = s.lastDecodeAt - s.admittedAt

theorem Stamped.telescopes {n : ℕ} {recorded : List MetricSample} {s : Sequence} {ticks : List ℕ}
    (h : Stamped clock n recorded s ticks) (hmono : Monotone clock)
    (hrange : ∀ k, Nanoseconds (clock k)) : Telescopes clock s (samplesOf s.id recorded) := by
  have hsorted : (s.admittedAt :: ticks.map clock).Pairwise (· ≤ ·) := by
    refine List.pairwise_cons.2 ⟨fun t ht => ?_, ?_⟩
    · obtain ⟨k, hk, rfl⟩ := List.mem_map.1 ht
      exact h.admitted k (Or.inl hk)
    · exact List.pairwise_map.2 (h.increasing.imp fun hlt => hmono hlt.le)
  have htimes : ∀ t ∈ s.admittedAt :: ticks.map clock, Nanoseconds t := by
    refine List.forall_mem_cons.2 ⟨h.range, fun t ht => ?_⟩
    obtain ⟨k, -, rfl⟩ := List.mem_map.1 ht
    exact hrange k
  -- the difference of two signed words that is not negative fits an unsigned one
  have hgaps : ∀ d ∈ gaps s.admittedAt (ticks.map clock), 0 ≤ d ∧ d < 2 ^ 64 := by
    intro d hd
    refine ⟨gaps_nonneg hsorted d hd, ?_⟩
    obtain ⟨a, ha, b, hb, rfl⟩ := mem_gaps hd
    have hlow := (htimes a ha).1
    have hhigh := (htimes b (List.mem_cons_of_mem _ hb)).2
    omega
  have hlat := latencies_stamps s.id hgaps
  rw [← h.samples] at hlat
  refine ⟨?_, ⟨ticks, h.increasing, hlat⟩, fun hg => ?_⟩
  · rw [h.samples, kind_stamps, length_gaps, List.length_map, h.count]
  · rw [hlat, sum_gaps, h.last hg]

end Runs

end Scheduler

/-! ## The recorder -/

namespace Telemetry

open Fifo

variable {τ φ : Type} [DecidableEq φ]

/-- A run of recorder calls that records `samples`, in this order, between the calls of flushers,
with telemetry enabled throughout and no sample dropped. -/
structure Undropped (samples : List MetricSample) (calls : List (Call τ φ)) (s₀ : State φ)
    (marks : List (List (Mark φ))) : Prop where
  enabled : s₀.enabled = true
  unswitched : ∀ call ∈ calls, call.switch true = true
  recorded : calls.filterMap Call.sample? = samples
  run : ∃ s, runAll perform calls s₀ = some (marks, s)
  undropped : marks.flatten.filterMap Mark.dropped? = []

omit [DecidableEq φ] in
theorem recordedWhileEnabled_of_unswitched {calls : List (Call τ φ)}
    (h : ∀ call ∈ calls, call.switch true = true) :
    recordedWhileEnabled true calls = calls.filterMap Call.sample? := by
  induction calls with
  | nil => rfl
  | cons call calls ih =>
    obtain ⟨hcall, hcalls⟩ := List.forall_mem_cons.1 h
    rw [recordedWhileEnabled, hcall, ih hcalls, if_pos rfl, List.filterMap_cons]
    cases call.sample? <;> rfl

omit [DecidableEq φ] in
theorem pushed_eq_recorded {marks : List (Mark φ)} (h : marks.filterMap Mark.dropped? = []) :
    marks.filterMap Mark.pushed? = marks.filterMap Mark.recorded? := by
  refine List.Sublist.eq_of_length (pushed_sublist_recorded marks) ?_
  rw [length_recorded, h]
  rfl

/-- What has been pushed is what was recorded. -/
theorem pushed_of_undropped {samples : List MetricSample} {calls : List (Call τ φ)} {s₀ : State φ}
    {marks : List (List (Mark φ))} (h : Undropped samples calls s₀ marks) :
    marks.flatten.filterMap Mark.pushed? = samples := by
  obtain ⟨s, hrun⟩ := h.run
  rw [pushed_eq_recorded h.undropped, ← recorded_run hrun, h.enabled,
    recordedWhileEnabled_of_unswitched h.unswitched, h.recorded]

end Telemetry

namespace Scheduler

/-- **The telemetry of a run telescopes**: on a clock that never goes back, in every run of `admit`
and `step` over sequences with distinct ids, constructed before the clock is next read, the samples
that an enabled recorder pushes into a ring that never overflows are, for each sequence, one TTFT
sample and then an inter-token sample for each further token, with the gaps between the readings of
the clock as latencies. -/
theorem samples_telescope {τ φ : Type} [DecidableEq φ] {clock : ℕ → ℤ} (hmono : Monotone clock)
    (hrange : ∀ k, Nanoseconds (clock k)) {config : SchedulerConfig} {pt : PagedKVCacheAllocator}
    {S : Scheduler} (h : ReflTransGen (ClockedCall clock) { pageTable := pt, config := config } S)
    {calls : List (Telemetry.Call τ φ)} {s₀ : Telemetry.State φ}
    {marks : List (List (Telemetry.Mark φ))}
    (htel : Telemetry.Undropped S.recorded calls s₀ marks) :
    ∀ s ∈ S.sequences, Telescopes clock s
      (samplesOf s.id (marks.flatten.filterMap Telemetry.Mark.pushed?)) := by
  intro s hs
  obtain ⟨ticks, hst⟩ := (clocked_of_calls hmono h).stamped s hs
  rw [Telemetry.pushed_of_undropped htel]
  exact hst.telescopes hmono hrange

section Examples

/-- A clock that stops after a few readings. -/
def ticking (k : ℕ) : ℤ := min (3 + k) 9

/-- One sequence, prefilled in the first step and decoded in two more. -/
def decodedTwice : Scheduler :=
  (((({ pageTable := (create 1 4).get isSome_create_four, config := {} } : Scheduler).admitSequence
    (Sequence.new 1 [7] 2 0)).advance ticking).advance ticking).advance ticking

theorem calls_decodedTwice : ReflTransGen (ClockedCall ticking)
    { pageTable := (create 1 4).get isSome_create_four, config := {} } decodedTwice := by
  have hstep : ∀ S : Scheduler, (∀ s ∈ S.waiting, s.phase ≠ .finished) →
      ClockedCall ticking S (S.advance ticking) := by
    intro S hw
    obtain ⟨rs, hok⟩ := step_advance hw
    exact .step hok
  have harrive : ReflTransGen (ClockedCall ticking)
      { pageTable := (create 1 4).get isSome_create_four, config := {} } _ :=
    .single (.arrive 1 [7] 2 0 List.not_mem_nil (by decide) (by unfold Nanoseconds; decide))
  exact ((harrive.tail (hstep _ (by decide))).tail (hstep _ (by decide))).tail
    (hstep _ (by decide))

/-- Its two samples, one of them drained before the other is recorded. -/
theorem samples_telescope_twice : decodedTwice.sequences ≠ [] ∧
    ∀ s ∈ decodedTwice.sequences, Telescopes ticking s
      (samplesOf s.id ([⟨1, .ttft, 3⟩, ⟨1, .interToken, 1⟩])) := by
  have hmono : Monotone ticking := by
    intro a b hab
    unfold ticking
    omega
  have hrange : ∀ k, Nanoseconds (ticking k) := by
    intro k
    unfold Nanoseconds ticking
    omega
  have htel : Telemetry.Undropped decodedTwice.recorded
      ([.recordTtft () 1 3, .drainOnce (), .recordInterToken () 1 1] :
        List (Telemetry.Call Unit Unit)) {}
      [[.pushed ⟨1, .ttft, 3⟩], [.drained () ⟨1, .ttft, 3⟩], [.pushed ⟨1, .interToken, 1⟩]] :=
    ⟨rfl, by simp [Telemetry.Call.switch], rfl, ⟨_, rfl⟩, rfl⟩
  exact ⟨by decide, samples_telescope hmono hrange calls_decodedTwice htel⟩

end Examples

end Scheduler

end AetherMoE
