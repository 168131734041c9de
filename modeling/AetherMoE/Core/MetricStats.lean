import AetherMoE.Core.Telemetry
import AetherMoE.Lib.NearestRank
import Mathlib.Algebra.BigOperators.Group.List.Basic
import Mathlib.Tactic.NormNum

/-!
# The statistics of a flusher

`compute_stats` and `snapshot` of `telemetry.hpp`, with exact rational numbers for `double`s.
Reading outside of the list has no result.

* `computeStats`, `snapshot`;
* `NearestRankStats`: what the statistics mean; **`computeStats_eq`**: the call returns, and they
  mean that;
* `computeStats_perm`: reordering the samples changes nothing;
* **`stats_nearestRank`**: both together.
-/

namespace AetherMoE.Telemetry

open NearestRank

/-- `MetricStats`. -/
structure MetricStats where
  count : ℕ := 0
  meanNs : ℚ := 0
  p50Ns : ℚ := 0
  p95Ns : ℚ := 0
  p99Ns : ℚ := 0
  maxNs : ℚ := 0
  deriving Repr, DecidableEq

/-- `TelemetrySnapshot`. -/
structure TelemetrySnapshot where
  ttft : MetricStats := {}
  interToken : MetricStats := {}
  droppedSamples : UInt64 := 0
  deriving Repr, DecidableEq

/-- A latency as a number. -/
def toNumber (v : UInt64) : ℚ := (v.toNat : ℚ)

/-- `idx` of `pct`, after the two clamps. -/
def pctIdx (p : ℚ) (count : ℕ) : ℕ :=
  let idx := ⌈p * count⌉₊
  let idx := if idx = 0 then 1 else idx
  if count < idx then count else idx

/-- `pct`. -/
def pct (latenciesNs : List UInt64) (p : ℚ) : Option ℚ :=
  latenciesNs[pctIdx p latenciesNs.length - 1]?.map toNumber

/-- `std::sort`. -/
def sortNs (latenciesNs : List UInt64) : List UInt64 :=
  latenciesNs.mergeSort fun a b => decide (a ≤ b)

/-- `compute_stats`: the statistics, and the vector, which it sorts. -/
def computeStats (latenciesNs : List UInt64) : Option (MetricStats × List UInt64) :=
  let count := latenciesNs.length
  if count = 0 then some ({ count := count }, latenciesNs)
  else do
    let sorted := sortNs latenciesNs
    let sum := sorted.foldl (fun sum v => sum + toNumber v) 0
    let back ← sorted.getLast?
    let p50 ← pct sorted (1 / 2)
    let p95 ← pct sorted (19 / 20)
    let p99 ← pct sorted (99 / 100)
    return ({ count := count, meanNs := sum / count, p50Ns := p50, p95Ns := p95, p99Ns := p99,
              maxNs := toNumber back }, sorted)

/-- `snapshot` of flusher `f`, which works on copies of its vectors. -/
def snapshot {φ : Type} (f : φ) (s : State φ) : Option TelemetrySnapshot := do
  let (ttft, _) ← computeStats (s.flushers f).ttftNs
  let (interToken, _) ← computeStats (s.flushers f).interTokenNs
  return { ttft := ttft, interToken := interToken, droppedSamples := s.droppedSamples }

/-! ## The sorted vector -/

variable {l l' : List UInt64}

theorem sortNs_perm (l : List UInt64) : (sortNs l).Perm l := List.mergeSort_perm _ _

@[simp] theorem length_sortNs (l : List UInt64) : (sortNs l).length = l.length :=
  (sortNs_perm l).length_eq

theorem sortNs_sorted (l : List UInt64) : (sortNs l).Pairwise (· ≤ ·) := by
  have h := @List.pairwise_mergeSort _ (fun a b : UInt64 => decide (a ≤ b))
    (fun a b c hab hbc => by
      simpa using UInt64.le_trans (of_decide_eq_true hab) (of_decide_eq_true hbc))
    (fun a b => by simpa using UInt64.le_total a b) l
  exact h.imp fun hab => of_decide_eq_true hab

/-- Two orders of the same samples sort to the same vector. -/
theorem sortNs_eq_of_perm (h : l.Perm l') : sortNs l = sortNs l' :=
  ((sortNs_perm l).trans (h.trans (sortNs_perm l').symm)).eq_of_pairwise
    (fun _ _ _ _ => UInt64.le_antisymm) (sortNs_sorted l) (sortNs_sorted l')

theorem toNumber_le_iff {v w : UInt64} : toNumber v ≤ toNumber w ↔ v ≤ w := by
  rw [toNumber, toNumber, Nat.cast_le, UInt64.le_iff_toNat_le]

theorem numbers_sorted (l : List UInt64) : ((sortNs l).map toNumber).Pairwise (· ≤ ·) := by
  rw [List.pairwise_map]
  exact (sortNs_sorted l).imp fun h => toNumber_le_iff.2 h

/-! ## What the statistics mean -/

/-- The statistics of the samples `l`: the average, the three nearest-rank quantiles and the
largest sample. -/
structure NearestRankStats (l : List ℚ) (stats : MetricStats) : Prop where
  count : stats.count = l.length
  mean : stats.meanNs = l.sum / l.length
  p50 : IsQuantile (1 / 2) l stats.p50Ns
  p95 : IsQuantile (19 / 20) l stats.p95Ns
  p99 : IsQuantile (99 / 100) l stats.p99Ns
  max_mem : stats.maxNs ∈ l
  le_max : ∀ v ∈ l, v ≤ stats.maxNs

theorem NearestRankStats.ordered {l : List ℚ} {stats : MetricStats}
    (h : NearestRankStats l stats) :
    stats.p50Ns ≤ stats.p95Ns ∧ stats.p95Ns ≤ stats.p99Ns ∧ stats.p99Ns ≤ stats.maxNs :=
  ⟨h.p50.mono h.p95 (by norm_num), h.p95.mono h.p99 (by norm_num), h.le_max _ h.p99.mem⟩

/-- Within the shares that are asked for, the clamps do nothing. -/
theorem pctIdx_eq {p : ℚ} {n : ℕ} (hlow : 1 ≤ ⌈p * n⌉₊) (hhigh : ⌈p * n⌉₊ ≤ n) :
    pctIdx p n = ⌈p * n⌉₊ := by
  have hpos : ¬ ⌈p * n⌉₊ = 0 := by omega
  unfold pctIdx
  dsimp only
  rw [if_neg hpos, if_neg (not_lt.2 hhigh)]

/-- **`pct` reads the quantile**, and reads within the vector. -/
theorem pct_sortNs (hne : l ≠ []) {p : ℚ} (hp : 0 < p) (hp1 : p ≤ 1) :
    (1 ≤ pctIdx p l.length ∧ pctIdx p l.length ≤ l.length) ∧
      ∃ v, pct (sortNs l) p = some v ∧ IsQuantile p (l.map toNumber) v := by
  have hne' : (sortNs l).map toNumber ≠ [] := by
    rw [← List.length_pos_iff_ne_nil, List.length_map, length_sortNs]
    exact List.length_pos_of_ne_nil hne
  obtain ⟨hlow, hhigh, v, hv, hq⟩ := exists_isQuantile (numbers_sorted l) hne' hp hp1
  rw [List.length_map, length_sortNs] at hlow hhigh hv
  rw [pctIdx_eq hlow hhigh]
  refine ⟨⟨hlow, hhigh⟩, v, ?_, hq.perm ((sortNs_perm l).map toNumber)⟩
  rw [pct, length_sortNs, pctIdx_eq hlow hhigh, ← List.getElem?_map, hv]

/-- The last element of the sorted vector is a largest one. -/
theorem getLast?_sortNs (hne : l ≠ []) : ∃ back, (sortNs l).getLast? = some back ∧ back ∈ l ∧
    ∀ v ∈ l, v ≤ back := by
  have hne' : sortNs l ≠ [] := by
    rw [← List.length_pos_iff_ne_nil, length_sortNs]
    exact List.length_pos_of_ne_nil hne
  refine ⟨(sortNs l).getLast hne', List.getLast?_eq_some_getLast hne',
    (sortNs_perm l).mem_iff.1 (List.getLast_mem hne'), fun v hv => ?_⟩
  have hsorted := sortNs_sorted l
  rw [← List.dropLast_concat_getLast hne', List.pairwise_append] at hsorted
  have hmem := (sortNs_perm l).mem_iff.2 hv
  rw [← List.dropLast_concat_getLast hne', List.mem_append] at hmem
  rcases hmem with hmem | hmem
  · exact hsorted.2.2 v hmem _ List.mem_cons_self
  · rw [List.mem_singleton.1 hmem]
    exact UInt64.le_refl _

/-- **The statistics of a non-empty list.** -/
theorem computeStats_eq (hne : l ≠ []) :
    ∃ stats, computeStats l = some (stats, sortNs l) ∧
      NearestRankStats (l.map toNumber) stats := by
  have hlen : l.length ≠ 0 := fun h => hne (List.length_eq_zero_iff.1 h)
  obtain ⟨-, p50, h50, hq50⟩ := pct_sortNs hne (p := 1 / 2) (by norm_num) (by norm_num)
  obtain ⟨-, p95, h95, hq95⟩ := pct_sortNs hne (p := 19 / 20) (by norm_num) (by norm_num)
  obtain ⟨-, p99, h99, hq99⟩ := pct_sortNs hne (p := 99 / 100) (by norm_num) (by norm_num)
  obtain ⟨back, hback, hmem, hmax⟩ := getLast?_sortNs hne
  have hsum : (sortNs l).foldl (fun sum v => sum + toNumber v) 0 = (l.map toNumber).sum := by
    rw [← ((sortNs_perm l).map toNumber).sum_eq, List.sum_eq_foldl, List.foldl_map]
  refine ⟨_, by
    simp only [computeStats, if_neg hlen, hback, h50, h95, h99, hsum]
    rfl, ?_⟩
  constructor
  · rw [List.length_map]
  · rw [List.length_map]
  · exact hq50
  · exact hq95
  · exact hq99
  · exact List.mem_map_of_mem hmem
  · intro x hx
    obtain ⟨v, hv, rfl⟩ := List.mem_map.1 hx
    exact toNumber_le_iff.2 (hmax v hv)

theorem count_of_computeStats {stats : MetricStats} {sorted : List UInt64}
    (h : computeStats l = some (stats, sorted)) : stats.count = l.length := by
  by_cases hne : l = []
  · subst hne
    cases h
    rfl
  · obtain ⟨stats', hrun, hstats⟩ := computeStats_eq hne
    rw [hrun] at h
    cases h
    rw [hstats.count, List.length_map]

/-- The order of the samples does not matter. -/
theorem computeStats_perm (h : l.Perm l') :
    (computeStats l).map Prod.fst = (computeStats l').map Prod.fst := by
  unfold computeStats
  rw [h.length_eq, sortNs_eq_of_perm h]
  dsimp only
  split_ifs <;> rfl

/-- **Nearest-rank percentiles**: for every non-empty list of latencies, `compute_stats` returns,
having read within the list, the count, the average, the nearest-rank quantiles of a half, 19/20 and
99/100, which ascend up to the largest sample, and that one; and every order of the samples has the
same statistics. -/
theorem stats_nearestRank {l : List UInt64} (hne : l ≠ []) :
    ∃ stats sorted, computeStats l = some (stats, sorted) ∧
      NearestRankStats (l.map toNumber) stats ∧
      (stats.p50Ns ≤ stats.p95Ns ∧ stats.p95Ns ≤ stats.p99Ns ∧ stats.p99Ns ≤ stats.maxNs) ∧
      (∀ p ∈ [1 / 2, 19 / 20, 99 / 100], 1 ≤ pctIdx p l.length ∧ pctIdx p l.length ≤ l.length) ∧
      ∀ l' : List UInt64, l'.Perm l → (computeStats l').map Prod.fst = some stats := by
  obtain ⟨stats, hrun, hstats⟩ := computeStats_eq hne
  refine ⟨stats, _, hrun, hstats, hstats.ordered, ?_, fun l' hperm => ?_⟩
  · simp only [List.forall_mem_cons, List.not_mem_nil, false_implies, implies_true, and_true]
    exact ⟨(pct_sortNs hne (by norm_num) (by norm_num)).1,
      (pct_sortNs hne (by norm_num) (by norm_num)).1,
      (pct_sortNs hne (by norm_num) (by norm_num)).1⟩
  · rw [computeStats_perm hperm, hrun]
    rfl

/-- Three samples. -/
theorem stats_nearestRank_three : ∃ stats sorted,
    computeStats [30, 10, 20] = some (stats, sorted) ∧
    NearestRankStats ([30, 10, 20].map toNumber) stats :=
  let ⟨stats, sorted, hrun, hstats, _⟩ := stats_nearestRank (l := [30, 10, 20]) (by simp)
  ⟨stats, sorted, hrun, hstats⟩

/-- **A snapshot always returns**, with the statistics of what the flusher has drained. -/
theorem exists_snapshot {φ : Type} (f : φ) (s : State φ) :
    ∃ snap, snapshot f s = some snap ∧ snap.droppedSamples = s.dropped ∧
      ((s.flushers f).ttftNs ≠ [] →
        NearestRankStats ((s.flushers f).ttftNs.map toNumber) snap.ttft) ∧
      ((s.flushers f).interTokenNs ≠ [] →
        NearestRankStats ((s.flushers f).interTokenNs.map toNumber) snap.interToken) := by
  have hstats : ∀ l : List UInt64, ∃ stats sorted, computeStats l = some (stats, sorted) ∧
      (l ≠ [] → NearestRankStats (l.map toNumber) stats) := by
    intro l
    by_cases hne : l = []
    · subst hne
      exact ⟨_, _, rfl, fun h => absurd rfl h⟩
    · obtain ⟨stats, hrun, hstats⟩ := computeStats_eq hne
      exact ⟨stats, _, hrun, fun _ => hstats⟩
  obtain ⟨ttft, sorted, hrun, httft⟩ := hstats (s.flushers f).ttftNs
  obtain ⟨interToken, sorted', hrun', hinter⟩ := hstats (s.flushers f).interTokenNs
  refine ⟨_, by rw [snapshot, hrun, hrun']; rfl, rfl, httft, hinter⟩

end AetherMoE.Telemetry
