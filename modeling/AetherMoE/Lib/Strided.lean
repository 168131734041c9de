import Mathlib.Algebra.Order.Floor.Div
import Mathlib.Data.List.Nodup
import Mathlib.Data.Nat.ModEq

/-!
# Strided loops with a wrapping counter

`for (i = start; i < bound; i += stride) body(i)`, with a counter of `w` values and a body that may
have no result.

* `loop`; `visits`: the values of a counter that does not wrap;
* **`loop_eq`**: below `w - stride` the loop ends and runs its body on the visits;
* **`loop_diverges`**: above it, the counter that reaches the last index below the bound never
  leaves the loop;
* **`flatMap_visits_perm`**: `stride` loops side by side visit every index once.
-/

namespace Strided

variable {σ : Type}

/-- The loop, with at most `fuel` tests of its condition. -/
def loop (w stride bound : ℕ) (body : ℕ → σ → Option σ) : ℕ → ℕ → σ → Option σ
  | 0, _, _ => none
  | fuel + 1, i, s =>
    if i < bound then do
      let s ← body i s
      loop w stride bound body fuel ((i + stride) % w) s
    else some s

/-- The values of the counter, from `i` on. -/
def visits (stride bound i : ℕ) : List ℕ :=
  (List.range ((bound - i) ⌈/⌉ stride)).map fun j => i + stride * j

section Visits

variable {stride bound i : ℕ}

theorem visits_of_le (h : bound ≤ i) : visits stride bound i = [] := by
  rw [visits, Nat.sub_eq_zero_of_le h, zero_ceilDiv]
  rfl

theorem visits_of_lt (hs : 0 < stride) (h : i < bound) :
    visits stride bound i = i :: visits stride bound (i + stride) := by
  have hcount : (bound - i) ⌈/⌉ stride = (bound - (i + stride)) ⌈/⌉ stride + 1 := by
    rw [Nat.ceilDiv_eq_add_pred_div, Nat.ceilDiv_eq_add_pred_div]
    by_cases hb : i + stride ≤ bound
    · rw [← Nat.add_div_right _ hs]
      congr 1
      omega
    · rw [Nat.sub_eq_zero_of_le (le_of_not_ge hb),
        Nat.div_eq_of_lt (a := 0 + stride - 1) (by omega)]
      exact Nat.div_eq_of_lt_le (by omega) (by omega)
  rw [visits, visits, hcount, List.range_succ_eq_map, List.map_cons, List.map_map]
  congr 1
  apply List.map_congr_left
  intro j _
  simp only [Function.comp_apply, Nat.succ_eq_add_one, Nat.mul_add, Nat.mul_one]
  omega

theorem mem_visits (hs : 0 < stride) (hi : i < stride) {d : ℕ} :
    d ∈ visits stride bound i ↔ d < bound ∧ d % stride = i := by
  rw [visits, List.mem_map]
  constructor
  · rintro ⟨j, hj, rfl⟩
    rw [List.mem_range, ← not_le, ceilDiv_le_iff_le_mul hs] at hj
    refine ⟨?_, ?_⟩
    · omega
    · rw [Nat.add_mul_mod_self_left, Nat.mod_eq_of_lt hi]
  · rintro ⟨hd, rfl⟩
    refine ⟨d / stride, ?_, Nat.mod_add_div d stride⟩
    have := Nat.mod_add_div d stride
    rw [List.mem_range, ← not_le, ceilDiv_le_iff_le_mul hs]
    omega

theorem nodup_visits (hs : 0 < stride) : (visits stride bound i).Nodup := by
  refine List.nodup_range.map fun a b h => ?_
  have h' : stride * a = stride * b := Nat.add_left_cancel h
  exact Nat.eq_of_mul_eq_mul_left hs h'

/-- **Every index is visited once**, by the loop of its remainder. -/
theorem flatMap_visits_perm (hs : 0 < stride) (bound : ℕ) :
    ((List.range stride).flatMap (visits stride bound)).Perm (List.range bound) := by
  rw [List.perm_ext_iff_of_nodup ?_ List.nodup_range]
  · intro d
    simp only [List.mem_flatMap, List.mem_range]
    constructor
    · rintro ⟨i, hi, hd⟩
      exact ((mem_visits hs hi).1 hd).1
    · intro hd
      have hi := Nat.mod_lt d hs
      exact ⟨d % stride, hi, (mem_visits hs hi).2 ⟨hd, rfl⟩⟩
  · rw [List.nodup_flatMap]
    refine ⟨fun i _ => nodup_visits hs, List.nodup_range.imp_of_mem ?_⟩
    intro i j hi hj hne d hdi hdj
    rw [List.mem_range] at hi hj
    exact hne (((mem_visits hs hi).1 hdi).2.symm.trans ((mem_visits hs hj).1 hdj).2)

end Visits

section Loop

variable {w stride bound : ℕ} {body : ℕ → σ → Option σ}

/-- **A loop whose counter does not wrap** runs its body on the visits. -/
theorem loop_eq (hs : 0 < stride) (hw : bound + stride ≤ w) {fuel i : ℕ} (hfuel : bound - i < fuel)
    (s : σ) :
    loop w stride bound body fuel i s = (visits stride bound i).foldlM (fun s i => body i s) s := by
  induction fuel generalizing i s with
  | zero => omega
  | succ fuel ih =>
    by_cases h : i < bound
    · rw [loop, if_pos h, visits_of_lt hs h, List.foldlM_cons, Nat.mod_eq_of_lt (by omega)]
      congr 1
      funext s'
      exact ih (by omega) s'
    · rw [loop, if_neg h, visits_of_le (not_lt.1 h)]
      rfl

/-- **A loop whose counter wraps**: the counter that reaches the last index starts over. -/
theorem loop_diverges (hdvd : stride ∣ w) (hw : w < bound + stride) (fuel : ℕ) {i : ℕ}
    (hi : i < w) (hlast : i ≡ bound - 1 [MOD stride]) (s : σ) :
    loop w stride bound body fuel i s = none := by
  induction fuel generalizing i s with
  | zero => rfl
  | succ fuel ih =>
    have hstride : stride ≤ w := Nat.le_of_dvd (by omega) hdvd
    have hlt : i < bound := by
      by_contra hge
      have hle : bound - 1 ≤ i := by omega
      have hgap := Nat.le_of_dvd (by omega) ((Nat.modEq_iff_dvd' hle).1 hlast.symm)
      omega
    rw [loop, if_pos hlt]
    cases body i s with
    | none => rfl
    | some s' =>
      refine ih (Nat.mod_lt _ (by omega)) ?_ s'
      have hmod : (i + stride) % w ≡ i + stride [MOD stride] :=
        (Nat.mod_modEq (i + stride) w).of_dvd hdvd
      refine hmod.trans (Nat.ModEq.trans ?_ hlast)
      unfold Nat.ModEq
      rw [Nat.add_mod_right]

end Loop

end Strided
