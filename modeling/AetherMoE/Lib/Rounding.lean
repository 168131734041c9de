import Mathlib.Algebra.Order.Round
import Mathlib.Algebra.Ring.Int.Parity

/-!
# Rounding half to even

* `roundHalfEven`: the nearest integer, and of two equally near ones the even one;
* **`abs_sub_roundHalfEven`**: it is at most one half away;
* `roundHalfEven_intCast`, **`abs_roundHalfEven_le`**: it keeps integers, and so bounds by them.
-/

namespace Rounding

variable {R : Type} [Field R] [LinearOrder R] [FloorRing R]

/-- The nearest integer; half-way between two, the even one. -/
def roundHalfEven (x : R) : ℤ :=
  if Int.fract x < 1 / 2 then ⌊x⌋
  else if 1 / 2 < Int.fract x then ⌊x⌋ + 1
  else if Even ⌊x⌋ then ⌊x⌋ else ⌊x⌋ + 1

variable [IsStrictOrderedRing R]

@[simp] theorem roundHalfEven_intCast (n : ℤ) : roundHalfEven (n : R) = n := by
  rw [roundHalfEven, Int.fract_intCast, if_pos one_half_pos, Int.floor_intCast]

/-- **The rounding error.** -/
theorem abs_sub_roundHalfEven (x : R) : |x - roundHalfEven x| ≤ 1 / 2 := by
  have hx := Int.floor_add_fract x
  have hlow : Int.fract x ≤ 1 / 2 → |x - (⌊x⌋ : ℤ)| ≤ 1 / 2 := by
    intro h
    rwa [Int.self_sub_floor, abs_of_nonneg (Int.fract_nonneg x)]
  have hhigh : 1 / 2 ≤ Int.fract x → |x - ((⌊x⌋ + 1 : ℤ) : R)| ≤ 1 / 2 := by
    intro h
    have hlt := Int.fract_lt_one x
    rw [Int.cast_add, Int.cast_one, abs_le]
    constructor <;> linarith
  unfold roundHalfEven
  split_ifs with h₁ h₂ h₃
  · exact hlow h₁.le
  · exact hhigh h₂.le
  · exact hlow (not_lt.1 h₂)
  · exact hhigh (not_lt.1 h₁)

/-- What an integer bounds, it bounds after rounding. -/
theorem roundHalfEven_le {x : R} {n : ℤ} (h : x ≤ n) : roundHalfEven x ≤ n := by
  have herr := (abs_le.1 (abs_sub_roundHalfEven x)).1
  have hlt : ((roundHalfEven x : ℤ) : R) < ((n + 1 : ℤ) : R) := by
    rw [Int.cast_add, Int.cast_one]
    linarith
  exact Int.lt_add_one_iff.1 (Int.cast_lt.1 hlt)

theorem le_roundHalfEven {x : R} {n : ℤ} (h : (n : R) ≤ x) : n ≤ roundHalfEven x := by
  have herr := (abs_le.1 (abs_sub_roundHalfEven x)).2
  have hlt : ((n : ℤ) : R) < ((roundHalfEven x + 1 : ℤ) : R) := by
    rw [Int.cast_add, Int.cast_one]
    linarith
  exact Int.lt_add_one_iff.1 (Int.cast_lt.1 hlt)

theorem abs_roundHalfEven_le {x : R} {n : ℤ} (h : |x| ≤ n) : |roundHalfEven x| ≤ n := by
  rw [abs_le] at h ⊢
  rw [← Int.cast_neg] at h
  exact ⟨le_roundHalfEven h.1, roundHalfEven_le h.2⟩

end Rounding
