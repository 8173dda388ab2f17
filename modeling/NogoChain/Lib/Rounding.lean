import Mathlib.Algebra.Order.Floor.Ring
import Mathlib.Data.Int.ConditionallyCompleteOrder

/-!
# Truncation, and the next integer by way of an offset

`truncate` cuts off the digits behind the point. A ceiling is sometimes computed with it: an
offset a little below one is added first. The result is the next integer up to the part that
the offset lacks – and exactly the next integer for a fraction whose denominator is small
enough (`truncate_add_eq_ceil`).
-/

variable {K : Type} [Field K] [LinearOrder K] [FloorRing K]

/-- The integer part, towards zero. -/
def truncate (x : K) : ℤ := if x < 0 then ⌈x⌉ else ⌊x⌋

theorem truncate_of_nonneg {x : K} (h : 0 ≤ x) : truncate x = ⌊x⌋ := if_neg (not_lt.mpr h)

theorem truncate_nonneg {x : K} (h : 0 ≤ x) : 0 ≤ truncate x := by
  rw [truncate_of_nonneg h]
  exact Int.floor_nonneg.mpr h

/-- **Truncation is monotone**, also across zero. -/
theorem truncate_mono : Monotone (truncate : K → ℤ) := by
  intro x y hxy
  unfold truncate
  split
  · next hx =>
    split
    · exact Int.ceil_le_ceil hxy
    · next hy =>
      have hlow : ⌈x⌉ ≤ 0 := Int.ceil_le.mpr (by simpa using hx.le)
      exact hlow.trans (Int.floor_nonneg.mpr (not_lt.mp hy))
  · next hx =>
    rw [if_neg (not_lt.mpr ((not_lt.mp hx).trans hxy))]
    exact Int.floor_le_floor hxy

/-- **The ceiling of a fraction.** For `x = n / k` an offset of at least `1 - 1 / k` reaches the
next integer, and one below 1 does not go beyond it. -/
theorem truncate_add_eq_ceil [IsStrictOrderedRing K] {x offset : K} {n : ℤ} {k : ℕ} (hk : 0 < k)
    (hx : x * k = n)
    (h0 : 0 ≤ x) (hlow : 1 - 1 / (k : K) ≤ offset) (hhigh : offset < 1) :
    truncate (x + offset) = ⌈x⌉ := by
  have hkpos : (0 : K) < k := Nat.cast_pos.mpr hk
  have hk1 : 1 / (k : K) ≤ 1 := by
    rw [div_le_one hkpos]
    exact Nat.one_le_cast.mpr hk
  rw [truncate_of_nonneg (by linarith), Int.floor_eq_iff]
  constructor
  · -- the fraction lies strictly above the integer before, so at least one part in `k`
    have hgt : (⌈x⌉ : K) - 1 < x := by linarith [Int.ceil_lt_add_one x]
    have hparts : ((⌈x⌉ - 1) * k : ℤ) < n := by
      have h : ((⌈x⌉ : K) - 1) * k < x * k := mul_lt_mul_of_pos_right hgt hkpos
      rw [hx] at h
      exact_mod_cast h
    have hstep : ((⌈x⌉ : K) - 1) * k + 1 ≤ x * k := by
      rw [hx]
      exact_mod_cast hparts
    have hdiv : (⌈x⌉ : K) - 1 + 1 / k ≤ x := by
      have h := (div_le_iff₀ hkpos).mpr hstep
      rwa [add_div, mul_div_assoc, div_self hkpos.ne', mul_one] at h
    linarith
  · linarith [Int.le_ceil x]
