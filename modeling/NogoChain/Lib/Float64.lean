import Mathlib.Algebra.Group.Nat.Defs
import Mathlib.Data.Nat.Log
import Mathlib.Tactic.Common

/-!
# Rounding to double precision

A `float64` has 53 significant bits. A product of two of them that is neither too large nor
too small is the exact product rounded to the nearest such number, ties to even; since
scaling by a power of two does not change which bits are significant, the rounding of a
natural number describes that of every dyadic fraction.
-/

namespace Float64

/-- The nearest number with 53 significant bits, ties to even. -/
def nearest (x : Nat) : Nat :=
  let unit := 2 ^ (x.log2 - 52)
  let low := x % unit
  if 2 * low < unit ∨ (2 * low = unit ∧ x / unit % 2 = 0) then x / unit * unit
  else (x / unit + 1) * unit

/-- The quotient of two numbers with 53 significant bits, in units of `2 ^ -193`, for a
numerator below `2 ^ 65` and a denominator between 1 and `2 ^ 64`. The lowest digit says
whether the division leaves a remainder, which is all that the rounding has to know about
the digits that are cut off. -/
def quotient (a b : Nat) : Nat :=
  let q := a * 2 ^ 192 / b
  nearest (2 * q + if q * b = a * 2 ^ 192 then 0 else 1)

/-- **Rounding loses little**: at most one part in `2 ^ 52`. -/
theorem le_nearest (x : Nat) : x ≤ nearest x + x / 2 ^ 52 := by
  have hlow : x ≤ x / 2 ^ (x.log2 - 52) * 2 ^ (x.log2 - 52) + x / 2 ^ 52 := by
    have hdiv := Nat.div_add_mod x (2 ^ (x.log2 - 52))
    have hmod : x % 2 ^ (x.log2 - 52) ≤ x / 2 ^ 52 := by
      rcases Nat.lt_or_ge 52 x.log2 with hlog | hlog
      · have hx : x ≠ 0 := by
          intro h0
          rw [h0, Nat.log2_zero] at hlog
          exact absurd hlog (by decide)
        have hunit : 2 ^ (x.log2 - 52) ≤ x / 2 ^ 52 := by
          rw [Nat.le_div_iff_mul_le (by decide), ← Nat.pow_add, Nat.sub_add_cancel hlog.le]
          exact Nat.log2_self_le hx
        exact (Nat.mod_lt x (Nat.two_pow_pos _)).le.trans hunit
      · rw [Nat.sub_eq_zero_of_le hlog, Nat.pow_zero, Nat.mod_one]
        exact Nat.zero_le _
    rw [Nat.mul_comm] at hdiv
    omega
  unfold nearest
  dsimp only
  split
  · exact hlow
  · rw [Nat.add_mul]
    omega

end Float64
