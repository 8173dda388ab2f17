import Mathlib.Order.Iterate
import Mathlib.Order.Lattice

/-!
# Descending sequences above a bound

A function that never increases its argument is applied again and again, and only what is above
a bound counts. Two such sequences count the same as long as their steps do: once one of them is
at the bound, neither leaves it.
-/

namespace Descending

variable {α : Type*} [LinearOrder α] {f g : α → α} {m x : α}

/-- What has come down to the bound stays there. -/
theorem max_iterate_of_le (hf : f ≤ id) (h : x ≤ m) (n : ℕ) : max m (f^[n] x) = m :=
  max_eq_left ((Function.iterate_le_id_of_le_id hf n x).trans h)

/-- Two values that are equal above the bound are equal, or both are not above it. -/
theorem max_eq_max_iff {a b : α} : max m a = max m b ↔ a = b ∨ a ≤ m ∧ b ≤ m := by
  rcases le_or_gt a m with ha | ha <;> rcases le_or_gt b m with hb | hb
  · rw [max_eq_left ha, max_eq_left hb]
    exact iff_of_true rfl (Or.inr ⟨ha, hb⟩)
  · rw [max_eq_left ha, max_eq_right hb.le]
    refine iff_of_false hb.ne ?_
    rintro (rfl | ⟨-, hb'⟩)
    · exact hb.not_ge ha
    · exact hb.not_ge hb'
  · rw [max_eq_right ha.le, max_eq_left hb]
    refine iff_of_false ha.ne' ?_
    rintro (rfl | ⟨ha', -⟩)
    · exact ha.not_ge hb
    · exact ha.not_ge ha'
  · rw [max_eq_right ha.le, max_eq_right hb.le]
    exact ⟨Or.inl, fun h => h.resolve_right fun h' => ha.not_ge h'.1⟩

/-- **Two descending sequences are equal above a bound if each step is** that the first one takes
from above the bound. -/
theorem max_iterate_eq (hf : f ≤ id) (hg : g ≤ id)
    (hstep : ∀ n, m < f^[n] x → max m (f (f^[n] x)) = max m (g (f^[n] x))) (n : ℕ) :
    max m (f^[n] x) = max m (g^[n] x) := by
  rw [max_eq_max_iff]
  induction n with
  | zero => exact Or.inl rfl
  | succ n ih =>
    rw [Function.iterate_succ_apply', Function.iterate_succ_apply']
    rcases ih with heq | ⟨hleft, hright⟩
    · rcases le_or_gt (f^[n] x) m with hle | hlt
      · exact Or.inr ⟨(hf _).trans hle, (hg _).trans (heq ▸ hle)⟩
      · rw [← heq]
        exact max_eq_max_iff.mp (hstep n hlt)
    · exact Or.inr ⟨(hf _).trans hleft, (hg _).trans hright⟩

/-- Conversely, a step from above the bound is the same in both. -/
theorem max_step_eq {n : ℕ} (hnow : max m (f^[n] x) = max m (g^[n] x))
    (hnext : max m (f^[n + 1] x) = max m (g^[n + 1] x)) (habove : m < f^[n] x) :
    max m (f (f^[n] x)) = max m (g (f^[n] x)) := by
  have heq : f^[n] x = g^[n] x :=
    (max_eq_max_iff.mp hnow).resolve_right fun h => habove.not_ge h.1
  rw [Function.iterate_succ_apply', Function.iterate_succ_apply', ← heq] at hnext
  exact hnext

end Descending
