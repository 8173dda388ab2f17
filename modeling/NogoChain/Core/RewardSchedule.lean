import NogoChain.Core.RulesHash
import NogoChain.Lib.Descending

/-!
# The schedule of rewards

A policy is written with a yearly percentage: the reward of a year is that of the year before,
reduced by so much and rounded down, and never below a minimum. `BlockReward` does not read the
percentage. It takes nine tenths each year, and it takes 10000000 for a minimum of 0.

So the two schedules agree for every policy with a reduction of ten percent and a minimum, and
otherwise as far as the difference stays below the minimum or is lost to rounding. The reward
never grows, whatever the policy says.
-/

namespace NogoChain

variable {r : Nat} {p : MonetaryPolicy}

namespace MonetaryPolicy

/-! ## What the policy asks for -/

/-- A reward reduced by a percentage, rounded down. -/
def reducedBy (percent : UInt8) (reward : Nat) : Nat := reward * (100 - percent.toNat) / 100

/-- **The schedule of a policy**: as many reductions as there are whole years below the height,
and never less than the minimum. -/
def scheduledReward (p : MonetaryPolicy) (height : UInt64) : Nat :=
  max p.minimumBlockReward.toNat
    ((reducedBy p.annualReductionPercent)^[(height / blocksPerYear).toNat]
      p.initialBlockReward.toNat)

/-- The reduction of `BlockReward`. -/
def nineTenths (reward : Nat) : Nat := reward * 9 / 10

theorem nineTenths_le : nineTenths ≤ id := by
  intro r
  show r * 9 / 10 ≤ r
  omega

theorem reducedBy_le (percent : UInt8) : reducedBy percent ≤ id := by
  intro r
  refine Nat.div_le_of_le_mul ?_
  rw [Nat.mul_comm 100]
  exact Nat.mul_le_mul_left r (Nat.sub_le _ _)

/-! ## What `BlockReward` computes -/

/-- A loop of `BlockReward` that runs to its end. -/
theorem eq_iterate_of_reductions {m n r' : Nat} (h : reductions m n r = some r') :
    r' = nineTenths^[n] r := by
  induction n generalizing r with
  | zero => exact (Option.some.inj h).symm
  | succ n ih =>
    rw [reductions] at h
    split_ifs at h
    exact ih h

/-- A loop of `BlockReward` that returns early. -/
theorem iterate_le_of_reductions {m n : Nat} (h : reductions m n r = none) :
    nineTenths^[n] r ≤ m := by
  induction n generalizing r with
  | zero => cases h
  | succ n ih =>
    rw [reductions] at h
    have hdown := Function.iterate_le_id_of_le_id nineTenths_le n (nineTenths r)
    split_ifs at h with hlow hnext
    · exact hdown.trans ((nineTenths_le r).trans hlow)
    · exact hdown.trans hnext
    · exact ih h

/-- **`BlockReward` in closed form.** -/
theorem blockReward_toNat (h : p.initialBlockReward ≠ 0) (height : UInt64) :
    (p.blockReward height).toNat = max p.rewardFloor.toNat
      (nineTenths^[(height / blocksPerYear).toNat] p.initialBlockReward.toNat) := by
  rw [blockReward_eq, if_neg h]
  cases hr : reductions p.rewardFloor.toNat (height / blocksPerYear).toNat
      p.initialBlockReward.toNat with
  | none => exact (max_eq_left (iterate_le_of_reductions hr)).symm
  | some reward =>
    rw [← eq_iterate_of_reductions hr]
    have hle : reward ≤ p.initialBlockReward.toNat := by
      rw [eq_iterate_of_reductions hr]
      exact Function.iterate_le_id_of_le_id nineTenths_le _ _
    have hsmall : reward < 2 ^ 64 := hle.trans_lt p.initialBlockReward.toNat_lt
    show UInt64.toNat (if reward < p.rewardFloor.toNat then p.rewardFloor
      else if reward ≥ 2 ^ 64 then p.rewardFloor else UInt64.ofNat reward) = _
    by_cases hlow : reward < p.rewardFloor.toNat
    · rw [if_pos hlow, max_eq_left hlow.le]
    · rw [if_neg hlow, if_neg (Nat.not_le.mpr hsmall), max_eq_right (Nat.not_lt.mp hlow),
        UInt64.toNat_ofNat_of_lt' hsmall]

/-- **The reward never grows.** -/
theorem blockReward_antitone (h : p.initialBlockReward ≠ 0)
    {height height' : UInt64} (hle : height ≤ height') :
    p.blockReward height' ≤ p.blockReward height := by
  have hyears : (height / blocksPerYear).toNat ≤ (height' / blocksPerYear).toNat := by
    exact Nat.div_le_div_right (UInt64.le_iff_toNat_le.mp hle)
  rw [UInt64.le_iff_toNat_le, blockReward_toNat h, blockReward_toNat h]
  exact max_le_max_left _ (Function.antitone_iterate_of_le_id nineTenths_le hyears _)

/-! ## Where they agree -/

/-- **A reduction that is as configured.** From every reward above the minimum that the schedule
comes to, nine tenths and the configured reduction are the same, or neither is above the
minimum. -/
def ReducesAsConfigured (p : MonetaryPolicy) : Prop :=
  ∀ years, p.minimumBlockReward.toNat < nineTenths^[years] p.initialBlockReward.toNat →
    let reward := nineTenths^[years] p.initialBlockReward.toNat
    max p.minimumBlockReward.toNat (nineTenths reward)
      = max p.minimumBlockReward.toNat (reducedBy p.annualReductionPercent reward)

/-- A reduction of ten percent is as configured. -/
theorem reducesAsConfigured_of_ten (h : p.annualReductionPercent = 10) : p.ReducesAsConfigured := by
  intro years _ reward
  have hsame : nineTenths reward = reducedBy p.annualReductionPercent reward := by
    rw [h]
    show reward * 9 / 10 = reward * 90 / 100
    omega
  rw [hsame]

/-- A height after so many whole years. -/
theorem years_of_height {years : Nat} (h : years ≤ 601) :
    (UInt64.ofNat (years * 1051200) / blocksPerYear).toNat = years := by
  have hyear : blocksPerYear.toNat = 1051200 := by decide
  rw [UInt64.toNat_div, hyear, UInt64.toNat_ofNat_of_lt' (by
    show years * 1051200 < 2 ^ 64
    omega)]
  exact Nat.mul_div_cancel _ (by omega)

/-- After 600 years nothing is left. -/
theorem iterate_nineTenths_eq_zero (h : r < 2 ^ 64) : nineTenths^[150 * 4] r = 0 := by
  cases hr : reductions 0 (150 * 4) r with
  | none => exact Nat.le_zero.mp (iterate_le_of_reductions hr)
  | some r' =>
    rw [← eq_iterate_of_reductions hr]
    exact reductions_eq_zero h hr

/-- A reward that is left is one of the first 600 years. -/
theorem years_lt_of_pos {years : Nat} (h : r < 2 ^ 64) (hpos : 0 < nineTenths^[years] r) :
    years < 150 * 4 := by
  by_contra hlate
  have hle : nineTenths^[years] r ≤ nineTenths^[150 * 4] r :=
    Function.antitone_iterate_of_le_id nineTenths_le (Nat.not_lt.mp hlate) r
  rw [iterate_nineTenths_eq_zero h] at hle
  omega

theorem rewardFloor_of_ne_zero (h : p.minimumBlockReward ≠ 0) :
    p.rewardFloor = p.minimumBlockReward := if_neg h

theorem rewardFloor_of_eq_zero (h : p.minimumBlockReward = 0) : p.rewardFloor = 10000000 :=
  if_pos h

/-- With a minimum, the schedules agree exactly if the reduction is as configured. -/
theorem schedule_iff_of_minimum (hinitial : p.initialBlockReward ≠ 0)
    (hminimum : p.minimumBlockReward ≠ 0) :
    (∀ height, (p.blockReward height).toNat = p.scheduledReward height)
      ↔ p.ReducesAsConfigured := by
  have hreward : ∀ height, (p.blockReward height).toNat = max p.minimumBlockReward.toNat
      (nineTenths^[(height / blocksPerYear).toNat] p.initialBlockReward.toNat) := by
    intro height
    rw [blockReward_toNat hinitial, rewardFloor_of_ne_zero hminimum]
  constructor
  · intro h years habove
    have hlate := years_lt_of_pos p.initialBlockReward.toNat_lt (Nat.zero_lt_of_lt habove)
    have hat : ∀ n ≤ 601, max p.minimumBlockReward.toNat
        (nineTenths^[n] p.initialBlockReward.toNat) = max p.minimumBlockReward.toNat
        ((reducedBy p.annualReductionPercent)^[n] p.initialBlockReward.toNat) := by
      intro n hn
      have hheight := h (UInt64.ofNat (n * 1051200))
      rw [hreward, scheduledReward, years_of_height hn] at hheight
      exact hheight
    exact Descending.max_step_eq (hat years (by omega)) (hat (years + 1) (by omega)) habove
  · intro h height
    rw [hreward]
    exact Descending.max_iterate_eq nineTenths_le (reducedBy_le _) h _

theorem iterate_reducedBy_zero (n r : Nat) : (reducedBy 0)^[n] r = r := by
  have hid : reducedBy 0 = id := by
    funext r
    show r * 100 / 100 = r
    omega
  rw [hid, Function.iterate_id]
  rfl

/-- Without a minimum, they agree only where nothing is reduced and the reward is the minimum that
`BlockReward` takes instead. -/
theorem schedule_iff_of_no_minimum (hinitial : p.initialBlockReward ≠ 0)
    (hminimum : p.minimumBlockReward = 0) :
    (∀ height, (p.blockReward height).toNat = p.scheduledReward height)
      ↔ p.annualReductionPercent = 0 ∧ p.initialBlockReward = 10000000 := by
  have hreward : ∀ height, (p.blockReward height).toNat = max 10000000
      (nineTenths^[(height / blocksPerYear).toNat] p.initialBlockReward.toNat) := by
    intro height
    rw [blockReward_toNat hinitial, rewardFloor_of_eq_zero hminimum]
    rfl
  have hschedule : ∀ height, p.scheduledReward height
      = (reducedBy p.annualReductionPercent)^[(height / blocksPerYear).toNat]
        p.initialBlockReward.toNat := by
    intro height
    rw [scheduledReward, hminimum]
    exact Nat.zero_max _
  constructor
  · intro h
    -- after 600 years both rewards are constant, so that the percentage reduces nothing
    have hzero := iterate_nineTenths_eq_zero p.initialBlockReward.toNat_lt
    have hfirst := h (UInt64.ofNat (600 * 1051200))
    have hsecond := h (UInt64.ofNat (601 * 1051200))
    rw [hreward, hschedule, years_of_height (by omega)] at hfirst hsecond
    rw [hzero] at hfirst
    rw [Function.iterate_succ_apply', hzero, Function.iterate_succ_apply', ← hfirst] at hsecond
    have hpercent : p.annualReductionPercent = 0 := by
      have hsame : 10000000 = 10000000 * (100 - p.annualReductionPercent.toNat) / 100 := hsecond
      exact UInt8.toNat_inj.mp (show p.annualReductionPercent.toNat = 0 by omega)
    rw [hpercent, iterate_reducedBy_zero] at hfirst
    exact ⟨hpercent, UInt64.toNat_inj.mp hfirst.symm⟩
  · rintro ⟨hpercent, hstart⟩ height
    rw [hreward, hschedule, hpercent, iterate_reducedBy_zero, hstart]
    exact Descending.max_iterate_of_le nineTenths_le le_rfl _

/-- **The policies that `BlockReward` pays as configured.** -/
def PaidAsConfigured (p : MonetaryPolicy) : Prop :=
  p.minimumBlockReward ≠ 0 ∧ p.ReducesAsConfigured
    ∨ p.minimumBlockReward = 0 ∧ p.annualReductionPercent = 0 ∧ p.initialBlockReward = 10000000

theorem initialBlockReward_ne_zero_of_validate (h : p.validate = .ok ()) :
    p.initialBlockReward ≠ 0 := by
  intro hzero
  unfold validate at h
  rw [if_pos hzero] at h
  cases h

/-- **The reward is that of the policy exactly for these policies, and never grows.** -/
theorem blockReward_schedule (h : p.validate = .ok ()) :
    ((∀ height, (p.blockReward height).toNat = p.scheduledReward height) ↔ p.PaidAsConfigured)
      ∧ ∀ height height', height ≤ height' → p.blockReward height' ≤ p.blockReward height := by
  have hinitial := initialBlockReward_ne_zero_of_validate h
  refine ⟨?_, fun _ _ hle => blockReward_antitone hinitial hle⟩
  unfold PaidAsConfigured
  by_cases hminimum : p.minimumBlockReward = 0
  · rw [schedule_iff_of_no_minimum hinitial hminimum]
    simp [hminimum]
  · rw [schedule_iff_of_minimum hinitial hminimum]
    simp [hminimum]

/-- `blockReward_schedule` at the default policy. -/
theorem blockReward_schedule_default :
    (∀ height, (default.blockReward height).toNat = default.scheduledReward height)
      ∧ default.blockReward 1051200 ≤ default.blockReward 0 := by
  obtain ⟨hiff, hdown⟩ := blockReward_schedule (p := default) (by decide)
  exact ⟨hiff.mpr (Or.inl ⟨by decide, reducesAsConfigured_of_ten rfl⟩), hdown _ _ (by decide)⟩

/-- **A reduction of five percent is paid as one of ten.** After the first year the reward is 7.2
NOGO where the policy says 7.6. -/
theorem blockReward_ignores_percent :
    let p := { default with annualReductionPercent := 5 }
    p.validate = .ok () ∧ p.blockReward 1051200 = 720000000
      ∧ p.scheduledReward 1051200 = 760000000 := by
  refine ⟨by decide, ?_, ?_⟩
  · decide +kernel
  · decide +kernel

end MonetaryPolicy

end NogoChain
