import NogoChain.Nogopow.Adjuster

/-!
# How far one block can move the difficulty

The factor of the controller lies between three quarters and five quarters, and
`enforceBoundaryConditionsLocked` cuts the result to the same range once more. In between the
product is rounded, and the rounding goes up in both directions: three quarters of 3 are 3
again. So a difficulty of 1, 2 or 3 never comes down, however slow the blocks are, while from
4 on the largest decrease is one (`calcDifficulty_moderate_iff`).
-/

namespace NogoChain.Nogopow

open FactorArith

/-! ## Exact arithmetic -/

variable {f : ℚ} {d p : ℤ}

theorem le_clampFloat64 {lo hi : ℚ} (h : lo ≤ hi) : lo ≤ clampFloat64 f lo hi := by
  unfold clampFloat64
  split
  · exact le_rfl
  · next hlo =>
    split
    · exact h
    · exact not_lt.mp hlo

theorem clampFloat64_le {lo hi : ℚ} (h : lo ≤ hi) : clampFloat64 f lo hi ≤ hi := by
  unfold clampFloat64
  split
  · exact h
  · split
    · exact le_rfl
    · next hhi => exact not_lt.mp hhi

/-- **The factor changes the difficulty by at most a quarter.** -/
theorem DifficultyAdjuster.multiplier_bounds (da : DifficultyAdjuster) (avgTime targetTime : Int64)
    (parent : Header) :
    (0.75 : ℚ) ≤ da.multiplier avgTime targetTime parent
      ∧ da.multiplier avgTime targetTime parent ≤ (1.25 : ℚ) :=
  ⟨le_clampFloat64 (by norm_num), clampFloat64_le (by norm_num)⟩

/-- A larger factor gives a difficulty that is not smaller. -/
theorem scaleCeil_mono (hd : 0 ≤ d) {g : ℚ} (h : f ≤ g) : scaleCeil d f ≤ scaleCeil d g := by
  refine truncate_mono ?_
  have hmul : (d : ℚ) * f ≤ d * g := mul_le_mul_of_nonneg_left h (by exact_mod_cast hd)
  linarith

theorem scaleCeil_nonneg (hd : 0 ≤ d) (hf : 0 ≤ f) : 0 ≤ scaleCeil d f := by
  refine truncate_nonneg ?_
  have hmul : (0 : ℚ) ≤ d * f := mul_nonneg (by exact_mod_cast hd) hf
  linarith

/-- The offset brings the product to just below the next integer. -/
theorem scaleCeil_bounds (hd : 0 ≤ d) (hf : 0 ≤ f) :
    (scaleCeil d f : ℚ) ≤ d * f + 0.999999 ∧ d * f + 0.999999 < (scaleCeil d f : ℚ) + 1 := by
  have hmul : (0 : ℚ) ≤ d * f := mul_nonneg (by exact_mod_cast hd) hf
  change ((truncate ((d : ℚ) * f + 0.999999) : ℤ) : ℚ) ≤ _ ∧ _ < ((truncate _ : ℤ) : ℚ) + 1
  rw [truncate_of_nonneg (by linarith)]
  exact ⟨Int.floor_le _, Int.lt_floor_add_one _⟩

/-- With a factor in quarters the offset reaches the next integer. -/
theorem scaleCeil_eq_ceil (hd : 0 ≤ d) {n : ℤ} (hf : 0 ≤ f) (hn : f * 4 = n) :
    scaleCeil d f = ⌈(d : ℚ) * f⌉ := by
  have hquarter : (d : ℚ) * f * (4 : ℕ) = (d * n : ℤ) := by
    push_cast
    rw [mul_assoc, hn]
  exact truncate_add_eq_ceil (by norm_num) hquarter (mul_nonneg (by exact_mod_cast hd) hf)
    (by norm_num) (by norm_num)

/-- The ceiling of so many quarters, in integers. -/
theorem ceil_mul_quarters (d n : ℤ) (hn : f * 4 = n) : ⌈(d : ℚ) * f⌉ = (d * n + 3) / 4 := by
  have hf : (d : ℚ) * f = (d * n : ℤ) / (4 : ℕ) := by
    push_cast
    rw [← hn]
    ring
  rw [hf, Rat.ceil_intCast_div_natCast]
  omega

/-- A factor of at most five quarters, in integers. -/
theorem scaleCeil_le_of_le_quarters (hd : 0 ≤ d) (hf : f ≤ 1.25) :
    scaleCeil d f ≤ (d * 5 + 3) / 4 := by
  refine (scaleCeil_mono hd hf).trans ?_
  rw [scaleCeil_eq_ceil (n := 5) hd (by norm_num) (by norm_num),
    ceil_mul_quarters _ 5 (by norm_num)]

/-- A factor of at least three quarters, in integers. -/
theorem le_scaleCeil_of_quarters_le (hd : 0 ≤ d) (hf : 0.75 ≤ f) :
    (d * 3 + 3) / 4 ≤ scaleCeil d f := by
  refine le_trans ?_ (scaleCeil_mono hd hf)
  rw [scaleCeil_eq_ceil (n := 3) hd (by norm_num) (by norm_num),
    ceil_mul_quarters _ 3 (by norm_num)]

/-! ## The difficulty of the next block -/

namespace DifficultyAdjuster

variable (da : DifficultyAdjuster)

/-- `MinDifficulty` as the controller compares it. -/
def minDiff : ℤ := da.consensusParams.minDifficulty.toNat

/-- The cuts of `enforceBoundaryConditionsLocked`, from the outermost inwards. -/
theorem enforceBoundaryConditions_eq (n p : ℤ) :
    da.enforceBoundaryConditions ℚ n p
      = max (max (min (scaleCeil p (1.25 : ℚ)) (min (2 ^ 256) (max n da.minDiff)))
          (scaleCeil p (0.75 : ℚ))) da.minDiff := by
  simp only [enforceBoundaryConditions, ← max_def_lt, ← min_def_lt, gt_iff_lt, minDiff]

/-- The window is a capacity for `make`, or nobody asks for one. -/
def WindowFits (parent : Header) : Prop :=
  da.getAncestor = none ∨ parent.number = none ∨ 0 ≤ da.windowSize

/-- The measured block times ask for the largest decrease. -/
def RequestsMaximalDecrease (currentTime : UInt64) (parent : Header) : Prop :=
  ∃ avgTime, da.computeAverageBlockTime currentTime parent = some avgTime
    ∧ da.multiplier avgTime da.consensusParams.blockTimeTargetSeconds parent = (0.75 : ℚ)

variable {da} {currentTime : UInt64} {parent : Header}

theorem exists_computeAverageBlockTime_iff :
    (∃ avgTime, da.computeAverageBlockTime currentTime parent = some avgTime)
      ↔ da.WindowFits parent := by
  unfold computeAverageBlockTime WindowFits Header.height?
  cases hanc : da.getAncestor with
  | none => simp
  | some getAncestor =>
    cases hnum : parent.number with
    | none => simp
    | some n =>
      have hneg : da.medianWindow < 0 ↔ da.windowSize < 0 := by
        unfold medianWindow
        split
        · next hbig =>
          exact iff_of_false (by decide) (fun h => absurd (Int64.lt_trans hbig h) (by decide))
        · exact Iff.rfl
      by_cases hwin : da.windowSize < 0
      · simp [hneg, hwin]
      · have hle : 0 ≤ da.windowSize := Int64.not_lt.mp hwin
        simp only [Option.map_some, hneg, hwin, if_false, hle, or_true, iff_true]
        exact ⟨_, rfl⟩

/-- `CalcDifficulty` returns where the block time is known, and the factor decides. -/
theorem calcDifficulty_eq_some_iff {r : ℤ} (hdiff : parent.difficulty = some p) :
    da.calcDifficulty ℚ currentTime (some parent) = some r
      ↔ ∃ avgTime, da.computeAverageBlockTime currentTime parent = some avgTime
        ∧ r = da.enforceBoundaryConditions ℚ (da.calculateDeterministicDifficulty ℚ avgTime
            da.consensusParams.blockTimeTargetSeconds p parent) p := by
  simp only [calcDifficulty, Option.bind_some, hdiff, Option.map_some, Option.map_eq_some_iff]
  exact exists_congr fun avgTime => and_congr_right fun _ => eq_comm

/-- **What bounds the result**, whatever the controller asks for: the floor, and a quarter
up or down where the floor leaves room for it. -/
theorem enforceBoundaryConditions_bounds (da : DifficultyAdjuster) (n : ℤ) (hp : 0 ≤ p) :
    ⌈(p : ℚ) * 0.75⌉ ≤ da.enforceBoundaryConditions ℚ n p
      ∧ da.minDiff ≤ da.enforceBoundaryConditions ℚ n p
      ∧ (da.enforceBoundaryConditions ℚ n p ≤ ⌈(p : ℚ) * 1.25⌉
          ↔ da.minDiff ≤ ⌈(p : ℚ) * 1.25⌉) := by
  have hlow : scaleCeil p (0.75 : ℚ) = ⌈(p : ℚ) * 0.75⌉ :=
    scaleCeil_eq_ceil (n := 3) hp (by norm_num) (by norm_num)
  have hhigh : scaleCeil p (1.25 : ℚ) = ⌈(p : ℚ) * 1.25⌉ :=
    scaleCeil_eq_ceil (n := 5) hp (by norm_num) (by norm_num)
  have hle : scaleCeil p (0.75 : ℚ) ≤ scaleCeil p (1.25 : ℚ) := scaleCeil_mono hp (by norm_num)
  rw [enforceBoundaryConditions_eq, ← hlow, ← hhigh]
  refine ⟨le_max_of_le_left (le_max_right _ _), le_max_right _ _, ?_⟩
  rw [max_le_iff, max_le_iff]
  exact ⟨fun h => h.2, fun h => ⟨⟨min_le_left _ _, hle⟩, h⟩⟩

/-- **Below the cap of 256 bits the cuts do nothing**: the factor is within them already, and
only the floor is left. -/
theorem calcDifficulty_eq_scaled {avgTime : Int64} (hdiff : parent.difficulty = some p)
    (hp : 0 ≤ p) (hcap : p ≤ 2 ^ 255)
    (havg : da.computeAverageBlockTime currentTime parent = some avgTime) :
    da.calcDifficulty ℚ currentTime (some parent)
      = some (max (scaleCeil p (da.multiplier avgTime da.consensusParams.blockTimeTargetSeconds
          parent : ℚ)) da.minDiff) := by
  obtain ⟨hlow, hhigh⟩ := da.multiplier_bounds avgTime da.consensusParams.blockTimeTargetSeconds
    parent
  have hmin := scaleCeil_mono hp hlow
  have hmax := scaleCeil_mono hp hhigh
  have hnonneg : 0 ≤ scaleCeil p
      (da.multiplier avgTime da.consensusParams.blockTimeTargetSeconds parent : ℚ) :=
    scaleCeil_nonneg hp (le_trans (by norm_num) hlow)
  have htop : scaleCeil p (1.25 : ℚ) ≤ 2 ^ 256 := by
    rw [scaleCeil_eq_ceil (n := 5) hp (by norm_num) (by norm_num),
      ceil_mul_quarters p 5 (by norm_num)]
    omega
  have hfloor : da.minDiff ≤ 2 ^ 256 := by
    have h := da.consensusParams.minDifficulty.toNat_lt
    unfold minDiff
    omega
  refine (calcDifficulty_eq_some_iff hdiff).mpr ⟨avgTime, havg, ?_⟩
  rw [calculateDeterministicDifficulty]
  rw [enforceBoundaryConditions_eq]
  omega

/-- **The largest decrease** that is asked for is a decrease from 4 on. -/
theorem enforceBoundaryConditions_lt (hp : 4 ≤ p) (hmin : da.minDiff < p) :
    da.enforceBoundaryConditions ℚ (scaleCeil p (0.75 : ℚ)) p < p := by
  have hlow : scaleCeil p (0.75 : ℚ) < p := by
    rw [scaleCeil_eq_ceil (n := 3) (by omega) (by norm_num) (by norm_num),
      ceil_mul_quarters p 3 (by norm_num)]
    omega
  rw [enforceBoundaryConditions_eq]
  refine max_lt (max_lt ?_ hlow) hmin
  exact (min_le_right _ _).trans_lt ((min_le_right _ _).trans_lt (max_lt hlow hmin))

end DifficultyAdjuster

/-- **When the difficulty moves as it should.** For a parent of difficulty `p`, `CalcDifficulty`
returns a value below `p` where the largest decrease is asked for and `p` is above the floor,
and a value within a quarter of `p`, rounded up, and not below the floor in any case – exactly
if the window is a capacity, `p` is at least 4 in the first case, and the floor is within reach
of one increase. -/
theorem calcDifficulty_moderate_iff (da : DifficultyAdjuster) (currentTime : UInt64)
    (parent : Header) (p : ℤ) :
    (∃ r, da.calcDifficulty ℚ currentTime (some { parent with difficulty := some p }) = some r
        ∧ (da.minDiff < p →
            da.RequestsMaximalDecrease currentTime { parent with difficulty := some p } → r < p)
        ∧ ⌈(p : ℚ) * 0.75⌉ ≤ r ∧ r ≤ ⌈(p : ℚ) * 1.25⌉ ∧ da.minDiff ≤ r)
      ↔ da.WindowFits parent ∧ (da.minDiff < p →
            da.RequestsMaximalDecrease currentTime { parent with difficulty := some p } → 4 ≤ p)
        ∧ da.minDiff ≤ ⌈(p : ℚ) * 1.25⌉ := by
  have hfloor : 0 ≤ da.minDiff := Int.natCast_nonneg _
  have hlow : ⌈(p : ℚ) * 0.75⌉ = (p * 3 + 3) / 4 := ceil_mul_quarters p 3 (by norm_num)
  have hhigh : ⌈(p : ℚ) * 1.25⌉ = (p * 5 + 3) / 4 := ceil_mul_quarters p 5 (by norm_num)
  constructor
  · rintro ⟨r, hr, hdown, hlower, hupper, hmin⟩
    obtain ⟨avgTime, havg, -⟩ := (DifficultyAdjuster.calcDifficulty_eq_some_iff rfl).mp hr
    refine ⟨DifficultyAdjuster.exists_computeAverageBlockTime_iff.mp ⟨avgTime, havg⟩, ?_,
      hmin.trans hupper⟩
    intro hp hslow
    -- below 4 the lower bound is the difficulty itself
    have hlt := hdown hp hslow
    omega
  · rintro ⟨hwin, hfour, hreach⟩
    have hp : 0 ≤ p := by omega
    obtain ⟨avgTime, havg⟩ := DifficultyAdjuster.exists_computeAverageBlockTime_iff.mpr
      (show da.WindowFits { parent with difficulty := some p } from hwin)
    obtain ⟨hlower, hmin, hupper⟩ := da.enforceBoundaryConditions_bounds
      (da.calculateDeterministicDifficulty ℚ avgTime
        da.consensusParams.blockTimeTargetSeconds p { parent with difficulty := some p }) hp
    refine ⟨_, (DifficultyAdjuster.calcDifficulty_eq_some_iff rfl).mpr ⟨avgTime, havg, rfl⟩, ?_,
      hlower, hupper.mpr hreach, hmin⟩
    intro habove hslow
    obtain ⟨avgTime', havg', hfactor⟩ := hslow
    obtain rfl : avgTime' = avgTime := Option.some.inj (havg'.symm.trans havg)
    have hdiff : da.calculateDeterministicDifficulty ℚ avgTime'
        da.consensusParams.blockTimeTargetSeconds p { parent with difficulty := some p }
        = scaleCeil p (0.75 : ℚ) := by
      rw [DifficultyAdjuster.calculateDeterministicDifficulty, hfactor]
      exact if_neg (not_lt.mpr (scaleCeil_nonneg hp (by norm_num)))
    rw [hdiff]
    exact DifficultyAdjuster.enforceBoundaryConditions_lt (hfour habove ⟨avgTime', havg', hfactor⟩)
      habove

/-- Blocks of the given difficulty, five minutes apart. -/
def slowChain (difficulty : ℤ) : GetAncestorFunc := fun height =>
  if height ≤ 60 then some ⟨some height, 1000 + 300 * height.toUInt64, some difficulty, []⟩
  else none

/-- The controller of the default parameters on a slow chain. -/
def slowAdjuster (difficulty : ℤ) : DifficultyAdjuster :=
  { newDifficultyAdjuster (some ⟨30, 1, 10⟩) with getAncestor := some (slowChain difficulty) }

/-- **A difficulty of 3 stays**, with the default parameters and every block ten times too
slow: the largest decrease is asked for, and 3 comes out; and so for 2. -/
theorem difficulty_three_stays :
    (slowAdjuster 3).RequestsMaximalDecrease 19300 ⟨some 60, 19000, some 3, []⟩
      ∧ (slowAdjuster 3).minDiff < 3
      ∧ (slowAdjuster 3).calcDifficulty ℚ 19300 (some ⟨some 60, 19000, some 3, []⟩) = some 3
      ∧ (slowAdjuster 2).RequestsMaximalDecrease 19300 ⟨some 60, 19000, some 2, []⟩
      ∧ (slowAdjuster 2).minDiff < 2
      ∧ (slowAdjuster 2).calcDifficulty ℚ 19300 (some ⟨some 60, 19000, some 2, []⟩) = some 2 := by
  refine ⟨⟨300, by decide +kernel, by decide +kernel⟩, by decide +kernel, by decide +kernel,
    ⟨300, by decide +kernel, by decide +kernel⟩, by decide +kernel, by decide +kernel⟩

end NogoChain.Nogopow
