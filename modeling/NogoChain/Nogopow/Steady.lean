import Mathlib.Tactic.Positivity
import NogoChain.Nogopow.Bounds

/-!
# The controller on a steady chain

If the times between the last blocks are all within a fraction `ε` of the target, each of the
readings of the controller is of the order of `ε`: the median is one of the times, the integral
is at most the sum of a geometric series, and the double exponential smoothing, which may
overshoot, is at most 1.35 times as large as the largest of the ten errors it smooths. So the
factor is near 1 (`abs_multiplier_sub_one_le`).
-/

namespace NogoChain.Nogopow

open FactorArith

theorem abs_clampFloat64_sub_le {f a lo hi : ℚ} (hlo : lo ≤ a) (hhi : a ≤ hi) :
    |clampFloat64 f lo hi - a| ≤ |f - a| := by
  unfold clampFloat64
  split
  · next h =>
    rw [abs_of_nonpos (by linarith), abs_of_nonpos (by linarith)]
    linarith
  · split
    · next h =>
      rw [abs_of_nonneg (by linarith), abs_of_nonneg (by linarith)]
      linarith
    · exact le_rfl

theorem abs_clampFloat64_le {f lo hi : ℚ} (hlo : lo ≤ 0) (hhi : 0 ≤ hi) :
    |clampFloat64 f lo hi| ≤ |f| := by
  simpa only [sub_zero] using abs_clampFloat64_sub_le (f := f) hlo hhi

/-- A time between blocks is within a fraction of the target. -/
def Near (ε : ℚ) (target interval : Int64) : Prop :=
  |(interval.toInt : ℚ) - target.toInt| ≤ ε * target.toInt

instance (ε : ℚ) (target interval : Int64) : Decidable (Near ε target interval) :=
  inferInstanceAs (Decidable (_ ≤ _))

/-- The target is between one second and the five minutes at which the median cuts. -/
structure Moderate (target : Int64) : Prop where
  pos : 0 < target.toInt
  le : target.toInt ≤ 300

variable {ε δ : ℚ} {target interval : Int64}

theorem Near.mono (h : Near ε target interval) (ht : Moderate target) (hle : ε ≤ δ) :
    Near δ target interval :=
  h.trans (mul_le_mul_of_nonneg_right hle (by exact_mod_cast ht.pos.le))

theorem near_target (ht : Moderate target) (h0 : 0 ≤ ε) : Near ε target target := by
  have hpos : (0 : ℚ) ≤ target.toInt := by exact_mod_cast ht.pos.le
  rw [Near, sub_self, abs_zero]
  positivity

/-- Such a time is positive, and less than twice the target. -/
theorem Near.bounds (h : Near ε target interval) (ht : Moderate target) (hε : ε < 1) :
    0 < interval.toInt ∧ interval.toInt < 2 * target.toInt := by
  have hpos : (0 : ℚ) < target.toInt := by exact_mod_cast ht.pos
  obtain ⟨hlow, hhigh⟩ := abs_le.mp h
  have hlt : ε * target.toInt < target.toInt := mul_lt_of_lt_one_left hpos hε
  constructor
  · have : (0 : ℚ) < interval.toInt := by linarith
    exact_mod_cast this
  · have : (interval.toInt : ℚ) < 2 * target.toInt := by linarith
    exact_mod_cast this

theorem Near.abs_timeError_le (h : Near ε target interval) (ht : Moderate target) (hε : ε < 1) :
    |(timeError interval target : ℚ)| ≤ ε := by
  obtain ⟨hpos, hlt⟩ := h.bounds ht hε
  have htarget : (0 : ℚ) < target.toInt := by exact_mod_cast ht.pos
  have hle := ht.le
  have hsub : (target - interval).toInt = target.toInt - interval.toInt := by
    rw [Int64.toInt_sub]
    exact Int.bmod_eq_of_le_mul_two (by omega) (by omega)
  have herror : ((target - interval).toInt : ℚ) / target.toInt
      = -((interval.toInt - target.toInt) / target.toInt) := by
    rw [hsub]
    push_cast
    ring
  refine (abs_clampFloat64_le (by norm_num) (by norm_num)).trans ?_
  change |((target - interval).toInt : ℚ) / target.toInt| ≤ ε
  rw [herror, abs_neg, abs_div, abs_of_pos htarget, div_le_iff₀ htarget]
  exact h

/-! ## The last blocks -/

/-- **A steady chain**: the times between the last hundred blocks below a height are within a
fraction of the target, as far as the blocks are found. -/
def Steady (ε : ℚ) (target : Int64) (timeAt : Nat → Option UInt64) (height : Nat) : Prop :=
  ∀ k, k < height → height ≤ k + scanDepth → ∀ curr prev, timeAt (k + 1) = some curr →
    timeAt k = some prev → Near ε target (curr - prev).toInt64

variable {timeAt : Nat → Option UInt64} {height : Nat}

/-- A cut to the range from 1 to 300 seconds brings a time no further from the target. -/
theorem Near.of_windowInterval {curr prev : Option UInt64} (ht : Moderate target) (hε : ε < 1)
    (h : ∀ c p, curr = some c → prev = some p → Near ε target (c - p).toInt64)
    (hw : windowInterval curr prev = some interval) : Near ε target interval := by
  unfold windowInterval at hw
  split at hw
  · next c p =>
    have hnear := h c p rfl rfl
    obtain ⟨hpos, -⟩ := hnear.bounds ht hε
    split at hw
    · cases hw
    · dsimp only at hw
      have h1 : (1 : Int64).toInt = 1 := rfl
      have h300 : (300 : Int64).toInt = 300 := rfl
      have hlow : ¬ (c - p).toInt64 < 1 := by
        rw [Int64.lt_iff_toInt_lt, h1]
        omega
      simp only [if_neg hlow] at hw
      split at hw
      · next hcut =>
        cases hw
        rw [gt_iff_lt, Int64.lt_iff_toInt_lt, h300] at hcut
        have hle : (target.toInt : ℚ) ≤ 300 := by exact_mod_cast ht.le
        have hcut' : (300 : ℚ) ≤ (c - p).toInt64.toInt := by exact_mod_cast hcut.le
        unfold Near at hnear ⊢
        rw [h300, abs_of_nonneg (by push_cast; linarith)]
        rw [abs_of_nonneg (by linarith)] at hnear
        push_cast
        linarith
      · cases hw
        exact hnear
  · cases hw

theorem near_of_mem_timeDiffs (ht : Moderate target) (hε : ε < 1)
    (h : Steady ε target timeAt height) {window : Nat} (hwindow : window ≤ scanDepth)
    (hmem : interval ∈ timeDiffs timeAt height window) : Near ε target interval := by
  obtain ⟨k, hk, hw⟩ := List.mem_filterMap.mp hmem
  have hk := List.mem_range.mp hk
  refine Near.of_windowInterval ht hε (fun c p hc hp => ?_) hw
  refine h (height - (k + 1)) (by omega) (by omega) c p ?_ hp
  rw [← hc]
  congr 1
  omega

theorem median_mem {diffs : List Int64} (h : diffs.length > 0) : median diffs ∈ diffs := by
  have hlt : diffs.length / 2 < (diffs.insertionSort (· ≤ ·)).length := by
    rw [List.length_insertionSort]
    omega
  unfold median
  rw [List.getD_eq_getElem?_getD, List.getElem?_eq_getElem hlt, Option.getD_some]
  exact (List.mem_insertionSort _).mp (List.getElem_mem hlt)

/-- The neighbours that are scanned. -/
theorem of_mem_scanBack {pair : UInt64 × UInt64} : ∀ {n i : Nat},
    pair ∈ scanBack timeAt height n i → ∃ k, k < height ∧ height ≤ k + (i + n)
      ∧ timeAt (k + 1) = some pair.1 ∧ timeAt k = some pair.2
  | 0, _, h => nomatch h
  | n + 1, i, h => by
    have hrest : pair ∈ scanBack timeAt height n (i + 1) → ∃ k, k < height
        ∧ height ≤ k + (i + (n + 1)) ∧ timeAt (k + 1) = some pair.1 ∧ timeAt k = some pair.2 := by
      intro h
      obtain ⟨k, hk, hle, hpair⟩ := of_mem_scanBack h
      exact ⟨k, hk, by omega, hpair⟩
    unfold scanBack at h
    split at h
    · split at h
      · cases h
      · next block hblock =>
        split at h
        · exact hrest h
        · next prev hprev =>
          split at hprev
          · next hlt =>
            rcases List.mem_cons.mp h with rfl | h
            · refine ⟨height - i - 1, by omega, by omega, ?_, hprev⟩
              rw [← hblock]
              congr 1
              omega
            · exact hrest h
          · cases hprev
    · cases h

theorem length_scanBack_le : ∀ (n i : Nat), (scanBack timeAt height n i).length ≤ n
  | 0, _ => Nat.le_refl _
  | n + 1, i => by
    have ih := length_scanBack_le n (i + 1)
    unfold scanBack
    split
    · split
      · exact Nat.zero_le _
      · split
        · exact ih.trans (Nat.le_succ n)
        · exact Nat.succ_le_succ ih
    · exact Nat.zero_le _

theorem near_of_mem_scanBack (h : Steady ε target timeAt height) {n : Nat} (hn : n ≤ scanDepth)
    {pair : UInt64 × UInt64} (hmem : pair ∈ scanBack timeAt height n 0) :
    Near ε target (pair.1 - pair.2).toInt64 := by
  obtain ⟨k, hk, hle, hcurr, hprev⟩ := of_mem_scanBack hmem
  exact h k hk (by omega) _ _ hcurr hprev

/-! ## The integral -/

theorem abs_integralStep_le (ht : Moderate target) (hε : ε < 1) (h0 : 0 ≤ ε) {acc : ℚ × Nat}
    {pair : UInt64 × UInt64} (hacc : |acc.1| ≤ 100 / 3 * ε)
    (hnear : Near ε target (pair.1 - pair.2).toInt64) :
    |(integralStep target acc pair).1| ≤ 100 / 3 * ε := by
  unfold integralStep
  dsimp only
  split
  · exact hacc
  · split
    · exact hacc
    · have hlt := (hnear.bounds ht hε).2
      have hfour : (target * 4).toInt = target.toInt * 4 := by
        have h4 : (4 : Int64).toInt = 4 := rfl
        have hle := ht.le
        have hpos := ht.pos
        rw [Int64.toInt_mul, h4]
        exact Int.bmod_eq_of_le_mul_two (by omega) (by omega)
      have hpos := ht.pos
      rw [if_neg (c := (pair.1 - pair.2).toInt64 > target * 4)
        (by rw [gt_iff_lt, Int64.lt_iff_toInt_lt, hfour]; omega)]
      have herr := hnear.abs_timeError_le ht hε
      split
      · calc |acc.1 * 0.97 + timeError (pair.1 - pair.2).toInt64 target|
            ≤ |acc.1 * 0.97| + |timeError (pair.1 - pair.2).toInt64 target| := abs_add_le _ _
          _ = |acc.1| * 0.97 + |timeError (pair.1 - pair.2).toInt64 target| := by
            rw [abs_mul, abs_of_pos (by norm_num : (0 : ℚ) < 0.97)]
          _ ≤ 100 / 3 * ε * 0.97 + ε := by gcongr
          _ = 100 / 3 * ε := by ring
      · linarith

theorem abs_foldl_integralStep_le (ht : Moderate target) (hε : ε < 1) (h0 : 0 ≤ ε)
    {pairs : List (UInt64 × UInt64)}
    (hnear : ∀ pair ∈ pairs, Near ε target (pair.1 - pair.2).toInt64) {acc : ℚ × Nat}
    (hacc : |acc.1| ≤ 100 / 3 * ε) :
    |(pairs.foldl (integralStep target) acc).1| ≤ 100 / 3 * ε := by
  induction pairs generalizing acc with
  | nil => exact hacc
  | cons pair pairs ih =>
    rw [List.forall_mem_cons] at hnear
    exact ih hnear.2 (abs_integralStep_le ht hε h0 hacc hnear.1)

/-! ## The smoothing -/

theorem abs_smoothingError_le (ht : Moderate target) (hε : ε < 1) {pair : UInt64 × UInt64} {e : ℚ}
    (hnear : Near ε target (pair.1 - pair.2).toInt64) (h : smoothingError target pair = some e) :
    |e| ≤ ε := by
  unfold smoothingError at h
  split at h
  · cases h
  · dsimp only at h
    cases h
    obtain ⟨hpos, -⟩ := hnear.bounds ht hε
    split
    · exact (near_target ht (abs_nonneg _ |>.trans (hnear.abs_timeError_le ht hε))).abs_timeError_le
        ht hε
    · exact hnear.abs_timeError_le ht hε

/-- What is left of a level and a trend after so many steps of the smoothing, as the coefficients
of the forecast, and what the errors of these steps add at most. -/
def smoothingGain : Nat → ℚ × ℚ × ℚ
  | 0 => (1, 1, 0)
  | n + 1 =>
    let (level, trend, gain) := smoothingGain n
    (0.7 * level - 0.03 * trend, 0.7 * level + 0.97 * trend, gain + |0.3 * level + 0.03 * trend|)

theorem abs_foldl_smoothStep_le {errors : List ℚ} (h : ∀ e ∈ errors, |e| ≤ ε) (acc : ℚ × ℚ) :
    |(errors.foldl smoothStep acc).1 + (errors.foldl smoothStep acc).2
        - ((smoothingGain errors.length).1 * acc.1 + (smoothingGain errors.length).2.1 * acc.2)|
      ≤ (smoothingGain errors.length).2.2 * ε := by
  induction errors generalizing acc with
  | nil => simp [smoothingGain]
  | cons e errors ih =>
    rw [List.forall_mem_cons] at h
    have hrest := ih h.2 (smoothStep acc e)
    rw [List.foldl_cons, List.length_cons]
    simp only [smoothingGain]
    generalize smoothingGain errors.length = g at hrest ⊢
    generalize errors.foldl smoothStep (smoothStep acc e) = last at hrest ⊢
    obtain ⟨level, trend, gain⟩ := g
    dsimp only at hrest ⊢
    have hstep : last.1 + last.2 - ((0.7 * level - 0.03 * trend) * acc.1
          + (0.7 * level + 0.97 * trend) * acc.2)
        = (last.1 + last.2 - (level * (smoothStep acc e).1 + trend * (smoothStep acc e).2))
          + (0.3 * level + 0.03 * trend) * e := by
      simp only [smoothStep]
      ring
    rw [hstep]
    calc _ ≤ |last.1 + last.2 - (level * (smoothStep acc e).1 + trend * (smoothStep acc e).2)|
          + |(0.3 * level + 0.03 * trend) * e| := abs_add_le _ _
      _ ≤ gain * ε + |0.3 * level + 0.03 * trend| * ε := by
        rw [abs_mul]
        gcongr
        exact h.1
      _ = (gain + |0.3 * level + 0.03 * trend|) * ε := by ring

/-- **The smoothing overshoots by at most 35 percent.** -/
theorem abs_smoothed_le (h0 : 0 ≤ ε) {errors : List ℚ} (h : ∀ e ∈ errors, |e| ≤ ε)
    (hlength : errors.length ≤ 10) : |DifficultyAdjuster.smoothed errors| ≤ 1.35 * ε := by
  unfold DifficultyAdjuster.smoothed
  cases hrev : errors.reverse with
  | nil =>
    rw [show |(0.0 : ℚ)| = 0 by norm_num]
    positivity
  | cons oldest newer =>
    have hmem : ∀ e ∈ oldest :: newer, |e| ≤ ε := by
      intro e he
      rw [← hrev] at he
      exact h e (List.mem_reverse.mp he)
    rw [List.forall_mem_cons] at hmem
    have hshort : newer.length < 10 := by
      have hcount := congrArg List.length hrev
      rw [List.length_reverse, List.length_cons] at hcount
      omega
    have hgain : ∀ n < 10, |(smoothingGain n).1| + (smoothingGain n).2.2 ≤ 1.35 := by
      decide +kernel
    have hfold := abs_foldl_smoothStep_le hmem.2 (oldest, 0.0)
    refine (abs_clampFloat64_le (by norm_num) (by norm_num)).trans ?_
    generalize (newer.foldl smoothStep (oldest, 0.0)).1
      + (newer.foldl smoothStep (oldest, 0.0)).2 = forecast at hfold ⊢
    have hzero : (0.0 : ℚ) = 0 := by norm_num
    rw [hzero, mul_zero, add_zero] at hfold
    have hgain := hgain newer.length hshort
    generalize smoothingGain newer.length = g at hfold hgain
    calc |forecast| = |(forecast - g.1 * oldest) + g.1 * oldest| := by rw [sub_add_cancel]
      _ ≤ |forecast - g.1 * oldest| + |g.1 * oldest| := abs_add_le _ _
      _ ≤ g.2.2 * ε + |g.1| * ε := by
        rw [abs_mul]
        gcongr
        exact hmem.1
      _ = (|g.1| + g.2.2) * ε := by ring
      _ ≤ 1.35 * ε := by gcongr

/-! ## The factor -/

theorem Moderate.lt (ht : Moderate target) : 0 < target := Int64.lt_iff_toInt_lt.mpr ht.pos

theorem Near.lt (h : Near ε target interval) (ht : Moderate target) (hε : ε < 1) : 0 < interval :=
  Int64.lt_iff_toInt_lt.mpr (h.bounds ht hε).1

namespace DifficultyAdjuster

/-- The time between blocks that the controller aims at. -/
abbrev targetTime (da : DifficultyAdjuster) : Int64 := da.consensusParams.blockTimeTargetSeconds

variable {da : DifficultyAdjuster} {parent : Header} {getAncestor : GetAncestorFunc}
  {currentTime : UInt64} {avgTime : Int64}

/-- The time since the parent, where it is near the target, or the target itself. -/
theorem near_singleInterval (ht : Moderate da.targetTime) (h0 : 0 ≤ δ)
    (h : Near δ da.targetTime (currentTime - parent.time).toInt64) :
    Near δ da.targetTime (da.singleInterval currentTime parent) := by
  unfold singleInterval
  dsimp only
  split
  · exact h
  · exact near_target ht h0

section Ancestors

variable (ht : Moderate da.targetTime) (hε : ε < 1) (hancestor : da.getAncestor = some getAncestor)
  (hheight : parent.height? = some height)
  (hsteady : Steady ε da.targetTime getAncestor.timeAt height)
include ht hε hancestor hheight hsteady

theorem near_computeAverageBlockTime (h0 : 0 ≤ δ) (hle : ε ≤ δ)
    (hnew : Near δ da.targetTime (currentTime - parent.time).toInt64)
    (havg : da.computeAverageBlockTime currentTime parent = some avgTime) :
    Near δ da.targetTime avgTime := by
  have hwindow : da.medianWindow.toInt.toNat ≤ scanDepth := by
    unfold medianWindow scanDepth
    split
    · decide
    · next h =>
      rw [gt_iff_lt, Int64.lt_iff_toInt_lt] at h
      have h50 : (50 : Int64).toInt = 50 := rfl
      omega
  unfold computeAverageBlockTime at havg
  rw [hancestor, hheight] at havg
  dsimp only at havg
  split at havg
  · cases havg
  · cases havg
    split
    · next hpos =>
      exact (near_of_mem_timeDiffs ht hε hsteady hwindow (median_mem hpos)).mono ht hle
    · exact near_singleInterval ht h0 hnew

theorem abs_computeChainIntegral_le (h0 : 0 ≤ ε) :
    |(da.computeChainIntegral parent : ℚ)| ≤ 100 / 3 * ε := by
  have hzero : |(0.0 : ℚ)| ≤ 100 / 3 * ε := by
    rw [show |(0.0 : ℚ)| = 0 by norm_num]
    positivity
  unfold computeChainIntegral
  rw [hancestor, hheight]
  dsimp only
  split
  · exact hzero
  · refine (abs_clampFloat64_le (by norm_num) (by norm_num)).trans ?_
    exact abs_foldl_integralStep_le ht hε h0
      (fun _ => near_of_mem_scanBack hsteady (Nat.le_refl _)) hzero

theorem abs_calculateDoubleExponentialSmoothing_le (h0 : 0 ≤ ε)
    (hwindow : da.smoothingWindow ≤ 10) (avgTime : Int64) :
    |(da.calculateDoubleExponentialSmoothing avgTime da.targetTime parent : ℚ)| ≤ 1.35 * ε := by
  unfold calculateDoubleExponentialSmoothing
  rw [hancestor, hheight]
  dsimp only
  rw [if_neg (Int64.not_le.mpr ht.lt)]
  refine abs_smoothed_le h0 (fun e he => ?_)
    ((List.length_filterMap_le _ _).trans ((length_scanBack_le _ _).trans hwindow))
  obtain ⟨pair, hpair, herr⟩ := List.mem_filterMap.mp he
  have hdepth : da.smoothingWindow ≤ scanDepth := hwindow.trans (by decide)
  exact abs_smoothingError_le ht hε (near_of_mem_scanBack hsteady hdepth hpair) herr

/-- **The factor on a steady chain.** -/
theorem abs_multiplier_sub_one_le (h0 : 0 ≤ ε) (hδ : δ < 1) (hwindow : da.smoothingWindow ≤ 10)
    (havg : Near δ da.targetTime avgTime) :
    |da.multiplier avgTime da.targetTime parent - 1| ≤ 1.105 * ε + 0.105 * δ := by
  have herror := abs_le.mp (havg.abs_timeError_le ht hδ)
  have hintegral := abs_le.mp (abs_computeChainIntegral_le ht hε hancestor hheight hsteady h0)
  have hsmoothed := abs_le.mp (abs_calculateDoubleExponentialSmoothing_le ht hε hancestor hheight
    hsteady h0 hwindow avgTime)
  unfold multiplier
  rw [if_pos ⟨havg.lt ht hδ, ht.lt⟩]
  refine (abs_clampFloat64_sub_le (by norm_num) (by norm_num)).trans ?_
  rw [abs_le]
  constructor <;> linarith

end Ancestors

/-- **The factor of a controller without ancestors.** -/
theorem abs_multiplier_sub_one_le_of_alone (ht : Moderate da.targetTime) (hδ : δ < 1)
    (hancestor : da.getAncestor = none) (havg : Near δ da.targetTime avgTime) :
    |da.multiplier avgTime da.targetTime parent - 1| ≤ 0.405 * δ := by
  have herror := abs_le.mp (havg.abs_timeError_le ht hδ)
  unfold multiplier computeChainIntegral calculateDoubleExponentialSmoothing
  rw [if_pos ⟨havg.lt ht hδ, ht.lt⟩, hancestor]
  dsimp only
  rw [if_pos (havg.lt ht hδ)]
  refine (abs_clampFloat64_sub_le (by norm_num) (by norm_num)).trans ?_
  rw [abs_le]
  constructor <;> linarith

end DifficultyAdjuster

end NogoChain.Nogopow
