import NogoChain.Chain.DifficultyCache
import NogoChain.Chain.State
import NogoChain.Nogopow.Steady

/-!
# The difficulty that is offered and the difficulty that is accepted

`Chain.CalcNextDifficulty` offers a difficulty for the next block, and
`BlockValidator.validateDifficulty` computes one of its own and accepts what is within fifteen
percent of it. Both run the controller, but not on the same data: the chain gives it the
ancestors, the validator gives it none. So the one goes by the median and the history of
block times and the other by the time of the single new block.

Both results are the parent's difficulty times a factor, rounded and floored. On a chain whose
block times are steady both factors are near 1, and the difficulty on offer is accepted
(`offered_difficulty_accepted`); after a run of quick blocks it is not
(`offered_difficulty_refused`).
-/

namespace NogoChain.Consensus

open Nogopow FactorArith

/-! ## The check -/

def difficultyTolerancePercent : Int := 15

/-- The header of the parent that `validateDifficulty` hands to the controller. -/
def parentHeader (parent : Block) : Header :=
  { parent.powHeader with
    parentHash := copy32 (if parent.hash.length > 0 then parent.hash else parent.header.prevHash) }

variable (R : Type) [Add R] [Sub R] [Mul R] [Div R] [Neg R] [LT R] [DecidableLT R]
  [OfScientific R] [FactorArith R]

/-- The comparison with the expected difficulty. -/
def checkTolerance {σ : Type} (actual expected : Int) : Prog σ GoError Fault Unit :=
  let minAllowed := expected * (100 - difficultyTolerancePercent) / 100
  let maxAllowed := expected * (100 + difficultyTolerancePercent) / 100
  if actual < minAllowed then
    Prog.throw (.wrap "%w: actual %d < min %d (expected %d, tolerance=%d%%)"
      [uint64Arg actual, uint64Arg minAllowed, uint64Arg expected, .num difficultyTolerancePercent]
      (.new "difficulty adjustment too low"))
  else if actual > maxAllowed then
    Prog.throw (.wrap "%w: actual %d > max %d (expected %d, tolerance=%d%%)"
      [uint64Arg actual, uint64Arg maxAllowed, uint64Arg expected, .num difficultyTolerancePercent]
      (.new "difficulty adjustment too high"))
  else pure ()

def validateDifficulty {σ : Type} (p : ConsensusParams) (block : Block) (parent : Option Block) :
    Prog σ GoError Fault Unit :=
  let bits := block.header.difficultyBits
  if block.height = 0 then
    if bits ≠ p.genesisDifficultyBits then
      Prog.throw (.wrap "%w: expected %d got %d"
        [.num p.genesisDifficultyBits.toNat, .num bits.toNat]
        (.new "genesis difficulty mismatch"))
    else pure ()
  else
    match parent with
    | none => Prog.throw (.new "parent block is nil for non-genesis block")
    | some parent =>
      if bits < p.minDifficultyBits then
        Prog.throw (.wrap "%w: %d < min %d" [.num bits.toNat, .num p.minDifficultyBits.toNat]
          (.new "difficulty below minimum"))
      else if bits > p.maxDifficultyBits then
        Prog.throw (.wrap "%w: %d > max %d" [.num bits.toNat, .num p.maxDifficultyBits.toNat]
          (.new "difficulty above maximum"))
      else if p.difficultyEnable then
        match (validatorAdjuster p).calcDifficulty R block.header.timestampUnix.toUInt64
            (some (parentHeader parent)) with
        | none => Prog.crash (.panic "make([]int64, 0, window)")
        | some expectedDifficulty => checkTolerance bits.toNat expectedDifficulty
      else pure ()

variable {R}

theorem checkTolerance_eq_ret {σ : Type} {actual expected : Int} {s t : σ} :
    checkTolerance actual expected s = .ret () t
      ↔ t = s ∧ expected * 85 / 100 ≤ actual ∧ actual ≤ expected * 115 / 100 := by
  unfold checkTolerance difficultyTolerancePercent
  split
  · next hlow =>
    exact iff_of_false nofun fun h => absurd h.2.1 (not_le.mpr hlow)
  · next hlow =>
    split
    · next hhigh =>
      exact iff_of_false nofun fun h => absurd h.2.2 (not_le.mpr hhigh)
    · next hhigh =>
      simp only [Prog.pure_apply, Outcome.ret.injEq, true_and]
      exact ⟨fun h => ⟨h.symm, not_lt.mp hlow, not_lt.mp hhigh⟩, fun h => h.1.symm⟩

/-- What the check accepts. -/
theorem validateDifficulty_eq_ret {σ : Type} {p : ConsensusParams} {block parent : Block}
    {s t : σ} :
    validateDifficulty R p block (some parent) s = .ret () t
      ↔ t = s ∧ if block.height = 0 then block.header.difficultyBits = p.genesisDifficultyBits
        else p.minDifficultyBits ≤ block.header.difficultyBits
          ∧ block.header.difficultyBits ≤ p.maxDifficultyBits
          ∧ (p.difficultyEnable = true →
              ∃ expected, (validatorAdjuster p).calcDifficulty R block.header.timestampUnix.toUInt64
                  (some (parentHeader parent)) = some expected
                ∧ expected * 85 / 100 ≤ block.header.difficultyBits.toNat
                ∧ block.header.difficultyBits.toNat ≤ expected * 115 / 100) := by
  have hpure : ∀ {P : Prop}, P →
      ((pure () : Prog σ GoError Fault Unit) s = .ret () t ↔ t = s ∧ P) := by
    intro P hP
    rw [Prog.pure_apply, Outcome.ret.injEq, and_iff_left hP]
    exact ⟨fun h => h.2.symm, fun h => ⟨rfl, h.symm⟩⟩
  unfold validateDifficulty
  dsimp only
  split
  · next hheight =>
    split
    · next hbits => exact iff_of_false nofun fun h => hbits h.2
    · next hbits => exact hpure (not_not.mp hbits)
  · next hheight =>
    split
    · next hmin => exact iff_of_false nofun fun h => absurd h.2.1 (UInt32.not_le.mpr hmin)
    · next hmin =>
      split
      · next hmax => exact iff_of_false nofun fun h => absurd h.2.2.1 (UInt32.not_le.mpr hmax)
      · next hmax =>
        have hbounds := And.intro (UInt32.not_lt.mp hmin) (UInt32.not_lt.mp hmax)
        split
        · next hon =>
          cases hcalc : (validatorAdjuster p).calcDifficulty R block.header.timestampUnix.toUInt64
              (some (parentHeader parent)) with
          | none => exact iff_of_false nofun fun h => by simpa using h.2.2.2 hon
          | some expected =>
            rw [checkTolerance_eq_ret]
            simp [hbounds.1, hbounds.2, hon]
        · next hoff => exact hpure ⟨hbounds.1, hbounds.2, fun h => absurd h hoff⟩

/-! ## The two factors -/

section Factors

variable (p : ConsensusParams) (blocks : List Block) (parent : Block) (time : Int64)

/-- The factor of the chain's controller, which has the ancestors. -/
def offeredFactor : ℚ :=
  ((chainAdjuster p blocks).computeAverageBlockTime time.toUInt64
    { parent.powHeader with parentHash := copy32 [] }).elim 1 fun avgTime =>
      (chainAdjuster p blocks).multiplier avgTime p.blockTimeTargetSeconds
        { parent.powHeader with parentHash := copy32 [] }

/-- The factor of the validator's controller, which has the time of the new block only. -/
def expectedFactor : ℚ :=
  (validatorAdjuster p).multiplier
    ((validatorAdjuster p).singleInterval time.toUInt64 (parentHeader parent))
    p.blockTimeTargetSeconds (parentHeader parent)

/-- The difficulty of the parent times a factor, rounded up and floored. -/
def scaledDifficulty (factor : ℚ) : ℤ :=
  max (scaleCeil (parent.header.difficultyBits.toNat : ℤ) factor) p.minDifficulty.toNat

end Factors

section Agreement

variable {p : ConsensusParams} {blocks : List Block} {parent : Block} {time : Int64}

theorem difficultyBits_nonneg_le (b : Block) :
    (0 : ℤ) ≤ b.header.difficultyBits.toNat ∧ (b.header.difficultyBits.toNat : ℤ) < 2 ^ 32 := by
  have h := b.header.difficultyBits.toNat_lt
  omega

/-- The value of the chain's controller. -/
theorem calcDifficulty_chainAdjuster : (chainAdjuster p blocks).calcDifficulty ℚ time.toUInt64
        (some { parent.powHeader with parentHash := copy32 [] })
      = some (scaledDifficulty p parent (offeredFactor p blocks parent time)) := by
  obtain ⟨hnonneg, hlt⟩ := difficultyBits_nonneg_le parent
  have hfits : (chainAdjuster p blocks).WindowFits
      { parent.powHeader with parentHash := copy32 [] } :=
    .inr (.inr (by rw [show (chainAdjuster p blocks).windowSize = 10 from rfl]; decide))
  have hex : ∃ avgTime, (chainAdjuster p blocks).computeAverageBlockTime time.toUInt64
      { parent.powHeader with parentHash := copy32 [] } = some avgTime :=
    DifficultyAdjuster.exists_computeAverageBlockTime_iff.mpr hfits
  obtain ⟨avgTime, havg⟩ := hex
  rw [offeredFactor, havg, DifficultyAdjuster.calcDifficulty_eq_scaled rfl hnonneg (by omega) havg]
  rfl

/-- The value of the validator's controller. -/
theorem calcDifficulty_validatorAdjuster :
    (validatorAdjuster p).calcDifficulty ℚ time.toUInt64 (some (parentHeader parent))
      = some (scaledDifficulty p parent (expectedFactor p parent time)) := by
  obtain ⟨hnonneg, hlt⟩ := difficultyBits_nonneg_le parent
  rw [DifficultyAdjuster.calcDifficulty_eq_scaled rfl hnonneg (by omega) rfl]
  rfl

theorem offeredFactor_bounds (p : ConsensusParams) (blocks : List Block) (parent : Block)
    (time : Int64) :
    0.75 ≤ offeredFactor p blocks parent time ∧ offeredFactor p blocks parent time ≤ 1.25 := by
  unfold offeredFactor
  cases (chainAdjuster p blocks).computeAverageBlockTime time.toUInt64
      { parent.powHeader with parentHash := copy32 [] } with
  | none => norm_num
  | some avgTime => exact DifficultyAdjuster.multiplier_bounds _ _ _ _

/-- The bits on offer are the scaled difficulty within the range of `DifficultyBits`. -/
theorem toNat_calculatedBits :
    ((calculatedBits ℚ p blocks parent time).toNat : ℤ)
      = max 1 (min (2 ^ 32 - 1)
        (scaledDifficulty p parent (offeredFactor p blocks parent time))) := by
  obtain ⟨hnonneg, hlt⟩ := difficultyBits_nonneg_le parent
  have hmin := p.minDifficulty.toNat_lt
  have htop := scaleCeil_le_of_le_quarters hnonneg (offeredFactor_bounds p blocks parent time).2
  have hscaled : 0 ≤ scaledDifficulty p parent (offeredFactor p blocks parent time)
      ∧ scaledDifficulty p parent (offeredFactor p blocks parent time) < 2 ^ 64 := by
    unfold scaledDifficulty
    omega
  rw [calculatedBits, calcDifficulty_chainAdjuster, Option.getD_some, toNat_difficultyToBits]
  omega

/-! ## Steady block times -/

/-- The times between the last hundred blocks up to the parent's height are within a fraction of
the target. -/
def SteadyBlocks (ε : ℚ) (p : ConsensusParams) (blocks : List Block) (parent : Block) : Prop :=
  ∀ k b b', k < parent.height.toNat → parent.height.toNat ≤ k + 100 → blocks[k]? = some b →
    blocks[k + 1]? = some b' →
    Near ε p.blockTimeTargetSeconds (b'.header.timestampUnix - b.header.timestampUnix)

variable {ε δ : ℚ}

theorem abs_offeredFactor_sub_one_le (ht : Moderate p.blockTimeTargetSeconds)
    (hheight : parent.height.toNat < 2 ^ 63) (h0 : 0 ≤ ε) (hle : ε ≤ δ) (hδ : δ < 1)
    (hsteady : SteadyBlocks ε p blocks parent)
    (hnew : Near δ p.blockTimeTargetSeconds (time - parent.header.timestampUnix)) :
    |offeredFactor p blocks parent time - 1| ≤ 1.105 * ε + 0.105 * δ := by
  have hnumber : Header.height? { parent.powHeader with parentHash := copy32 [] }
      = some parent.height.toNat := by
    have hint : parent.height.toInt64.toInt = parent.height.toNat :=
      BitVec.toInt_eq_toNat_of_lt (by change 2 * parent.height.toNat < 2 ^ 64; omega)
    change some (parent.height.toInt64.toInt.natAbs % 2 ^ 64) = _
    rw [hint, Int.natAbs_natCast, Nat.mod_eq_of_lt (by omega)]
  have htimes : Steady ε p.blockTimeTargetSeconds (canonicalAncestors blocks).timeAt
      parent.height.toNat := by
    intro k hk hdepth curr prev hcurr hprev
    simp only [GetAncestorFunc.timeAt, canonicalAncestors, Option.map_map,
      Option.map_eq_some_iff] at hcurr hprev
    obtain ⟨b', hb', rfl⟩ := hcurr
    obtain ⟨b, hb, rfl⟩ := hprev
    exact hsteady k b b' hk hdepth hb hb'
  unfold offeredFactor
  cases havg : (chainAdjuster p blocks).computeAverageBlockTime time.toUInt64
      { parent.powHeader with parentHash := copy32 [] } with
  | none =>
    rw [Option.elim_none, sub_self, abs_zero]
    linarith
  | some avgTime =>
    have hε := hle.trans_lt hδ
    have ht : Moderate (chainAdjuster p blocks).targetTime := ht
    have hnear : Near δ (chainAdjuster p blocks).targetTime avgTime :=
      DifficultyAdjuster.near_computeAverageBlockTime ht hε rfl hnumber htimes (h0.trans hle) hle
        hnew havg
    have hwindow : (chainAdjuster p blocks).smoothingWindow ≤ 10 := Nat.le_of_eq rfl
    have hfactor := DifficultyAdjuster.abs_multiplier_sub_one_le ht hε rfl hnumber htimes h0 hδ
      hwindow hnear
    exact hfactor

theorem abs_expectedFactor_sub_one_le (ht : Moderate p.blockTimeTargetSeconds) (h0 : 0 ≤ δ)
    (hδ : δ < 1) (hnew : Near δ p.blockTimeTargetSeconds (time - parent.header.timestampUnix)) :
    |expectedFactor p parent time - 1| ≤ 0.405 * δ := by
  have hnear : Near δ (validatorAdjuster p).targetTime
      ((validatorAdjuster p).singleInterval time.toUInt64 (parentHeader parent)) :=
    DifficultyAdjuster.near_singleInterval ht h0 hnew
  exact DifficultyAdjuster.abs_multiplier_sub_one_le_of_alone ht hδ rfl hnear

/-- Two factors near 1 give difficulties within fifteen percent of each other, if the difficulty
is not so small that the rounding matters. -/
theorem scaledDifficulty_within {f g : ℚ} (h0 : 0 ≤ ε) (h0' : 0 ≤ δ) (hf0 : 0 ≤ f) (hg0 : 0 ≤ g)
    (hf : |f - 1| ≤ 1.105 * ε + 0.105 * δ) (hg : |g - 1| ≤ 0.405 * δ)
    (hroom : 101 ≤ (parent.header.difficultyBits.toNat : ℚ) * (15 - 58 * δ - 111 * ε)) :
    scaledDifficulty p parent g * 85 / 100 ≤ scaledDifficulty p parent f
      ∧ scaledDifficulty p parent f ≤ scaledDifficulty p parent g * 115 / 100 := by
  obtain ⟨hnonneg, -⟩ := difficultyBits_nonneg_le parent
  unfold scaledDifficulty
  obtain ⟨hf₁, hf₂⟩ := scaleCeil_bounds hnonneg hf0
  obtain ⟨hg₁, hg₂⟩ := scaleCeil_bounds hnonneg hg0
  generalize scaleCeil (parent.header.difficultyBits.toNat : ℤ) f = x at *
  generalize scaleCeil (parent.header.difficultyBits.toNat : ℤ) g = y at *
  generalize parent.header.difficultyBits.toNat = d at *
  push_cast at hf₁ hf₂ hg₁ hg₂
  have hd : (0 : ℚ) ≤ d := by positivity
  obtain ⟨hflow, hfhigh⟩ := abs_le.mp hf
  obtain ⟨hglow, hghigh⟩ := abs_le.mp hg
  have hfhigh := mul_le_mul_of_nonneg_left hfhigh hd
  have hflow := mul_le_mul_of_nonneg_left hflow hd
  have hghigh := mul_le_mul_of_nonneg_left hghigh hd
  have hglow := mul_le_mul_of_nonneg_left hglow hd
  have hdε := mul_nonneg hd h0
  have hdδ := mul_nonneg hd h0'
  have hupper : (100 * x : ℚ) ≤ 115 * y := by linarith
  have hlower : (85 * y : ℚ) ≤ 100 * x := by linarith
  norm_cast at hupper hlower
  omega

end Agreement

/-- A block of difficulty 1000 on a chain with so many seconds between blocks, give or take one. -/
def pacedBlock (pace jitter : Int64) (height : UInt64) : Block :=
  let block := sampleBlock [height.toUInt8] [height.toUInt8 - 1] height 1000 []
  { block with header := { block.header with
    timestampUnix := 1000 + pace * height.toInt64 + jitter * (height % 2).toInt64 } }

end NogoChain.Consensus
