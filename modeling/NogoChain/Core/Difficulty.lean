import NogoChain.Core.Seal
import NogoChain.Nogopow.Adjuster

/-!
# The difficulty a block has to carry

`validateBlockDifficultyLocked` checks the difficulty of a block twice: against the bounds
of the configuration, and – where the difficulty rule is on – against the value that the PI
controller computes from the parent, give or take half of it.

The controller runs here in double precision and in `big.Float`, as in the source. `Float` of
Lean is `float64`; of `big.Float` the model has what the controller uses, multiplication and
addition of non-negative numbers rounded to the nearest, ties to even. Validation never gives
the controller a way to look up ancestors.
-/

namespace NogoChain

open Nogopow

/-! ## Numbers of arbitrary precision -/

/-- A non-negative `big.Float`: `mant * 2 ^ exp`, kept to `prec` bits. -/
structure BigFloat where
  /-- significant digits -/
  mant : Nat
  /-- exponent of two -/
  exp : Int
  prec : Nat

namespace BigFloat

/-- `new(big.Float).SetInt(n)`: at least 64 bits. -/
def setInt (n : Nat) : BigFloat := ⟨n, 0, max 64 (n.log2 + 1)⟩

/-- `big.NewFloat(f)` of a number that is finite and not negative. -/
def newFloat (f : Float) : BigFloat :=
  let exponent : Nat := f.toBits.toNat / 2 ^ 52 % 2 ^ 11
  let fraction : Nat := f.toBits.toNat % 2 ^ 52
  if exponent = 0 then ⟨fraction, -1074, 53⟩
  else ⟨2 ^ 52 + fraction, exponent - 1075, 53⟩

/-- Rounding to `prec` bits. -/
def round (prec mant : Nat) (exp : Int) : BigFloat :=
  let drop := mant.log2 + 1 - prec
  let low := mant % 2 ^ drop
  let high := mant / 2 ^ drop
  if 2 * low < 2 ^ drop ∨ (2 * low = 2 ^ drop ∧ high % 2 = 0) then ⟨high, exp + drop, prec⟩
  else ⟨high + 1, exp + drop, prec⟩

/-- `new(big.Float).Mul(x, y)`. -/
def mul (x y : BigFloat) : BigFloat :=
  round (max x.prec y.prec) (x.mant * y.mant) (x.exp + y.exp)

/-- `new(big.Float).Add(x, y)`. -/
def add (x y : BigFloat) : BigFloat :=
  let exp := min x.exp y.exp
  round (max x.prec y.prec)
    (x.mant * 2 ^ (x.exp - exp).toNat + y.mant * 2 ^ (y.exp - exp).toNat) exp

/-- `Int(nil)`: truncation. -/
def int (x : BigFloat) : Nat :=
  if x.exp < 0 then x.mant / 2 ^ (-x.exp).toNat else x.mant * 2 ^ x.exp.toNat

end BigFloat

/-- The arithmetic of the source, for a difficulty that is not negative. -/
instance : FactorArith Float where
  ofInt64 := Int64.toFloat
  scaleCeil d f := (((BigFloat.setInt d.toNat).mul (BigFloat.newFloat f)).add
    (BigFloat.newFloat 0.999999)).int

/-! ## The controller of a validator -/

/-- The header of a block as the controller is given it. -/
def Block.powHeader (b : Block) : Header where
  number := some b.height.toInt64.toInt
  time := b.header.timestampUnix.toUInt64
  difficulty := some b.header.difficultyBits.toNat
  parentHash := copy32 b.header.prevHash

/-- The fields of the parameters that the controller reads. -/
def adjusterParams (p : ConsensusParams) : AdjusterParams :=
  ⟨p.blockTimeTargetSeconds, p.minDifficulty, p.difficultyAdjustmentInterval⟩

/-- The controller of a validation, which is never given an ancestor function. -/
def validatorAdjuster (p : ConsensusParams) : DifficultyAdjuster :=
  newDifficultyAdjuster (some (adjusterParams p))

/-- `Uint64()` of a `big.Int` in a message. -/
def uint64Arg (n : Int) : FmtArg := .num (n.natAbs % 2 ^ 64 : Nat)

namespace ConsensusParams

/-- `CalcDifficulty` in a validation; without an ancestor function it does not panic. -/
def calcDifficulty (p : ConsensusParams) (currentTime : UInt64) (parent : Header) : Int :=
  ((validatorAdjuster p).calcDifficulty Float currentTime (some parent)).getD 0

/-! ## The checks on a block -/

def difficultyTolerancePercent : Int := 50

/-- The first two checks of `validateBlockDifficultyLocked`. -/
def checkDifficultyBounds (p : ConsensusParams) (bits : UInt32) : Except GoError Unit :=
  if bits < p.minDifficultyBits then
    .error (.errorf "difficulty %d below min %d" [.num bits.toNat, .num p.minDifficultyBits.toNat])
  else if bits > p.maxDifficultyBits then
    .error (.errorf "difficulty %d above max %d" [.num bits.toNat, .num p.maxDifficultyBits.toNat])
  else .ok ()

/-- The check of a difficulty against the one the controller expects. -/
def checkTolerance (actual expected : Int) : Except GoError Unit :=
  let minAllowed := expected * (100 - difficultyTolerancePercent) / 100
  let maxAllowed := expected * (100 + difficultyTolerancePercent) / 100
  if actual < minAllowed then
    .error (.errorf "difficulty too low: actual %d < min allowed %d (expected %d, tolerance=±%d%%)"
      [uint64Arg actual, uint64Arg minAllowed, uint64Arg expected, .num difficultyTolerancePercent])
  else if actual > maxAllowed then
    .error (.errorf "difficulty too high: actual %d > max allowed %d (expected %d, tolerance=±%d%%)"
      [uint64Arg actual, uint64Arg maxAllowed, uint64Arg expected, .num difficultyTolerancePercent])
  else .ok ()

/-- `validateBlockDifficultyLocked`. -/
def validateBlockDifficulty (p : ConsensusParams) (block parent : Block) : Except GoError Unit :=
  match p.checkDifficultyBounds block.header.difficultyBits with
  | .error e => .error e
  | .ok () =>
    if !p.difficultyEnable then .ok ()
    else
      checkTolerance block.header.difficultyBits.toNat
        (p.calcDifficulty block.header.timestampUnix.toUInt64 parent.powHeader)

/-- The bounds of the difficulty, as acceptance sees them. -/
theorem checkDifficultyBounds_eq_ok {p : ConsensusParams} {bits : UInt32} :
    p.checkDifficultyBounds bits = .ok ()
      ↔ p.minDifficultyBits ≤ bits ∧ bits ≤ p.maxDifficultyBits := by
  unfold checkDifficultyBounds
  split
  · next hmin =>
    simp [hmin]
  · next hmin =>
    split
    · next hmax =>
      simp [hmax]
    · next hmax =>
      simp [UInt32.not_lt.mp hmin, UInt32.not_lt.mp hmax]

end ConsensusParams

end NogoChain
