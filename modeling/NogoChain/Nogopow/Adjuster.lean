import NogoChain.Core.Config
import NogoChain.Lib.Rounding
import Mathlib.Data.Rat.Floor

/-!
# The difficulty controller

`DifficultyAdjuster.CalcDifficulty` multiplies the difficulty of the parent by a factor
between three quarters and five quarters. Given a way to look up ancestors, the factor comes
from three readings of the chain: the median time between the last blocks, an integral of the
time errors, and a double exponential smoothing of them. Without one – that is how validation
runs it – there is only the time since the parent.

The source computes the factor in double precision and the product in `big.Float`. Nothing in
the control flow depends on how they round, so the controller is written over any arithmetic
`R` that has the operations; what needs exact numbers is stated for `R = ℚ`, where every
operation is the exact one. (A quotient with a target of 0 seconds, which
`ConsensusParams.Validate` refuses, is 0 there.)
-/

namespace NogoChain.Nogopow

/-- `nogopow.Header`, with the fields that the difficulty reads. A nil `big.Int` is `none`. -/
structure Header where
  /-- height -/
  number : Option Int
  time : UInt64
  difficulty : Option Int
  parentHash : Bytes
deriving DecidableEq

/-- `Number.Uint64()`: the low 64 bits of the magnitude. -/
def Header.height? (h : Header) : Option Nat := h.number.map fun n => n.natAbs % 2 ^ 64

/-- The fields of `ConsensusParams` that the controller reads. -/
structure AdjusterParams where
  /-- time between blocks that the controller aims at -/
  blockTimeTargetSeconds : Int64
  minDifficulty : UInt32
  /-- blocks per adjustment, the window of the median -/
  difficultyAdjustmentInterval : UInt64
deriving DecidableEq

abbrev GetAncestorFunc := Nat → Option Header

/-- `DifficultyAdjuster`. The gains are constants. -/
structure DifficultyAdjuster where
  consensusParams : AdjusterParams
  /-- blocks of the median -/
  windowSize : Int64
  /-- the look-up of ancestors, where one is set -/
  getAncestor : Option GetAncestorFunc

def newDifficultyAdjuster (consensusParams : Option AdjusterParams) : DifficultyAdjuster :=
  let params := consensusParams.getD
    { blockTimeTargetSeconds := 30, minDifficulty := 0, difficultyAdjustmentInterval := 0 }
  { consensusParams := params
    windowSize :=
      if params.difficultyAdjustmentInterval > 1 then params.difficultyAdjustmentInterval.toInt64
      else 10
    getAncestor := none }

/-- What the controller needs beyond the operations of a field: a 64-bit integer as a number,
and the product of a difficulty with a factor, 0.999999 added and the rest cut off. -/
class FactorArith (R : Type) where
  /-- `float64(n)` -/
  ofInt64 : Int64 → R
  /-- `Mul`, `Add` and `Int` of `big.Float` -/
  scaleCeil : Int → R → Int

/-- Exact arithmetic. -/
instance : FactorArith ℚ where
  ofInt64 n := n.toInt
  scaleCeil d f := truncate (d * f + 0.999999)

open FactorArith

/-! ## Reading the chain -/

def maxReasonableTimeDiff : Int64 := 3600

def scanDepth : Nat := 100

/-- The times of the ancestors, which are all that the controller reads of them. -/
def GetAncestorFunc.timeAt (getAncestor : GetAncestorFunc) (height : Nat) : Option UInt64 :=
  (getAncestor height).map Header.time

/-- The time between two neighbours for the median, from 1 to 300 seconds. -/
def windowInterval : Option UInt64 → Option UInt64 → Option Int64
  | some curr, some prev =>
    if prev = 0 ∨ curr ≤ prev then none
    else
      let diff := (curr - prev).toInt64
      let diff := if diff < 1 then 1 else diff
      some (if diff > 300 then 300 else diff)
  | _, _ => none

/-- The loop that collects the times between the last blocks. -/
def timeDiffs (timeAt : Nat → Option UInt64) (height window : Nat) : List Int64 :=
  (List.range (min window height)).filterMap fun k =>
    windowInterval (timeAt (height - k)) (timeAt (height - (k + 1)))

/-- The middle element of the sorted list. -/
def median (timeDiffs : List Int64) : Int64 :=
  (timeDiffs.insertionSort (· ≤ ·)).getD (timeDiffs.length / 2) 0

/-- The loop over neighbours, from the parent down, that the integral and the smoothing
share, as the times of each block and its predecessor: it ends at a block that is not found,
passes over one whose predecessor is not, and never asks for a predecessor at height 0. -/
def scanBack (timeAt : Nat → Option UInt64) (height : Nat) : (n i : Nat) → List (UInt64 × UInt64)
  | 0, _ => []
  | n + 1, i =>
    if height > i then
      match timeAt (height - i) with
      | none => []
      | some block =>
        match if height > i + 1 then timeAt (height - i - 1) else none with
        | none => scanBack timeAt height n (i + 1)
        | some prev => (block, prev) :: scanBack timeAt height n (i + 1)
    else []

namespace DifficultyAdjuster

/-- The time since the parent where that is between nothing and an hour, and the target
otherwise: the fallbacks of `computeAverageBlockTime`. -/
def singleInterval (da : DifficultyAdjuster) (currentTime : UInt64) (parent : Header) : Int64 :=
  let timeDiff := (currentTime - parent.time).toInt64
  if parent.time > 0 ∧ currentTime > parent.time ∧ timeDiff > 0 ∧ timeDiff < maxReasonableTimeDiff
  then timeDiff
  else da.consensusParams.blockTimeTargetSeconds

/-- The window of the median: at most 50 blocks. -/
def medianWindow (da : DifficultyAdjuster) : Int64 :=
  if da.windowSize > 50 then 50 else da.windowSize

/-- `computeAverageBlockTime`. A negative window – an interval of `2 ^ 63` or more – is no
capacity for `make`, which panics. -/
def computeAverageBlockTime (da : DifficultyAdjuster) (currentTime : UInt64) (parent : Header) :
    Option Int64 :=
  match da.getAncestor, parent.height? with
  | some getAncestor, some height =>
    if da.medianWindow < 0 then none
    else
      let diffs := timeDiffs getAncestor.timeAt height da.medianWindow.toInt.toNat
      some (if diffs.length > 0 then median diffs else da.singleInterval currentTime parent)
  | _, _ => some (da.singleInterval currentTime parent)

end DifficultyAdjuster

/-! ## The factor -/

variable {R : Type} [Add R] [Sub R] [Mul R] [Div R] [Neg R] [LT R] [DecidableLT R]
  [OfScientific R] [FactorArith R]

def clampFloat64 (f min max : R) : R :=
  if f < min then min else if f > max then max else f

/-- How far a block time is off the target, relative to the target, within the bounds that
all readings share: positive if blocks come too fast. -/
def timeError (avgTime targetTime : Int64) : R :=
  clampFloat64 (ofInt64 (targetTime - avgTime) / ofInt64 targetTime) (-0.75) 3.0

/-- The body of the loop of `computeChainIntegral`: the integral and how many blocks it has
seen. -/
def integralStep (targetTime : Int64) (acc : R × Nat) (pair : UInt64 × UInt64) : R × Nat :=
  let timeDiff := (pair.1 - pair.2).toInt64
  if pair.2 = 0 then acc
  else if timeDiff ≤ 0 then acc
  else
    let err := timeError (if timeDiff > targetTime * 4 then targetTime * 4 else timeDiff) targetTime
    (if acc.2 > 0 then acc.1 * 0.97 + err else err, acc.2 + 1)

/-- The error that a block contributes to the smoothing. -/
def smoothingError (targetTime : Int64) (pair : UInt64 × UInt64) : Option R :=
  if pair.2 = 0 ∨ pair.1 ≤ pair.2 then none
  else
    let timeDiff := (pair.1 - pair.2).toInt64
    some (timeError (if timeDiff ≤ 0 ∨ timeDiff > targetTime * 10 then targetTime else timeDiff)
      targetTime)

/-- One step of the double exponential smoothing: level and trend. -/
def smoothStep (acc : R × R) (err : R) : R × R :=
  let level := 0.3 * err + 0.7 * (acc.1 + acc.2)
  (level, 0.1 * (level - acc.1) + 0.9 * acc.2)

namespace DifficultyAdjuster

def computeChainIntegral (da : DifficultyAdjuster) (parent : Header) : R :=
  match da.getAncestor, parent.height? with
  | some getAncestor, some height =>
    if height = 0 then 0.0
    else
      let targetTime := da.consensusParams.blockTimeTargetSeconds
      clampFloat64
        ((scanBack getAncestor.timeAt height scanDepth 0).foldl (integralStep targetTime)
          (0.0, 0)).1
        (-3.0) 3.0
  | _, _ => 0.0

/-- The window of the smoothing: at least 5 blocks, at most 50. -/
def smoothingWindow (da : DifficultyAdjuster) : Nat :=
  if da.windowSize < 5 then 5 else if da.windowSize > 50 then 50 else da.windowSize.toInt.toNat

/-- The smoothed error: the latest comes first, and the smoothing starts with the oldest. -/
def smoothed (errors : List R) : R :=
  match errors.reverse with
  | [] => 0.0
  | oldest :: newer =>
    let last := newer.foldl smoothStep (oldest, 0.0)
    clampFloat64 (last.1 + last.2) (-0.75) 3.0

def calculateDoubleExponentialSmoothing (da : DifficultyAdjuster) (avgTime targetTime : Int64)
    (parent : Header) : R :=
  let fallback : R := if avgTime > 0 then timeError avgTime targetTime else 0.0
  match da.getAncestor, parent.height? with
  | some getAncestor, some height =>
    if targetTime ≤ 0 then fallback
    else
      smoothed ((scanBack getAncestor.timeAt height da.smoothingWindow 0).filterMap
        (smoothingError targetTime))
  | _, _ => fallback

/-- The factor of `calculateDeterministicDifficulty`. -/
def multiplier (da : DifficultyAdjuster) (avgTime targetTime : Int64) (parent : Header) : R :=
  let error : R := if avgTime > 0 ∧ targetTime > 0 then timeError avgTime targetTime
    else clampFloat64 0.0 (-0.75) 3.0
  let piOutput := 0.15 * error + 0.03 * da.computeChainIntegral parent
  let smoothedOutput := da.calculateDoubleExponentialSmoothing avgTime targetTime parent
  clampFloat64 (1.0 + 0.7 * piOutput + 0.3 * smoothedOutput) 0.75 1.25

end DifficultyAdjuster

/-! ## The difficulty -/

namespace DifficultyAdjuster

variable (R)

def calculateDeterministicDifficulty (da : DifficultyAdjuster) (avgTime targetTime : Int64)
    (parentDiff : Int) (parent : Header) : Int :=
  let newDifficulty := scaleCeil parentDiff (da.multiplier avgTime targetTime parent : R)
  if newDifficulty < 0 then 0 else newDifficulty

/-- `enforceBoundaryConditionsLocked`: the floor, the cap of 256 bits, a quarter up or down
from the parent, and the floor once more. -/
def enforceBoundaryConditions (da : DifficultyAdjuster) (newDifficulty parentDiff : Int) : Int :=
  let minDiff : Int := da.consensusParams.minDifficulty.toNat
  let floored := if newDifficulty < minDiff then minDiff else newDifficulty
  let capped := if floored > 2 ^ 256 then 2 ^ 256 else floored
  let maxAllowed := scaleCeil parentDiff (1.25 : R)
  let minAllowed := scaleCeil parentDiff (0.75 : R)
  let belowMax := if capped > maxAllowed then maxAllowed else capped
  let aboveMin := if belowMax < minAllowed then minAllowed else belowMax
  if aboveMin < minDiff then minDiff else aboveMin

/-- `CalcDifficulty`; `none` where it panics. -/
def calcDifficulty (da : DifficultyAdjuster) (currentTime : UInt64) (parent : Option Header) :
    Option Int :=
  match parent.bind fun parent => parent.difficulty.map fun diff => (parent, diff) with
  | none =>
    some (if da.consensusParams.minDifficulty > 0 then da.consensusParams.minDifficulty.toNat
      else 1)
  | some (parent, parentDiff) =>
    let targetTime := da.consensusParams.blockTimeTargetSeconds
    (da.computeAverageBlockTime currentTime parent).map fun avgBlockTime =>
      da.enforceBoundaryConditions R
        (da.calculateDeterministicDifficulty R avgBlockTime targetTime parentDiff parent) parentDiff

/-- The controller with an ancestor function: `SetAncestorFunc`. -/
def withAncestors (da : DifficultyAdjuster) (f : GetAncestorFunc) : DifficultyAdjuster :=
  { da with getAncestor := some f }

end DifficultyAdjuster

end NogoChain.Nogopow
