import NogoChain.Core.Difficulty
import NogoChain.Lib.SlotCache

/-!
# The difficulty that the chain hands out

`Chain.CalcNextDifficulty` runs the controller over the canonical blocks and remembers the
result – under the height of the parent alone. Time, parent and ancestors are not part of the
key, and the slot starts with height 0 and value 0. So the first call for the genesis block
is answered with a difficulty of 0, and a call for another block of the same height with the
difficulty of the first.

The cache is a `Slot`, and `calcNextDifficulty_transparent_iff` says when it goes unnoticed.
-/

namespace NogoChain

open Nogopow

/-! ## The calculator -/

/-- `GetBlock` as an ancestor function, over the canonical blocks. -/
def canonicalAncestors (blocks : List Block) : GetAncestorFunc := fun height =>
  blocks[height]?.map Block.powHeader

/-- The last lines of `DifficultyCalculator.CalcNextDifficulty`: 64 bits, and from there into
the range of `DifficultyBits`. -/
def difficultyToBits (newDifficulty : Int) : UInt32 :=
  let bits := newDifficulty.natAbs % 2 ^ 64
  let bits := if bits > 2 ^ 32 - 1 then 2 ^ 32 - 1 else bits
  let bits := if bits < 1 then 1 else bits
  UInt32.ofNat bits

/-- The controller of `Chain.CalcNextDifficulty`: the interval is not copied, so the window is
the default one. -/
def chainAdjuster (p : ConsensusParams) (blocks : List Block) : DifficultyAdjuster :=
  (newDifficultyAdjuster (some
    { blockTimeTargetSeconds := p.blockTimeTargetSeconds
      minDifficulty := p.minDifficulty
      difficultyAdjustmentInterval := 0 })).withAncestors (canonicalAncestors blocks)

variable (R : Type) [Add R] [Sub R] [Mul R] [Div R] [Neg R] [LT R] [DecidableLT R]
  [OfScientific R] [FactorArith R]

/-- What the calculator gives for a parent and a time, on an empty cache. With the default
window the controller does not panic. -/
def calculatedBits (p : ConsensusParams) (blocks : List Block) (latest : Block)
    (currentTime : Int64) : UInt32 :=
  difficultyToBits (((chainAdjuster p blocks).calcDifficulty R currentTime.toUInt64
    (some { latest.powHeader with parentHash := copy32 [] })).getD 0)

/-- `diffCacheHeight` and `diffCacheValue`. -/
abbrev DiffCache := Slot UInt64 UInt32

/-- `Chain.CalcNextDifficulty`. -/
def calcNextDifficulty (p : ConsensusParams) (blocks : List Block) (latest : Option Block)
    (currentTime : Int64) (cache : DiffCache) : UInt32 × DiffCache :=
  match latest with
  | none => (p.minDifficulty, cache)
  | some latest =>
    if latest.height = cache.key then (cache.value, cache)
    else
      let nextDifficulty := calculatedBits R p blocks latest currentTime
      (nextDifficulty, ⟨latest.height, nextDifficulty⟩)

theorem toNat_difficultyToBits (d : Int) :
    (difficultyToBits d).toNat = max 1 (min (2 ^ 32 - 1) (d.natAbs % 2 ^ 64)) := by
  unfold difficultyToBits
  generalize d.natAbs % 2 ^ 64 = bits
  simp only [gt_iff_lt, ← max_def_lt, ← min_def_lt]
  rw [UInt32.toNat_ofNat', Nat.mod_eq_of_lt (by omega), max_comm]

/-- The calculator never gives 0. -/
theorem difficultyToBits_ne_zero (d : Int) : difficultyToBits d ≠ 0 := by
  intro h
  have hnat := congrArg UInt32.toNat h
  rw [toNat_difficultyToBits, UInt32.toNat_zero] at hnat
  omega

/-! ## Sequences of calls -/

/-- A call of `CalcNextDifficulty`, with the canonical blocks it finds. -/
structure NextCall where
  blocks : List Block
  /-- the parent, which may be nil -/
  latest : Option Block
  currentTime : Int64

/-- The part of a call with a parent that the calculator reads. -/
def NextCall.parentCall? (c : NextCall) : Option (List Block × Block × Int64) :=
  c.latest.map fun latest => (c.blocks, latest, c.currentTime)

/-- What the calculator gives for a call on an empty cache. -/
def NextCall.expected (p : ConsensusParams) (c : NextCall) : UInt32 :=
  match c.latest with
  | none => p.minDifficulty
  | some latest => calculatedBits R p c.blocks latest c.currentTime

/-- The results of a sequence of calls. -/
def nextDifficulties (p : ConsensusParams) (cache : DiffCache) : List NextCall → List UInt32
  | [] => []
  | c :: cs =>
    let next := calcNextDifficulty R p c.blocks c.latest c.currentTime cache
    next.1 :: nextDifficulties p next.2 cs

/-- The key of the cache. -/
def parentHeight (x : List Block × Block × Int64) : UInt64 := x.2.1.height

/-- The computation behind the cache. -/
def parentBits (p : ConsensusParams) (x : List Block × Block × Int64) : UInt32 :=
  calculatedBits R p x.1 x.2.1 x.2.2

/-- **The cache cannot be noticed.** Calls without a parent only if the minimum is not 0; and
each call with a parent has a parent of another height than the last such call, or the
calculator gives the same for both. For the first one the last height is 0, and the value 0
is none that the calculator gives. -/
structure CacheUnseen (p : ConsensusParams) (calls : List NextCall) : Prop where
  /-- the answer to a nil parent -/
  nil : ∀ c ∈ calls, c.latest = none → p.minDifficulty ≠ 0
  /-- the calls that use the cache -/
  parents : (⟨0, 0⟩ : DiffCache).Unnoticed parentHeight (parentBits R p)
    (calls.filterMap NextCall.parentCall?)

variable {R}

/-- Calls without a parent leave the cache alone, so that it answers the others as if they
came one after another. -/
theorem nextDifficulties_eq_map_iff (p : ConsensusParams) (cache : DiffCache)
    (calls : List NextCall) :
    nextDifficulties R p cache calls = calls.map (NextCall.expected R p)
      ↔ cache.answers parentHeight (parentBits R p) (calls.filterMap NextCall.parentCall?)
        = (calls.filterMap NextCall.parentCall?).map (parentBits R p) := by
  induction calls generalizing cache with
  | nil => exact iff_of_true rfl rfl
  | cons c cs ih =>
    obtain ⟨blocks, latest, currentTime⟩ := c
    cases latest with
    | none =>
      rw [nextDifficulties, List.map_cons, List.cons.injEq,
        List.filterMap_cons_none (by rfl)]
      exact (and_iff_right rfl).trans (ih cache)
    | some latest =>
      -- a call with a parent is one question to the slot
      rw [nextDifficulties, List.map_cons, List.cons.injEq, List.filterMap_cons_some (by rfl),
        List.map_cons, Slot.answers, List.cons.injEq, ih]
      rfl

/-- **When the cache is transparent.** From the cache of a new chain, in any sequence of calls
with whatever canonical blocks, parents and times, each result is the calculator's for the
call's own inputs and none is 0 – exactly if the cache cannot be noticed. -/
theorem calcNextDifficulty_transparent_iff (R : Type) [Add R] [Sub R] [Mul R] [Div R] [Neg R]
    [LT R] [DecidableLT R] [OfScientific R] [FactorArith R] (p : ConsensusParams)
    (calls : List NextCall) :
    (nextDifficulties R p ⟨0, 0⟩ calls = calls.map (NextCall.expected R p)
        ∧ ∀ v ∈ nextDifficulties R p ⟨0, 0⟩ calls, v ≠ 0)
      ↔ CacheUnseen R p calls := by
  constructor
  · rintro ⟨hright, hne⟩
    refine ⟨fun c hc hnil => ?_, ?_⟩
    · rw [hright] at hne
      have h := hne _ (List.mem_map_of_mem hc)
      rwa [NextCall.expected, hnil] at h
    · exact Slot.answers_eq_map_iff.mp ((nextDifficulties_eq_map_iff p _ calls).mp hright)
  · rintro ⟨hnil, hparents⟩
    have hright := (nextDifficulties_eq_map_iff p _ calls).mpr
      (Slot.answers_eq_map_iff.mpr hparents)
    refine ⟨hright, fun v hv => ?_⟩
    rw [hright] at hv
    obtain ⟨c, hc, rfl⟩ := List.mem_map.mp hv
    unfold NextCall.expected
    split
    · next h => exact hnil c hc h
    · exact difficultyToBits_ne_zero _

/-- **The first template has difficulty 0**: on a new chain with the default parameters the
call for a genesis block of difficulty 10 gives 0, where the calculator gives 10. And of two
blocks at height 1 with difficulties 1000 and 2000, the second gets the difficulty of the
first. -/
theorem genesis_difficulty_zero :
    let genesis := sampleBlock [1] [] 0 10 []
    let first : NextCall := ⟨[genesis], some genesis, 30⟩
    let tip : NextCall := ⟨[genesis], some (sampleBlock [2] [1] 1 1000 []), 30⟩
    let sibling : NextCall := ⟨[genesis], some (sampleBlock [3] [1] 1 2000 []), 30⟩
    nextDifficulties ℚ ConsensusParams.default ⟨0, 0⟩ [first] = [0]
      ∧ NextCall.expected ℚ ConsensusParams.default first = 10
      ∧ nextDifficulties ℚ ConsensusParams.default ⟨0, 0⟩ [tip, sibling] = [1000, 1000]
      ∧ NextCall.expected ℚ ConsensusParams.default sibling = 2000 := by
  decide +kernel

end NogoChain
