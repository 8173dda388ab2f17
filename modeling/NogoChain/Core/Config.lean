import NogoChain.Core.Types

/-!
# Consensus parameters and monetary policy

`config.ConsensusParams` with the fields that block insertion, validation and start-up
read, and `config.MonetaryPolicy` with its block-reward loop. Amounts are 64-bit and wrap
as the source's do; only the yearly reduction runs on big integers.
-/

namespace NogoChain

/-- `MonetaryPolicy`, with the fields that decide rewards and fees. -/
structure MonetaryPolicy where
  /-- reward at genesis in wei -/
  initialBlockReward : UInt64
  /-- yearly reduction in percent; only checked, the loop uses fixed constants -/
  annualReductionPercent : UInt8
  /-- floor of the reward in wei -/
  minimumBlockReward : UInt64
  /-- legacy field, only part of the rules hash -/
  halvingInterval : UInt64
  /-- percentage of the fees paid to the miner -/
  minerFeeShare : UInt8
  /-- percentage of the reward paid to the miner -/
  minerRewardShare : UInt8
  /-- percentage of the reward for the community fund -/
  communityFundShare : UInt8
  /-- percentage of the reward paid to the genesis address -/
  genesisShare : UInt8
  /-- percentage of the reward for the integrity pool -/
  integrityPoolShare : UInt8
  /-- legacy field, only part of the rules hash -/
  tailEmission : UInt64
deriving DecidableEq

namespace MonetaryPolicy

def validate (p : MonetaryPolicy) : Except GoError Unit :=
  if p.initialBlockReward = 0 then
    .error (.new "initialBlockReward must be > 0")
  else if p.annualReductionPercent > 100 then
    .error (.new "annualReductionPercent must be <= 100")
  else if p.minerFeeShare > 100 then
    .error (.new "minerFeeShare must be <= 100")
  else if p.minerRewardShare > 100 then
    .error (.new "minerRewardShare must be <= 100")
  else if p.communityFundShare > 100 then
    .error (.new "communityFundShare must be <= 100")
  else if p.genesisShare > 100 then
    .error (.new "genesisShare must be <= 100")
  else if p.integrityPoolShare > 100 then
    .error (.new "integrityPoolShare must be <= 100")
  else
    let totalShare := p.minerRewardShare.toNat + p.communityFundShare.toNat
      + p.genesisShare.toNat + p.integrityPoolShare.toNat
    if totalShare ≠ 100 then
      .error (.errorf "reward shares must sum to 100, got %d" [.num totalShare])
    else .ok ()

/-- **A valid policy** pays nobody more than everything, and the four shares of the reward
add up to the whole of it. -/
theorem shares_of_validate {p : MonetaryPolicy} (h : p.validate = .ok ()) :
    p.minerFeeShare.toNat ≤ 100
      ∧ p.minerRewardShare.toNat + p.communityFundShare.toNat + p.genesisShare.toNat
          + p.integrityPoolShare.toNat = 100 := by
  unfold validate at h
  split at h
  · cases h
  split at h
  · cases h
  split at h
  · cases h
  next hfee =>
  iterate 4
    split at h
    · cases h
  dsimp only at h
  split at h
  · cases h
  next htotal =>
  exact ⟨UInt8.le_iff_toNat_le.mp (UInt8.not_lt.mp hfee), not_not.mp htotal⟩

/-- `GetBlocksPerYear`: seconds of a year over the target block time of 30 seconds. -/
def blocksPerYear : UInt64 := 31536000 / 30

/-- The loop of `BlockReward`: `years` reductions to nine tenths on big integers, with
the early returns at the floor. `none` is an early return of the floor. -/
def reductions (minReward : Nat) : (years : Nat) → (reward : Nat) → Option Nat
  | 0, reward => some reward
  | years + 1, reward =>
    if reward ≤ minReward then none
    else if reward * 9 / 10 ≤ minReward then none
    else reductions minReward years (reward * 9 / 10)

def blockReward (p : MonetaryPolicy) (height : UInt64) : UInt64 :=
  if p.initialBlockReward = 0 then 800000000
  else
    let minReward : UInt64 := if p.minimumBlockReward = 0 then 10000000 else p.minimumBlockReward
    match reductions minReward.toNat (height / blocksPerYear).toNat
        p.initialBlockReward.toNat with
    | none => minReward
    | some reward =>
      if reward < minReward.toNat then minReward
      else if reward ≥ 2 ^ 64 then minReward
      else UInt64.ofNat reward

def minerFeeAmount (p : MonetaryPolicy) (totalFees : UInt64) : UInt64 :=
  if p.minerFeeShare = 0 ∨ totalFees = 0 then 0
  else totalFees * p.minerFeeShare.toUInt64 / 100

/-- The policy of the default configuration: 8 NOGO, 99 % to the miner, 1 % to the genesis
address, fees burned. -/
def default : MonetaryPolicy where
  initialBlockReward := 800000000
  annualReductionPercent := 10
  minimumBlockReward := 10000000
  halvingInterval := 0
  minerFeeShare := 0
  minerRewardShare := 99
  communityFundShare := 0
  genesisShare := 1
  integrityPoolShare := 0
  tailEmission := 0

end MonetaryPolicy

/-- `ConsensusParams`, with the fields the modelled functions read. -/
structure ConsensusParams where
  difficultyEnable : Bool
  /-- time between blocks that the difficulty rule aims at -/
  blockTimeTargetSeconds : Int64
  /-- blocks per difficulty adjustment -/
  difficultyAdjustmentInterval : UInt64
  /-- how far a timestamp may lie ahead; only part of the rules hash -/
  maxBlockTimeDriftSeconds : Int64
  /-- floor of the difficulty rule -/
  minDifficulty : UInt32
  /-- ceiling of the difficulty rule; only part of the rules hash -/
  maxDifficulty : UInt32
  /-- lowest difficulty of a block -/
  minDifficultyBits : UInt32
  /-- highest difficulty of a block -/
  maxDifficultyBits : UInt32
  /-- reserved; only part of the rules hash -/
  maxDifficultyChangePercent : UInt8
  /-- window of the median time; only part of the rules hash -/
  medianTimePastWindow : Int64
  merkleEnable : Bool
  merkleActivationHeight : UInt64
  binaryEncodingEnable : Bool
  binaryEncodingActivationHeight : UInt64
  genesisDifficultyBits : UInt32
  /-- largest block in bytes; 0 for no limit -/
  maxBlockSize : UInt64
  monetaryPolicy : MonetaryPolicy

namespace ConsensusParams

def binaryEncodingActive (p : ConsensusParams) (height : UInt64) : Bool :=
  p.binaryEncodingEnable && height ≥ p.binaryEncodingActivationHeight

def merkleRootActive (p : ConsensusParams) (height : UInt64) : Bool :=
  p.merkleEnable && height ≥ p.merkleActivationHeight

def blockVersionForHeight (p : ConsensusParams) (height : UInt64) : UInt32 :=
  if p.merkleRootActive height then 2 else 1

/-- The consensus parameters of the default configuration. -/
def default : ConsensusParams where
  difficultyEnable := true
  blockTimeTargetSeconds := 30
  difficultyAdjustmentInterval := 10
  maxBlockTimeDriftSeconds := 7200
  minDifficulty := 1
  maxDifficulty := 255
  minDifficultyBits := 1
  maxDifficultyBits := 4294967295
  maxDifficultyChangePercent := 10
  medianTimePastWindow := 11
  merkleEnable := true
  merkleActivationHeight := 0
  binaryEncodingEnable := false
  binaryEncodingActivationHeight := 0
  genesisDifficultyBits := 10
  maxBlockSize := 4000000
  monetaryPolicy := MonetaryPolicy.default

end ConsensusParams

end NogoChain
