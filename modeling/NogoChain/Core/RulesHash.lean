import NogoChain.Core.Difficulty

/-!
# What the rules hash commits to

A node stores the hash of its consensus parameters next to its chain and refuses to start
with others (`validateRulesHashLocked`: "prevents accidental config forks"). The hash is
taken over `ConsensusParams.MarshalBinary`, a list of fields written out by hand. The list
has `MaxDifficulty` twice, and it has neither the two bounds on the difficulty of a block
nor the genesis difficulty, the block-size limit, the floor of the reward or the shares of
the reward. Below, the bytes are compared with what the checks on a block read: two
configurations with the same bytes have the same rules exactly when they agree on these
fields, up to values that no check tells apart.
-/

namespace NogoChain

/-! ## The encoding -/

def rulesHashVersion : UInt8 := 3

def writeBool (v : Bool) : Bytes := if v then [1] else [0]

namespace ConsensusParams

/-- The writes of `MarshalBinary`, in order. -/
def rulesFields (p : ConsensusParams) : List Bytes :=
  [[rulesHashVersion],
    writeBool p.difficultyEnable,
    littleEndian 8 p.blockTimeTargetSeconds.toUInt64.toNat,
    littleEndian 4 p.difficultyAdjustmentInterval.toUInt32.toNat,
    [p.maxDifficultyChangePercent],
    littleEndian 4 p.minDifficulty.toNat,
    littleEndian 4 p.maxDifficulty.toNat,
    -- the source writes this field a second time
    littleEndian 4 p.maxDifficulty.toNat,
    littleEndian 4 p.medianTimePastWindow.toUInt64.toUInt32.toNat,
    littleEndian 8 p.maxBlockTimeDriftSeconds.toUInt64.toNat,
    writeBool p.merkleEnable,
    littleEndian 8 p.merkleActivationHeight.toNat,
    writeBool p.binaryEncodingEnable,
    littleEndian 8 p.binaryEncodingActivationHeight.toNat,
    littleEndian 8 p.monetaryPolicy.initialBlockReward.toNat,
    littleEndian 8 p.monetaryPolicy.halvingInterval.toNat,
    [p.monetaryPolicy.minerFeeShare],
    littleEndian 8 p.monetaryPolicy.tailEmission.toNat]

/-- `ConsensusParams.MarshalBinary`. Writing to a buffer does not fail. -/
def marshalBinary (p : ConsensusParams) : Bytes := p.rulesFields.flatten

end ConsensusParams

@[simp] theorem writeBool_length (v : Bool) : (writeBool v).length = 1 := by
  cases v <;> rfl

theorem writeBool_inj {v w : Bool} (h : writeBool v = writeBool w) : v = w := by
  cases v <;> cases w <;> simp_all [writeBool]

/-- **The fields that reach the hash and the checks.** The other encoded fields are read by
no check on a block. -/
structure SameHashed (p q : ConsensusParams) : Prop where
  difficultyEnable : p.difficultyEnable = q.difficultyEnable
  blockTimeTargetSeconds : p.blockTimeTargetSeconds = q.blockTimeTargetSeconds
  minDifficulty : p.minDifficulty = q.minDifficulty
  merkleEnable : p.merkleEnable = q.merkleEnable
  merkleActivationHeight : p.merkleActivationHeight = q.merkleActivationHeight
  binaryEncodingEnable : p.binaryEncodingEnable = q.binaryEncodingEnable
  binaryEncodingActivationHeight :
    p.binaryEncodingActivationHeight = q.binaryEncodingActivationHeight
  initialBlockReward :
    p.monetaryPolicy.initialBlockReward = q.monetaryPolicy.initialBlockReward
  minerFeeShare : p.monetaryPolicy.minerFeeShare = q.monetaryPolicy.minerFeeShare

/-- Every write has a fixed length, so the bytes determine each of them. -/
theorem rulesFields_eq_of_marshalBinary_eq {p q : ConsensusParams}
    (h : p.marshalBinary = q.marshalBinary) : p.rulesFields = q.rulesFields :=
  List.eq_iff_flatten_eq.mpr ⟨h, by simp [ConsensusParams.rulesFields]⟩

theorem sameHashed_of_marshalBinary_eq {p q : ConsensusParams}
    (h : p.marshalBinary = q.marshalBinary) : SameHashed p q := by
  have hfields := rulesFields_eq_of_marshalBinary_eq h
  simp only [ConsensusParams.rulesFields, List.cons.injEq, and_true, true_and] at hfields
  obtain ⟨hdifficulty, htarget, -, -, hmin, -, -, -, -, hmerkle, hmerkleHeight, hbinary,
    hbinaryHeight, hreward, -, hfee, -⟩ := hfields
  exact {
    difficultyEnable := writeBool_inj hdifficulty
    blockTimeTargetSeconds := by
      have htoInt := congrArg UInt64.toInt64 (littleEndian_uint64_inj htarget)
      simpa using htoInt
    minDifficulty := littleEndian_uint32_inj hmin
    merkleEnable := writeBool_inj hmerkle
    merkleActivationHeight := littleEndian_uint64_inj hmerkleHeight
    binaryEncodingEnable := writeBool_inj hbinary
    binaryEncodingActivationHeight := littleEndian_uint64_inj hbinaryHeight
    initialBlockReward := littleEndian_uint64_inj hreward
    minerFeeShare := hfee }

/-! ## The rules -/

/-- The length of the longest slice, `math.MaxInt`. -/
def maxSliceLen : Nat := 2 ^ 63 - 1

namespace ConsensusParams

/-- The size check of `applyBlockToState`, for a block of `size` bytes. -/
def ExceedsSize (p : ConsensusParams) (size : Nat) : Prop :=
  p.maxBlockSize > 0 ∧ size > p.maxBlockSize.toNat

/-- The largest size that is accepted. -/
def sizeLimit (p : ConsensusParams) : Nat :=
  if p.maxBlockSize = 0 then maxSliceLen else min p.maxBlockSize.toNat maxSliceLen

theorem exceedsSize_iff (p : ConsensusParams) {size : Nat} (h : size ≤ maxSliceLen) :
    p.ExceedsSize size ↔ p.sizeLimit < size := by
  unfold ExceedsSize sizeLimit
  split
  · next h0 =>
    rw [h0]
    simp only [gt_iff_lt, UInt64.lt_irrefl, false_and, false_iff]
    omega
  · next h0 =>
    have hpos : p.maxBlockSize > 0 := UInt64.pos_iff_ne_zero.mpr h0
    simp only [hpos, true_and, gt_iff_lt]
    omega

theorem sizeLimit_le (p : ConsensusParams) : p.sizeLimit ≤ maxSliceLen := by
  unfold sizeLimit
  split <;> omega

/-- The difficulties the bounds accept are the same: the bounds are the same, or no
difficulty lies between them on either side. -/
def SameBounds (p q : ConsensusParams) : Prop :=
  p.minDifficultyBits = q.minDifficultyBits ∧ p.maxDifficultyBits = q.maxDifficultyBits
    ∨ p.maxDifficultyBits < p.minDifficultyBits ∧ q.maxDifficultyBits < q.minDifficultyBits

end ConsensusParams

/-- The floor `BlockReward` uses. -/
def MonetaryPolicy.rewardFloor (mp : MonetaryPolicy) : UInt64 :=
  if mp.minimumBlockReward = 0 then 10000000 else mp.minimumBlockReward

/-- A share of an amount, in percent. -/
def shareOf (share : UInt8) (amount : UInt64) : UInt64 := amount * share.toUInt64 / 100

/-- **The same rules.** Under both configurations the same blocks are accepted with the same
resulting accounts, rewards and shares are the same, and so are the bounds on difficulty and
size. -/
structure SameRules (cr : Crypto) (p q : ConsensusParams) : Prop where
  /-- `applyBlockToState` accepts the same blocks and leaves the same accounts -/
  apply : ∀ (genesisAddress : Bytes) (b : Block) (s t : Ledger),
    blockSizeForConsensus b ≤ maxSliceLen →
      (applyBlockToState cr p p.monetaryPolicy b genesisAddress s = .ret () t
        ↔ applyBlockToState cr q q.monetaryPolicy b genesisAddress s = .ret () t)
  reward : ∀ height, p.monetaryPolicy.blockReward height = q.monetaryPolicy.blockReward height
  minerReward : ∀ amount, shareOf p.monetaryPolicy.minerRewardShare amount
    = shareOf q.monetaryPolicy.minerRewardShare amount
  genesisReward : ∀ amount, shareOf p.monetaryPolicy.genesisShare amount
    = shareOf q.monetaryPolicy.genesisShare amount
  minerFee : ∀ fees, p.monetaryPolicy.minerFeeAmount fees = q.monetaryPolicy.minerFeeAmount fees
  bounds : ∀ bits, p.checkDifficultyBounds bits = .ok () ↔ q.checkDifficultyBounds bits = .ok ()
  difficulty : ∀ block parent, p.validateBlockDifficulty block parent = .ok ()
    ↔ q.validateBlockDifficulty block parent = .ok ()
  genesisDifficulty : p.genesisDifficultyBits = q.genesisDifficultyBits
  size : ∀ size ≤ maxSliceLen, p.ExceedsSize size ↔ q.ExceedsSize size
  version : ∀ height, p.blockVersionForHeight height = q.blockVersionForHeight height

/-- **Agreement on what the hash leaves out**, up to what no check tells apart: bounds that
let nothing through, limits no block can reach, and a floor of 0, which stands for
10000000 – without an initial reward the floor is not looked at. -/
structure SameUnhashed (p q : ConsensusParams) : Prop where
  bounds : p.SameBounds q
  genesisDifficultyBits : p.genesisDifficultyBits = q.genesisDifficultyBits
  sizeLimit : p.sizeLimit = q.sizeLimit
  rewardFloor : p.monetaryPolicy.initialBlockReward = 0
    ∨ p.monetaryPolicy.rewardFloor = q.monetaryPolicy.rewardFloor
  minerRewardShare : p.monetaryPolicy.minerRewardShare = q.monetaryPolicy.minerRewardShare
  genesisShare : p.monetaryPolicy.genesisShare = q.monetaryPolicy.genesisShare

/-! ## Rewards -/

namespace MonetaryPolicy

/-- `n` yearly reductions leave at most `(9/10) ^ n` of the reward. -/
theorem reductions_le {m : Nat} : ∀ {n r r' : Nat}, reductions m n r = some r' →
    r' * 10 ^ n ≤ r * 9 ^ n
  | 0, r, r', h => by
    rw [reductions, Option.some.injEq] at h
    rw [h, pow_zero, pow_zero]
  | n + 1, r, r', h => by
    rw [reductions] at h
    split at h
    · cases h
    split at h
    · cases h
    have ih := reductions_le h
    calc r' * 10 ^ (n + 1) = r' * 10 ^ n * 10 := by rw [pow_succ, Nat.mul_assoc]
      _ ≤ r * 9 / 10 * 9 ^ n * 10 := Nat.mul_le_mul_right 10 ih
      _ = r * 9 / 10 * 10 * 9 ^ n := Nat.mul_right_comm _ _ _
      _ ≤ r * 9 * 9 ^ n := Nat.mul_le_mul_right _ (Nat.div_mul_le_self _ _)
      _ = r * 9 ^ (n + 1) := by rw [pow_succ, Nat.mul_assoc, Nat.mul_comm 9]

theorem rewardFloor_pos (mp : MonetaryPolicy) : 0 < mp.rewardFloor.toNat := by
  unfold rewardFloor
  split
  · decide
  · next h => exact UInt64.lt_iff_toNat_lt.mp (UInt64.pos_iff_ne_zero.mpr h)

/-- **The reward in terms of its floor.** -/
theorem blockReward_eq (mp : MonetaryPolicy) (height : UInt64) :
    mp.blockReward height = if mp.initialBlockReward = 0 then 800000000
      else match reductions mp.rewardFloor.toNat (height / blocksPerYear).toNat
          mp.initialBlockReward.toNat with
        | none => mp.rewardFloor
        | some reward =>
          if reward < mp.rewardFloor.toNat then mp.rewardFloor
          else if reward ≥ 2 ^ 64 then mp.rewardFloor
          else UInt64.ofNat reward := rfl

/-- A height at which every reward has come down to its floor. -/
def lateHeight : UInt64 := 600 * blocksPerYear

/-- After 600 reductions nothing of a 64-bit reward is left. -/
theorem reductions_eq_zero {m r r' : Nat} (hr : r < 2 ^ 64)
    (h : reductions m (150 * 4) r = some r') : r' = 0 := by
  have hbig : 2 ^ 64 * 9 ^ (150 * 4) < 10 ^ (150 * 4) := by
    rw [pow_mul, pow_mul]
    decide
  by_contra hne
  have hle : 10 ^ (150 * 4) ≤ 2 ^ 64 * 9 ^ (150 * 4) := by
    calc 10 ^ (150 * 4) ≤ r' * 10 ^ (150 * 4) :=
          Nat.le_mul_of_pos_left _ (Nat.pos_of_ne_zero hne)
      _ ≤ r * 9 ^ (150 * 4) := reductions_le h
      _ ≤ 2 ^ 64 * 9 ^ (150 * 4) := Nat.mul_le_mul_right _ hr.le
  exact absurd hle (Nat.not_le.mpr hbig)

/-- **The floor is reached.** -/
theorem blockReward_lateHeight {mp : MonetaryPolicy} (h0 : mp.initialBlockReward ≠ 0) :
    mp.blockReward lateHeight = mp.rewardFloor := by
  have hyears : (lateHeight / blocksPerYear).toNat = 150 * 4 := by decide
  rw [blockReward_eq, if_neg h0, hyears]
  cases hr : reductions mp.rewardFloor.toNat (150 * 4) mp.initialBlockReward.toNat with
  | none => rfl
  | some reward =>
    have hzero : reward = 0 := reductions_eq_zero mp.initialBlockReward.toNat_lt hr
    show (if reward < mp.rewardFloor.toNat then mp.rewardFloor
      else if reward ≥ 2 ^ 64 then mp.rewardFloor else UInt64.ofNat reward) = mp.rewardFloor
    rw [if_pos (hzero ▸ mp.rewardFloor_pos)]

/-- A share is what it leaves of one hundred. -/
theorem shareOf_hundred (share : UInt8) : (shareOf share 100).toNat = share.toNat := by
  have hlt := share.toNat_lt
  unfold shareOf
  rw [UInt64.toNat_div, UInt64.toNat_mul, UInt8.toNat_toUInt64]
  simp only [UInt64.reduceToNat]
  omega

end MonetaryPolicy

/-- Shares that give the same part of every amount are the same. -/
theorem share_eq_of_shareOf_eq {v w : UInt8} (h : ∀ amount, shareOf v amount = shareOf w amount) :
    v = w := by
  have h100 := congrArg UInt64.toNat (h 100)
  rw [MonetaryPolicy.shareOf_hundred, MonetaryPolicy.shareOf_hundred] at h100
  exact UInt8.toNat_inj.mp h100

/-! ## From the rules to the fields -/

section Fields

variable {p q : ConsensusParams}

theorem sameBounds_of_check_iff
    (h : ∀ bits, p.checkDifficultyBounds bits = .ok () ↔ q.checkDifficultyBounds bits = .ok ()) :
    p.SameBounds q := by
  simp only [ConsensusParams.checkDifficultyBounds_eq_ok, UInt32.le_iff_toNat_le] at h
  unfold ConsensusParams.SameBounds
  simp only [← UInt32.toNat_inj, UInt32.lt_iff_toNat_lt]
  have hpmin := h p.minDifficultyBits
  have hpmax := h p.maxDifficultyBits
  have hqmin := h q.minDifficultyBits
  have hqmax := h q.maxDifficultyBits
  omega

theorem sizeLimit_eq_of_exceedsSize_iff
    (h : ∀ size ≤ maxSliceLen, p.ExceedsSize size ↔ q.ExceedsSize size) :
    p.sizeLimit = q.sizeLimit := by
  have hlimit : ∀ size ≤ maxSliceLen, p.sizeLimit < size ↔ q.sizeLimit < size := by
    intro size hsize
    rw [← p.exceedsSize_iff hsize, ← q.exceedsSize_iff hsize]
    exact h size hsize
  have hp := hlimit p.sizeLimit p.sizeLimit_le
  have hq := hlimit q.sizeLimit q.sizeLimit_le
  omega

theorem SameRules.sameUnhashed {cr : Crypto} (hashed : SameHashed p q) (h : SameRules cr p q) :
    SameUnhashed p q where
  bounds := sameBounds_of_check_iff h.bounds
  genesisDifficultyBits := h.genesisDifficulty
  sizeLimit := sizeLimit_eq_of_exceedsSize_iff h.size
  rewardFloor := by
    by_cases h0 : p.monetaryPolicy.initialBlockReward = 0
    · exact .inl h0
    · have h0' : q.monetaryPolicy.initialBlockReward ≠ 0 := hashed.initialBlockReward ▸ h0
      have hreward := h.reward MonetaryPolicy.lateHeight
      rw [MonetaryPolicy.blockReward_lateHeight h0,
        MonetaryPolicy.blockReward_lateHeight h0'] at hreward
      exact .inr hreward
  minerRewardShare := share_eq_of_shareOf_eq h.minerReward
  genesisShare := share_eq_of_shareOf_eq h.genesisReward

/-! ## From the fields to the rules -/

theorem checkDifficultyBounds_iff (h : p.SameBounds q) (bits : UInt32) :
    p.checkDifficultyBounds bits = .ok () ↔ q.checkDifficultyBounds bits = .ok () := by
  simp only [ConsensusParams.checkDifficultyBounds_eq_ok, UInt32.le_iff_toNat_le]
  unfold ConsensusParams.SameBounds at h
  simp only [← UInt32.toNat_inj, UInt32.lt_iff_toNat_lt] at h
  omega

/-- The controller reads the target time and the floor of the difficulty. -/
theorem calcDifficulty_congr (hashed : SameHashed p q) : p.calcDifficulty = q.calcDifficulty := by
  funext currentTime parent
  simp only [ConsensusParams.calcDifficulty, validatorAdjuster, adjusterParams,
    Nogopow.newDifficultyAdjuster, Nogopow.DifficultyAdjuster.calcDifficulty,
    Nogopow.DifficultyAdjuster.computeAverageBlockTime,
    Nogopow.DifficultyAdjuster.singleInterval,
    Nogopow.DifficultyAdjuster.enforceBoundaryConditions, Option.getD_some,
    hashed.blockTimeTargetSeconds, hashed.minDifficulty]
  rfl

theorem validateBlockDifficulty_iff (hashed : SameHashed p q) (h : p.SameBounds q)
    (block parent : Block) :
    p.validateBlockDifficulty block parent = .ok ()
      ↔ q.validateBlockDifficulty block parent = .ok () := by
  have hbounds := checkDifficultyBounds_iff h block.header.difficultyBits
  unfold ConsensusParams.validateBlockDifficulty
  rw [hashed.difficultyEnable, calcDifficulty_congr hashed]
  cases hp : p.checkDifficultyBounds block.header.difficultyBits with
  | ok u =>
    rw [hp] at hbounds
    rw [hbounds.mp rfl]
  | error e =>
    cases hq : q.checkDifficultyBounds block.header.difficultyBits with
    | ok v =>
      rw [hp, hq] at hbounds
      exact nomatch hbounds.mpr rfl
    | error e' => simp

theorem blockReward_congr (hashed : SameHashed p q) (h : SameUnhashed p q) (height : UInt64) :
    p.monetaryPolicy.blockReward height = q.monetaryPolicy.blockReward height := by
  rw [MonetaryPolicy.blockReward_eq, MonetaryPolicy.blockReward_eq, ← hashed.initialBlockReward]
  cases h.rewardFloor with
  | inl h0 => rw [if_pos h0, if_pos h0]
  | inr hfloor => rw [hfloor]

theorem minerFeeAmount_congr (hashed : SameHashed p q) (fees : UInt64) :
    p.monetaryPolicy.minerFeeAmount fees = q.monetaryPolicy.minerFeeAmount fees := by
  unfold MonetaryPolicy.minerFeeAmount
  rw [hashed.minerFeeShare]

/-- Of the configuration, the check of a transaction reads which encoding is active. -/
theorem verifyForConsensus_congr (cr : Crypto) (hashed : SameHashed p q) (tx : Transaction)
    (height : UInt64) : tx.verifyForConsensus cr p height = tx.verifyForConsensus cr q height := by
  have hactive : p.binaryEncodingActive height = q.binaryEncodingActive height := by
    unfold ConsensusParams.binaryEncodingActive
    rw [hashed.binaryEncodingEnable, hashed.binaryEncodingActivationHeight]
  unfold Transaction.verifyForConsensus Transaction.verifyTransferForConsensus
    txSigningHashForConsensus
  rw [hactive]

theorem applyTransactions_congr (cr : Crypto) (hashed : SameHashed p q) (height : UInt64)
    (txs : List Transaction) : ∀ i, applyTransactions cr p height i txs
      = applyTransactions cr q height i txs := by
  induction txs with
  | nil => exact fun i => rfl
  | cons tx txs ih =>
    intro i
    rw [applyTransactions, applyTransactions, ih]
    unfold applyTransaction applyTransfer
    rw [verifyForConsensus_congr cr hashed]

/-- Of the policy, the economics checks read the reward of the height, two shares and the
miner's part of the fees. -/
theorem applyReward_congr (cr : Crypto) (hashed : SameHashed p q) (h : SameUnhashed p q) :
    applyReward cr p.monetaryPolicy = applyReward cr q.monetaryPolicy := by
  have hcoinbase : expectedCoinbase p.monetaryPolicy = expectedCoinbase q.monetaryPolicy := by
    funext height fees
    unfold expectedCoinbase
    rw [blockReward_congr hashed h, h.minerRewardShare, minerFeeAmount_congr hashed]
  have hgenesis : genesisReward p.monetaryPolicy = genesisReward q.monetaryPolicy := by
    funext height
    unfold genesisReward
    rw [blockReward_congr hashed h, h.genesisShare]
  funext b cb rest genesisAddress
  unfold applyReward
  rw [hcoinbase, hgenesis]

theorem SameUnhashed.sameRules (cr : Crypto) (hashed : SameHashed p q) (h : SameUnhashed p q) :
    SameRules cr p q where
  apply genesisAddress b s t hsize := by
    have hexceeds : p.ExceedsSize (blockSizeForConsensus b)
        ↔ q.ExceedsSize (blockSizeForConsensus b) := by
      rw [p.exceedsSize_iff hsize, q.exceedsSize_iff hsize, h.sizeLimit]
    rw [applyBlockToState_eq_ret, applyBlockToState_eq_ret, applyReward_congr cr hashed h]
    simp only [applyTransactions_congr cr hashed]
    exact and_congr_left' (not_congr hexceeds)
  reward := blockReward_congr hashed h
  minerReward amount := by rw [h.minerRewardShare]
  genesisReward amount := by rw [h.genesisShare]
  minerFee := minerFeeAmount_congr hashed
  bounds := checkDifficultyBounds_iff h.bounds
  difficulty := validateBlockDifficulty_iff hashed h.bounds
  genesisDifficulty := h.genesisDifficultyBits
  size size hsize := by rw [p.exceedsSize_iff hsize, q.exceedsSize_iff hsize, h.sizeLimit]
  version height := by
    unfold ConsensusParams.blockVersionForHeight ConsensusParams.merkleRootActive
    rw [hashed.merkleEnable, hashed.merkleActivationHeight]

end Fields

/-- **What the hash commits to.** Two configurations with the same bytes have the same rules
exactly when they agree on the fields the bytes leave out. -/
theorem sameRules_iff_sameUnhashed (cr : Crypto) {p q : ConsensusParams}
    (h : p.marshalBinary = q.marshalBinary) : SameRules cr p q ↔ SameUnhashed p q :=
  have hashed := sameHashed_of_marshalBinary_eq h
  ⟨SameRules.sameUnhashed hashed, SameUnhashed.sameRules cr hashed⟩

/-- The yearly reduction is left out of the bytes too, but the reward does not read it. -/
theorem sameRules_other_reduction :
    let q : ConsensusParams :=
      { ConsensusParams.default with
        monetaryPolicy := { MonetaryPolicy.default with annualReductionPercent := 50 } }
    ConsensusParams.default.marshalBinary = q.marshalBinary
      ∧ SameRules Crypto.constant ConsensusParams.default q := by
  intro q
  have hbytes : ConsensusParams.default.marshalBinary = q.marshalBinary := rfl
  refine ⟨hbytes, (sameRules_iff_sameUnhashed Crypto.constant hbytes).mpr ?_⟩
  exact ⟨.inl ⟨rfl, rfl⟩, rfl, rfl, .inr rfl, rfl, rfl⟩

/-- **Two valid policies, one hash.** Of the reward, one pays 99 % to the miner and 1 % to the
genesis address, the other 98 % and 2 %. The bytes are the same; the first block of the one
chain is refused by the other. -/
theorem one_hash_two_rules :
    let q : ConsensusParams :=
      { ConsensusParams.default with
        monetaryPolicy :=
          { MonetaryPolicy.default with minerRewardShare := 98, genesisShare := 2 } }
    let block := sampleBlock [1] [] 1 1 []
    ConsensusParams.default.marshalBinary = q.marshalBinary
      ∧ ConsensusParams.default.monetaryPolicy.validate = .ok ()
      ∧ q.monetaryPolicy.validate = .ok ()
      ∧ (∃ t, applyBlockToState Crypto.constant ConsensusParams.default
          ConsensusParams.default.monetaryPolicy block (zeroAddress 0) ∅ = .ret () t)
      ∧ ¬ ∃ t, applyBlockToState Crypto.constant q q.monetaryPolicy block (zeroAddress 0) ∅
          = .ret () t := by
  refine ⟨rfl, rfl, rfl, ⟨((∅ : Ledger).insert (zeroAddress 0) ⟨8000000, 0⟩).insert
    (zeroAddress 1) ⟨792000000, 0⟩, by decide +kernel⟩, ?_⟩
  rintro ⟨t, ht⟩
  rw [applyBlockToState_eq_ret] at ht
  obtain ⟨-, cb, rest, htxs, -, s, hreward, -⟩ := ht
  rw [if_pos (by decide), applyReward_eq_ret] at hreward
  cases htxs
  exact absurd hreward.2.1.2 (by decide +kernel)

end NogoChain
