import NogoChain.Consensus.BatchVerify
import NogoChain.Consensus.Difficulty
import NogoChain.Consensus.Validator

/-!
# What a validated block may claim

`BlockValidator.ValidateBlock` is a chain of checks: structure, proof of work, difficulty,
timestamp, transactions and, given a state, the state transition. None of them compares the
block's `PrevHash` with the hash of the parent, its height with the height of the parent, or
its Merkle root with its transactions – `validateBlockLocked` of package `core` does all three.
Of the parent only the timestamp and the difficulty are looked at (`validateBlock_congr`), and
of the Merkle root only what it does to the seal (`validateBlock_withRoot`).

And the call is no mere look: a transaction without a chain identifier is given that of the
validator, in the block that was passed in.
-/

namespace NogoChain.Consensus

open Prog

variable (cr : Crypto)

/-! ## The checks -/

structure BlockValidator where
  consensus : ConsensusParams
  chainID : UInt64

/-- `consensus.blockVersionForHeight`: unlike that of `core`, the binary encoding counts
too. -/
def blockVersionForHeight (p : ConsensusParams) (height : UInt64) : UInt32 :=
  if p.merkleRootActive height || p.binaryEncodingActive height then 2 else 1

/-- `validateBlockStructure`, for a block that is not nil. Difficulty bits above 32 bits do not
exist. -/
def validateBlockStructure (p : ConsensusParams) (block : Block) : Except GoError Unit :=
  if block.hash = [] then .error (.new "block hash is empty")
  else if block.header.difficultyBits = 0 then .error (.new "difficulty bits is zero")
  else
    let expectedVersion := blockVersionForHeight p block.height
    if block.header.version ≠ expectedVersion then
      .error (.wrap "%w: expected %d got %d at height %d"
        [.num expectedVersion.toNat, .num block.header.version.toNat, .num block.height.toNat]
        (.new "invalid block version"))
    else .ok ()

/-- `rlpEncode` of the header that `validateBlockPoWNogoPow` builds from the block alone. -/
def powHeaderBytes (block : Block) (coinbase : Bytes) : Bytes :=
  copy32 block.header.prevHash ++ coinbase ++ copy32 block.header.stateRoot
    ++ copy32 (sliceBytes block.header.merkleRoot)
    ++ bigBytes (int64Magnitude block.height)
    ++ List.replicate 8 0
    ++ bigEndian 8 block.header.timestampUnix.toUInt64.toNat
    ++ copy32 (littleEndian 8 block.header.nonce.toNat)
    ++ bigBytes block.header.difficultyBits.toNat

def validateBlockPoWNogoPow (block : Block) (parent : Option Block) : Except GoError Unit :=
  if block.height = 0 then .ok ()
  else if parent = none then .error (.new "parent block is nil for POW verification")
  else
    match stringToAddress block.minerAddress with
    | .error e => .error (.wrap "invalid miner address: %w" [] e)
    | .ok coinbase =>
      if cr.computePoW (cr.keccak256 (powHeaderBytes block coinbase)) (copy32 block.header.prevHash)
          ≤ difficultyToTarget block.header.difficultyBits then .ok ()
      else .error (.wrap "NogoPow seal verification failed for block %d: %w"
        [.num block.height.toNat] (.new "invalid seal"))

def blockTimeMaxDrift : Int64 := 900

/-- `validateTimestamp`, at network time `now`. -/
def validateTimestamp (now : Int64) (block parent : Block) : Except GoError Unit :=
  let time := block.header.timestampUnix
  if time ≤ parent.header.timestampUnix then
    .error (.wrap "%w: block time %d not greater than parent time %d"
      [.num time.toInt, .num parent.header.timestampUnix.toInt]
      (.new "block timestamp not greater than parent"))
  else
    let maxAllowedTime := now + blockTimeMaxDrift
    if time > maxAllowedTime then
      .error (.wrap "%w: block time %d too far in future (max allowed %d)"
        [.num time.toInt, .num maxAllowedTime.toInt] (.new "block timestamp too far in future"))
    else .ok ()

/-- What the loop of `validateTransactions` makes of a transaction. -/
def stampChainID (chainID : UInt64) (tx : Transaction) : Transaction :=
  if tx.chainId = 0 then { tx with chainId := chainID } else tx

/-- The loop over the chain identifiers, from position `i` on: the transactions afterwards,
and the error if there is one. Those before the error are stamped already. -/
def checkChainIDs (chainID : UInt64) : Nat → List Transaction → List Transaction × Option GoError
  | _, [] => ([], none)
  | i, tx :: txs =>
    let tx := stampChainID chainID tx
    if tx.chainId ≠ chainID then
      (tx :: txs, some (.wrap "%w: transaction %d has chainId %d" [.num i, .num tx.chainId.toNat]
        (.new "transaction has wrong chainId")))
    else
      let rest := checkChainIDs chainID (i + 1) txs
      (tx :: rest.1, rest.2)

/-- The fees of the transfers after the first transaction, with the overflow check. -/
def sumFees : UInt64 → List Transaction → Except GoError UInt64
  | totalFees, [] => .ok totalFees
  | totalFees, tx :: txs =>
    if tx.type = .transfer then
      if totalFees > maxUint64 - tx.fee then
        .error (.errorf "total fee overflow: accumulated %d + new %d exceeds max uint64"
          [.num totalFees.toNat, .num tx.fee.toNat])
      else sumFees (totalFees + tx.fee) txs
    else sumFees totalFees txs

/-- `validateCoinbaseEconomics`, for a block with a first transaction. -/
def validateCoinbaseEconomics (p : ConsensusParams) (block : Block) (coinbase : Transaction)
    (rest : List Transaction) : Except GoError Unit :=
  match validateAddress block.minerAddress with
  | .error e => .error (.wrap "invalid miner address: %w" [] e)
  | .ok () =>
    match sumFees 0 rest with
    | .error e => .error e
    | .ok totalFees =>
      let expectedAmount := expectedCoinbase p.monetaryPolicy block.height totalFees
      if coinbase.toAddress ≠ block.minerAddress then
        .error (.errorf "coinbase toAddress %s does not match minerAddress %s"
          [.str coinbase.toAddress, .str block.minerAddress])
      else if coinbase.amount ≠ expectedAmount then
        .error (.wrap "%w: expected %d got %d (height=%d)"
          [.num expectedAmount.toNat, .num coinbase.amount.toNat, .num block.height.toNat]
          (.new "invalid coinbase amount"))
      else .ok ()

namespace BlockValidator

variable (v : BlockValidator)

/-- `validateTransactions`, on the block that is passed in. -/
def validateTransactions : Prog Block GoError Fault Unit := do
  let block ← Prog.get
  match block.transactions with
  | [] => Prog.throw (.new "block has no transactions")
  | first :: _ =>
    if first.type ≠ .coinbase then Prog.throw (.new "first transaction must be coinbase")
    else do
      let checked := checkChainIDs v.chainID 0 block.transactions
      Prog.modify fun b => { b with transactions := checked.1 }
      match checked.2 with
      | some e => Prog.throw e
      | none => do
        let block ← Prog.get
        verifyTransactionsBatch cr v.consensus block
        match block.transactions with
        | [] => pure ()
        | coinbase :: rest =>
          if block.height > 0 then
            Prog.mapErr (.wrap "coinbase economics validation failed: %w" [])
              (Prog.ofExcept (validateCoinbaseEconomics v.consensus block coinbase rest))
          else pure ()

/-- The state transition on a copy of the state, if there is a state. -/
def validateTransition (state : Option Ledger) (block : Block) : Except GoError Unit :=
  match state with
  | none => .ok ()
  | some state =>
    if block.height > 0 then
      match applyBlockToState cr v.consensus block state with
      | .ret _ _ => .ok ()
      | .err e _ => .error (.wrap "state transition validation failed: %w" [] e)
    else .ok ()

variable (R : Type) [Add R] [Sub R] [Mul R] [Div R] [Neg R] [LT R] [DecidableLT R]
  [OfScientific R] [Nogopow.FactorArith R]

/-- `ValidateBlock`, on the block that is passed in and at network time `now`. (A nil block is
refused at once.) -/
def validateBlock (now : Int64) (parent : Option Block) (state : Option Ledger) :
    Prog Block GoError Fault Unit := do
  let block ← Prog.get
  Prog.mapErr (.wrap "structural validation failed: %w" [])
    (Prog.ofExcept (validateBlockStructure v.consensus block))
  Prog.mapErr (.wrap "POW validation failed: %w" [])
    (Prog.ofExcept (validateBlockPoWNogoPow cr block parent))
  Prog.mapErr (.wrap "difficulty validation failed: %w" [])
    (validateDifficulty R v.consensus block parent)
  match parent with
  | none => pure ()
  | some parent =>
    Prog.mapErr (.wrap "timestamp validation failed: %w" [])
      (Prog.ofExcept (validateTimestamp now block parent))
  Prog.mapErr (.wrap "transaction validation failed: %w" []) (v.validateTransactions cr)
  let block ← Prog.get
  Prog.ofExcept (v.validateTransition cr state block)

end BlockValidator

/-! ## What a nil result says -/

variable {v : BlockValidator} {block parent : Block}

section Accepted

variable {cr}

theorem checkChainIDs_eq_none {chainID : UInt64} {i : Nat} {txs : List Transaction}
    (h : (checkChainIDs chainID i txs).2 = none) :
    (checkChainIDs chainID i txs).1 = txs.map (stampChainID chainID) := by
  induction txs generalizing i with
  | nil => rfl
  | cons tx txs ih =>
    rw [checkChainIDs] at h ⊢
    split at h
    · cases h
    · next hid =>
      rw [if_neg hid, List.map_cons]
      exact congrArg (stampChainID chainID tx :: ·) (ih h)

/-- A stamp shows on a transaction without a chain identifier only. -/
theorem stampChainID_eq_self_iff {chainID : UInt64} {tx : Transaction} :
    stampChainID chainID tx = tx ↔ tx.chainId ≠ 0 ∨ chainID = 0 := by
  unfold stampChainID
  split
  · next hzero =>
    simp only [hzero, ne_eq, not_true_eq_false, false_or]
    constructor
    · intro h
      rw [← hzero, ← h]
    · intro h
      rw [h, ← hzero]
  · next hset => simp [hset]

/-- The block as the validator leaves it. -/
def stamped (v : BlockValidator) (block : Block) : Block :=
  { block with transactions := block.transactions.map (stampChainID v.chainID) }

theorem stamped_eq_self_iff :
    stamped v block = block ↔ ∀ tx ∈ block.transactions, tx.chainId ≠ 0 ∨ v.chainID = 0 := by
  have htxs : stamped v block = block
      ↔ block.transactions.map (stampChainID v.chainID) = block.transactions := by
    constructor
    · intro h
      exact congrArg Block.transactions h
    · intro h
      rw [stamped, h]
  have hid : block.transactions.map (stampChainID v.chainID) = block.transactions
      ↔ block.transactions.map (stampChainID v.chainID) = block.transactions.map id := by
    rw [List.map_id]
  rw [htxs, hid, List.map_inj_left]
  exact forall₂_congr fun tx _ => stampChainID_eq_self_iff

/-- The checks of the transactions as the validator stamps them. -/
def BlockValidator.TransactionsPass (cr : Crypto) (v : BlockValidator) (block : Block) : Prop :=
  ∃ first rest, block.transactions = first :: rest ∧ first.type = .coinbase
    ∧ (checkChainIDs v.chainID 0 (first :: rest)).2 = none
    ∧ verifyTransactionsBatch cr v.consensus (stamped v block) () = .ret () ()
    ∧ (block.height > 0 → validateCoinbaseEconomics v.consensus (stamped v block)
        (stampChainID v.chainID first) (rest.map (stampChainID v.chainID)) = .ok ())

/-- An accepted list of transactions has been stamped. -/
theorem validateTransactions_eq_ret {t : Block} :
    v.validateTransactions cr block = .ret () t
      ↔ t = stamped v block ∧ v.TransactionsPass cr block := by
  unfold BlockValidator.validateTransactions BlockValidator.TransactionsPass
  rw [get_bind_apply]
  cases htxs : block.transactions with
  | nil => simp
  | cons first rest =>
    dsimp only
    by_cases hfirst : first.type = .coinbase
    · rw [if_neg (not_not.mpr hfirst)]
      cases hnone : (checkChainIDs v.chainID 0 (first :: rest)).2 with
      | some e => simp [bind_apply, hnone]
      | none =>
        have hmodify : Prog.modify (fun b : Block =>
            { b with transactions := (checkChainIDs v.chainID 0 (first :: rest)).1 }) block
            = (.ret () (stamped v block) : Outcome Block GoError Fault Unit) := by
          rw [modify_apply, checkChainIDs_eq_none hnone, stamped, htxs]
        have hcons : (stamped v block).transactions
            = stampChainID v.chainID first :: rest.map (stampChainID v.chainID) := by
          rw [stamped, htxs, List.map_cons]
        have hheight : (stamped v block).height = block.height := rfl
        rw [bind_of_ret hmodify]
        dsimp only
        rw [get_bind_apply, bind_unit_eq_ret, hcons, hheight]
        simp only [verifyTransactionsBatch_eq_ret]
        by_cases hpos : block.height > 0
        · simp [hpos, hfirst, hnone, mapErr_eq_ret, ofExcept_eq_ret, and_left_comm, and_assoc,
            and_comm]
        · simp [hpos, hfirst, hnone, and_comm, eq_comm]
    · simp [hfirst]

section Controller

variable {R : Type} [Add R] [Sub R] [Mul R] [Div R] [Neg R] [LT R] [DecidableLT R]
  [OfScientific R] [Nogopow.FactorArith R]

/-- **What acceptance says, and what it leaves behind**: the block, with its chain identifiers
filled in. -/
theorem validateBlock_eq_ret {now : Int64} {t : Block} {state : Option Ledger} :
    v.validateBlock cr R now (some parent) state block = .ret () t
      ↔ t = stamped v block ∧ validateBlockStructure v.consensus block = .ok ()
        ∧ validateBlockPoWNogoPow cr block (some parent) = .ok ()
        ∧ validateDifficulty R v.consensus block (some parent) () = .ret () ()
        ∧ validateTimestamp now block parent = .ok () ∧ v.TransactionsPass cr block
        ∧ v.validateTransition cr state (stamped v block) = .ok () := by
  unfold BlockValidator.validateBlock
  rw [get_bind_apply]
  simp only [bind_unit_eq_ret, mapErr_eq_ret, ofExcept_eq_ret, validateDifficulty_eq_ret,
    validateTransactions_eq_ret, get_bind_apply]
  constructor
  · rintro ⟨_, ⟨hstructure, rfl⟩, _, ⟨hpow, rfl⟩, _, ⟨rfl, hdifficulty⟩, _, ⟨htime, rfl⟩, _,
      ⟨rfl, htxs⟩, hstate, rfl⟩
    exact ⟨rfl, hstructure, hpow, ⟨trivial, hdifficulty⟩, htime, htxs, hstate⟩
  · rintro ⟨rfl, hstructure, hpow, ⟨-, hdifficulty⟩, htime, htxs, hstate⟩
    exact ⟨_, ⟨hstructure, rfl⟩, _, ⟨hpow, rfl⟩, _, ⟨rfl, hdifficulty⟩, _, ⟨htime, rfl⟩, _,
      ⟨rfl, htxs⟩, hstate, rfl⟩

/-! ## What is looked at of the parent -/

/-- Without ancestors the controller looks at the time and the difficulty of the parent. -/
theorem calcDifficulty_validatorAdjuster_congr {p : ConsensusParams} {time : UInt64}
    {a b : Nogopow.Header} (htime : a.time = b.time) (hdiff : a.difficulty = b.difficulty) :
    (validatorAdjuster p).calcDifficulty R time (some a)
      = (validatorAdjuster p).calcDifficulty R time (some b) := by
  have hinterval : (validatorAdjuster p).singleInterval time a
      = (validatorAdjuster p).singleInterval time b := by
    unfold Nogopow.DifficultyAdjuster.singleInterval
    rw [htime]
  unfold Nogopow.DifficultyAdjuster.calcDifficulty
  rw [Option.bind_some, Option.bind_some, hdiff]
  cases b.difficulty with
  | none => rfl
  | some diff =>
    have hsame := congrArg (fun avgTime => some ((validatorAdjuster p).enforceBoundaryConditions R
      ((validatorAdjuster p).calculateDeterministicDifficulty R avgTime
        p.blockTimeTargetSeconds diff b)
      diff)) hinterval
    exact hsame

/-- **Only the time and the difficulty of the parent are looked at**: a block that passes
against one parent passes against every other with the same two, whatever their hashes and
heights. -/
theorem validateBlock_congr {now : Int64} {other : Block} {state : Option Ledger}
    (htime : parent.header.timestampUnix = other.header.timestampUnix)
    (hbits : parent.header.difficultyBits = other.header.difficultyBits) :
    v.validateBlock cr R now (some parent) state = v.validateBlock cr R now (some other) state := by
  have hpow : ∀ block, validateBlockPoWNogoPow cr block (some parent)
      = validateBlockPoWNogoPow cr block (some other) := fun _ => rfl
  have hcalc : ∀ time, (validatorAdjuster v.consensus).calcDifficulty R time
      (some (parentHeader parent))
      = (validatorAdjuster v.consensus).calcDifficulty R time (some (parentHeader other)) :=
        fun _ =>
    calcDifficulty_validatorAdjuster_congr (congrArg Int64.toUInt64 htime)
      (congrArg (fun bits : UInt32 => some (bits.toNat : Int)) hbits)
  unfold BlockValidator.validateBlock validateDifficulty validateTimestamp
  simp only [hpow, hcalc, htime]

/-- The block with another Merkle root. -/
def withRoot (root : Option Bytes) (block : Block) : Block :=
  { block with header := { block.header with merkleRoot := root } }

/-- **The Merkle root is looked at in the seal only.** -/
theorem validateBlock_withRoot {now : Int64} {t : Block} {state : Option Ledger}
    {root : Option Bytes} (h : v.validateBlock cr R now (some parent) state block = .ret () t)
    (hpow : validateBlockPoWNogoPow cr (withRoot root block) (some parent) = .ok ()) :
    v.validateBlock cr R now (some parent) state (withRoot root block)
      = .ret () (withRoot root t) := by
  obtain ⟨rfl, hstructure, -, hdifficulty, htime, htxs, hstate⟩ := validateBlock_eq_ret.mp h
  exact validateBlock_eq_ret.mpr ⟨rfl, hstructure, hpow, hdifficulty, htime, htxs, hstate⟩

end Controller

end Accepted

/-! ## What is not checked -/

/-- **An accepted block is bound to nothing.** It is accepted as the child of every block with the
time and the difficulty of the parent, among them one that it names neither by its hash nor by its
height, and with every Merkle root that keeps the seal. Only whether the call leaves the block as
it was is decided by what was accepted: it does exactly if no transaction comes without a chain
identifier. -/
theorem validateBlock_unbound (cr : Crypto) (R : Type) [Add R] [Sub R] [Mul R] [Div R] [Neg R]
    [LT R] [DecidableLT R] [OfScientific R] [Nogopow.FactorArith R] (v : BlockValidator)
    (now : Int64) (parent block after : Block) (state : Option Ledger)
    (hnil : v.validateBlock cr R now (some parent) state block = .ret () after) :
    (∀ other : Block, parent.header.timestampUnix = other.header.timestampUnix →
        parent.header.difficultyBits = other.header.difficultyBits →
        v.validateBlock cr R now (some other) state block = .ret () after)
      ∧ (∃ other, v.validateBlock cr R now (some other) state block = .ret () after
          ∧ block.header.prevHash ≠ other.hash ∧ block.height ≠ other.height + 1)
      ∧ (∀ root, validateBlockPoWNogoPow cr (withRoot root block) (some parent) = .ok () →
          v.validateBlock cr R now (some parent) state (withRoot root block)
            = .ret () (withRoot root after))
      ∧ (after = block ↔ ∀ tx ∈ block.transactions, tx.chainId ≠ 0 ∨ v.chainID = 0) := by
  have hother : ∀ other : Block, parent.header.timestampUnix = other.header.timestampUnix →
      parent.header.difficultyBits = other.header.difficultyBits →
      v.validateBlock cr R now (some other) state block = .ret () after := by
    intro other htime hbits
    rw [← validateBlock_congr htime hbits]
    exact hnil
  refine ⟨hother, ?_, fun root hpow => validateBlock_withRoot hnil hpow, ?_⟩
  · let other := { parent with hash := 0 :: block.header.prevHash, height := block.height }
    have hhash : block.header.prevHash ≠ 0 :: block.header.prevHash := fun h =>
      absurd (congrArg List.length h) (Nat.ne_of_lt (Nat.lt_succ_self _))
    have hheight : block.height ≠ block.height + 1 := by
      grind
    exact ⟨other, hother other rfl rfl, hhash, hheight⟩
  · rw [(validateBlock_eq_ret.mp hnil).1]
    exact stamped_eq_self_iff

/-- A block of difficulty 1000 at the given time, on no block in particular, whose coinbase
has the given chain identifier. -/
def strayBlock (height : UInt64) (time : Int64) (chainId : UInt64) : Block :=
  let block := sampleBlock [height.toUInt8] [99] height 1000 []
  { block with
    header := { block.header with timestampUnix := time }
    transactions := block.transactions.map fun tx => { tx with chainId := chainId } }

/-- A block at height 2 whose coinbase has a chain identifier is accepted on a block of height 40
and with any Merkle root, and left as it was. -/
theorem validateBlock_unbound_stray :
    let v : BlockValidator := ⟨ConsensusParams.default, 1⟩
    let block := strayBlock 2 1030 1
    v.validateBlock Crypto.constant ℚ 2000 (some (strayBlock 40 1000 1)) none block = .ret () block
      ∧ ∀ root, v.validateBlock Crypto.constant ℚ 2000 (some (strayBlock 1 1000 1)) none
          (withRoot root block) = .ret () (withRoot root block) := by
  have hpow : ∀ root, validateBlockPoWNogoPow Crypto.constant (withRoot root (strayBlock 2 1030 1))
      (some (strayBlock 1 1000 1)) = validateBlockPoWNogoPow Crypto.constant (strayBlock 2 1030 1)
      (some (strayBlock 1 1000 1)) := fun _ => rfl
  have h := validateBlock_unbound Crypto.constant ℚ ⟨.default, 1⟩ 2000 (strayBlock 1 1000 1)
    (strayBlock 2 1030 1) (strayBlock 2 1030 1) none (by decide +kernel)
  exact ⟨h.1 (strayBlock 40 1000 1) rfl rfl, fun root =>
    h.2.2.1 root ((hpow root).trans (by decide +kernel))⟩

/-- **A stray block is accepted.** Height 5 on a parent of height 1, the hash of another block
as the hash of the parent and no Merkle root: `ValidateBlock` returns nil, with and without a
state, and the coinbase it was passed without a chain identifier now has one. -/
theorem stray_block_accepted :
    let v : BlockValidator := ⟨ConsensusParams.default, 1⟩
    let parent := strayBlock 1 1000 1
    let block := strayBlock 5 1030 0
    v.validateBlock Crypto.constant ℚ 2000 (some parent) none block = .ret () (strayBlock 5 1030 1)
      ∧ v.validateBlock Crypto.constant ℚ 2000 (some parent) (some ∅) block
        = .ret () (strayBlock 5 1030 1)
      ∧ block.header.prevHash ≠ parent.hash ∧ block.height ≠ parent.height + 1
      ∧ block.header.merkleRoot = none ∧ strayBlock 5 1030 1 ≠ block := by
  decide +kernel

end NogoChain.Consensus
