import Mathlib.Data.Finset.Sort
import NogoChain.Chain.AddBlock
import NogoChain.Core.FeeChecker
import NogoChain.Core.Merkle

/-!
# The assembly of a block

`MineTransfers` checks the transfers it is given, puts a coinbase in front of them and hands
the header to the proof-of-work engine. The engine – `CalcDifficulty` and `Seal` – and the
clock are not interpreted: their answers are the fields of `SealAnswer`. The node is taken to
do nothing else between the start and the end of the search for a nonce.

The amount of the coinbase is computed without the fees, whatever share of them the policy
gives to the miner.
-/

namespace NogoChain

/-- The serialised accounts, in the order of the addresses. -/
def accountBytes (s : Ledger) : Bytes :=
  (s.keys.sort (· ≤ ·)).flatMap fun addr =>
    addr ++ bigEndian 8 (s.account addr).balance.toNat ++ bigEndian 8 (s.account addr).nonce.toNat

/-- The accounts in the order in which `CalculateStateRoot` writes them. -/
def sortedAccounts (s : Ledger) : List (Bytes × Account) :=
  (s.keys.sort (· ≤ ·)).map fun addr => (addr, s.account addr)

/-- `CalculateStateRoot`. The account map of a chain is never nil. -/
def calculateStateRoot (cr : Crypto) (s : Ledger) : Bytes := cr.keccak256 (accountBytes s)

/-- What the clock and the proof-of-work engine answer. -/
structure SealAnswer where
  /-- network time -/
  now : Int64
  /-- `CalcDifficulty` -/
  difficulty : Nat
  nonce : UInt64
  /-- hash of the sealed header -/
  hash : Bytes
  hash_length : hash.length = 32
  /-- identity of the new block object -/
  ptr : Nat

variable (env : Env)

/-- The checks of `MineTransfers` on one transaction. -/
def checkTransfer (height : UInt64) (tx : Transaction) : Except GoError Unit :=
  if tx.type ≠ .transfer then .error (.errorf "only transfer txs can be mined" [])
  else
    let tx := if tx.chainId = 0 then { tx with chainId := env.chainId } else tx
    if tx.chainId ≠ env.chainId then
      .error (.errorf "wrong chainId: %d" [.num tx.chainId.toNat])
    else
      match tx.verifyForConsensus env.cr env.consensus height with
      | .error e => .error e
      | .ok () => (newFeeChecker minFee minFeePerByte).validateFee tx

/-- The loop over the transactions. -/
def checkTransfers (height : UInt64) : List Transaction → Except GoError Unit
  | [] => .ok ()
  | tx :: txs =>
    match checkTransfer env height tx with
    | .error e => .error e
    | .ok () => checkTransfers height txs

/-- The share of the reward the miner is paid. -/
def minerReward (mp : MonetaryPolicy) (height : UInt64) : UInt64 :=
  mp.blockReward height * mp.minerRewardShare.toUInt64 / 100

/-- The text in the coinbase. -/
def coinbaseData (mp : MonetaryPolicy) (height : UInt64) : Bytes :=
  if height = 1 then ascii "Memphis"
  else ascii "block reward (height=" ++ Json.decimal height.toNat
    ++ ascii ", miner=" ++ Json.decimal (minerReward mp height).toNat
    ++ ascii ", genesis=" ++ Json.decimal (genesisReward mp height).toNat ++ ascii ")"

/-- The coinbase. -/
def minedCoinbase (minerAddress : Bytes) (height : UInt64) : Transaction where
  type := .coinbase
  chainId := env.chainId
  fromPubKey := none
  toAddress := minerAddress
  amount := minerReward env.monetaryPolicy height
  fee := 0
  nonce := 0
  data := coinbaseData env.monetaryPolicy height
  signature := none

/-- The time of a new block: the clock's, unless that is not after the parent's. -/
def nextTimestamp (now parent : Int64) : Int64 := if now ≤ parent then parent + 1 else now

/-- The sealed block. -/
def newBlock (c : Chain) (latest : Block) (minerAddress : Bytes) (answer : SealAnswer)
    (root : Bytes) (transfers : List Transaction) : Block where
  ptr := answer.ptr
  hash := answer.hash
  height := latest.height + 1
  header :=
    { version := env.consensus.blockVersionForHeight (latest.height + 1)
      prevHash := latest.hash
      timestampUnix := nextTimestamp answer.now latest.header.timestampUnix
      difficultyBits := UInt32.ofNat answer.difficulty
      difficulty := 0
      nonce := answer.nonce
      stateRoot := calculateStateRoot env.cr c.state
      merkleRoot := some root
      height := latest.height + 1
      minerAddress := [] }
  transactions := minedCoinbase env minerAddress (latest.height + 1) :: transfers
  coinbaseTx := none
  minerAddress := minerAddress
  totalWork := []

/-- What `MineTransfers` does on a chain with a tip, once no reorganisation is due. -/
def assembleBlock (c : Chain) (latest : Block) (minerAddress : Bytes) (answer : SealAnswer)
    (transfers : List Transaction) : Except GoError Block :=
  let height := latest.height + 1
  match checkTransfers env height transfers with
  | .error e => .error e
  | .ok () =>
    if env.monetaryPolicy.minerRewardShare = 0 then
      .error (.new "monetary policy not loaded correctly")
    else if env.monetaryPolicy.initialBlockReward = 0 then
      .error (.new "monetary policy not loaded correctly")
    else
      let txs := minedCoinbase env minerAddress height :: transfers
      match txs.mapM fun tx => txSigningHashForConsensus env.cr tx env.consensus height with
      | .error e => .error (.wrap "compute tx hash: %w" [] e)
      | .ok leaves =>
        match merkleRoot env.cr leaves with
        | .error e => .error (.wrap "compute merkle root: %w" [] e)
        | .ok root =>
          match stringToAddress minerAddress with
          | .error e => .error (.wrap "invalid miner address: %w" [] e)
          | .ok _ => .ok (newBlock env c latest minerAddress answer root transfers)

/-- `MineTransfers`. A heavier fork is adopted first; whether that succeeds is only logged. -/
def mineTransfers (minerAddress : Bytes) (answer : SealAnswer) (transfers : List Transaction) :
    ChainM Block := do
  let c ← chain
  match c.tip? with
  | none => Prog.throw (.errorf "no genesis block" [])
  | some _ => do
    let heavier ← shouldReorgToHeaviestLocked env
    Prog.when heavier do
      let _ ← Prog.attempt (reorganizeToHeaviestLocked env)
    let c ← chain
    match c.tip? with
    | none => Prog.throw (.errorf "no genesis block after reorg" [])
    | some latest => Prog.ofExcept (assembleBlock env c latest minerAddress answer transfers)

/-! ## When a block is assembled -/

variable {env} {height : UInt64} {tx : Transaction}

theorem checkTransfers_eq_ok {txs : List Transaction} :
    checkTransfers env height txs = .ok () ↔ ∀ tx ∈ txs, checkTransfer env height tx = .ok () := by
  induction txs with
  | nil => simp [checkTransfers]
  | cons tx txs ih =>
    unfold checkTransfers
    cases h : checkTransfer env height tx with
    | error e => simp [h]
    | ok u => simp [h, ih]

/-- A verified transfer passes if it is for this chain and its fee is in order. -/
theorem checkTransfer_eq_ok (htype : tx.type = .transfer)
    (hverify : tx.verifyForConsensus env.cr env.consensus height = .ok ()) (hid : tx.chainId ≠ 0) :
    checkTransfer env height tx = .ok () ↔ tx.chainId = env.chainId
        ∧ (newFeeChecker minFee minFeePerByte).validateFee tx = .ok () := by
  unfold checkTransfer
  rw [if_neg (not_not.mpr htype), if_neg hid]
  by_cases hchain : tx.chainId = env.chainId
  · rw [if_neg (not_not.mpr hchain), hverify]
    simp [hchain]
  · simp [hchain]

/-- A coinbase has a signing hash unless the binary encoding cannot read its recipient. -/
theorem signingHash_of_coinbase {cr : Crypto} {p : ConsensusParams}
    (htype : tx.type = .coinbase) (hid : tx.chainId ≠ 0) :
    (∃ h, txSigningHashForConsensus cr tx p height = .ok h)
      ↔ (p.binaryEncodingActive height = true → ∃ dest, decodeHex32 tx.toAddress = .ok dest) := by
  unfold txSigningHashForConsensus
  split
  · next hbinary =>
    rw [forall_prop_of_true hbinary, txSigningHashBinaryV1, txSigningPreimageBinaryV1, htype]
    rw [if_neg hid]
    cases decodeHex32 tx.toAddress with
    | error e | ok dest => simp
  · next hlegacy =>
    have hne : tx.type ≠ .transfer := by
      rw [htype]
      exact nofun
    rw [Transaction.signingHashLegacyJSON, if_neg hne]
    exact ⟨fun _ h => absurd h hlegacy, fun _ => ⟨_, rfl⟩⟩

/-- **When a block is assembled**, and which one. -/
theorem assembleBlock_eq_ok {c : Chain} {latest : Block} {minerAddress : Bytes}
    {answer : SealAnswer} {transfers : List Transaction} {b : Block} :
    assembleBlock env c latest minerAddress answer transfers = .ok b
      ↔ checkTransfers env (latest.height + 1) transfers = .ok ()
        ∧ env.monetaryPolicy.minerRewardShare ≠ 0 ∧ env.monetaryPolicy.initialBlockReward ≠ 0
        ∧ (∃ addr, stringToAddress minerAddress = .ok addr)
        ∧ ∃ leaves root, (minedCoinbase env minerAddress (latest.height + 1) :: transfers).mapM
              (fun tx => txSigningHashForConsensus env.cr tx env.consensus (latest.height + 1))
            = .ok leaves
          ∧ merkleRoot env.cr leaves = .ok root
          ∧ b = newBlock env c latest minerAddress answer root transfers := by
  unfold assembleBlock
  dsimp only
  cases hcheck : checkTransfers env (latest.height + 1) transfers with
  | error e => simp
  | ok u =>
    by_cases hshare : env.monetaryPolicy.minerRewardShare = 0
    · simp [hshare]
    by_cases hinitial : env.monetaryPolicy.initialBlockReward = 0
    · simp [hshare, hinitial]
    rw [if_neg hshare, if_neg hinitial]
    cases hleaves : (minedCoinbase env minerAddress (latest.height + 1) :: transfers).mapM
        (fun tx => txSigningHashForConsensus env.cr tx env.consensus (latest.height + 1)) with
    | error e => simp
    | ok leaves =>
      cases hroot : merkleRoot env.cr leaves with
      | error e => simp [hroot]
      | ok root =>
        cases haddr : stringToAddress minerAddress with
        | error e => simp [hroot]
        | ok addr => simp [hroot, hshare, hinitial, eq_comm]

end NogoChain
