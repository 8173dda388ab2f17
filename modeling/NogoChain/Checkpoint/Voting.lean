import NogoChain.Core.Encoding
import NogoChain.Lib.Float64
import NogoChain.Lib.GoMap
import NogoChain.Lib.Prog

/-!
# Checkpoint voting

`CheckpointVoter` collects the votes of validators for the block hash at a height. A node
signs its own vote (`SignCheckpoint`) and takes in the votes of its peers (`ReceiveVote`);
two votes for one hash finalise a `CheckpointRecord`, after which the votes of the height
are dropped. `VerifyCheckpointRecord` is what a node that catches up asks of a record it is
sent.

The votes of a height are keyed by an identifier, which is computed in two ways: the node's
own vote stands under the identifier it was created with, a vote from a peer under the first
bytes of the hash of its public key. The identifier a vote *states* is only copied into the
record.

A panic in a call from the network is caught by the connection, and the lock is released by
a deferred call, so that the writes made before it stay. The outcome of a call is therefore
a return, an error or a panic, each with the state that is left.
-/

namespace NogoChain

/-! ## Data -/

structure ValidatorSignature where
  /-- identifier the validator states -/
  validatorID : Bytes
  pubKey : Bytes
  signature : Bytes
  timestamp : Int64
deriving DecidableEq

structure CheckpointRecord where
  height : UInt64
  /-- hexadecimal text of the block hash -/
  blockHash : Bytes
  timestamp : Int64
  /-- hash of the checkpoint before it -/
  prevCheckpointHash : Bytes
  /-- the signatures for the hash -/
  signatures : List ValidatorSignature
  /-- number of votes for the height, for any hash -/
  activeValidatorCount : Int
deriving DecidableEq

structure CheckpointVote where
  height : UInt64
  /-- hexadecimal text of the block hash -/
  blockHash : Bytes
  /-- identifier the validator states -/
  validatorID : Bytes
  pubKey : Bytes
  signature : Bytes
  timestamp : Int64
deriving DecidableEq

structure CheckpointVoter where
  publicKey : Bytes
  validatorID : Bytes
  /-- votes by height and identifier -/
  votes : GoMap UInt64 (GoMap Bytes CheckpointVote)
  /-- last record by height -/
  pendingRecords : GoMap UInt64 CheckpointRecord
  latestCheckpoint : Option CheckpointRecord
  /-- the text the store holds under the checkpoints key; the outer `none` is a nil store -/
  store : Option (Option Bytes)
  /-- every record finalised so far, the latest first; history, which nothing reads -/
  finalized : List CheckpointRecord
  /-- number of times the run time was asked -/
  tick : Nat
deriving DecidableEq

/-- The node's key and what the run time decides. -/
structure VoterEnv where
  cr : Crypto
  /-- `ed25519.Sign` with the private key of the node -/
  sign : Bytes → Bytes
  /-- reading of the clock, in seconds -/
  now : Nat → Int64
  /-- order in which a map is ranged over -/
  order : {α : Type} → Nat → List α → List α
  /-- ranging over a map visits each entry once -/
  order_perm : ∀ {α : Type} (n : Nat) (l : List α), (order n l).Perm l
  /-- whether the store answers a read -/
  readOk : Nat → Bool
  /-- whether the store carries a write out -/
  writeOk : Nat → Bool
  /-- `json.Marshal` of the records -/
  marshal : List CheckpointRecord → Bytes
  /-- what `json.Unmarshal` leaves in the slice of records, its error ignored -/
  unmarshal : Bytes → List CheckpointRecord

/-- How a call can end without a result. -/
inductive VoterError where
  | error (e : GoError)
  | panic (expr : String)
deriving DecidableEq

/-- Programs on the voter. -/
abbrev VoterM := Prog CheckpointVoter VoterError Empty

/-! ## Constants -/

def checkpointInterval : UInt64 := 1000

def checkpointMinVotes : Nat := 2

/-- `CheckpointThreshold`, 0.67 in double precision, as a multiple of `2 ^ -53`. -/
def checkpointThreshold : Nat := 6034823500676465

def maxPendingCheckpoints : Nat := 5

/-- `float64(count) * CheckpointThreshold`, as a multiple of `2 ^ -53`. -/
def thresholdOf (count : Nat) : Nat :=
  Float64.nearest (Float64.nearest count * checkpointThreshold)

/-! ## Voting -/

def buildVotePayload (cr : Crypto) (height : UInt64) (blockHash : Bytes) : Bytes :=
  cr.sha256 (ascii "NOGO_CHECKPOINT:" ++ Json.decimal height.toNat ++ ascii ":" ++ blockHash)

def sha256Hash (cr : Crypto) (data : Bytes) : Bytes := Hex.encodeToString (cr.sha256 data)

/-- The identifier under which a received vote stands. -/
def voteID (cr : Crypto) (pubKey : Bytes) : Bytes :=
  Hex.encodeToString ((cr.sha256 pubKey).take 8)

/-- The votes of a height. -/
def CheckpointVoter.votesAt (cv : CheckpointVoter) (height : UInt64) :
    GoMap Bytes CheckpointVote :=
  (cv.votes.lookup height).getD ∅

variable (env : VoterEnv)

/-- `s[:16]`, as the log lines take it. -/
def textPrefix16 (expr : String) (s : Bytes) : VoterM Unit :=
  if s.length < 16 then Prog.throw (.panic expr) else pure ()

/-- Ask the run time. -/
def askVoter : VoterM Nat := do
  let cv ← Prog.get
  Prog.modify fun cv => { cv with tick := cv.tick + 1 }
  pure cv.tick

/-- The entries of a map in the order of a range loop. -/
def rangeOver {κ ν : Type} (m : GoMap κ ν) : VoterM (List (κ × ν)) := do
  let n ← askVoter
  pure (env.order n (m.entries.map fun e => (e.1, e.2)))

/-- The loop that drops old heights. The subtraction is one of 64-bit numbers: below height
5000 it wraps, and every height counts as old. -/
def CheckpointVoter.prune (cv : CheckpointVoter) (height : UInt64) : CheckpointVoter :=
  let old := cv.votes.keys.filter
    (· < height - UInt64.ofNat maxPendingCheckpoints * checkpointInterval)
  { cv with
    votes := old.foldl (fun m h => m.erase h) cv.votes
    pendingRecords := old.foldl (fun m h => m.erase h) cv.pendingRecords }

/-- Make room for the votes of a height, as `SignCheckpoint` does it. -/
def CheckpointVoter.openHeight (cv : CheckpointVoter) (height : UInt64) : CheckpointVoter :=
  match cv.votes.lookup height with
  | some _ => cv
  | none =>
    let cv := { cv with votes := cv.votes.insert height ∅ }
    if cv.votes.keys.length > maxPendingCheckpoints then cv.prune height else cv

/-- `cv.votes[height][id] = vote`. -/
def CheckpointVoter.putVote (cv : CheckpointVoter) (height : UInt64) (id : Bytes)
    (vote : CheckpointVote) : CheckpointVoter :=
  { cv with votes := cv.votes.insert height ((cv.votesAt height).insert id vote) }

def signCheckpoint (height : UInt64) (blockHash : Bytes) : VoterM CheckpointVote := do
  let n ← askVoter
  let cv ← Prog.get
  let vote : CheckpointVote :=
    { height := height, blockHash := blockHash, validatorID := cv.validatorID,
      pubKey := cv.publicKey, signature := env.sign (buildVotePayload env.cr height blockHash),
      timestamp := env.now n }
  Prog.modify fun cv => cv.openHeight height
  let cv ← Prog.get
  -- the height itself may have been dropped
  if cv.votes.lookup height = none then
    Prog.throw (.panic "cv.votes[height][cv.validatorID] = vote")
  else do
    Prog.modify fun cv => cv.putVote height cv.validatorID vote
    textPrefix16 "blockHash[:16]" blockHash
    pure vote

/-- The signatures `finalizeLocked` collects. -/
def signaturesFor (blockHash : Bytes) (votes : List (Bytes × CheckpointVote)) :
    List ValidatorSignature :=
  (votes.filter (·.2.blockHash = blockHash)).map fun v =>
    { validatorID := v.2.validatorID, pubKey := v.2.pubKey, signature := v.2.signature,
      timestamp := v.2.timestamp }

/-- Put a record into the stored list, in the place of the first one of its height. -/
def replaceRecord (record : CheckpointRecord) : List CheckpointRecord → List CheckpointRecord
  | [] => [record]
  | r :: rs => if r.height = record.height then record :: rs else r :: replaceRecord record rs

/-- Write a record to the store. A failed write is only logged. -/
def persistRecord (record : CheckpointRecord) : VoterM Unit := do
  let cv ← Prog.get
  match cv.store with
  | none => pure ()
  | some saved => do
    let n ← askVoter
    let allRecords := match saved with
      | some bytes => if env.readOk n then env.unmarshal bytes else []
      | none => []
    Prog.when (env.writeOk n) (Prog.modify fun cv =>
      { cv with store := some (some (env.marshal (replaceRecord record allRecords))) })

def finalizeLocked (height : UInt64) (blockHash : Bytes) : VoterM Bool := do
  let cv ← Prog.get
  let votes ← rangeOver env (cv.votesAt height)
  let n ← askVoter
  let record : CheckpointRecord :=
    { height := height, blockHash := blockHash, timestamp := env.now n,
      prevCheckpointHash := match cv.latestCheckpoint with
        | none => []
        | some last =>
          sha256Hash env.cr (Json.decimal last.height.toNat ++ ascii ":" ++ last.blockHash),
      signatures := signaturesFor blockHash votes, activeValidatorCount := votes.length }
  Prog.modify fun cv =>
    { cv with latestCheckpoint := some record
              pendingRecords := cv.pendingRecords.insert height record
              finalized := record :: cv.finalized }
  persistRecord env record
  textPrefix16 "blockHash[:16]" blockHash
  Prog.modify fun cv => { cv with votes := cv.votes.erase height }
  pure true

/-- The counting loop of `checkQuorumLocked`: the hash that reaches the quorum first, or the
counts. -/
def countVotes : List (Bytes × CheckpointVote) → GoMap Bytes Nat → Bytes ⊕ GoMap Bytes Nat
  | [], hashCounts => .inr hashCounts
  | v :: vs, hashCounts =>
    let count := (hashCounts.lookup v.2.blockHash).getD 0 + 1
    if count ≥ checkpointMinVotes then .inl v.2.blockHash
    else countVotes vs (hashCounts.insert v.2.blockHash count)

/-- The loop for the hash with the most votes. -/
def bestCount (counts : List (Bytes × Nat)) : Bytes × Nat :=
  counts.foldl (fun best hc => if hc.2 > best.2 then hc else best) ([], 0)

def checkQuorumLocked (height : UInt64) : VoterM Bool := do
  let cv ← Prog.get
  let votes := cv.votesAt height
  if votes.entries.length < checkpointMinVotes then pure false
  else do
    let ranged ← rangeOver env votes
    match countVotes ranged ∅ with
    | .inl blockHash => finalizeLocked env height blockHash
    | .inr hashCounts => do
      let counts ← rangeOver env hashCounts
      let best := bestCount counts
      if Float64.nearest best.2 * 2 ^ 53 ≥ thresholdOf votes.entries.length then
        finalizeLocked env height best.1
      else pure false

/-- `ReceiveVote`. A nil vote is `none`. -/
def receiveVote (vote : Option CheckpointVote) : VoterM Bool :=
  match vote with
  | none => Prog.throw (.error (.errorf "receive vote: invalid vote data" []))
  | some vote =>
    if vote.height = 0 ∨ vote.blockHash = [] then
      Prog.throw (.error (.errorf "receive vote: invalid vote data" []))
    else if vote.pubKey.length ≠ pubKeySize then Prog.throw (.panic "ed25519.Verify")
    else if !env.cr.ed25519Verify vote.pubKey
        (buildVotePayload env.cr vote.height vote.blockHash) vote.signature then do
      textPrefix16 "vote.ValidatorID[:16]" vote.validatorID
      Prog.throw (.error (.errorf
        "receive vote: signature verification failed for validator %s"
        [.str (vote.validatorID.take 16)]))
    else do
      Prog.modify fun cv => cv.putVote vote.height (voteID env.cr vote.pubKey) vote
      checkQuorumLocked env vote.height

/-! ## Verifying a record -/

/-- The number of signatures `VerifyCheckpointRecord` asks for. -/
def CheckpointRecord.minRequired (record : CheckpointRecord) : Nat :=
  if record.activeValidatorCount > 0 then
    let requiredByRatio := thresholdOf record.activeValidatorCount.toNat / 2 ^ 53
    if requiredByRatio < checkpointMinVotes then checkpointMinVotes else requiredByRatio
  else 2

/-- The loop over the signatures of a record. -/
def verifySignatures (cr : Crypto) (payload : Bytes) :
    List ValidatorSignature → List Bytes → Except VoterError Unit
  | [], _ => .ok ()
  | sig :: sigs, seenValidators =>
    if sig.validatorID ∈ seenValidators then
      if sig.validatorID.length < 16 then .error (.panic "sig.ValidatorID[:16]")
      else .error (.error (.errorf "verify checkpoint: duplicate validator %s"
        [.str (sig.validatorID.take 16)]))
    else if sig.pubKey.length ≠ pubKeySize then .error (.panic "ed25519.Verify")
    else if !cr.ed25519Verify sig.pubKey payload sig.signature then
      if sig.validatorID.length < 16 then .error (.panic "sig.ValidatorID[:16]")
      else .error (.error (.errorf "verify checkpoint: invalid signature from validator %s"
        [.str (sig.validatorID.take 16)]))
    else verifySignatures cr payload sigs (sig.validatorID :: seenValidators)

/-- `VerifyCheckpointRecord`. A nil record is `none`. -/
def verifyCheckpointRecord (cr : Crypto) (record : Option CheckpointRecord) :
    Except VoterError Unit :=
  match record with
  | none => .error (.error (.errorf "verify checkpoint: nil record" []))
  | some record =>
    if record.height = 0 then
      .error (.error (.errorf "verify checkpoint: invalid height" []))
    else if record.blockHash = [] then
      .error (.error (.errorf "verify checkpoint: empty block hash" []))
    else if record.signatures.length < record.minRequired then
      .error (.error (.errorf
        "verify checkpoint: insufficient signatures (got %d, need %d of %d validators)"
        [.num record.signatures.length, .num record.minRequired,
          .num record.activeValidatorCount]))
    else
      match verifySignatures cr (buildVotePayload cr record.height record.blockHash)
          record.signatures [] with
      | .error e => .error e
      | .ok () =>
        if record.prevCheckpointHash ≠ [] ∧ record.prevCheckpointHash.length < 8 then
          .error (.error (.errorf "verify checkpoint: invalid previous checkpoint hash" []))
        else .ok ()

/-! ## Runs -/

/-- The calls that change a voter. Each holds the lock for its whole effect. -/
inductive VoterCall where
  | signCheckpoint (height : UInt64) (blockHash : Bytes)
  | receiveVote (vote : Option CheckpointVote)

/-- The voter after a program, whichever way it ends. -/
def voterAfter {α : Type} (m : VoterM α) (cv : CheckpointVoter) : CheckpointVoter :=
  match m cv with
  | .ret _ cv' => cv'
  | .err _ cv' => cv'

/-- The voter after a call. -/
def VoterCall.exec (cv : CheckpointVoter) : VoterCall → CheckpointVoter
  | .signCheckpoint height blockHash =>
    voterAfter (NogoChain.signCheckpoint env height blockHash) cv
  | .receiveVote vote => voterAfter (NogoChain.receiveVote env vote) cv

/-- The voter after a sequence of calls. -/
def runVoter (calls : List VoterCall) (cv : CheckpointVoter) : CheckpointVoter :=
  calls.foldl (VoterCall.exec env) cv

def newCheckpointVoter (publicKey validatorID : Bytes) (store : Option (Option Bytes)) :
    CheckpointVoter where
  publicKey := publicKey
  validatorID := validatorID
  votes := ∅
  pendingRecords := ∅
  latestCheckpoint := none
  store := store
  finalized := []
  tick := 0

end NogoChain
