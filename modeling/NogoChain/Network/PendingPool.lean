import NogoChain.Network.CompactBlock

/-!
# Completing a compact block

When transactions are missing, `OnCompactBlock` registers the block with what was found, and a
map from the identifiers that it asks for to positions in the list of transactions. The
positions are looked up among the transactions that were found, under their identifiers.
`AddTx` puts a transaction that arrives at the position of its identifier and counts it; when
the count reaches the number of identifiers that were asked for, the block is handed over.
-/

namespace NogoChain

/-! ## The pool of pending blocks -/

structure PendingReconstruction where
  /-- block with what is there so far -/
  block : Block
  missingIDs : List Bytes
  /-- identifier to position -/
  missingMap : GoMap Bytes Nat
  receivedTxs : Nat
  totalMissing : Nat
  peerID : Bytes
  deadline : Int

/-- `CompactBlockPendingPool`. -/
structure PendingPool where
  /-- hash of a block, in hexadecimal, to what is pending -/
  pending : GoMap Bytes PendingReconstruction
  maxSize : Nat

/-- `Register`, with the order in which the map is ranged over. -/
def PendingPool.register (pool : PendingPool) (now : Int)
    (order : List (Bytes × PendingReconstruction)) (blockHash : Bytes)
    (pr : PendingReconstruction) : Except GoError PendingPool :=
  if pool.pending.keys.length ≥ pool.maxSize then
    -- the key of the first entry that has expired; an empty key counts as none
    let oldestExpired := ((order.find? fun e => now > e.2.deadline).map (·.1)).getD []
    if oldestExpired = [] then
      .error (.errorf "pending pool full (%d entries)" [.num pool.maxSize])
    else .ok { pool with pending := (pool.pending.erase oldestExpired).insert blockHash pr }
  else .ok { pool with pending := pool.pending.insert blockHash pr }

/-- `AddTx`: the block, if it is complete. -/
def PendingPool.addTx (cr : Crypto) (pool : PendingPool) (blockHash : Bytes) (tx : Transaction) :
    PendingPool × Except GoError (Option Block) :=
  match pool.pending.lookup blockHash with
  | none => (pool, .error (.errorf "no pending reconstruction for block %s"
      [.str (blockHash.take 16)]))
  | some pr =>
    match txIDHex cr tx with
    | .error e => (pool, .error (.wrap "compute txid: %w" [] e))
    | .ok txID =>
      match pr.missingMap.lookup txID with
      | none => (pool, .ok none)
      | some idx =>
        if idx ≥ pr.block.transactions.length then
          (pool, .error (.errorf "tx index %d out of range (len=%d)"
            [.num idx, .num pr.block.transactions.length]))
        else
          let pr := { pr with
            block := { pr.block with transactions := pr.block.transactions.set idx tx }
            receivedTxs := pr.receivedTxs + 1 }
          if pr.receivedTxs ≥ pr.totalMissing then
            ({ pool with pending := pool.pending.erase blockHash }, .ok (some pr.block))
          else ({ pool with pending := pool.pending.insert blockHash pr }, .ok none)

/-! ## The handlers -/

/-- Identifiers to positions; a later position replaces an earlier one. -/
def txIDPos (cr : Crypto) (txs : List Transaction) : GoMap Bytes Nat :=
  GoMap.fill (fun e => match txIDHex cr e.1 with
    | .error _ => none
    | .ok txID => some (txID, e.2)) txs.zipIdx

/-- The entry that `OnCompactBlock` registers. -/
def pendingOf (cr : Crypto) (block : Block) (missingIDs : List Bytes) (peerID : Bytes) (now : Int) :
    PendingReconstruction where
  block := block
  missingIDs := missingIDs
  missingMap := GoMap.fill (fun txID =>
    ((txIDPos cr block.transactions).lookup txID).map fun pos => (txID, pos)) missingIDs
  receivedTxs := 0
  totalMissing := missingIDs.length
  peerID := peerID
  deadline := now + 10 * 1000000000

structure MissingTxRequest where
  blockHeight : UInt64
  blockHash : Bytes
  txIDs : List Bytes

/-- What `OnCompactBlock` does with a message. -/
inductive CompactOutcome where
  /-- the block cannot be read, or the pool is full -/
  | refused (e : GoError)
  /-- the block is handed to `AddBlock` -/
  | handed (block : Block)
  /-- the block is pending, and the request is sent to the peer -/
  | pending (pool : PendingPool) (entry : PendingReconstruction) (request : MissingTxRequest)

def onCompactBlock (cr : Crypto) (pool : PendingPool) (now : Int)
    (order : List (Bytes × PendingReconstruction)) (ptr : Nat) (mp : MempoolInterface)
    (peerID : Bytes) (cb : CompactBlockMsg) : CompactOutcome :=
  match reconstructBlock ptr cb mp with
  | .error e => .refused (.wrap "reconstruct compact block: %w" [] e)
  | .ok (block, missingIDs) =>
    if missingIDs.length = 0 then .handed block
    else
      let entry := pendingOf cr block missingIDs peerID now
      match pool.register now order cb.fullHash entry with
      | .error e => .refused (.wrap "register pending: %w" [] e)
      | .ok pool => .pending pool entry ⟨cb.height, cb.fullHash, missingIDs⟩

/-- `SyncTxResponse`: a hash and a transaction. -/
abbrev SyncTxResponse := Bytes × Transaction

/-- The pending pool, and the blocks that it has handed to `AddBlock`, with the hash they were
registered under. -/
structure CompactNode where
  pool : PendingPool
  handed : List (Bytes × Block)

def onSyncTxResponse (cr : Crypto) (n : CompactNode) (resp : SyncTxResponse) : CompactNode :=
  match n.pool.addTx cr resp.1 resp.2 with
  | (pool, .ok (some block)) => ⟨pool, n.handed ++ [(resp.1, block)]⟩
  | (pool, _) => { n with pool := pool }

/-- The responses, one after the other. -/
def runResponses (cr : Crypto) (pool : PendingPool) (resps : List SyncTxResponse) : CompactNode :=
  resps.foldl (onSyncTxResponse cr) ⟨pool, []⟩

end NogoChain
