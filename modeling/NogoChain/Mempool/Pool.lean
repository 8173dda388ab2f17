import NogoChain.Chain.State
import NogoChain.Core.FeeChecker
import NogoChain.Lib.Float64

/-!
# The transaction pool

The pool keeps its entries in five places: by transaction identifier, by sender and nonce,
by recipient, in the order of arrival (`byFee`), and as a total of their sizes. An entry is
a heap object; `MempoolEntry.ptr` is its identity, by which `feeHeap.remove` looks for it.

An entry's sets `dependsOn` and `children` are never filled and are left out, as are the
metrics and the life cycle of the cleanup loop. The caller's lock makes every call atomic.
-/

namespace NogoChain

/-! ## Entries -/

structure MempoolEntry where
  /-- identity of the object -/
  ptr : Nat
  tx : Transaction
  /-- identifier it is pooled under -/
  txId : Bytes
  /-- time of arrival, in nanoseconds -/
  received : Int
  /-- estimated size in bytes -/
  size : UInt64
  /-- fee per byte, as `Float64.quotient` counts it -/
  feeRate : Nat
deriving DecidableEq

def estimateTxSize (tx : Transaction) : UInt64 :=
  UInt64.ofNat (1 + 8 + (sliceBytes tx.fromPubKey).length + tx.toAddress.length + 8 + 8 + 8
    + tx.data.length + (sliceBytes tx.signature).length)

/-- `float64(a) / float64(b)`. -/
def floatQuotient (a b : UInt64) : Nat :=
  Float64.quotient (Float64.nearest a.toNat) (Float64.nearest b.toNat)

/-- The fee rate of a transaction. -/
def Transaction.feeRate (tx : Transaction) : Nat := floatQuotient tx.fee (estimateTxSize tx)

/-! ## The fee order -/

abbrev FeeHeap := List MempoolEntry

/-- `push`: no element is moved. -/
def FeeHeap.push (h : FeeHeap) (e : MempoolEntry) : FeeHeap := h ++ [e]

/-- `remove`: those behind the entry move up by one. -/
def FeeHeap.remove (h : FeeHeap) (e : MempoolEntry) : FeeHeap := h.eraseP (·.ptr = e.ptr)

/-! ## The pool -/

structure Mempool where
  /-- limit for the number of entries -/
  maxSize : Int
  /-- fee rate asked of a replacement -/
  minFeeRate : UInt64
  /-- time an entry may stay, in nanoseconds -/
  ttl : Int
  /-- chain the transactions are for, or 0 -/
  chainId : UInt64
  consensus : ConsensusParams
  /-- height transactions are checked at -/
  currentHeight : UInt64
  /-- identifier to entry -/
  entries : GoMap Bytes MempoolEntry
  /-- sender to nonce to identifier -/
  bySenderNonce : GoMap Bytes (GoMap UInt64 Bytes)
  /-- recipient to set of identifiers -/
  addrInfo : GoMap Bytes (GoMap Bytes Unit)
  byFee : FeeHeap
  totalSize : UInt64
  maxTotalSize : UInt64
  /-- number of entry objects made so far -/
  allocated : Nat
  /-- number of questions put to the run time so far -/
  tick : Nat

/-- `NewMempool`; `maxMemoryMB` is the only member of the configuration it reads. -/
def newMempool (maxSize : Int) (minFeeRate : UInt64) (ttl : Int) (chainId : UInt64)
    (consensus : ConsensusParams) (currentHeight maxMemoryMB : UInt64) : Mempool where
  maxSize := if maxSize ≤ 0 then 10000 else maxSize
  minFeeRate := minFeeRate
  ttl := if ttl ≤ 0 then 24 * 3600 * 1000000000 else ttl
  chainId := chainId
  consensus := consensus
  currentHeight := currentHeight
  entries := ∅
  bySenderNonce := ∅
  addrInfo := ∅
  byFee := []
  totalSize := 0
  maxTotalSize := if maxMemoryMB > 0 then maxMemoryMB * 1024 * 1024 else 104857600
  allocated := 0
  tick := 0

namespace Mempool

variable (env : Env)

/-! ## Removal -/

/-- `m.bySenderNonce[fromAddr][nonce]`. -/
def txIdOf (m : Mempool) (fromAddr : Bytes) (nonce : UInt64) : Option Bytes :=
  m.bySenderNonce.lookup₂ fromAddr nonce

/-- `removeLocked`. What `addrInfo` says of the transaction stays. -/
def removeLocked (m : Mempool) (txid : Bytes) : Mempool :=
  match m.entries.lookup txid with
  | none => m
  | some e =>
    let m := { m with
      entries := m.entries.erase txid
      byFee := m.byFee.remove e
      totalSize := m.totalSize - e.size }
    match e.tx.fromAddress env.cr with
    | .error _ => m
    | .ok sender => { m with bySenderNonce := m.bySenderNonce.erase₂ sender e.tx.nonce }

/-- One round of the loop of `evictWithDependents`. -/
def evictLater (sender : Bytes) (nonce : UInt64) (m : Mempool) (id : Bytes) : Mempool :=
  match m.entries.lookup id with
  | none => m
  | some e =>
    match e.tx.fromAddress env.cr with
    | .error _ => m
    | .ok addr => if addr = sender ∧ e.tx.nonce > nonce then m.removeLocked env id else m

def evictWithDependents (m : Mempool) (txid : Bytes) : Mempool :=
  match m.entries.lookup txid with
  | none => m
  | some victim =>
    let m := m.removeLocked env txid
    match victim.tx.fromAddress env.cr with
    | .error _ => m
    | .ok sender =>
      (env.order m.tick m.entries.keys).foldl (evictLater env sender victim.tx.nonce)
        { m with tick := m.tick + 1 }

/-- One round of the loop of `evictBySenderNonce`, with the identifiers evicted so far. -/
def evictNonce (fromAddr : Bytes) (nonce : UInt64) (r : List Bytes × Mempool) (n : UInt64) :
    List Bytes × Mempool :=
  match r.2.txIdOf fromAddr n with
  | none => r
  | some txid => if n > nonce then (r.1 ++ [txid], r.2.removeLocked env txid) else r

def evictBySenderNonce (m : Mempool) (fromAddr : Bytes) (nonce : UInt64) : List Bytes × Mempool :=
  let r := match m.txIdOf fromAddr nonce with
    | none => ([], m)
    | some txid => ([txid], m.removeLocked env txid)
  let nonces := ((r.2.bySenderNonce.lookup fromAddr).getD ∅).keys
  (env.order r.2.tick nonces).foldl (evictNonce env fromAddr nonce)
    (r.1, { r.2 with tick := r.2.tick + 1 })

/-- `lowestFeeEntry`: the first entry in range order with the lowest fee, unless that is the
highest possible one. -/
def lowestFeeEntry (m : Mempool) : Bytes :=
  ((env.order m.tick m.entries.entries).foldl
    (fun (best : UInt64 × Bytes) e => if e.2.tx.fee < best.1 then (e.2.tx.fee, e.1) else best)
    (FeeChecker.maxUint64, [])).2

def isFull (m : Mempool) : Bool :=
  m.entries.keys.length ≥ m.maxSize || m.totalSize ≥ m.maxTotalSize

/-! ## Entry -/

def indexAddrInfo (m : Mempool) (toAddr txid : Bytes) : Mempool :=
  if toAddr = [] then m else { m with addrInfo := m.addrInfo.insert₂ toAddr txid () }

/-- The object made for a transaction. -/
def newEntry (m : Mempool) (tx : Transaction) (txid : Bytes) : MempoolEntry where
  ptr := m.allocated
  tx := tx
  txId := txid
  received := env.now m.tick
  size := estimateTxSize tx
  feeRate := tx.feeRate

/-- The entry in all five places. -/
def enter (m : Mempool) (fromAddr : Bytes) (entry : MempoolEntry) : Mempool :=
  let m := { m with
    entries := m.entries.insert entry.txId entry
    bySenderNonce := m.bySenderNonce.insert₂ fromAddr entry.tx.nonce entry.txId }
  let m := m.indexAddrInfo entry.tx.toAddress entry.txId
  { m with
    byFee := m.byFee.push entry
    totalSize := m.totalSize + entry.size
    allocated := m.allocated + 1
    tick := m.tick + 1 }

def validateTransactionBasic (m : Mempool) (tx : Transaction) : Except GoError Unit :=
  match (newFeeChecker minFee minFeePerByte).validateFee tx with
  | .error e => .error e
  | .ok () =>
    if tx.nonce = 0 then .error (.new "nonce must be > 0")
    else if tx.chainId ≠ m.chainId ∧ m.chainId ≠ 0 then
      .error (.errorf "wrong chain ID: %d != %d" [.num tx.chainId.toNat, .num m.chainId.toNat])
    else .ok ()

def validateTransaction (m : Mempool) (tx : Transaction) (p : ConsensusParams)
    (height : UInt64) : Except GoError Unit :=
  match tx.verifyForConsensus env.cr p height with
  | .error e => .error (.wrap "signature verification: %w" [] e)
  | .ok () => m.validateTransactionBasic tx

end Mempool

/-! ## Calls that add -/

/-- What `AddWithTxID` returns with an error: an identifier and the error. -/
abbrev AddM := Prog Mempool (Bytes × GoError) Fault

variable (env : Env)

def txIDHex (cr : Crypto) (tx : Transaction) : Except GoError Bytes :=
  match tx.signingHashLegacyJSON cr with
  | .error e => .error e
  | .ok h => .ok (Hex.encodeToString h)

/-- Evict, if the pool is full. -/
def makeRoom : AddM Unit := do
  let m ← Prog.get
  if m.isFull then
    if m.lowestFeeEntry env = [] then Prog.throw ([], .new "mempool full")
    else Prog.modify fun m =>
      { m with tick := m.tick + 1 }.evictWithDependents env (m.lowestFeeEntry env)
  else pure ()

/-- What `AddWithTxID` and `AddWithoutSignatureValidation` do under the lock. -/
def addLocked (validate : Mempool → Except GoError Unit) (tx : Transaction)
    (txid fromAddr : Bytes) : AddM Bytes := do
  let m ← Prog.get
  if (m.entries.lookup txid).isSome then Prog.throw (txid, .new "duplicate transaction")
  else
    match m.txIdOf fromAddr tx.nonce with
    | some existingID => Prog.throw (existingID, .new "nonce already in mempool")
    | none =>
      match validate m with
      | .error e => Prog.throw ([], .wrap "validation failed: %w" [] e)
      | .ok () => do
        makeRoom env
        let m ← Prog.get
        if m.totalSize + estimateTxSize tx > m.maxTotalSize then
          Prog.throw ([], .new "mempool size limit exceeded")
        else do
          Prog.modify fun m => m.enter fromAddr (m.newEntry env tx txid)
          pure txid

/-- The two functions; they differ in the identifier and in the checks. -/
def addIdentified (validate : Mempool → Except GoError Unit) (tx : Transaction)
    (id : Except GoError Bytes) : AddM Bytes :=
  match id with
  | .error e => Prog.throw ([], .wrap "calculate txid: %w" [] e)
  | .ok txid =>
    match tx.fromAddress env.cr with
    | .error e => Prog.throw ([], .wrap "get from address: %w" [] e)
    | .ok fromAddr => addLocked env validate tx txid fromAddr

def addWithTxID (tx : Transaction) (txid : Bytes) (p : ConsensusParams) (height : UInt64) :
    AddM Bytes :=
  addIdentified env (fun m => m.validateTransaction env tx p height) tx
    (if isBlank txid then txIDHex env.cr tx else .ok txid)

def addWithoutSignatureValidation (tx : Transaction) : AddM Bytes :=
  addIdentified env (fun m => m.validateTransactionBasic tx) tx (txIDHex env.cr tx)

def Mempool.add (tx : Transaction) : AddM Bytes := do
  let m ← Prog.get
  addWithTxID env tx [] m.consensus m.currentHeight

/-! ## Replacement -/

/-- What `ReplaceByFeeWithTxID` returns with an error. -/
structure ReplaceRefusal where
  txId : Bytes
  /-- whether it says that something was replaced -/
  replaced : Bool
  evicted : List Bytes
  err : GoError

/-- Programs that replace. -/
abbrev ReplaceM := Prog Mempool ReplaceRefusal Fault

/-- A refusal before anything is evicted. -/
def refuseReplacement {α : Type} (err : GoError) : ReplaceM α :=
  Prog.throw ⟨[], false, [], err⟩

/-- Whether the fee rises too little for the bytes that are added. The number of bytes is a
difference of 64-bit numbers: a smaller transaction adds almost `2 ^ 64`. -/
def Mempool.insufficientIncrease (m : Mempool) (tx : Transaction) (existing : MempoolEntry) :
    Bool :=
  let sizeIncrease := estimateTxSize tx - existing.size
  sizeIncrease > 0
    && floatQuotient (tx.fee - existing.tx.fee) sizeIncrease
      < Float64.nearest m.minFeeRate.toNat * 2 ^ 193

/-- The second half of `ReplaceByFeeWithTxID`. -/
def replaceLocked (tx : Transaction) (txid fromAddr : Bytes) : ReplaceM (Bytes × List Bytes) := do
  let m ← Prog.get
  let (evicted, m) := m.evictBySenderNonce env fromAddr tx.nonce
  Prog.modify fun _ => m
  if (m.entries.lookup txid).isSome then
    Prog.throw ⟨txid, true, evicted, .new "replacement tx already exists"⟩
  else do
    Prog.modify fun m => m.enter fromAddr (m.newEntry env tx txid)
    pure (txid, evicted)

/-- `ReplaceByFeeWithTxID`; the parameters and the height it is given are not used. -/
def replaceByFeeWithTxID (tx : Transaction) (txid : Bytes) : ReplaceM (Bytes × List Bytes) :=
  match tx.fromAddress env.cr with
  | .error e => refuseReplacement (.wrap "get from address: %w" [] e)
  | .ok fromAddr => do
    let m ← Prog.get
    match m.txIdOf fromAddr tx.nonce with
    | none => refuseReplacement (.new "no existing nonce to replace")
    | some existingID =>
      match m.entries.lookup existingID with
      | none => Prog.crash (.panic "existing.tx")
      | some existing =>
        if tx.fee ≤ existing.tx.fee then
          refuseReplacement (.new "replacement fee must be higher")
        else if m.insufficientIncrease tx existing then
          refuseReplacement (.new "fee rate increase insufficient")
        else replaceLocked env tx txid fromAddr

def replaceByFee (tx : Transaction) : ReplaceM (Bytes × List Bytes) :=
  match txIDHex env.cr tx with
  | .error e => refuseReplacement (.wrap "calculate txid: %w" [] e)
  | .ok txid => replaceByFeeWithTxID env tx txid

namespace Mempool

/-! ## Calls that remove -/

/-- `RemoveMany`; `Remove` is the case of one identifier. -/
def removeMany (m : Mempool) (txids : List Bytes) : Mempool :=
  txids.foldl (removeLocked env) m

/-- The loop of `SetMaxSize`. Each round removes an entry, so that the number of entries
bounds the rounds. -/
def shrink : Nat → Mempool → Mempool
  | 0, m => m
  | n + 1, m =>
    if m.entries.keys.length > m.maxSize then
      if m.lowestFeeEntry env = [] then m
      else shrink n ({ m with tick := m.tick + 1 }.evictWithDependents env (m.lowestFeeEntry env))
    else m

def setMaxSize (m : Mempool) (maxSize : Int) : Mempool :=
  shrink env m.entries.keys.length { m with maxSize := maxSize }

/-- `now.Sub(t)`: a duration has 64 bits. -/
def timeSub (now t : Int) : Int := max (-2 ^ 63) (min (2 ^ 63 - 1) (now - t))

def cleanupExpired (m : Mempool) : Mempool :=
  let now := env.now m.tick
  let expired := (env.order m.tick m.entries.entries).filter
    fun e => timeSub now e.2.received > m.ttl
  { m with tick := m.tick + 1 }.removeMany env (expired.map Sigma.fst)

def clear (m : Mempool) : Mempool :=
  { m with entries := ∅, bySenderNonce := ∅, addrInfo := ∅, byFee := [], totalSize := 0 }

/-! ## Queries -/

/-- The set of identifiers `GetByAddress` collects. -/
def txidSet (m : Mempool) (addr : Bytes) : GoMap Bytes Unit :=
  let senderMap := (m.bySenderNonce.lookup addr).getD ∅
  let addrMap := (m.addrInfo.lookup addr).getD ∅
  addrMap.keys.foldl (fun s txid => s.insert txid ())
    (senderMap.entries.foldl (fun s e => s.insert e.2 ()) ∅)

def getByAddress (m : Mempool) (addr : Bytes) : List Bytes :=
  env.order m.tick (m.txidSet addr).keys

end Mempool

/-! ## Runs -/

/-- The calls that change the pool. -/
inductive PoolCall where
  | add (tx : Transaction)
  | addWithTxID (tx : Transaction) (txid : Bytes) (p : ConsensusParams) (height : UInt64)
  | addWithoutSignatureValidation (tx : Transaction)
  | replaceByFee (tx : Transaction)
  | replaceByFeeWithTxID (tx : Transaction) (txid : Bytes)
  | remove (txid : Bytes)
  | removeMany (txids : List Bytes)
  | setMaxSize (maxSize : Int)
  | setMinFeeRate (minFeeRate : UInt64)
  | updateHeight (height : UInt64)
  | updateConsensus (consensus : ConsensusParams)
  | clear
  | cleanupExpired

/-- The pool after a call, unless the call faults. -/
def PoolCall.exec (m : Mempool) : PoolCall → Option Mempool
  | .add tx => (Mempool.add env tx m).state?
  | .addWithTxID tx txid p height => (NogoChain.addWithTxID env tx txid p height m).state?
  | .addWithoutSignatureValidation tx =>
    (NogoChain.addWithoutSignatureValidation env tx m).state?
  | .replaceByFee tx => (NogoChain.replaceByFee env tx m).state?
  | .replaceByFeeWithTxID tx txid => (NogoChain.replaceByFeeWithTxID env tx txid m).state?
  | .remove txid => some (m.removeLocked env txid)
  | .removeMany txids => some (m.removeMany env txids)
  | .setMaxSize maxSize => some (m.setMaxSize env maxSize)
  | .setMinFeeRate minFeeRate => some { m with minFeeRate := minFeeRate }
  | .updateHeight height => some { m with currentHeight := height }
  | .updateConsensus consensus => some { m with consensus := consensus }
  | .clear => some m.clear
  | .cleanupExpired => some (m.cleanupExpired env)

/-- The pool after a sequence of calls, unless one of them faults. -/
def runPool : List PoolCall → Mempool → Option Mempool
  | [], m => some m
  | call :: calls, m => (call.exec env m).bind (runPool calls)

end NogoChain
