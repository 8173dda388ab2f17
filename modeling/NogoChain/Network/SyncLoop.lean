import NogoChain.Chain.Lifecycle
import NogoChain.Lib.GoText

/-!
# Synchronisation with a peer

`SyncWithPeer` asks a peer for its height and work, fetches headers, compares the first one
with the local tip, and downloads the blocks up to the height of the peer; it starts over until
the peer has nothing more. A first header that does not name the local tip starts a binary
search for the common ancestor, and the local chain is rolled back to the height that is found
before any block is downloaded.

What the peer answers, what the validator, the candidate pool and the orphan pool of the
network layer say, and when the context is done are the fields of `SyncAnswers`; each answer
may depend on when it is asked for. Two loops of the source have no bound: that over the rounds,
and that over the batches, whose counter wraps around. Here both are bounded by `fuel`.

The state has two records that the program only writes: the chain and the headers of each round,
and the chain before each call of `AddBlock` with the block.
-/

namespace NogoChain

/-! ## Answers -/

/-- The part of `ChainInfo` that is read. -/
structure ChainInfo where
  height : UInt64
  /-- hash of the tip, in hexadecimal -/
  latestHash : Bytes
  work : Option Int

/-- **What comes from outside the sync loop.** -/
structure SyncAnswers where
  peer : Bytes
  /-- `syncConfig.MaxHeadersFetch` -/
  maxHeadersFetch : UInt64
  retryExec : Bool
  done : Nat → Bool
  ctxErr : GoError
  /-- `FetchChainInfo` -/
  chainInfo : Nat → Except GoError ChainInfo
  /-- `FetchHeadersFrom`, or what the retry executor makes of it -/
  headers : Nat → UInt64 → UInt64 → Except GoError (List BlockHeader)
  /-- `FetchBlockByHeight` -/
  blockByHeight : Nat → UInt64 → Except GoError Block
  /-- `FetchBlocksByHeightRange` -/
  blocksByHeightRange : Nat → UInt64 → UInt64 → Except GoError (List Block)
  validateBlockFast : Nat → Block → Except GoError Unit
  validateBlock : Nat → Block → Block → Except GoError Unit
  /-- whether there is a candidate pool and it takes blocks of a height -/
  shouldPool : Nat → UInt64 → Bool
  submitCandidate : Nat → Block → Except GoError Unit
  /-- `GetOrphansByParent` -/
  orphansByParent : Nat → Bytes → List Block
  /-- whether the text of an error contains "chain discontinuity" or "different fork" -/
  mentionsFork : GoError → Bool

/-- The headers of a round, with the chain they are compared with. -/
structure SyncRound where
  chain : Chain
  headers : List BlockHeader

/-- The state of a synchronisation. -/
structure SyncState where
  world : World
  rounds : List SyncRound
  /-- the calls of `AddBlock` so far -/
  adds : List (Chain × Block)

/-- A synchronisation that begins on a chain. -/
def SyncState.start (c : Chain) : SyncState := ⟨⟨c, []⟩, [], []⟩

/-- Programs of the sync loop. -/
abbrev SyncLoopM := Prog SyncState GoError Fault

/-- A program on the chain. -/
def onChain {α : Type} (m : ChainM α) : SyncLoopM α :=
  Prog.within (·.world) (fun w s => { s with world := w }) m

variable (env : Env) (a : SyncAnswers)

/-- `select` on `ctx.Done()`. -/
def checkContext : SyncLoopM Unit := do
  if ← onChain (ask a.done) then Prog.throw a.ctxErr else pure ()

/-- `AddBlock`, recorded. -/
def addBlockRecorded (block : Block) : SyncLoopM Bool := do
  Prog.modify fun s => { s with adds := (s.world.chain, block) :: s.adds }
  onChain (addBlock env block)

/-! ## Headers -/

def decodeMinerAddress : Bytes → Except GoError Bytes :=
  decode32 fun n => .errorf "expected 32 bytes, got %d" [.num n]

/-- Bytes of length 32 are taken as they are, others count as zeros. -/
def exactly32 (b : Bytes) : Bytes := if b.length = 32 then b else List.replicate 32 0

def computeHeaderHash (h : BlockHeader) (height : UInt64) (minerAddress : Bytes) :
    Except GoError Bytes :=
  match decodeMinerAddress minerAddress with
  | .error e => .error (.wrap "decode miner address: %w" [] e)
  | .ok miner =>
    .ok (env.cr.sha256 ([1] ++ littleEndian 4 h.version.toNat ++ littleEndian 8 height.toNat
      ++ littleEndian 8 h.timestampUnix.toUInt64.toNat ++ exactly32 h.prevHash
      ++ exactly32 (sliceBytes h.merkleRoot) ++ littleEndian 4 h.difficultyBits.toNat ++ miner
      ++ littleEndian 8 h.nonce.toNat))

/-- Whether each header names the one before it; the first one has the given height, and one of
height 0 is not looked at. -/
def headersLinked : UInt64 → List BlockHeader → Bool
  | height, prev :: header :: rest =>
    let linked :=
      if height > 0 then
        match computeHeaderHash env prev height prev.minerAddress with
        | .error _ => false
        | .ok prevHash => header.prevHash == prevHash
      else true
    linked && headersLinked (height + 1) (header :: rest)
  | _, _ => true

/-- `fetchHeadersWithRetry`. Without the executor, difficulty and time are checked. -/
def fetchHeadersWithRetry (fromHeight count : UInt64) : SyncLoopM (List BlockHeader) := do
  match ← onChain (ask fun n => a.headers n fromHeight count) with
  | .error e => Prog.throw e
  | .ok headers =>
    Prog.when (!a.retryExec) (Prog.forEach headers fun h => do
      if h.difficulty = 0 then
        Prog.throw (.errorf "invalid header from %s: zero difficulty" [.str a.peer])
      else
        let now ← onChain (timeNow env)
        if h.timestampUnix.toInt > (now + 900000000000) / 1000000000 then
          Prog.throw (.errorf "invalid header from %s: timestamp too far in future" [.str a.peer])
        else pure ())
    pure headers

/-! ## The common ancestor -/

/-- Whether the local chain has a block of a height and the peer answers with one that has the same
hash. -/
def peerAgrees (mid : UInt64) : SyncLoopM Bool := do
  let c ← onChain chain
  match c.blocks[mid.toNat]? with
  | none => pure false
  | some localBlock =>
    match ← onChain (ask fun n => a.blockByHeight n mid) with
    | .error _ => pure false
    | .ok peerBlock => pure (localBlock.hash == peerBlock.hash)

/-- The loop of `findCommonAncestorBinary`. The distance of the two bounds falls with every
iteration, so that it is enough as a bound. -/
def commonAncestorLoop : Nat → UInt64 → UInt64 → SyncLoopM UInt64
  | 0, low, _ => pure low
  | n + 1, low, high =>
    if low < high then do
      let mid := low + (high - low) / 2 + 1
      if ← peerAgrees a mid then commonAncestorLoop n mid high
      else commonAncestorLoop n low (mid - 1)
    else pure low

def findCommonAncestorBinary (localHeight targetHeight : UInt64) : SyncLoopM UInt64 :=
  if localHeight = 0 ∨ targetHeight = 0 then pure 0
  else
    let high := if targetHeight < localHeight then targetHeight else localHeight
    commonAncestorLoop a high.toNat 0 high

def findCommonAncestorHeight (targetHeight : UInt64) : SyncLoopM UInt64 := do
  let c ← onChain chain
  match c.tip? with
  | none => pure 0
  | some tip => findCommonAncestorBinary a tip.height targetHeight

/-- What is done with the first header: if it does not name the local tip, the chain is rolled
back to the common ancestor. The results are `currentHeight` and `syncStartHeight`, the height
that the download starts from. -/
def joinFirstHeader (localTip : Option Block) (currentHeight : UInt64) (header : BlockHeader) :
    SyncLoopM (UInt64 × UInt64) := do
  match localTip with
  | none => pure (currentHeight, currentHeight)
  | some tip =>
    if header.prevHash = tip.hash then pure (currentHeight, currentHeight)
    else do
      let syncStartHeight ← findCommonAncestorHeight a (currentHeight + 1)
      if syncStartHeight < currentHeight then
        match ← Prog.attempt (onChain (rollbackToHeight env syncStartHeight)) with
        | .error e =>
          Prog.throw (.wrap "rollback chain to height %d failed: %w" [.num syncStartHeight.toNat] e)
        | .ok () => pure (syncStartHeight, syncStartHeight)
      else pure (currentHeight, syncStartHeight)

/-! ## Blocks -/

/-- `StringToWork`, with `none` where it reports a failure. -/
def stringToWork : Bytes → Option Int
  | [] => some 0
  | 43 :: s => (decimalValue s).map (fun n => (n : Int))
  | 45 :: s => (decimalValue s).map (fun n => -(n : Int))
  | s => (decimalValue s).map (fun n => (n : Int))

def isCorruptedBlock (block : Block) : Bool :=
  (block.height > 0 ∧ block.header.prevHash = [])
    ∨ (block.header.timestampUnix < 1780725960 ∧ block.height > 0)
    ∨ (block.header.difficultyBits = 0 ∧ block.header.difficulty = 0) ∨ block.hash = []

/-- The inner loop of `processOrphans`: whether anything was added or refused by the candidate
pool, and whether a block was accepted, which ends the loop. -/
def processOrphansOf : List Block → Bool → SyncLoopM (Bool × Bool)
  | [], addedAny => pure (addedAny, false)
  | orphan :: rest, addedAny => do
    match ← onChain (ask fun n => a.validateBlockFast n orphan) with
    | .error _ => processOrphansOf rest addedAny
    | .ok () => do
      let shouldPool ← onChain (ask fun n => a.shouldPool n orphan.height)
      let refused ← Prog.andAlso shouldPool do
        match ← onChain (ask fun n => a.submitCandidate n orphan) with
        | .error _ => pure true
        | .ok () => pure false
      if refused then processOrphansOf rest true
      else
        -- a block that the candidate pool has taken is added to the chain as well
        match ← Prog.attempt (addBlockRecorded env orphan) with
        | .error _ => processOrphansOf rest addedAny
        | .ok false => processOrphansOf rest addedAny
        | .ok true => pure (true, true)

/-- The outer loop of `processOrphans`. -/
def processOrphansLoop : Nat → Block → SyncLoopM Unit
  | 0, _ => pure ()
  | iterations + 1, localTip => do
    let orphans ← onChain (ask fun n => a.orphansByParent n localTip.hash)
    let (addedAny, accepted) ← processOrphansOf env a orphans false
    if accepted then do
      let c ← onChain chain
      match c.tip? with
      | none => Prog.crash (.panic "localTip.Hash")
      | some tip => processOrphansLoop iterations tip
    else if addedAny then processOrphansLoop iterations localTip
    else pure ()

def processOrphans : SyncLoopM Unit := do
  let c ← onChain chain
  match c.tip? with
  | none => pure ()
  | some tip => processOrphansLoop env a 100 tip

/-- The full validation in `handleNewBlock`, for a block whose parent is known. -/
def validateWithParent (block : Block) : SyncLoopM Unit := do
  let c ← onChain chain
  if block.height > 0 then
    match c.blocksByHash.lookup block.header.prevHash with
    | none => pure ()
    | some parent =>
      match ← onChain (ask fun n => a.validateBlock n block parent) with
      | .error e => Prog.throw (.wrap "full block validation failed: %w" [] e)
      | .ok () => pure ()
  else pure ()

/-- The end of `handleNewBlock`: the block is added to the chain, and orphans that connect to the
tip after it. -/
def addNewBlockToChain (block : Block) : SyncLoopM Unit := do
  match ← Prog.attempt (addBlockRecorded env block) with
  | .error e => Prog.throw (.wrap "failed to add block to chain: %v" [] e)
  | .ok accepted => do
    let c ← onChain chain
    match accepted, stringToWork (c.view block).totalWork with
    | false, some remoteWork =>
      if remoteWork > c.canonicalWork then
        Prog.throw (.errorf
          "chain discontinuity: reorg needed: peer has more work (remote=%s > local=%s)"
          [.str (Json.decimal remoteWork), .str (Json.decimal c.canonicalWork)])
      else processOrphans env a
    | _, _ => processOrphans env a

def handleNewBlock (block : Block) : SyncLoopM Unit := do
  match ← onChain (ask fun n => a.validateBlockFast n block) with
  | .error e =>
    if isCorruptedBlock block then Prog.throw (.wrap "corrupted block data: %v" [] e)
    else Prog.throw (.wrap "block validation failed: %v" [] e)
  | .ok () => do
    validateWithParent a block
    let shouldPool ← onChain (ask fun n => a.shouldPool n block.height)
    let pooled ← Prog.andAlso shouldPool do
      match ← onChain (ask fun n => a.submitCandidate n block) with
      | .error _ => pure false
      | .ok () => pure true
    if pooled then pure () else addNewBlockToChain env a block

/-! ## Download -/

def connectionReuseBatchSize : UInt64 := 10

def maxBatchRetries : Nat := 3

/-- The retries of a batch, with the number of attempts left and the last error. -/
def fetchBatch (batchStart batchEnd : UInt64) : Nat → GoError → SyncLoopM (List Block)
  | 0, fetchErr =>
    Prog.throw (.wrap "failed to fetch blocks %d-%d after %d retries: %w"
      [.num batchStart.toNat, .num batchEnd.toNat, .num maxBatchRetries] fetchErr)
  | attempts + 1, _ => do
    checkContext a
    match ← onChain (ask fun n =>
      a.blocksByHeightRange n batchStart (batchEnd - batchStart + 1)) with
    | .ok blocks => pure blocks
    | .error e => fetchBatch batchStart batchEnd attempts e

/-- The blocks of a batch are handled one after another; errors are counted only. -/
def storeBlocks : List Block → Nat → SyncLoopM Nat
  | [], totalStored => pure totalStored
  | block :: blocks, totalStored => do
    match ← Prog.attempt (handleNewBlock env a block) with
    | .error _ => storeBlocks blocks totalStored
    | .ok () => storeBlocks blocks (totalStored + 1)

/-- The loop of `BatchDownloadBlocks` over the batches below `stop`. -/
def downloadBatches : Nat → UInt64 → UInt64 → Nat → SyncLoopM Nat
  | 0, _, _, _ => Prog.crash .outOfFuel
  | fuel + 1, batchStart, stop, totalStored =>
    if batchStart < stop then do
      checkContext a
      let full := batchStart + connectionReuseBatchSize - 1
      let batchEnd := if full ≥ stop then stop - 1 else full
      let blocks ← fetchBatch a batchStart batchEnd maxBatchRetries a.ctxErr
      let totalStored ← storeBlocks env a blocks totalStored
      downloadBatches fuel (batchStart + connectionReuseBatchSize) stop totalStored
    else pure totalStored

def batchDownloadBlocks (fuel : Nat) (startHeight count : UInt64) : SyncLoopM Unit := do
  let totalStored ← downloadBatches env a fuel startHeight (startHeight + count) 0
  if UInt64.ofNat totalStored < count then
    Prog.throw (.errorf "incomplete sync: %d/%d blocks stored" [.num totalStored, .num count.toNat])
  else pure ()

/-! ## Rounds -/

/-- The height of the local tip, 0 without one. -/
def Chain.tipHeight (c : Chain) : UInt64 := (c.tip?.map (·.height)).getD 0

/-- Whether there is something to fetch: the peer is higher, or as high with more work and another
tip. -/
def shouldSync (c : Chain) (info : ChainInfo) : Bool :=
  let localWork : Int := match c.tip? with
    | some _ => c.canonicalWork
    | none => 0
  if info.height > c.tipHeight then true
  else if info.height = c.tipHeight ∧ info.work.getD 0 > localWork then
    match c.tip? with
    | some tip => Hex.encodeToString tip.hash ≠ info.latestHash
    | none => true
  else false

/-- Where the headers of a round begin, and how many are asked for. -/
def headerRange (currentHeight peerHeight : UInt64) : UInt64 × UInt64 :=
  let headersToFetch := peerHeight - currentHeight
  let maxHeadersFetch := if a.maxHeadersFetch = 0 then 1000 else a.maxHeadersFetch
  let capped := fun count => if count > maxHeadersFetch then maxHeadersFetch else count
  if headersToFetch = 0 then (peerHeight, capped 1) else (currentHeight + 1, capped headersToFetch)

/-- The blocks that a round downloads, from which height and how many; there are none if the peer
is behind. -/
def blockRange (syncStartHeight peerHeight : UInt64) : Option (UInt64 × UInt64) :=
  if peerHeight > syncStartHeight then some (syncStartHeight + 1, peerHeight - syncStartHeight)
  else if peerHeight = syncStartHeight then some (peerHeight, 1)
  else none

/-- The headers of a round are recorded and checked. The result is the height that the download
starts from. -/
def acceptHeaders (localTip : Option Block) (currentHeight : UInt64) (headers : List BlockHeader) :
    SyncLoopM UInt64 := do
  Prog.modify fun s => { s with rounds := ⟨s.world.chain, headers⟩ :: s.rounds }
  match headers with
  | [] => pure currentHeight
  | first :: _ => do
    let (currentHeight, syncStartHeight) ← joinFirstHeader env a localTip currentHeight first
    if headersLinked env (currentHeight + 1) headers then pure syncStartHeight
    else Prog.throw (.new "header chain discontinuity detected, peer may be on different fork")

/-- **One round of `SyncWithPeer`**; whether there is another one. -/
def syncRound (fuel : Nat) : SyncLoopM Bool := do
  checkContext a
  match ← onChain (ask a.chainInfo) with
  | .error e => Prog.throw (.wrap "failed to get peer chain info: %w" [] e)
  | .ok info => do
    let c ← onChain chain
    if !shouldSync c info then pure false
    else do
      let range := headerRange a c.tipHeight info.height
      match ← Prog.attempt (fetchHeadersWithRetry env a range.1 range.2) with
      | .error e => Prog.throw (.wrap "failed to fetch headers: %w" [] e)
      | .ok headers => do
        let syncStartHeight ← acceptHeaders env a c.tip? c.tipHeight headers
        match blockRange syncStartHeight info.height with
        | none => pure true
        | some (syncFromHeight, blocksToFetch) =>
          match ← Prog.attempt (batchDownloadBlocks env a fuel syncFromHeight blocksToFetch) with
          | .ok () => pure true
          | .error e =>
            if a.mentionsFork e then pure false
            else Prog.throw (.wrap "batch download and storage failed: %w" [] e)

/-- The rounds of `SyncWithPeer`. -/
def syncRounds (fuel : Nat) : Nat → SyncLoopM Unit
  | 0 => Prog.crash .outOfFuel
  | rounds + 1 => do
    if ← syncRound env a fuel then syncRounds fuel rounds else pure ()

def syncWithPeer (fuel : Nat) : SyncLoopM Unit := syncRounds env a fuel fuel

end NogoChain
