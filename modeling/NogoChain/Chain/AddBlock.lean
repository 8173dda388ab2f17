import NogoChain.Chain.Reorg

/-!
# Block insertion

`AddBlock` sends a block to the canonical chain, to the fork blocks or to the orphan pool.
The first two reconnect orphans that were waiting for the block, which sends those to the
canonical chain or to the fork blocks in turn. The functions below take the reconnection as
a parameter `descend`; `cascade` ties the knot with a bound on the depth, which falls by
one whenever an orphan leaves the pool, so that the size of the pool is bound enough.

The parameter `hashHex` that the functions of the source pass along is the text of the hash
of the block, and is left out.
-/

namespace NogoChain

variable (env : Env)

/-- The first position of a transaction for another chain, from position `i` on. -/
def wrongChainId (chainId : UInt64) : Nat → List Transaction → Except GoError Unit
  | _, [] => .ok ()
  | i, tx :: txs =>
    if tx.chainId ≠ chainId then
      .error (.errorf "transaction has wrong chainId: transaction %d has chainId %d"
        [.num i, .num tx.chainId.toNat])
    else wrongChainId chainId (i + 1) txs

def validateBlockConsensusLocked (block : Block) : Except GoError Unit :=
  match block.transactions with
  | [] => .error (.new "block must contain at least one transaction")
  | tx :: _ =>
    if tx.type ≠ .coinbase then .error (.new "first transaction must be coinbase")
    else if block.hash = [] then .error (.new "missing block hash")
    else if block.header.difficultyBits = 0 then .error (.new "invalid difficulty bits")
    else
      let expectedVersion := env.consensus.blockVersionForHeight block.height
      if block.header.version ≠ expectedVersion then
        .error (.errorf "invalid block version: expected %d got %d at height %d"
          [.num expectedVersion.toNat, .num block.header.version.toNat, .num block.height.toNat])
      else wrongChainId env.chainId 0 block.transactions

/-! ## The canonical chain -/

/-- What is undone when a block at the tip is refused. -/
def Chain.takeOff (c : Chain) (block : Block) : Chain :=
  { c with blocks := c.blocks.dropLast, blocksByHash := c.blocksByHash.erase block.hash }

/-- The block at the tip, before it is stored and applied. -/
def Chain.putOn (c : Chain) (block : Block) : Chain :=
  let work := c.canonicalWork + workForDifficultyBits block.header.difficultyBits
  { c with
    blocks := c.blocks ++ [block]
    indexes := c.indexes.updateIndexesForBlock env block c.length64
    canonicalWork := work
    totalWork := c.totalWork.insert block.ptr (Json.decimal work) }

/-- The first half of `addCanonicalBlockLocked`: the block is appended, stored and applied.
A refusal by the store or by the state takes the block off again; indexes, work, and
whatever the state has let through stay. -/
def appendToTip (block : Block) : ChainM Unit := do
  record fun c => .extend c block
  update (·.putOn env block)
  let c ← chain
  match ← Prog.attempt (storeWrite env fun store => store.appendCanonical (c.view block)) with
  | .error e => do
    update (·.takeOff block)
    Prog.throw (.wrap "persist block: %w" [] e)
  | .ok () =>
    match ← Prog.attempt (applyBlock env block) with
    | .error e => do
      update (·.takeOff block)
      Prog.throw (.wrap "apply block to state: %w" [] e)
    | .ok () => pure ()

def addCanonicalBlockLocked (descend : Bytes → ChainM Unit) (block : Block) : ChainM Bool := do
  appendToTip env block
  hexPrefix16 block.hash "hashHex[:16]"
  update fun c =>
    let event := Event.newBlock block.height block.hash block.header.prevHash
      block.header.difficultyBits block.transactions.length
    { c with published := event :: c.published }
  descend block.hash
  autoReorgIfNeededLocked env
  pure true

/-! ## Fork blocks -/

def maxForkBlocksPerHeight : Nat := 16

def maxForkBlocksTotal : Nat := 50000

namespace Chain

/-- The fork blocks at a height. -/
def forksAt (c : Chain) (height : UInt64) : List Block := (c.forkBlocks.lookup height).getD []

/-- Enter a block among the fork blocks and in both hash maps. -/
def insertFork (c : Chain) (block : Block) : Chain :=
  { c with
    forkBlocks := c.forkBlocks.insert block.height (c.forksAt block.height ++ [block])
    forkBlocksByHash := c.forkBlocksByHash.insert block.hash block
    blocksByHash := c.blocksByHash.insert block.hash block }

/-- The limit for one height: the oldest blocks go. -/
def limitForksAt (c : Chain) (height : UInt64) : Chain :=
  let blocks := c.forksAt height
  let excess := blocks.length - maxForkBlocksPerHeight
  if blocks.length > maxForkBlocksPerHeight then
    { c.forget (blocks.take excess) with
      forkBlocks := c.forkBlocks.insert height (blocks.drop excess) }
  else c

/-- The loop that removes the lowest heights until three quarters of the limit are left. -/
def dropLowestForks : List UInt64 → Nat → Chain → Chain
  | [], _, c => c
  | h :: hs, total, c =>
    if total ≤ maxForkBlocksTotal * 3 / 4 then c
    else
      let blocks := c.forksAt h
      dropLowestForks hs (total - blocks.length)
        { c.forget blocks with forkBlocks := c.forkBlocks.erase h }

/-- The limit for all heights together. -/
def limitForksTotal (c : Chain) : Chain :=
  let total := (c.forkBlocks.entries.flatMap (·.2)).length
  if total > maxForkBlocksTotal then
    dropLowestForks (c.forkBlocks.keys.insertionSort (· ≤ ·)) total c
  else c

/-- Whether the parent of a block is neither known nor a fork block. -/
def parentMissing (c : Chain) (block : Block) : Bool :=
  (c.blocksByHash.lookup block.header.prevHash).isNone
    && !c.isParentInForkBlocksLocked block.header.prevHash

end Chain

/-- The seal check of `addForkBlockLocked`; without a parent it is put off. -/
def checkForkSeal (block : Block) : ChainM Unit := do
  if block.height > 0 ∧ block.header.prevHash ≠ [] then
    let c ← chain
    match c.knownParent? block with
    | none => hexPrefix16 block.hash "hashHex[:16]"
    | some parent =>
      let verdict ← Prog.attempt (checkSeal env block parent)
      hexPrefix16 block.hash "hashHex[:16]"
      match verdict with
      | .ok () => pure ()
      | .error e =>
        Prog.throw (.wrap "fork block %d PoW verification failed: %w" [.num block.height.toNat] e)
  else pure ()

/-- Ask for the missing parent of a fork block. -/
def requestForkParent (block : Block) : ChainM Unit := do
  let asked ← requestParent env block.header.prevHash
  Prog.when asked (hexPrefix16 block.header.prevHash "parentHashHex[:16]")

/-- The part of `addForkBlockLocked` for a block that is already among the fork blocks. -/
def addDuplicateFork (descend : Bytes → ChainM Unit) (block : Block) : ChainM Bool := do
  hexPrefix16 block.hash "hashHex[:16]"
  let c ← chain
  Prog.when (c.parentMissing block) (requestForkParent env block)
  let complete ← forkChainComplete block
  let heavier ← Prog.andAlso complete (shouldReorgToHeaviestLocked env)
  Prog.when heavier do
    let _ ← Prog.attempt (reorganizeToHeaviestLocked env)
  descend block.hash
  debouncedAutoReorgLocked env
  pure false

/-- The log line that names the canonical block at the height of a fork block; the height
is compared as an `int` and used as an index. -/
def logCanonicalAt (height : UInt64) : ChainM Unit := do
  let c ← chain
  if goInt height < c.blocks.length ∧ c.blocks.length ≤ height.toNat then
    Prog.crash (.panic "c.blocks[height]")
  else pure ()

/-- The part of `addForkBlockLocked` for a new fork block. -/
def addNewFork (descend : Bytes → ChainM Unit) (block : Block) : ChainM Bool := do
  update fun c => ((c.insertFork block).limitForksAt block.height).limitForksTotal
  logCanonicalAt block.height
  hexPrefix16 block.hash "hashHex[:16]"
  let c ← chain
  let missing := c.parentMissing block
  Prog.when missing (requestForkParent env block)
  let complete ← Prog.andAlso (!missing) (forkChainComplete block)
  let heavier ← Prog.andAlso complete (shouldReorgToHeaviestLocked env)
  if heavier then do
    wrapping "reorg failed: %w" [] (reorganizeToHeaviestLocked env)
    pure true
  else do
    descend block.hash
    debouncedAutoReorgLocked env
    pure false

def addForkBlockLocked (descend : Bytes → ChainM Unit) (block : Block) : ChainM Bool := do
  checkForkSeal env block
  let c ← chain
  if (c.forksAt block.height).any (·.hash == block.hash) then addDuplicateFork env descend block
  else addNewFork env descend block

/-! ## Reconnecting orphans -/

def addBlockReconnectLocked (descend : Bytes → ChainM Unit) (block : Block) : ChainM Bool := do
  let expectedHeight := (← chain).length64
  update fun c => if (c.blocksByHash.lookup block.hash).isSome then c else c.learn [block]
  let c ← chain
  if block.height = expectedHeight then
    if c.tip?.any (·.hash == block.header.prevHash) then addCanonicalBlockLocked env descend block
    else addForkBlockLocked env descend block
  else if block.height < expectedHeight then addForkBlockLocked env descend block
  else if block.height = expectedHeight + 1
      ∧ (c.blocksByHash.lookup block.header.prevHash).isSome then
    addCanonicalBlockLocked env descend block
  else addForkBlockLocked env descend block

/-- The orphans that wait for a parent, handed to `cascade`. -/
def processOrphanDescendantsWith (cascade : Slice → Nat → ChainM (Nat × Nat))
    (parentHash : Bytes) : ChainM Unit := do
  let c ← chain
  match c.orphanChildren? parentHash with
  | none => pure ()
  | some children =>
    if children.len = 0 then pure ()
    else do
      let (connected, _) ← cascade children 0
      Prog.when (connected > 0) (hexPrefix16 parentHash "parentHash[:16]")

def maxCascadeDepth : Nat := 500

/-- The loop of `cascade` over `orphanHashes`, from position `i` on: what it returns, and
`totalConnected` after it. The range of the loop is fixed when it starts; its elements are
read as the loop gets to them. -/
def cascadeLoop (cascade : Slice → Nat → ChainM (Nat × Nat)) (orphanHashes : Slice) :
    Nat → Nat → Nat → Nat → ChainM (Nat × Nat)
  | 0, _, connected, total => pure (connected, total)
  | left + 1, i, connected, total => do
    if total + connected ≥ maxCascadeDepth then pure (connected, total)
    else
      let c ← chain
      let childHash := orphanHashes.read c.arrays i
      match c.orphan? childHash with
      | none => cascadeLoop cascade orphanHashes left (i + 1) connected total
      | some orphanBlock => do
        update (·.removeOrphanLocked childHash)
        let added ← Prog.attempt
          (addBlockReconnectLocked env (processOrphanDescendantsWith cascade) orphanBlock)
        match added with
        | .error _ => do
          hexPrefix16 childHash "childHex[:16]"
          cascadeLoop cascade orphanHashes left (i + 1) connected total
        | .ok true => do
          let c ← chain
          match c.orphanChildren? childHash with
          | none => cascadeLoop cascade orphanHashes left (i + 1) (connected + 1) (total + 1)
          | some grandchildren =>
            if grandchildren.len = 0 then
              cascadeLoop cascade orphanHashes left (i + 1) (connected + 1) (total + 1)
            else do
              let (more, total) ← cascade grandchildren (total + 1)
              cascadeLoop cascade orphanHashes left (i + 1) (connected + 1 + more) total
        | .ok false => do
          hexPrefix16 childHash "childHex[:16]"
          let now ← timeNow env
          update (·.putOrphan env childHash orphanBlock now)
          cascadeLoop cascade orphanHashes left (i + 1) connected total

/-- `cascade`, with a bound on the depth. -/
def cascade : Nat → Slice → Nat → ChainM (Nat × Nat)
  | 0, _, _ => Prog.crash .outOfFuel
  | depth + 1, orphanHashes, total =>
    cascadeLoop env (cascade depth) orphanHashes orphanHashes.len 0 0 total

/-- `len(c.orphanPool)`. -/
def Chain.orphanCount (c : Chain) : Nat := (c.orphans.map fun o => o.pool.entries.length).getD 0

def processOrphanDescendantsLocked (parentHash : Bytes) : ChainM Unit := do
  let c ← chain
  processOrphanDescendantsWith (cascade env (c.orphanCount + 1)) parentHash

/-- The loop of `tryProcessOrphansLocked` over the pool: whether an orphan was found, and
whether one was accepted. An entry that left the pool meanwhile is not visited. -/
def tryOrphans (tipHash : Bytes) (expectedHeight : UInt64) :
    List ((_ : Bytes) × Block) → Bool → ChainM (Bool × Bool)
  | [], found => pure (found, false)
  | e :: es, found => do
    let c ← chain
    match c.orphan? e.1 with
    | none => tryOrphans tipHash expectedHeight es found
    | some orphan =>
      let descend := processOrphanDescendantsLocked env
      let attemptWith (add : ChainM Bool) : ChainM (Bool × Bool) := do
        update (·.removeOrphanLocked e.1)
        match ← Prog.attempt add with
        | .error _ => tryOrphans tipHash expectedHeight es true
        | .ok accepted => pure (true, accepted)
      if orphan.header.prevHash = tipHash then
        if orphan.height ≠ expectedHeight then tryOrphans tipHash expectedHeight es found
        else attemptWith (addCanonicalBlockLocked env descend orphan)
      else if c.isParentInForkBlocksLocked orphan.header.prevHash then
        attemptWith (addForkBlockLocked env descend orphan)
      else tryOrphans tipHash expectedHeight es found

/-- The outer loop of `tryProcessOrphansLocked`. -/
def tryProcessOrphansLoop : Nat → Bool → ChainM Bool
  | 0, processed => pure processed
  | iterations + 1, processed => do
    let c ← chain
    match c.tip?, c.orphans with
    | some tip, some o => do
      let entries ← ranged env o.pool.entries
      let (found, accepted) ← tryOrphans env tip.hash (tip.height + 1) entries false
      if found then tryProcessOrphansLoop iterations (processed || accepted)
      else pure (processed || accepted)
    | _, _ => pure processed

def tryProcessOrphansLocked : ChainM Bool := do
  let c ← chain
  if c.orphanCount = 0 then pure false
  else tryProcessOrphansLoop env (c.orphanCount + 1) false

/-- The request for the parent of an orphan. -/
def requestOrphanParent (parentHash : Bytes) : ChainM Unit := do
  let c ← chain
  if c.isParentInForkBlocksLocked parentHash then hexPrefix16 parentHash "parentHashHex[:16]"
  else do
    let asked ← requestParent env parentHash
    Prog.when (!asked) (hexPrefix16 parentHash "parentHashHex[:16]")

def addOrphanBlockLocked (block : Block) : ChainM Bool := do
  let c ← chain
  if (c.orphan? block.hash).isSome then do
    hexPrefix16 block.hash "hashHex[:16]"
    pure false
  else do
    update (·.makeOrphanPool)
    cleanupExpiredOrphansLocked env
    evictOldestOrphan env
    let now ← timeNow env
    update (·.putOrphan env block.hash block now)
    hexPrefix16 block.hash "hashHex[:16]"
    hexPrefix16 block.header.prevHash "parentHashHex[:16]"
    requestOrphanParent env block.header.prevHash
    tryProcessOrphansLocked env

/-! ## AddBlock -/

/-- The two prefixes in the log line about a wrong parent at the expected height. -/
def logWrongPrevHash (tip block : Block) : ChainM Unit := do
  bytePrefix8 tip.hash (env.hashCap tip.ptr) "currentTip.Hash[:8]"
  bytePrefix8 block.header.prevHash (env.prevHashCap block.ptr) "block.Header.PrevHash[:8]"

/-- The part of `AddBlock` for a hash that is known. -/
def addKnownBlock (block : Block) : ChainM Bool := do
  let c ← chain
  let descend := processOrphanDescendantsLocked env
  let parentHash := block.header.prevHash
  if block.height < c.length64 then do
    let canonical ← blockAt block.height.toNat
    if canonical.hash = block.hash then pure false
    else do
      hexPrefix16 block.hash "hashHex[:16]"
      Prog.when (c.isParentOnActiveChainLocked parentHash
        || c.isParentInForkBlocksLocked parentHash) (hexPrefix16 parentHash "parentHashHex[:16]")
      addForkBlockLocked env descend block
  else if block.height = c.length64 then
    match c.tip? with
    | some tip =>
      if parentHash ≠ tip.hash then do
        logWrongPrevHash env tip block
        addForkBlockLocked env descend block
      else do
        hexPrefix16 block.hash "hashHex[:16]"
        addCanonicalBlockLocked env descend block
    | none => do
      hexPrefix16 block.hash "hashHex[:16]"
      addCanonicalBlockLocked env descend block
  else do
    hexPrefix16 block.hash "hashHex[:16]"
    if c.isParentInForkBlocksLocked parentHash then do
      hexPrefix16 parentHash "parentHashHex[:16]"
      addForkBlockLocked env descend block
    else addOrphanBlockLocked env block

/-- The part of `AddBlock` for a hash that is new, after the block is entered in
`blocksByHash`. -/
def addNewBlock (block : Block) : ChainM Bool := do
  let c ← chain
  let descend := processOrphanDescendantsLocked env
  let parentHash := block.header.prevHash
  let onActiveChain := c.isParentOnActiveChainLocked parentHash
  let inForkBlocks := c.isParentInForkBlocksLocked parentHash
  if block.height = c.length64 then
    match c.tip? with
    | some tip =>
      if parentHash ≠ tip.hash then do
        logWrongPrevHash env tip block
        addForkBlockLocked env descend block
      else addCanonicalBlockLocked env descend block
    | none => addCanonicalBlockLocked env descend block
  else if block.height < c.length64 then do
    Prog.when (onActiveChain || inForkBlocks) (hexPrefix16 parentHash "parentHashHex[:16]")
    addForkBlockLocked env descend block
  else if block.height = c.length64 + 1 then
    if inForkBlocks then addForkBlockLocked env descend block
    else if (c.blocksByHash.lookup parentHash).isSome then
      addCanonicalBlockLocked env descend block
    else do
      hexPrefix16 parentHash "parentHashHex[:16]"
      addOrphanBlockLocked env block
  else if inForkBlocks || onActiveChain then do
    hexPrefix16 parentHash "parentHashHex[:16]"
    addForkBlockLocked env descend block
  else addOrphanBlockLocked env block

def addBlock (block : Block) : ChainM Bool := do
  cleanupExpiredOrphansLocked env
  match validateBlockConsensusLocked env block with
  | .error e => Prog.throw (.wrap "block consensus validation failed: %w" [] e)
  | .ok () =>
    let c ← chain
    if (c.blocksByHash.lookup block.hash).isSome then addKnownBlock env block
    else do
      update (·.learn [block])
      addNewBlock env block

end NogoChain
