import NogoChain.Chain.AddBlock
import NogoChain.Core.Merkle

/-!
# Rollback and start

`RollbackToHeight` cuts the canonical chain and replays the state of what is left. `NewChain`
reads the chain from the store, takes the account map from a snapshot or replays it, and
connects stored blocks that continue the tip.
-/

namespace NogoChain

variable (env : Env)

/-! ## Indexes of the canonical chain -/

def maxBlocksByHashSize : Nat := 100000

/-- The entries of `blocksByHash` beyond the limit: the lowest blocks that are no fork
blocks. -/
def Chain.evictable (c : Chain) (entries : List ((_ : Bytes) × Block)) :
    List ((_ : Bytes) × Block) :=
  let byHeight := entries.insertionSort fun x y => x.2.height ≤ y.2.height
  (byHeight.filter fun e => (c.forkBlocksByHash.lookup e.1).isNone).take
    (c.blocksByHash.entries.length - maxBlocksByHashSize)

/-- Remove entries from `blocksByHash`. -/
def Chain.evict (c : Chain) (entries : List ((_ : Bytes) × Block)) : Chain :=
  { c with blocksByHash := entries.foldl (fun m e => m.erase e.1) c.blocksByHash }

def enforceBlocksByHashSize : ChainM Unit := do
  let c ← chain
  if c.blocksByHash.entries.length ≤ maxBlocksByHashSize then pure ()
  else do
    let entries ← ranged env c.blocksByHash.entries
    update (·.evict (c.evictable entries))

def addToIndexLocked (block : Block) : ChainM Unit := do
  if block.hash = [] then pure ()
  else do
    update (·.learn [block])
    enforceBlocksByHashSize env

def initCanonicalIndexesLocked : ChainM Unit := do
  let c ← chain
  Prog.forEach c.blocks (addToIndexLocked env)
  update fun c =>
    { c with
      bestTipHash := (c.tip?.map (·.hash)).getD c.bestTipHash
      indexes := Indexes.reindexAll env c.blocks
      canonicalWork := calculateChainWorkLocked c.blocks }

/-! ## Rollback -/

namespace Chain

/-- The loop of `RollbackToHeight` over the blocks above the height, from the tip down: each
leaves `blocksByHash` and the indexes. -/
def unlinkAbove (c : Chain) (height : Nat) : Chain :=
  let removed := ((List.range c.blocks.length).zip c.blocks).drop (height + 1)
  { c with
    blocks := c.blocks.take (height + 1)
    blocksByHash := removed.foldr (fun e m => m.erase e.2.hash) c.blocksByHash
    indexes := removed.foldr
      (fun e x => Indexes.removeFrom env (UInt64.ofNat e.1) 0 e.2.transactions x) c.indexes }

/-- The removal of fork blocks above a height that `RollbackToHeight` makes; the hash maps
keep them. -/
def dropForkHeightsAbove (c : Chain) (height : UInt64) : Chain :=
  { c with forkBlocks :=
      (c.forkBlocks.keys.filter (· > height)).foldl (fun m h => m.erase h) c.forkBlocks }

end Chain

/-- The part of `RollbackToHeight` for a height below the tip. A failed write of the shortened
chain is only logged. -/
def cutChain (height : UInt64) : ChainM Unit := do
  record fun c => .rollback c height
  update fun c => { c.unlinkAbove env height.toNat with workCache := ∅ }
  initCanonicalIndexesLocked env
  update (·.dropForkHeightsAbove height)
  cleanOrphanPoolAboveHeight env height
  update fun c => { c with canonicalWork := calculateChainWorkLocked c.blocks }
  wrapping "recompute state after rollback: %w" [] (recomputeStateLocked env)
  let _ ← Prog.attempt (rewriteCanonical env)

def rollbackToHeight (height : UInt64) : ChainM Unit := do
  let c ← chain
  if height.toNat ≥ c.blocks.length then
    Prog.throw (.errorf "height %d is beyond chain length %d"
      [.num height.toNat, .num c.blocks.length])
  else if height.toNat = c.blocks.length - 1 then pure ()
  else cutChain env height

/-! ## Genesis -/

/-- The address of the genesis header: the first 20 of the 32 bytes that a NOGO address or
a plain hexadecimal text carries, zeros for any other text. -/
def genesisCoinbase (addr : Bytes) : Bytes :=
  match decodeHex32 addr with
  | .ok b => b.take 20
  | .error _ => List.replicate 20 0

/-- `CreateGenesisBlock`. The engine is in fake mode, so the nonce is zero and the hash is
that of the header. -/
def createGenesisBlock : Block :=
  let coinbase : Transaction :=
    { type := .coinbase, chainId := env.chainId, fromPubKey := none
      toAddress := env.genesis.genesisMinerAddress, amount := env.genesis.initialSupply, fee := 0
      nonce := 0, data := env.genesis.genesisMessage, signature := none }
  let unsealed : Block :=
    { ptr := 0, hash := [], height := 0
      header :=
        { version := env.consensus.blockVersionForHeight 0, prevHash := []
          timestampUnix := env.genesis.timestamp
          difficultyBits := env.consensus.genesisDifficultyBits, difficulty := 0, nonce := 0
          stateRoot := [], merkleRoot := none, height := 0, minerAddress := [] }
      transactions := [coinbase], coinbaseTx := none
      minerAddress := env.genesis.genesisMinerAddress, totalWork := [] }
  let header := sealHeaderBytes unsealed [] (genesisCoinbase env.genesis.genesisMinerAddress)
  { unsealed with hash := env.cr.keccak256 header }

/-- The root that goes into the header bytes: the stated one, or the computed one. -/
def headerRoot (b : Block) : Except GoError Bytes :=
  if (sliceBytes b.header.merkleRoot).length = 32 then .ok (sliceBytes b.header.merkleRoot)
  else
    match b.merkleRootV2ForConsensus env.cr env.consensus with
    | .error e => .error (.wrap "compute Merkle root: %w" [] e)
    | .ok r => .ok (copy32 r)

def blockHeaderPreimageBinaryV1 (b : Block) (nonce : UInt64) : Except GoError Bytes :=
  if b.header.timestampUnix ≤ 0 then .error (.new "invalid timestamp")
  else if b.header.prevHash.length ≠ 0 ∧ b.header.prevHash.length ≠ 32 then
    .error (.errorf "invalid prevHash length: %d" [.num b.header.prevHash.length])
  else if b.hash.length ≠ 0 ∧ b.hash.length ≠ 32 then
    .error (.errorf "invalid hash length: %d" [.num b.hash.length])
  else
    match decodeHex32 b.minerAddress with
    | .error e => .error (.wrap "invalid minerAddress: %w" [] e)
    | .ok miner =>
      match headerRoot env b with
      | .error e => .error e
      | .ok root =>
        .ok ([1] ++ littleEndian 4 b.header.version.toNat ++ littleEndian 8 b.height.toNat
          ++ littleEndian 8 b.header.timestampUnix.toUInt64.toNat
          ++ copy32 b.header.prevHash ++ root
          ++ littleEndian 4 b.header.difficultyBits.toNat ++ miner ++ littleEndian 8 nonce.toNat)

/-- `ValidateGenesisBlock`. The engine accepts every header of number 0. -/
def validateGenesisBlock (b : Block) : Except GoError Unit :=
  if b.height ≠ 0 then .error (.errorf "invalid genesis height: %d" [.num b.height.toNat])
  else if b.header.prevHash ≠ [] then .error (.new "invalid genesis prevHash")
  else if b.header.version ≠ env.consensus.blockVersionForHeight 0 then
    .error (.errorf "invalid genesis version: %d" [.num b.header.version.toNat])
  else if b.header.timestampUnix ≠ env.genesis.timestamp then
    .error (.errorf "genesis timestamp mismatch: %d != %d"
      [.num b.header.timestampUnix.toInt, .num env.genesis.timestamp.toInt])
  else if b.minerAddress ≠ env.genesis.genesisMinerAddress then
    .error (.errorf "genesis miner mismatch: %s != %s"
      [.str b.minerAddress, .str env.genesis.genesisMinerAddress])
  else if b.header.difficultyBits ≠ env.consensus.genesisDifficultyBits then
    .error (.errorf "genesis difficulty mismatch: %d != %d"
      [.num b.header.difficultyBits.toNat, .num env.consensus.genesisDifficultyBits.toNat])
  else
    match b.transactions with
    | [cb] =>
      if cb.type ≠ .coinbase then .error (.new "genesis tx must be coinbase")
      else if cb.chainId ≠ env.chainId then
        .error (.errorf "genesis coinbase chainId mismatch: %d != %d"
          [.num cb.chainId.toNat, .num env.chainId.toNat])
      else if cb.toAddress ≠ env.genesis.genesisMinerAddress then
        .error (.errorf "genesis coinbase toAddress mismatch: %s != %s"
          [.str cb.toAddress, .str env.genesis.genesisMinerAddress])
      else if cb.amount ≠ env.genesis.initialSupply then
        .error (.errorf "genesis supply mismatch: %d != %d"
          [.num cb.amount.toNat, .num env.genesis.initialSupply.toNat])
      else if cb.data ≠ env.genesis.genesisMessage then
        .error (.errorf "genesis message mismatch: %q != %q"
          [.quoted cb.data, .quoted env.genesis.genesisMessage])
      else
        match blockHeaderPreimageBinaryV1 env b b.header.nonce with
        | .error e => .error e
        | .ok _ => .ok ()
    | _ => .error (.new "genesis must contain exactly one transaction")

/-! ## Start -/

def validateRulesHashLocked : ChainM Unit := do
  let c ← chain
  match c.store.rulesHash with
  | none => wrapping "put rules hash: %w" [] (storeWrite env fun s => s.putRulesHash env.rulesHash)
  | some stored =>
    if stored.length ≠ 32 then
      Prog.throw (.errorf "invalid stored rules hash length: %d" [.num stored.length])
    else if stored ≠ env.rulesHash then
      Prog.throw (.errorf "consensus params mismatch: stored=%x current=%x"
        [.str stored, .str env.rulesHash])
    else pure ()

def initializeGenesisLocked : ChainM Unit := do
  let genesis := createGenesisBlock env
  wrapping "append genesis: %w" [] (storeWrite env fun s => s.appendCanonical genesis)
  wrapping "put genesis: %w" [] (storeWrite env fun s => s.putBlock genesis)
  update fun c => { c with blocks := c.blocks ++ [genesis] }

/-- The height of the tip. -/
def Chain.currentHeight (c : Chain) : UInt64 := (c.tip?.map (·.height)).getD 0

/-- Apply the canonical blocks at the indices from `i` on, one for each step left. -/
def applyFrom : Nat → Nat → ChainM Unit
  | 0, _ => pure ()
  | left + 1, i => do
    let block ← blockAt i
    wrapping "apply post-snapshot block %d: %w" [.num block.height.toNat] (applyBlock env block)
    applyFrom left (i + 1)

/-- Save a snapshot of the account map; a failure is logged. -/
def saveSnapshot : ChainM Unit := do
  let c ← chain
  let _ ← Prog.attempt (storeWrite env fun s => s.snapshot c.currentHeight c.state)

/-- The part of `NewChain` that sets the account map up, from a snapshot or by replay. -/
def loadState : ChainM Unit := do
  let c ← chain
  let replay : ChainM Unit := do
    wrapping "recompute state: %w" [] (recomputeStateLocked env)
    saveSnapshot env
  match c.store.loadSnapshot c.currentHeight with
  | none => replay
  | some (height, state) =>
    if state = ∅ then replay
    else do
      update fun c => { c with state := state }
      Prog.when (height < c.currentHeight) do
        applyFrom env (c.currentHeight.toNat - height.toNat) (height.toNat + 1)
        saveSnapshot env

/-- The loop of `processLoadedOrphansLocked` over the pool: whether an orphan was
connected. -/
def connectLoadedOrphan (tipHash : Bytes) (expectedHeight : UInt64) :
    List ((_ : Bytes) × Block) → ChainM Bool
  | [] => pure false
  | e :: es => do
    let c ← chain
    match c.orphan? e.1 with
    | none => connectLoadedOrphan tipHash expectedHeight es
    | some orphan =>
      if orphan.header.prevHash ≠ tipHash then connectLoadedOrphan tipHash expectedHeight es
      else if orphan.height ≠ expectedHeight then do
        update (·.removeOrphanLocked e.1)
        connectLoadedOrphan tipHash expectedHeight es
      else do
        let added ← Prog.attempt
          (addCanonicalBlockLocked env (processOrphanDescendantsLocked env) orphan)
        update (·.removeOrphanLocked e.1)
        match added with
        | .error _ => connectLoadedOrphan tipHash expectedHeight es
        | .ok _ => pure true

/-- The outer loop of `processLoadedOrphansLocked`. -/
def connectLoadedOrphans : Nat → ChainM Unit
  | 0 => pure ()
  | iterations + 1 => do
    let c ← chain
    match c.tip?, c.orphans with
    | some tip, some o =>
      if o.pool.entries = [] then pure ()
      else do
        let entries ← ranged env o.pool.entries
        let found ← connectLoadedOrphan env tip.hash (tip.height + 1) entries
        if found then connectLoadedOrphans iterations else pure ()
    | _, _ => pure ()

/-- Whether a block loaded from the store is the canonical one at its height. -/
def Chain.isCanonical (c : Chain) (hash : Bytes) (block : Block) : Bool :=
  c.blocks[block.height.toNat]?.any (·.hash == hash)

/-- `processLoadedOrphansLocked`. Orphans that cannot be connected leave the pool, which
becomes nil. -/
def processLoadedOrphansLocked : ChainM Unit := do
  let c ← chain
  if c.blocksByHash.entries.length ≤ c.blocks.length then pure ()
  else do
    let now ← timeNow env
    let entries ← ranged env c.blocksByHash.entries
    let orphans := entries.filter fun e => !c.isCanonical e.1 e.2
    update fun c => orphans.foldl (fun c e => c.putOrphan env e.1 e.2 now)
      { c with orphans := some ⟨∅, ∅, ∅⟩ }
    connectLoadedOrphans env (orphans.length * 2)
    update fun c => if c.orphanCount > 0 then { c with orphans := none } else c

/-- The chain object before anything is loaded. -/
def Chain.initial (store : BoltStore) (tick : Nat) : Chain where
  blocks := []
  blocksByHash := ∅
  state := ∅
  bestTipHash := []
  canonicalWork := 0
  totalWork := ∅
  forkBlocks := ∅
  forkBlocksByHash := ∅
  workCache := ∅
  orphans := none
  arrays := []
  pendingAncestorRequests := ∅
  lastAutoReorgTime := none
  indexes := ⟨∅, ∅⟩
  store := store
  published := []
  tick := tick

/-- `ReadCanonical` and `ReadAllBlocks`. Each decodes the blocks anew; the objects are
numbered, those of the canonical chain with even numbers. -/
def loadBlocks : ChainM Unit := do
  let c ← chain
  let blocks ← wrapping "read canonical chain: %w" [] (Prog.ofExcept c.store.readCanonical)
  let canonical := blocks.mapIdx fun i b => { b with ptr := 2 * i }
  let all := c.store.blocks.entries.mapIdx fun i e => (e.1, { e.2 with ptr := 2 * i + 1 })
  update fun c =>
    { c with
      blocks := canonical
      blocksByHash := all.foldl (fun m e => m.insert e.1 e.2) ∅ }

/-- The genesis block is made, or the stored one is checked. -/
def ensureGenesis : ChainM Unit := do
  let c ← chain
  match c.blocks with
  | [] => wrapping "initialize genesis: %w" [] (initializeGenesisLocked env)
  | genesis :: _ =>
    wrapping "validate genesis: %w" [] (Prog.ofExcept (validateGenesisBlock env genesis))

/-- `NewChain`, on the chain object before anything is loaded. -/
def newChain : ChainM Unit := do
  loadBlocks
  validateRulesHashLocked env
  ensureGenesis env
  loadState env
  initCanonicalIndexesLocked env
  update (·.writeTotalWork)
  processLoadedOrphansLocked env

/-- The start of a process on a store. -/
def start (store : BoltStore) (tick : Nat) : Outcome World GoError Fault Unit :=
  newChain env ⟨Chain.initial store tick, []⟩

end NogoChain
