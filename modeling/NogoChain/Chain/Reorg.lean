import NogoChain.Chain.ForkChoice
import NogoChain.Chain.Indexes
import NogoChain.Chain.Orphans

/-!
# Reorganisation

`reorganizeChainLocked` collects the blocks from the new tip down to the height of the
ancestor, cuts the canonical chain above the ancestor, appends the collected blocks, and
replays the state from the first block. The chain is switched before the replay, so that a
replay that fails leaves the new chain with the state of its first blocks.

When the ancestor is the current tip, the collected blocks are appended without looking at
their seals.
-/

namespace NogoChain

variable (env : Env)

namespace Chain

/-- The parent as reorganisation and fork storage look it up: among all known blocks, then
among the fork blocks one height below. -/
def knownParent? (c : Chain) (block : Block) : Option Block :=
  match c.blocksByHash.lookup block.header.prevHash with
  | some parent => some parent
  | none =>
    ((c.forkBlocks.lookup (block.height - 1)).getD []).find? (·.hash == block.header.prevHash)

/-- The number of blocks a walk along `knownParent?` can visit. -/
def branchBound (c : Chain) : Nat :=
  c.blocksByHash.entries.length + (c.forkBlocks.entries.flatMap (·.2)).length + 1

end Chain

/-- How the collection of a branch ends. -/
inductive BranchEnd where
  /-- at a block no higher than the ancestor -/
  | reached
  /-- at a block whose parent is unknown -/
  | missing
  /-- at a block whose seal is refused -/
  | badSeal (e : GoError)
  /-- at a block whose seal check panics -/
  | faulted (f : Fault)

/-- What the seal check says about a block and its parent, if it ends the collection. -/
def refuseSeal (block parent : Block) : Option BranchEnd :=
  match sealVerdict env block parent with
  | .error f => some (.faulted f)
  | .ok (.error e) => some (.badSeal e)
  | .ok (.ok ()) => none

/-- One step of the collection: `refuse` is asked about each block and its parent. -/
def branchStep (refuse : Block → Block → Option BranchEnd) (c : Chain) (ancestorHeight : UInt64)
    (current : Block) : WalkStep Block BranchEnd :=
  if current.height > ancestorHeight then
    match c.knownParent? current with
    | none => .done .missing
    | some parent =>
      match refuse current parent with
      | some e => .done e
      | none => .next parent
  else .done .reached

def recomputeStateLocked : ChainM Unit := do
  update fun c => { c with state := ∅ }
  let c ← chain
  Prog.forEach c.blocks fun block => do
    match ← Prog.attempt (applyBlock env block) with
    | .ok () => pure ()
    | .error e => Prog.throw (.wrap "apply block %d: %w" [.num block.height.toNat] e)

namespace Chain

/-- The loop that adds the work of the canonical blocks up and writes each sum to the
`TotalWork` of its block. -/
def writeTotalWork (c : Chain) : Chain :=
  let r := c.blocks.foldl (fun (r : Nat × GoMap Nat Bytes) b =>
    let sum := r.1 + workForDifficultyBits b.header.difficultyBits
    (sum, r.2.insert b.ptr (Json.decimal sum))) (0, c.totalWork)
  { c with canonicalWork := r.1, totalWork := r.2 }

/-- Enter blocks in `blocksByHash`. -/
def learn (c : Chain) (blocks : List Block) : Chain :=
  { c with blocksByHash := blocks.foldl (fun m b => m.insert b.hash b) c.blocksByHash }

/-- Remove blocks from both hash maps. -/
def forget (c : Chain) (blocks : List Block) : Chain :=
  { c with
    forkBlocksByHash := blocks.foldl (fun m b => m.erase b.hash) c.forkBlocksByHash
    blocksByHash := blocks.foldl (fun m b => m.erase b.hash) c.blocksByHash }

/-- The removal of the fork blocks above a height. -/
def dropForksAbove (c : Chain) (height : UInt64) : Chain :=
  let above := c.forkBlocks.entries.filter fun e => e.1 > height
  let c' := c.forget (above.flatMap (·.2))
  { c' with forkBlocks := above.foldl (fun m e => m.erase e.1) c.forkBlocks }

/-- The index updates for blocks appended one after another to a chain of `n` blocks. -/
def indexAppended (c : Chain) (n : Nat) (blocks : List Block) : Chain :=
  { c with indexes :=
      (blocks.foldl (fun (r : Nat × Indexes) b =>
        (r.1 + 1, r.2.updateIndexesForBlock env b (UInt64.ofNat r.1))) (n, c.indexes)).2 }

end Chain

/-- `RewriteCanonical` of the canonical chain, its blocks with their current
`TotalWork`. -/
def rewriteCanonical : ChainM Unit := do
  let c ← chain
  storeWrite env fun store => store.rewriteCanonical (c.blocks.map c.view)

/-- Run a program and wrap its error. -/
def wrapping {α : Type} (format : String) (args : List FmtArg) (m : ChainM α) : ChainM α := do
  match ← Prog.attempt m with
  | .ok a => pure a
  | .error e => Prog.throw (.wrap format args e)

/-- The extension of the chain by a collected branch, for an ancestor that is the current
tip. -/
def appendBranch (ancestor newTip : Block) (newBlocks : List Block) : ChainM Unit := do
  record fun c => .reorganize c ancestor newBlocks
  update fun c =>
    ({ c with blocks := c.blocks ++ newBlocks, workCache := ∅ }.learn newBlocks).indexAppended
      env c.blocks.length newBlocks
  wrapping "recompute state after chain extension: %w" [] (recomputeStateLocked env)
  update fun c => { c with bestTipHash := newTip.hash }.writeTotalWork
  wrapping "rewrite canonical after extension: %w" [] (rewriteCanonical env)

/-- The part of `reorganizeChainLocked` for an ancestor that is the current tip. -/
def extendFromTip (ancestor newTip : Block) : ChainM Unit := do
  let c ← chain
  let (visited, stop) ←
    unboundedWalk (branchStep (fun _ _ => none) c ancestor.height) c.branchBound newTip
  match stop with
  | .reached => appendBranch env ancestor newTip visited.dropLast.reverse
  | _ => Prog.throw (.new "parent block not found during chain extension")

/-- The reorganisation proper, once the branch is collected: `newBlocks` replaces what
stands above the ancestor. The list of new blocks in the event starts at its second
element and ends with the ancestor. -/
def switchBranch (ancestor newTip : Block) (newBlocks : List Block) : ChainM Unit := do
  match goInt ancestor.height + 1 with
  | .negSucc _ => Prog.crash (.panic "c.blocks[removeStart:]")
  | .ofNat removeStart =>
    let old ← chain
    record fun c => .reorganize c ancestor newBlocks
    update fun c => { c with blocks := c.blocks.take removeStart ++ newBlocks }.learn newBlocks
    wrapping "recompute state after reorg: %w" [] (recomputeStateLocked env)
    update fun c =>
      { c with
        indexes := Indexes.reindexAll env c.blocks
        bestTipHash := newTip.hash
        workCache := ∅ }.writeTotalWork
    wrapping "rewrite canonical: %w" [] (rewriteCanonical env)
    let c ← chain
    match c.tip? with
    | none => Prog.crash (.panic "c.blocks[len(c.blocks)-1]")
    | some tip =>
      update (·.dropForksAbove tip.height)
      cleanOrphanPoolAboveHeight env tip.height
      let reverted := (old.blocks.drop removeStart).map fun b => (b.hash, b.height)
      let listed := (newBlocks ++ [ancestor]).tail.map fun b => (b.hash, b.height)
      update fun c =>
        let event := Event.chainReorg reverted listed c.bestTipHash tip.height ancestor.height
        { c with published := event :: c.published }

/-- The end of the collection at a block whose parent is unknown. A parent that would stand
at the height of the tip is asked for. -/
def missingParent (current : Block) : ChainM Unit := do
  let c ← chain
  if current.height - 1 = UInt64.ofNat (c.blocks.length - 1) then do
    let _ ← requestParent env current.header.prevHash
    hexPrefix16 current.header.prevHash "parentHashHex[:16]"
    Prog.throw (.errorf
      "deferred reorg: waiting for fork parent at canonical tip height %d (hash=%s)"
      [.num (current.height - 1).toNat,
        .str ((Hex.encodeToString current.header.prevHash).take 16)])
  else Prog.throw (.new "orphan block")

/-- The part of `reorganizeChainLocked` for an ancestor below the tip. -/
def adoptBranch (ancestor newTip : Block) : ChainM Unit := do
  let c ← chain
  let (visited, stop) ←
    unboundedWalk (branchStep (refuseSeal env) c ancestor.height) c.branchBound newTip
  let current := visited.getLastD newTip
  match stop with
  | .reached => switchBranch env ancestor newTip visited.dropLast.reverse
  | .missing => missingParent env current
  | .faulted f => Prog.crash f
  | .badSeal e => do
    hexPrefix16 current.hash "hex.EncodeToString(current.Hash)[:16]"
    Prog.throw (.wrap "fork block height %d hash=%s PoW verification failed: %w"
      [.num current.height.toNat, .str ((Hex.encodeToString current.hash).take 16)] e)

def reorganizeChainLocked (ancestor newTip : Block) : ChainM Unit := do
  let c ← chain
  match c.tip? with
  | none => Prog.throw (.errorf "cannot reorganize empty chain" [])
  | some tip =>
    let maxHeight : Int := c.blocks.length - 1
    if goInt ancestor.height > maxHeight then
      Prog.throw (.errorf "ancestor height %d exceeds maximum valid height %d"
        [.num ancestor.height.toNat, .num maxHeight])
    else if goInt ancestor.height = maxHeight ∧ ancestor.hash = tip.hash then
      extendFromTip env ancestor newTip
    else adoptBranch env ancestor newTip

def reorganizeToKnownFork (ancestor newTip : Block) : ChainM Unit :=
  reorganizeChainLocked env ancestor newTip

def reorganizeToLocked (newBlock : Block) : ChainM Unit := do
  let ancestor ← wrapping "find common ancestor: %w" [] (findCommonAncestorLocked newBlock)
  reorganizeChainLocked env ancestor newBlock

/-- The best tip, unless it is the current one. -/
def betterTip : ChainM (Option Block) := do
  match ← findBestChainTipLocked env with
  | none => pure none
  | some best =>
    let c ← chain
    pure (if c.tip?.any (·.hash == best.hash) then none else some best)

def shouldReorgToHeaviestLocked : ChainM Bool := do
  let c ← chain
  if c.forkBlocks.entries = [] then pure false
  else return (← betterTip env).isSome

/-- `reorganizeToHeaviestLocked`. The cumulative work is computed for the log. -/
def reorganizeToHeaviestLocked : ChainM Unit := do
  let c ← chain
  if c.forkBlocks.entries = [] then pure ()
  else
    match ← betterTip env with
    | none => pure ()
    | some best => do
      let _ ← calculateCumulativeWorkLocked env best
      reorganizeToLocked env best

/-- `autoReorgIfNeededLocked`: errors are logged. -/
def autoReorgIfNeededLocked : ChainM Unit := do
  match ← betterTip env with
  | none => pure ()
  | some best => do
    hexPrefix16 best.hash "bestTipHash[:16]"
    let _ ← calculateCumulativeWorkLocked env best
    let c ← chain
    hexPrefix16 ((c.tip?.map (·.hash)).getD []) "currentTipHash[:16]"
    match ← Prog.attempt (findCommonAncestorLocked best) with
    | .error _ => pure ()
    | .ok ancestor => do
      let _ ← Prog.attempt (reorganizeChainLocked env ancestor best)

/-- `MinAutoReorgInterval`, in nanoseconds. -/
def minAutoReorgInterval : Int := 200000000

def debouncedAutoReorgLocked : ChainM Unit := do
  let c ← chain
  let now ← timeNow env
  if c.lastAutoReorgTime.any fun last => now - last < minAutoReorgInterval then pure ()
  else do
    let now ← timeNow env
    update fun c => { c with lastAutoReorgTime := some now }
    autoReorgIfNeededLocked env

end NogoChain
