import NogoChain.Chain.State
import NogoChain.Lib.Walk

/-!
# Fork choice

Which tip is best, whether a fork chain is complete, and where a fork left the canonical
chain. All of it follows parent links through `forkBlocksByHash` and `blocksByHash`, and
the three walks look their parents up in different orders.

The walks for the cumulative work and for the common ancestor have no bound in the source.
Here each is bounded by the number of blocks it can visit, and a walk that uses the bound
up is a `hang`.
-/

namespace NogoChain

variable (env : Env)

def workForDifficultyBits (bits : UInt32) : Nat := bits.toNat

def calculateChainWorkLocked (blocks : List Block) : Nat :=
  (blocks.map fun b => workForDifficultyBits b.header.difficultyBits).sum

/-- A walk that the source does not bound. -/
def unboundedWalk {β : Type} (step : Block → WalkStep Block β) (bound : Nat) (start : Block) :
    ChainM (List Block × β) :=
  match walk step bound start with
  | some r => pure r
  | none => Prog.crash .hang

namespace Chain

/-- The number of blocks a walk can visit: the first one, and those the maps and the
canonical chain hold. -/
def walkBound (c : Chain) : Nat :=
  c.forkBlocksByHash.entries.length + c.blocksByHash.entries.length + c.blocks.length + 1

/-! ## Completeness of a fork chain -/

/-- The loop of `isForkChainCompleteLocked`, with the number of steps left and the hashes
seen; `none` is the panic in the log line about a cycle. -/
def isForkChainCompleteLoop (c : Chain) : Nat → List Bytes → Block → Option Bool
  | 0, _, _ => some true
  | steps + 1, visited, current =>
    if current.hash ∈ visited then
      if current.hash.length < 8 then none else some false
    else if current.height = 0 then some true
    else if c.isParentOnActiveChainLocked current.header.prevHash then some true
    else
      match c.forkBlocksByHash.lookup current.header.prevHash with
      | some parent => isForkChainCompleteLoop c steps (current.hash :: visited) parent
      | none => some false

def isForkChainCompleteLocked (c : Chain) (tip : Block) : Option Bool :=
  c.isForkChainCompleteLoop 10000 [] tip

/-! ## Cumulative work -/

/-- One step of the loop of `calculateCumulativeWorkLocked`. It ends with the work that the
cache has for the current block, or with `none` at a block without a parent to go to. -/
def workStep (c : Chain) (current : Block) : WalkStep Block (Option Nat) :=
  match c.workCache.lookup current.hash with
  | some cached => .done (some cached)
  | none =>
    if current.header.prevHash = [] ∨ current.height = 0 then .done none
    else
      match c.forkBlocksByHash.lookup current.header.prevHash with
      | some parent => .next parent
      | none =>
        let missing := match c.blocks[(current.height - 1).toNat]? with
          | some block => .next block
          | none => .done none
        match c.blocksByHash.lookup current.header.prevHash with
        | some parent => if parent.height < c.length64 then .next parent else missing
        | none => missing

/-- The loops that add the work of the path up, from its far end, and enter the sums in the
cache. -/
def accumulateWork (path : List Block) (accumulated : Nat) (cache : GoMap Bytes Nat) :
    Nat × GoMap Bytes Nat :=
  path.foldr (fun b r =>
    let sum := r.1 + workForDifficultyBits b.header.difficultyBits
    (sum, r.2.insert b.hash sum)) (accumulated, cache)

/-! ## The common ancestor -/

/-- The height at which the fork is taken to have left the canonical chain, when the parent
of `current` was not found on the canonical chain: that of the parent, if the canonical
block there is another one. -/
def divergenceAt (c : Chain) (current : Block) : Option Nat :=
  match goInt (current.height - 1) with
  | .ofNat parentHeight =>
    match c.blocks[parentHeight]? with
    | some canonical =>
      if canonical.hash ≠ current.header.prevHash then some parentHeight else none
    | none => none
  | .negSucc _ => none

/-- One step of the loop of `findCommonAncestorLocked`. It ends with the divergence height,
or, for an index out of range, with a panic. -/
def ancestorStep (c : Chain) (current : Block) : WalkStep Block (Except Fault (Option Nat)) :=
  if current.header.prevHash = [] then .done (.ok none)
  else
    match c.forkBlocksByHash.lookup current.header.prevHash with
    | some parent => .next parent
    | none =>
      match c.blocksByHash.lookup current.header.prevHash with
      | none => .done (.ok (c.divergenceAt current))
      | some parent =>
        match goInt (current.height - 1) with
        | .negSucc _ => .done (.error (.panic "c.blocks[parentHeight]"))
        | .ofNat parentHeight =>
          match c.blocks[parentHeight]? with
          | none => .done (.ok (c.divergenceAt current))
          | some canonical =>
            if canonical.hash = current.header.prevHash then .next parent
            else .done (.ok (c.divergenceAt current))

/-- The hash that is added to the ancestry when the fork is taken to have left the canonical
chain at `divergence`: that of the canonical block below. -/
def guessedAncestor (c : Chain) (divergence : Option Nat) : List Bytes :=
  match divergence with
  | some (h + 1) => (c.blocks[h]?.map (·.hash)).toList
  | _ => []

/-! ## Comparing tips -/

/-- `calculateTotalFeesLocked`: the fees of all transactions. A sum that would overflow
becomes the largest value, and stays there. -/
def calculateTotalFeesLocked (block : Block) : UInt64 :=
  block.transactions.foldl
    (fun total tx => if tx.fee > maxUint64 - total then maxUint64 else total + tx.fee) 0

/-- The comparison of the hashes, byte by byte over the common length: whether the new hash
is lower, if they differ. -/
def lowerHash : Bytes → Bytes → Option Bool
  | x :: xs, y :: ys => if x < y then some true else if y < x then some false else lowerHash xs ys
  | _, _ => none

def shouldSwitchBasedOnTieBreakerLocked (newBlock currentTip : Block) : Bool :=
  match lowerHash newBlock.hash currentTip.hash with
  | some lower => lower
  | none => calculateTotalFeesLocked newBlock > calculateTotalFeesLocked currentTip

end Chain

/-! ## Programs -/

def maxWorkCacheSize : Nat := 100000

/-- `enforceWorkCacheSize`: a tenth of the limit is evicted, in the order of the map. -/
def enforceWorkCacheSize : ChainM Unit := do
  let c ← chain
  if c.workCache.entries.length ≤ maxWorkCacheSize then pure ()
  else
    let keys ← ranged env c.workCache.keys
    update fun c =>
      { c with workCache :=
          (keys.take (maxWorkCacheSize / 10)).foldl (fun m k => m.erase k) c.workCache }

def calculateCumulativeWorkLocked (block : Block) : ChainM Nat := do
  let c ← chain
  match c.workCache.lookup block.hash with
  | some cached => pure cached
  | none =>
    let (visited, cached) ← unboundedWalk c.workStep c.walkBound block
    -- a block whose work the cache has is not part of the path
    let path := if cached.isSome then visited.dropLast else visited
    let (work, cache) := Chain.accumulateWork path (cached.getD 0) c.workCache
    update fun c => { c with workCache := cache }
    enforceWorkCacheSize env
    pure work

/-- The common ancestor of the canonical chain and the branch of a block, if there is one:
the highest canonical block whose hash the walk has met, or has been led to guess. -/
def findCommonAncestor? (newBlock : Block) : ChainM (Option Block) := do
  let c ← chain
  let (visited, divergence) ← unboundedWalk c.ancestorStep c.walkBound newBlock
  match divergence with
  | .error fault => Prog.crash fault
  | .ok divergence =>
    let parentMap := visited.map (·.hash) ++ c.guessedAncestor divergence
    pure (c.blocks.reverse.find? fun b => b.hash ∈ parentMap)

def findCommonAncestorLocked (newBlock : Block) : ChainM Block := do
  match ← findCommonAncestor? newBlock with
  | some ancestor => pure ancestor
  | none => Prog.throw (.new "no common ancestor found")

def maxReorgDepth : UInt64 := 100

/-- A candidate for the best tip: the block, its height and its cumulative work. -/
structure Candidate where
  tip : Block
  /-- its height; for the canonical tip the number of blocks below it -/
  height : UInt64
  work : Nat

/-- Whether a fork tip beats the best candidate so far: more work, then greater height, then
the tie-breaker. -/
def Candidate.isBetter (new best : Candidate) : Bool :=
  new.work > best.work ∨ (new.work = best.work ∧ (new.height > best.height
    ∨ (new.height = best.height ∧ Chain.shouldSwitchBasedOnTieBreakerLocked new.tip best.tip)))

/-- `isForkChainCompleteLocked` as a program. -/
def forkChainComplete (block : Block) : ChainM Bool := do
  let c ← chain
  match c.isForkChainCompleteLocked block with
  | some complete => pure complete
  | none => Prog.crash (.panic "hashHex[:16]")

/-- The body of the loop of `findBestChainTipLocked` over the fork blocks. -/
def considerForkBlock (currentCanonicalHeight : UInt64) (forkParentSet : List Bytes)
    (best : Candidate) (block : Block) : ChainM Candidate := do
  if currentCanonicalHeight > maxReorgDepth
      ∧ block.height < currentCanonicalHeight - maxReorgDepth then pure best
  else if block.hash ∈ forkParentSet then pure best
  else
    let complete ← forkChainComplete block
    if !complete then pure best
    else
      let forkWork ← calculateCumulativeWorkLocked env block
      let new : Candidate := ⟨block, block.height, forkWork⟩
      pure (if new.isBetter best then new else best)

/-- The loop over the fork blocks. -/
def considerForkBlocks (currentCanonicalHeight : UInt64) (forkParentSet : List Bytes) :
    Candidate → List Block → ChainM Candidate
  | best, [] => pure best
  | best, block :: rest => do
    let best ← considerForkBlock env currentCanonicalHeight forkParentSet best block
    considerForkBlocks currentCanonicalHeight forkParentSet best rest

/-- `findBestChainTipLocked`; there is none on an empty chain. -/
def findBestChainTipLocked : ChainM (Option Block) := do
  let c ← chain
  match c.tip? with
  | none => pure none
  | some tip =>
    let entries ← ranged env c.forkBlocks.entries
    let forkParentSet := (c.forkBlocks.entries.flatMap (·.2)).map (·.header.prevHash)
    let height := UInt64.ofNat (c.blocks.length - 1)
    let best ← considerForkBlocks env height forkParentSet ⟨tip, height, c.canonicalWork⟩
      (entries.flatMap (·.2))
    pure (some best.tip)

end NogoChain
