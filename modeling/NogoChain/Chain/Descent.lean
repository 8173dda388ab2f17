import NogoChain.Chain.AddBlock

/-!
# The descent to waiting orphans

Each way to insert a block turns to the orphans that wait for the block at most once: after the
block has been put on the tip or among the fork blocks, and before the chain is compared with its
forks again. The heads below are the insertions up to that point, and `descendFrom` is the rest.
What is said about the state in which the descent begins is said about the end of a head.
-/

namespace NogoChain

variable (env : Env)

/-- Where the insertion of a block stands when it turns to the orphans that wait for the block. -/
inductive Standing where
  /-- it does not get there, and returns -/
  | returned (accepted : Bool)
  /-- the block is at the tip -/
  | onTip
  /-- the block is among the fork blocks -/
  | onFork

/-- `addCanonicalBlockLocked` up to its descent. -/
def canonicalHead (block : Block) : ChainM Standing := do
  appendToTip env block
  hexPrefix16 block.hash "hashHex[:16]"
  update fun c =>
    let event := Event.newBlock block.height block.hash block.header.prevHash
      block.header.difficultyBits block.transactions.length
    { c with published := event :: c.published }
  pure .onTip

/-- `addDuplicateFork` up to its descent. -/
def duplicateForkHead (block : Block) : ChainM Standing := do
  hexPrefix16 block.hash "hashHex[:16]"
  let c ← chain
  Prog.when (c.parentMissing block) (requestForkParent env block)
  let complete ← forkChainComplete block
  let heavier ← Prog.andAlso complete (shouldReorgToHeaviestLocked env)
  Prog.when heavier do
    let _ ← Prog.attempt (reorganizeToHeaviestLocked env)
  pure .onFork

/-- `addNewFork` up to its descent; a reorganisation takes its place. -/
def newForkHead (block : Block) : ChainM Standing := do
  update fun c => ((c.insertFork block).limitForksAt block.height).limitForksTotal
  logCanonicalAt block.height
  hexPrefix16 block.hash "hashHex[:16]"
  let c ← chain
  let missing := c.parentMissing block
  Prog.when missing (requestForkParent env block)
  let complete ← Prog.andAlso (!missing) (forkChainComplete block)
  let heavier ← Prog.andAlso complete (shouldReorgToHeaviestLocked env)
  if heavier then do
    wrapping "reorg failed: %w" [] (reorganizeToHeaviestLocked env)
    pure (.returned true)
  else pure .onFork

/-- `addForkBlockLocked` up to its descent. -/
def forkHead (block : Block) : ChainM Standing := do
  checkForkSeal env block
  let c ← chain
  if (c.forksAt block.height).any (·.hash == block.hash) then duplicateForkHead env block
  else newForkHead env block

/-- `addBlockReconnectLocked` up to its descent. -/
def reconnectHead (block : Block) : ChainM Standing := do
  let expectedHeight := (← chain).length64
  update fun c => if (c.blocksByHash.lookup block.hash).isSome then c else c.learn [block]
  let c ← chain
  if block.height = expectedHeight then
    if c.tip?.any (·.hash == block.header.prevHash) then canonicalHead env block
    else forkHead env block
  else if block.height < expectedHeight then forkHead env block
  else if block.height = expectedHeight + 1
      ∧ (c.blocksByHash.lookup block.header.prevHash).isSome then
    canonicalHead env block
  else forkHead env block

/-- The descent, and what comes after it. -/
def descendFrom (descend : Bytes → ChainM Unit) (block : Block) : Standing → ChainM Bool
  | .returned accepted => pure accepted
  | .onTip => do
    descend block.hash
    autoReorgIfNeededLocked env
    pure true
  | .onFork => do
    descend block.hash
    debouncedAutoReorgLocked env
    pure false

variable {env} (descend : Bytes → ChainM Unit) (b : Block)

theorem addCanonicalBlockLocked_eq :
    addCanonicalBlockLocked env descend b = canonicalHead env b >>= descendFrom env descend b := by
  unfold addCanonicalBlockLocked canonicalHead
  simp only [Prog.bind_assoc]
  rfl

theorem addDuplicateFork_eq :
    addDuplicateFork env descend b = duplicateForkHead env b >>= descendFrom env descend b := by
  unfold addDuplicateFork duplicateForkHead
  simp only [Prog.bind_assoc]
  rfl

theorem addNewFork_eq :
    addNewFork env descend b = newForkHead env b >>= descendFrom env descend b := by
  unfold addNewFork newForkHead
  simp only [Prog.bind_assoc, Prog.ite_bind]
  rfl

theorem addForkBlockLocked_eq :
    addForkBlockLocked env descend b = forkHead env b >>= descendFrom env descend b := by
  unfold addForkBlockLocked forkHead
  simp only [Prog.bind_assoc, Prog.ite_bind, addDuplicateFork_eq, addNewFork_eq]

theorem addBlockReconnectLocked_eq :
    addBlockReconnectLocked env descend b = reconnectHead env b >>= descendFrom env descend b := by
  unfold addBlockReconnectLocked reconnectHead
  simp only [Prog.bind_assoc, Prog.ite_bind, addCanonicalBlockLocked_eq, addForkBlockLocked_eq]

end NogoChain
