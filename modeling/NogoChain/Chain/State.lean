import NogoChain.Core.Seal
import NogoChain.Lib.GoSlice
import NogoChain.Storage.BoltStore

/-!
# The chain state

The fields of `Chain` that block insertion, reorganisation and rollback read and write,
the store included, and the programs they are written in.

What the Go run time decides is in `Env`: the readings of the clock, which store writes the
database refuses, the order in which a map is ranged over, and the capacity of new arrays.
Each is a function of a counter, `Chain.tick`, that moves on whenever it is asked, so that
every statement about all environments is one about all behaviours of the run time.

The result of a call is a return, an error, or a `Fault`: a panic, or a walk along parent
links that never ends.

Three operations change the canonical chain: the extension of the tip by one block, the
reorganisation onto another branch, and the rollback to a height. `World` pairs the chain with a
record of these steps, each with the chain before it. The record is history: nothing reads it.
-/

namespace NogoChain

/-! ## The environment -/

/-- `GenesisConfig`, with the fields the genesis block is made of. -/
structure GenesisConfig where
  /-- Unix time of the genesis block -/
  timestamp : Int64
  /-- miner of the genesis block, who also receives the genesis share of later rewards -/
  genesisMinerAddress : Bytes
  /-- amount of the genesis coinbase -/
  initialSupply : UInt64
  /-- text of the genesis coinbase, the default text filled in -/
  genesisMessage : Bytes

/-- The configuration of a node, and what the run time decides. -/
structure Env where
  cr : Crypto
  chainId : UInt64
  consensus : ConsensusParams
  monetaryPolicy : MonetaryPolicy
  genesis : GenesisConfig
  rulesHash : Bytes
  /-- whether the proof-of-work engine is in fake mode -/
  powFake : Bool
  /-- reading of the clock, in nanoseconds -/
  now : Nat → Int
  /-- whether the database carries a write out -/
  storeOk : Nat → Bool
  /-- order in which a map is ranged over -/
  order : {α : Type} → Nat → List α → List α
  /-- ranging over a map visits each entry once -/
  order_perm : ∀ {α : Type} (n : Nat) (l : List α), (order n l).Perm l
  /-- capacity of a new array for so many elements -/
  grow : Nat → Nat
  grow_le : ∀ n, n ≤ grow n
  /-- capacity of the `Hash` slice of a block object -/
  hashCap : Nat → Nat
  /-- capacity of the `Header.PrevHash` slice of a block object -/
  prevHashCap : Nat → Nat

/-- The address that receives the genesis share. -/
def Env.genesisAddress (env : Env) : Bytes := env.genesis.genesisMinerAddress

/-- How a call can end without returning. -/
inductive Fault where
  /-- a run-time panic -/
  | panic (expr : String)
  /-- a loop along parent links that comes back to where it was -/
  | hang
  /-- the recursion bound of the model is used up -/
  | outOfFuel
deriving DecidableEq

/-! ## The chain -/

structure TxLocation where
  height : UInt64
  blockHash : Bytes
  /-- position in the block -/
  index : Nat
deriving DecidableEq

/-- `AddressTxEntry`; a field that is not set has its zero value, which for the type is the
empty text (`none`). -/
structure AddressTxEntry where
  txId : Bytes
  location : TxLocation
  fromAddr : Bytes
  toAddress : Bytes
  amount : UInt64
  fee : UInt64 := 0
  nonce : UInt64 := 0
  type : Option TransactionType := none
deriving DecidableEq

/-- The indexes of the canonical chain. -/
structure Indexes where
  /-- identifier to location -/
  txIndex : GoMap Bytes TxLocation
  /-- address to history -/
  addressIndex : GoMap Bytes (List AddressTxEntry)

/-- The orphan pool. The three maps are made and dropped together; the children of a parent
are a slice, on the arrays of `Chain.arrays`. -/
structure Orphans where
  /-- hash to block -/
  pool : GoMap Bytes Block
  /-- parent hash to hashes of orphans -/
  byParent : GoMap Bytes Slice
  /-- hash to time of insertion -/
  timestamps : GoMap Bytes Int

/-- The events that are published. -/
inductive Event where
  /-- a block joined the canonical chain at the tip -/
  | newBlock (height : UInt64) (hash prevHash : Bytes) (difficultyBits : UInt32) (txCount : Nat)
  /-- the chain was reorganised; blocks are listed with hash and height -/
  | chainReorg (reverted newBlocks : List (Bytes × UInt64)) (newTipHash : Bytes)
      (newTipHeight ancestorHeight : UInt64)
deriving DecidableEq

/-- `Chain`, with its store. -/
structure Chain where
  blocks : List Block
  /-- every known block -/
  blocksByHash : GoMap Bytes Block
  state : Ledger
  bestTipHash : Bytes
  canonicalWork : Nat
  /-- texts written to `TotalWork`, by block object -/
  totalWork : GoMap Nat Bytes
  forkBlocks : GoMap UInt64 (List Block)
  forkBlocksByHash : GoMap Bytes Block
  workCache : GoMap Bytes Nat
  /-- orphan pool; nil maps are `none` -/
  orphans : Option Orphans
  /-- backing arrays of the slices in the orphan pool -/
  arrays : Slice.Heap Bytes
  /-- parents asked for, with the time -/
  pendingAncestorRequests : GoMap Bytes Int
  /-- time of the last automatic reorganisation; the zero time is `none` -/
  lastAutoReorgTime : Option Int
  indexes : Indexes
  store : BoltStore
  /-- events published, the latest first -/
  published : List Event
  /-- number of times the run time was asked -/
  tick : Nat

/-- A step that changes the canonical chain, with the chain before it. -/
inductive CoreStep where
  /-- the tip is extended by a block -/
  | extend (before : Chain) (block : Block)
  /-- the blocks above an ancestor are replaced -/
  | reorganize (before : Chain) (ancestor : Block) (newBlocks : List Block)
  /-- the blocks above a height are removed -/
  | rollback (before : Chain) (height : UInt64)

/-- The chain and the steps made so far, the latest first. -/
structure World where
  chain : Chain
  steps : List CoreStep

/-! ## Programs on the chain -/

/-- Programs on the chain. -/
abbrev ChainM := Prog World GoError Fault

/-- Read the chain. -/
def chain : ChainM Chain := do
  let w ← Prog.get
  pure w.chain

/-- Update the chain. -/
def update (f : Chain → Chain) : ChainM Unit :=
  Prog.modify fun w => { w with chain := f w.chain }

/-- Record a step. -/
def record (step : Chain → CoreStep) : ChainM Unit :=
  Prog.modify fun w => { w with steps := step w.chain :: w.steps }

/-- Ask the run time for something. -/
def ask {α : Type} (answer : Nat → α) : ChainM α := do
  let c ← chain
  update fun c => { c with tick := c.tick + 1 }
  pure (answer c.tick)

variable (env : Env)

/-- `time.Now()`. -/
def timeNow : ChainM Int := ask env.now

/-- The entries of a map in the order they are ranged over. -/
def ranged {α : Type} (entries : List α) : ChainM (List α) :=
  ask fun n => env.order n entries

/-- A store write: refused by the database, or carried out. -/
def storeWrite (write : BoltStore → Except GoError BoltStore) : ChainM Unit := do
  let ok ← ask env.storeOk
  let c ← chain
  if ok then
    match write c.store with
    | .error e => Prog.throw e
    | .ok store => update fun c => { c with store := store }
  else Prog.throw (.new "database write failed")

/-- `hashHex[:16]` for the text of a hash, which has two digits for each byte. -/
def hexPrefix16 (hash : Bytes) (expr : String) : ChainM Unit :=
  if hash.length < 8 then Prog.crash (.panic expr) else pure ()

/-- `s[:8]` for a byte slice: in range if the capacity suffices. -/
def bytePrefix8 (s : Bytes) (cap : Nat) (expr : String) : ChainM Unit :=
  if s.length < 8 ∧ cap < 8 then Prog.crash (.panic expr) else pure ()

/-- `c.blocks[i]` for an index of type `int`. -/
def blockAt (i : Int) : ChainM Block := do
  let c ← chain
  match i with
  | .ofNat n =>
    match c.blocks[n]? with
    | some b => pure b
    | none => Prog.crash (.panic "c.blocks[i]")
  | .negSucc _ => Prog.crash (.panic "c.blocks[i]")

/-- `int(x)` for an unsigned 64-bit value. -/
def goInt (x : UInt64) : Int := x.toInt64.toInt

namespace Chain

/-- `uint64(len(c.blocks))`. -/
def length64 (c : Chain) : UInt64 := UInt64.ofNat c.blocks.length

/-- A block with the text its `TotalWork` field has now. -/
def view (c : Chain) (b : Block) : Block :=
  match c.totalWork.lookup b.ptr with
  | none => b
  | some text => { b with totalWork := text }

/-- `canonicalTipLocked`. -/
def tip? (c : Chain) : Option Block := c.blocks.getLast?

/-- Whether a hash is that of the canonical block at the height of the known block with
that hash: the test that is written out in `isParentOnActiveChainLocked`,
`isParentInForkBlocksLocked` and `isForkChainCompleteLocked`. -/
def isParentOnActiveChainLocked (c : Chain) (parentHash : Bytes) : Bool :=
  match c.blocksByHash.lookup parentHash with
  | none => false
  | some parent =>
    match c.blocks[parent.height.toNat]? with
    | none => false
    | some canonical => canonical.hash == parentHash

def isParentInForkBlocksLocked (c : Chain) (parentHash : Bytes) : Bool :=
  !c.isParentOnActiveChainLocked parentHash && (c.forkBlocksByHash.lookup parentHash).isSome

end Chain

/-- The seal check with its panic: the target of difficulty 0 is a division by zero. -/
def sealVerdict (block parent : Block) : Except Fault (Except GoError Unit) :=
  match sealToCheck env.cr env.powFake block (some parent) with
  | .ok (some _) =>
    if block.header.difficultyBits = 0 then .error (.panic "division by zero")
    else .ok (verifyBlockPoWSeal env.cr env.powFake block (some parent))
  | _ => .ok (verifyBlockPoWSeal env.cr env.powFake block (some parent))

/-- The seal check as a program. -/
def checkSeal (block parent : Block) : ChainM Unit :=
  match sealVerdict env block parent with
  | .error fault => Prog.crash fault
  | .ok verdict => Prog.ofExcept verdict

/-- `applyBlockToState` on the account map of the chain. -/
def applyBlock (block : Block) : ChainM Unit := do
  let c ← chain
  Prog.zoom (fun w : World => w.chain.state)
    (fun state w => { w with chain := { w.chain with state := state } })
    (applyBlockToState env.cr env.consensus env.monetaryPolicy (c.view block) env.genesisAddress)

end NogoChain
