import NogoChain.Chain.State

/-!
# The orphan pool

Blocks whose parent is not known yet, indexed by that parent. The children of a parent are
a slice, and removing one of them moves the others in the shared array – a loop that is
ranging over the slice at that time sees the moved elements.
-/

namespace NogoChain

variable (env : Env)

def maxOrphanPoolSize : Nat := 2048

/-- `MaxOrphanPoolAge`, in nanoseconds. -/
def maxOrphanPoolAge : Int := 600000000000

/-- The window in which a parent is not asked for again, in nanoseconds. -/
def parentRequestDedupWindow : Int := 30000000000

namespace Chain

/-- The block the pool has under a hash; a nil pool has none. -/
def orphan? (c : Chain) (hash : Bytes) : Option Block :=
  c.orphans.bind fun o => o.pool.lookup hash

/-- The slice of the children of a parent. -/
def orphanChildren? (c : Chain) (parentHash : Bytes) : Option Slice :=
  c.orphans.bind fun o => o.byParent.lookup parentHash

/-- `removeOrphanIndexLocked`: the first occurrence goes, and a list that becomes empty goes
with it. -/
def removeOrphanIndexLocked (c : Chain) (orphanHash parentHash : Bytes) : Chain :=
  match c.orphans with
  | none => c
  | some o =>
    match o.byParent.lookup parentHash with
    | none => c
    | some children =>
      match (children.toList c.arrays).findIdx? (· == orphanHash) with
      | none => c
      | some i =>
        let removed := children.removeAt c.arrays i
        let byParent := if removed.2.len = 0 then o.byParent.erase parentHash
          else o.byParent.insert parentHash removed.2
        { c with arrays := removed.1, orphans := some { o with byParent := byParent } }

def removeOrphanLocked (c : Chain) (hash : Bytes) : Chain :=
  match c.orphans with
  | none => c
  | some o =>
    match o.pool.lookup hash with
    | none => c
    | some block =>
      let o := { o with pool := o.pool.erase hash, timestamps := o.timestamps.erase hash }
      { c with orphans := some o }.removeOrphanIndexLocked hash block.header.prevHash

/-- Put a block into the pool under a hash, with a time, and append it to the children of
its parent. The maps are there. -/
def putOrphan (c : Chain) (hash : Bytes) (block : Block) (time : Int) : Chain :=
  match c.orphans with
  | none => c
  | some o =>
    let parentHash := block.header.prevHash
    let appended := Slice.append env.grow c.arrays (o.byParent.lookup parentHash) hash
    { c with
      arrays := appended.1
      orphans := some
        { pool := o.pool.insert hash block
          timestamps := o.timestamps.insert hash time
          byParent := o.byParent.insert parentHash appended.2 } }

/-- Make the three maps if the pool is nil. -/
def makeOrphanPool (c : Chain) : Chain :=
  match c.orphans with
  | some _ => c
  | none => { c with orphans := some ⟨∅, ∅, ∅⟩ }

/-- The oldest entry by time among those ranged over; the first of several. -/
def oldestOrphan : List ((_ : Bytes) × Int) → Option ((_ : Bytes) × Int)
  | [] => none
  | e :: es => some (es.foldl (fun oldest e => if e.2 < oldest.2 then e else oldest) e)

/-- `isParentInCanonicalOrForkLocked`: the known parent is the very object that stands in
the canonical chain or among the fork blocks of its height. -/
def isParentInCanonicalOrForkLocked (c : Chain) (parentHash : Bytes) : Bool :=
  match c.blocksByHash.lookup parentHash with
  | none => false
  | some parent =>
    (c.blocks[parent.height.toNat]?.any (·.ptr == parent.ptr))
      || ((c.forkBlocks.lookup parent.height).any fun blocks => blocks.any (·.ptr == parent.ptr))

/-- `couldBePartOfValidChainLocked`: the parent is known, or a sibling in the pool has a
height from the current one to two below the orphan's. -/
def couldBePartOfValidChainLocked (c : Chain) (orphan : Block) (currentHeight : UInt64) : Bool :=
  (c.blocksByHash.lookup orphan.header.prevHash).isSome
    || (currentHeight + 1 < orphan.height
        && (c.orphanChildren? orphan.header.prevHash).any fun children =>
          (children.toList c.arrays).any fun h =>
            (c.orphan? h).any fun p => currentHeight ≤ p.height ∧ p.height < orphan.height - 1)

/-- Whether the clean-up after a change of the chain to `height` retains an orphan. -/
def retainsOrphan (c : Chain) (height : UInt64) (orphan : Block) : Bool :=
  orphan.height ≤ height
    || (orphan.height == height + 1 && c.isParentInCanonicalOrForkLocked orphan.header.prevHash)
    || (orphan.height > height + 1 && orphan.height ≤ height + 128
        && c.couldBePartOfValidChainLocked orphan height)

/-- The loop of the clean-up over the pool: each orphan is judged by the pool as it is
then. -/
def dropDisconnected (height : UInt64) : List ((_ : Bytes) × Block) → Chain → Chain
  | [], c => c
  | e :: es, c =>
    dropDisconnected height es <|
      if c.retainsOrphan height e.2 then c
      else { c with orphans := c.orphans.map fun o => { o with pool := o.pool.erase e.1 } }

/-- `rebuildOrphanByParentIndexLocked`, the pool ranged over in the given order. -/
def rebuildOrphanByParentIndexLocked (c : Chain) (entries : List ((_ : Bytes) × Block)) : Chain :=
  match c.orphans with
  | none => c
  | some o =>
    let rebuilt := entries.foldl (fun (r : Slice.Heap Bytes × GoMap Bytes Slice) e =>
      let appended := Slice.append env.grow r.1 (r.2.lookup e.2.header.prevHash) e.1
      (appended.1, r.2.insert e.2.header.prevHash appended.2)) (c.arrays, ∅)
    { c with arrays := rebuilt.1, orphans := some { o with byParent := rebuilt.2 } }

end Chain

def cleanupExpiredOrphansLocked : ChainM Unit := do
  let c ← chain
  match c.orphans with
  | none => pure ()
  | some o =>
    if o.timestamps.entries = [] then pure ()
    else do
      let now ← timeNow env
      let entries ← ranged env o.timestamps.entries
      Prog.forEach entries fun e =>
        if now - e.2 > maxOrphanPoolAge then update (·.removeOrphanLocked e.1) else pure ()

def cleanOrphanPoolAboveHeight (height : UInt64) : ChainM Unit := do
  let c ← chain
  match c.orphans with
  | none => pure ()
  | some o =>
    if o.pool.entries = [] then pure ()
    else do
      let entries ← ranged env o.pool.entries
      update (Chain.dropDisconnected height entries)
      let c ← chain
      match c.orphans with
      | none => pure ()
      | some o' =>
        if o'.pool.entries.length = o.pool.entries.length then pure ()
        else do
          let entries ← ranged env o'.pool.entries
          update (·.rebuildOrphanByParentIndexLocked env entries)

/-- The eviction of the oldest orphan from a full pool. -/
def evictOldestOrphan : ChainM Unit := do
  let c ← chain
  match c.orphans with
  | none => pure ()
  | some o =>
    if o.pool.entries.length < maxOrphanPoolSize then pure ()
    else do
      let entries ← ranged env o.timestamps.entries
      match Chain.oldestOrphan entries with
      | none => pure ()
      | some e =>
        if e.1 = [] then pure ()
        else do
          update (·.removeOrphanLocked e.1)
          hexPrefix16 e.1 "oldestHash[:16]"

/-- Whether a parent was asked for within the window. -/
def recentlyRequested (parentHash : Bytes) : ChainM Bool := do
  let c ← chain
  match c.pendingAncestorRequests.lookup parentHash with
  | none => pure false
  | some lastReq => do
    let now ← timeNow env
    pure (now - lastReq < parentRequestDedupWindow : Bool)

/-- Note the request for a missing parent unless one was made within the window: whether
one is made now. -/
def requestParent (parentHash : Bytes) : ChainM Bool := do
  let pending ← recentlyRequested env parentHash
  if pending then pure false
  else do
    let now ← timeNow env
    update fun c =>
      { c with pendingAncestorRequests := c.pendingAncestorRequests.insert parentHash now }
    pure true

end NogoChain
