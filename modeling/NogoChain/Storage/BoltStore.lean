import NogoChain.Core.Types
import NogoChain.Lib.GoMap

/-!
# The block store

The buckets of the bolt database that the chain reads and writes: blocks by hash, canonical
hashes by height, the rules hash, and state snapshots. A write is a transaction: it takes
effect as a whole or, when the database refuses it, not at all; whether a write is refused
is decided by the caller's environment.

A block is stored in gob encoding, which does not keep an empty byte slice apart from a nil
one; `Block.stored` is what decoding gives back.
-/

namespace NogoChain

/-- What gob gives back for a byte slice: an empty one becomes nil. -/
def gobSlice (s : Option Bytes) : Option Bytes := if sliceBytes s = [] then none else s

/-- What gob gives back for a transaction. -/
def Transaction.stored (t : Transaction) : Transaction :=
  { t with fromPubKey := gobSlice t.fromPubKey, signature := gobSlice t.signature }

/-- What gob gives back for a block. -/
def Block.stored (b : Block) : Block :=
  { b with
    header := { b.header with merkleRoot := gobSlice b.header.merkleRoot }
    transactions := b.transactions.map Transaction.stored
    coinbaseTx := b.coinbaseTx.map Transaction.stored }

/-- The database. -/
structure BoltStore where
  /-- `blocks`: hash to block -/
  blocks : GoMap Bytes Block
  /-- `canonical`: height to hash -/
  canon : GoMap UInt64 Bytes
  /-- `meta`: the rules hash -/
  rulesHash : Option Bytes
  /-- `snapshots`: height to accounts; the root that is stored with them is only logged -/
  snapshots : GoMap UInt64 Ledger

namespace BoltStore

/-- The database before the first start. -/
def empty : BoltStore := ⟨∅, ∅, none, ∅⟩

/-- Store a block under its hash unless one is there. -/
def putIfAbsent (s : BoltStore) (b : Block) : BoltStore :=
  match s.blocks.lookup b.hash with
  | some _ => s
  | none => { s with blocks := s.blocks.insert b.hash b.stored }

def putBlock (s : BoltStore) (b : Block) : Except GoError BoltStore :=
  if b.hash = [] then .error (.new "missing block hash")
  else .ok (s.putIfAbsent b)

/-- `AppendCanonical`: the parent has to be the canonical block one height below. Entries
above the block's height stay. -/
def appendCanonical (s : BoltStore) (b : Block) : Except GoError BoltStore :=
  if b.hash = [] then .error (.new "missing block hash")
  else
    let s' := s.putIfAbsent b
    if b.height > 0 then
      match s.canon.lookup (b.height - 1) with
      | none =>
        .error (.errorf "missing previous canonical block at height %d" [.num (b.height - 1).toNat])
      | some prevHash =>
        if prevHash ≠ b.header.prevHash then .error (.new "prevhash mismatch for append")
        else .ok { s' with canon := s'.canon.insert b.height b.hash }
    else .ok { s' with canon := s'.canon.insert b.height b.hash }

/-- The loop of `RewriteCanonical` over the blocks, from index `i` on. -/
def rewriteFrom (s : BoltStore) : Nat → List Block → Except GoError BoltStore
  | _, [] => .ok s
  | i, b :: bs =>
    if b.hash = [] then .error (.errorf "block at index %d: missing hash" [.num i])
    else
      let s' := s.putIfAbsent b
      rewriteFrom { s' with canon := s'.canon.insert b.height b.hash } (i + 1) bs

/-- `RewriteCanonical`: the canonical bucket is emptied and filled anew. -/
def rewriteCanonical (s : BoltStore) (bs : List Block) : Except GoError BoltStore :=
  rewriteFrom { s with canon := ∅ } 0 bs

/-- `ReadCanonical`: the canonical blocks by ascending height. -/
def readCanonical (s : BoltStore) : Except GoError (List Block) :=
  let byHeight := s.canon.entries.insertionSort (fun x y => x.1 ≤ y.1)
  byHeight.mapM fun e =>
    match s.blocks.lookup e.2 with
    | none =>
      .error (.wrap "read canonical chain: %w" [] (.errorf "canonical block missing at height %s"
        [.str (Hex.encodeToString (bigEndian 8 e.1.toNat))]))
    | some b => .ok b

def putRulesHash (s : BoltStore) (hash : Bytes) : Except GoError BoltStore :=
  .ok { s with rulesHash := some hash }

/-- `Snapshot`: the accounts are added to the accounts bucket of the height, which may hold
accounts of an earlier snapshot. The database has no empty keys. -/
def snapshot (s : BoltStore) (height : UInt64) (state : Ledger) : Except GoError BoltStore :=
  if (state.lookup []).isSome then
    .error (.wrap "put account %s: %w" [.str []] (.new "key required"))
  else
    let old : Ledger := (s.snapshots.lookup height).getD ∅
    .ok { s with snapshots := s.snapshots.insert height (state ∪ old) }

/-- `LoadSnapshot`: the highest snapshot at or below `height`; one at height 0 is not
found. -/
def loadSnapshot (s : BoltStore) (height : UInt64) : Option (UInt64 × Ledger) :=
  let best := s.snapshots.keys.foldl (fun best h => if h ≤ height ∧ h > best then h else best) 0
  if best = 0 then none
  else (s.snapshots.lookup best).map fun state => (best, state)

/-- A block with a hash is appended on the block that the store has at the height below. -/
theorem appendCanonical_of_parent {store : BoltStore} {b : Block} {prevHash : Bytes}
    (hhash : b.hash ≠ []) (hheight : b.height > 0)
    (hparent : store.canon.lookup (b.height - 1) = some prevHash)
    (hprev : prevHash = b.header.prevHash) : ∃ store', store.appendCanonical b = .ok store' := by
  unfold appendCanonical
  rw [if_neg hhash]
  rw [if_pos hheight, hparent]
  dsimp only
  rw [if_neg (not_not.mpr hprev)]
  exact ⟨_, rfl⟩

/-- A block that is appended above height 0 names the block that the store has at the height
below. -/
theorem canon_of_appendCanonical {store store' : BoltStore} {b : Block} (hheight : b.height > 0)
    (h : store.appendCanonical b = .ok store') :
    store.canon.lookup (b.height - 1) = some b.header.prevHash := by
  unfold appendCanonical at h
  split at h
  · cases h
  · split at h
    · cases h
    · next hparent =>
      split at h
      · cases h
      · next heq => rw [hparent, not_not.mp heq]

end BoltStore

end NogoChain
