import NogoChain.Chain.State

/-!
# Transaction and address index

Two sets of functions fill the same indexes. A block that extends the tip goes through
`updateIndexesForBlock`, which enters every transaction under its legacy identifier; after
a reorganisation or a rollback the indexes are rebuilt by `reindexAllTxsLocked` and
`reindexAllAddressTxsLocked`, which enter transfers only, under the identifier of the
consensus encoding.
-/

namespace NogoChain

variable (env : Env)

/-- `GetID`: the legacy identifier, or the empty text. -/
def Transaction.getID (cr : Crypto) (tx : Transaction) : Bytes :=
  match tx.signingHashLegacyJSON cr with
  | .ok id => id
  | .error _ => []

/-- Append an entry to the history of an address. -/
def appendEntry (m : GoMap Bytes (List AddressTxEntry)) (addr : Bytes) (e : AddressTxEntry) :
    GoMap Bytes (List AddressTxEntry) :=
  m.insert addr ((m.lookup addr).getD [] ++ [e])

namespace Indexes

/-- The loop of `updateIndexesForBlock` over the transactions, from position `i` on. -/
def updateFrom (hash : Bytes) (height : UInt64) : Nat → List Transaction → Indexes → Indexes
  | _, [], x => x
  | i, tx :: txs, x =>
    let txid := tx.getID env.cr
    let location : TxLocation := ⟨height, hash, i⟩
    let x := { x with txIndex := x.txIndex.insert txid location }
    let x := match tx.fromAddress env.cr with
      | .error _ => x
      | .ok fromAddr =>
        let entry : AddressTxEntry :=
          ⟨txid, location, fromAddr, tx.toAddress, tx.amount, 0, 0, none⟩
        let m := appendEntry x.addressIndex fromAddr entry
        { x with addressIndex := if tx.toAddress = [] then m else appendEntry m tx.toAddress entry }
    updateFrom hash height (i + 1) txs x

def updateIndexesForBlock (x : Indexes) (block : Block) (height : UInt64) : Indexes :=
  updateFrom env block.hash height 0 block.transactions x

/-- The loop of `indexTxsForBlockLocked`. -/
def indexTxsFrom (block : Block) :
    Nat → List Transaction → GoMap Bytes TxLocation → GoMap Bytes TxLocation
  | _, [], m => m
  | i, tx :: txs, m =>
    let m := match tx.type, txSigningHashForConsensus env.cr tx env.consensus block.height with
      | .transfer, .ok txid => m.insert txid ⟨block.height, block.hash, i⟩
      | _, _ => m
    indexTxsFrom block (i + 1) txs m

/-- The loop of `indexAddressTxsForBlockLocked`. -/
def indexAddressTxsFrom (block : Block) :
    Nat → List Transaction → GoMap Bytes (List AddressTxEntry) → GoMap Bytes (List AddressTxEntry)
  | _, [], m => m
  | i, tx :: txs, m =>
    let m := match tx.type, txSigningHashForConsensus env.cr tx env.consensus block.height,
        tx.fromAddress env.cr with
      | .transfer, .ok txid, .ok fromAddr =>
        let entry : AddressTxEntry :=
          ⟨txid, ⟨block.height, block.hash, i⟩, fromAddr, tx.toAddress, tx.amount, tx.fee,
            tx.nonce, some tx.type⟩
        let m := appendEntry m fromAddr entry
        if tx.toAddress ≠ fromAddr then appendEntry m tx.toAddress entry else m
      | _, _, _ => m
    indexAddressTxsFrom block (i + 1) txs m

/-- `reindexAllTxsLocked` and `reindexAllAddressTxsLocked`. -/
def reindexAll (blocks : List Block) : Indexes where
  txIndex := blocks.foldl (fun m b => indexTxsFrom env b 0 b.transactions m) ∅
  addressIndex := blocks.foldl (fun m b => indexAddressTxsFrom env b 0 b.transactions m) ∅

/-- The history of an address without the entries for position `j` of height `height`. -/
def withoutEntry (m : GoMap Bytes (List AddressTxEntry)) (addr : Bytes) (height : UInt64)
    (j : Nat) :
    GoMap Bytes (List AddressTxEntry) :=
  match m.lookup addr with
  | none => m
  | some entries =>
    m.insert addr (entries.filter fun e => e.location.height ≠ height ∨ e.location.index ≠ j)

/-- The loop of `RollbackToHeight` over the transactions of a removed block. -/
def removeFrom (height : UInt64) : Nat → List Transaction → Indexes → Indexes
  | _, [], x => x
  | j, tx :: txs, x =>
    let x := { x with txIndex := x.txIndex.erase (tx.getID env.cr) }
    let x := match tx.fromAddress env.cr with
      | .error _ => x
      | .ok fromAddr =>
        let m := withoutEntry x.addressIndex fromAddr height j
        { x with addressIndex :=
            if tx.toAddress = [] then m else withoutEntry m tx.toAddress height j }
    removeFrom height (j + 1) txs x

end Indexes

end NogoChain
