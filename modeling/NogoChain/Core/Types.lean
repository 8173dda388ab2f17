import Mathlib.Data.Finmap
import NogoChain.Lib.Json

/-!
# The data model

Transactions, blocks, accounts and consensus parameters, and the cryptographic functions
the node calls.

Hashing, signature verification and the NogoPow matrix function are not interpreted: they
are the fields of `Crypto`, and every result of the development holds for any choice of
them. A map keyed by the hexadecimal text of a hash is keyed by the hash itself, since the
text determines the bytes; where the code slices such a text (`hashHex[:16]`) the model
asks for the bytes it stands for.

A `Block` of the source is a heap object that several maps share and whose only field
written after creation is `TotalWork`. `Block.ptr` is the object's identity, which one
comparison of the source looks at; the text written to `TotalWork` later is kept in the
chain state, by identity.
-/

namespace NogoChain

/-- The cryptographic functions, uninterpreted. -/
structure Crypto where
  /-- `sha256.Sum256` -/
  sha256 : Bytes → Bytes
  sha256_length : ∀ x, (sha256 x).length = 32
  /-- `ed25519.Verify(publicKey, message, sig)` -/
  ed25519Verify : Bytes → Bytes → Bytes → Bool
  keccak256 : Bytes → Bytes
  keccak256_length : ∀ x, (keccak256 x).length = 32
  /-- the NogoPow matrix function: seal hash and seed to the value compared with the
  target -/
  computePoW : Bytes → Bytes → Nat

/-- The constant choice: every digest is zero, every signature verifies and every seal has
the value 0. Concrete runs are evaluated with it. -/
def Crypto.constant : Crypto where
  sha256 _ := List.replicate 32 0
  sha256_length _ := List.length_replicate
  ed25519Verify _ _ _ := true
  keccak256 _ := List.replicate 32 0
  keccak256_length _ := List.length_replicate
  computePoW _ _ := 0

/-- The bytes of a slice; a nil slice has none. -/
def sliceBytes (s : Option Bytes) : Bytes := s.getD []

/-! ## Transactions -/

/-- `TransactionType`; any other text is possible on the wire and is refused. -/
inductive TransactionType where
  | coinbase
  | transfer
  /-- a text that names no type -/
  | other (name : {s : Bytes // s ≠ ascii "coinbase" ∧ s ≠ ascii "transfer"})
deriving DecidableEq

/-- The text of a type. -/
def TransactionType.name : TransactionType → Bytes
  | coinbase => ascii "coinbase"
  | transfer => ascii "transfer"
  | other s => s.1

/-- A transaction. A nil byte slice is `none`; the coinbase check tells it from an empty
one. -/
structure Transaction where
  type : TransactionType
  /-- chain the transaction is meant for -/
  chainId : UInt64
  fromPubKey : Option Bytes
  toAddress : Bytes
  /-- amount in wei -/
  amount : UInt64
  /-- fee in wei -/
  fee : UInt64
  /-- sequence number of the sender -/
  nonce : UInt64
  /-- free text -/
  data : Bytes
  signature : Option Bytes
deriving DecidableEq

/-! ## Blocks -/

/-- `BlockHeader`. Its copies of height and miner address are left at zero by some of the
code that builds blocks; consensus reads those of the block. -/
structure BlockHeader where
  version : UInt32
  prevHash : Bytes
  timestampUnix : Int64
  /-- difficulty the block claims -/
  difficultyBits : UInt32
  /-- copy of `difficultyBits` kept for the wire format -/
  difficulty : UInt32
  nonce : UInt64
  stateRoot : Bytes
  /-- root of the transactions; a nil slice is `none` -/
  merkleRoot : Option Bytes
  /-- copy of the block's height -/
  height : UInt64
  /-- copy of the block's miner address -/
  minerAddress : Bytes
deriving DecidableEq

/-- A block object. -/
structure Block where
  /-- identity of the object -/
  ptr : Nat
  /-- hash as the block states it; insertion does not recompute it -/
  hash : Bytes
  /-- height as the block states it -/
  height : UInt64
  header : BlockHeader
  /-- transactions, the coinbase first -/
  transactions : List Transaction
  /-- separate copy of the coinbase, only part of the wire format -/
  coinbaseTx : Option Transaction
  minerAddress : Bytes
  /-- decimal text of the cumulative work -/
  totalWork : Bytes
deriving DecidableEq

/-- An account. -/
structure Account where
  /-- balance in wei -/
  balance : UInt64
  /-- number of the last transfer sent -/
  nonce : UInt64
deriving DecidableEq, Repr

instance : Inhabited Account := ⟨⟨0, 0⟩⟩

/-- The account map. Reading an address that is absent gives the zero account. -/
abbrev Ledger := Finmap (fun _ : Bytes => Account)

/-- `state[addr]`. -/
def Ledger.account (s : Ledger) (addr : Bytes) : Account := (s.lookup addr).getD ⟨0, 0⟩

/-! ## Wire text -/

/-- `omitempty` members of a JSON object. -/
def jsonUnless (empty : Bool) (key : String) (v : Json) : List (String × Json) :=
  if empty then [] else [(key, v)]

/-- The JSON value of a transaction, members in the order of the struct. -/
def Transaction.json (t : Transaction) : Json :=
  .obj ([("type", .str t.type.name), ("chainId", .num t.chainId.toNat)]
    ++ jsonUnless (sliceBytes t.fromPubKey).isEmpty "fromPubKey"
        (.str (Json.base64 (sliceBytes t.fromPubKey)))
    ++ [("toAddress", .str t.toAddress), ("amount", .num t.amount.toNat), ("fee", .num t.fee.toNat)]
    ++ jsonUnless (t.nonce == 0) "nonce" (.num t.nonce.toNat)
    ++ jsonUnless t.data.isEmpty "data" (.str t.data)
    ++ jsonUnless (sliceBytes t.signature).isEmpty "signature"
        (.str (Json.base64 (sliceBytes t.signature))))

/-- The JSON value of a block: `Block.MarshalJSON` goes through a map, whose members are
written in alphabetical order. -/
def Block.json (b : Block) : Json :=
  .obj [("coinbaseTx", match b.coinbaseTx with | none => .null | some t => t.json),
    ("difficulty", .num b.header.difficulty.toNat),
    ("difficultyBits", .num b.header.difficultyBits.toNat),
    ("hash", .str (Hex.encodeToString b.hash)),
    ("height", .num b.height.toNat),
    ("merkleRoot", .str (Hex.encodeToString (sliceBytes b.header.merkleRoot))),
    ("minerAddress", .str b.minerAddress),
    ("nonce", .num b.header.nonce.toNat),
    ("prevHash", .str (Hex.encodeToString b.header.prevHash)),
    ("stateRoot", .str (Hex.encodeToString b.header.stateRoot)),
    ("timestampUnix", .num b.header.timestampUnix.toInt),
    ("totalWork", .str b.totalWork),
    ("transactions", .arr (b.transactions.map Transaction.json)),
    ("version", .num b.header.version.toNat)]

/-- `blockSizeForConsensus`: the length of the block's JSON text. Marshalling a block does
not fail. -/
def blockSizeForConsensus (b : Block) : Nat := b.json.text.length

/-- The Merkle root counts with its length only. -/
theorem blockSizeForConsensus_merkleRoot (b : Block) {r r' : Bytes} (h : r.length = r'.length) :
    blockSizeForConsensus { b with header := { b.header with merkleRoot := some r } }
      = blockSizeForConsensus { b with header := { b.header with merkleRoot := some r' } } := by
  have htext : (Json.str (Hex.encodeToString r)).text.length
      = (Json.str (Hex.encodeToString r')).text.length := by
    rw [Json.text, Json.text, Json.quote_encodeToString_length, Json.quote_encodeToString_length, h]
  unfold blockSizeForConsensus Block.json
  simp only [Json.text] at htext
  simp only [Json.text, Json.memberText, Json.membersTail, sliceBytes, Option.getD_some,
    List.length_append, List.length_cons, htext]

end NogoChain
