import NogoChain.Core.BlockJson
import NogoChain.Mempool.Pool

/-!
# Compact blocks

A compact block carries the header, the coinbase and, for each transaction, a short identifier
of 48 bits; the receiver looks for the transactions in its pool. `BuildCompactBlock` makes the
message, `ReconstructBlock` reads it, by one of three ways: by prefixes of the identifiers in
the old version, by a map from short identifiers to those of the pool, or – for pools of more
than 5000 transactions – through the short identifiers of the sender's pool.

What the receiver does not find it asks for. `OnCompactBlock` registers the block that it has
so far, and `OnSyncTxResponse` puts in the transactions that arrive.
-/

namespace NogoChain

/-! ## Short identifiers -/

/-- `bits.RotateLeft64`. -/
def rotateLeft64 (x : UInt64) (k : UInt64) : UInt64 := (x <<< k) ||| (x >>> (64 - k))

/-- The four words of the hash. -/
structure SipState where
  v0 : UInt64
  v1 : UInt64
  v2 : UInt64
  v3 : UInt64

def sipRound (s : SipState) : SipState :=
  let v0 := s.v0 + s.v1
  let v2 := s.v2 + s.v3
  let v1 := rotateLeft64 s.v1 13
  let v3 := rotateLeft64 s.v3 16
  let v1 := v1 ^^^ v0
  let v3 := v3 ^^^ v2
  let v0 := rotateLeft64 v0 32
  let v2 := v2 + v1
  let v0 := v0 + v3
  let v1 := rotateLeft64 v1 17
  let v3 := rotateLeft64 v3 21
  let v1 := v1 ^^^ v2
  let v3 := v3 ^^^ v0
  let v2 := rotateLeft64 v2 32
  ⟨v0, v1, v2, v3⟩

/-- Two rounds on a word of the text. -/
def sipCompress (s : SipState) (m : UInt64) : SipState :=
  let s := sipRound (sipRound { s with v3 := s.v3 ^^^ m })
  { s with v0 := s.v0 ^^^ m }

/-- A little-endian word of at most eight bytes. -/
def littleEndianWord (bs : Bytes) : UInt64 := bs.foldr (fun b w => (w <<< 8) ||| b.toUInt64) 0

/-- The words of eight bytes, and what is left. -/
def sipWords : Bytes → List UInt64 × Bytes
  | a :: b :: c :: d :: e :: f :: g :: h :: rest =>
    (littleEndianWord [a, b, c, d, e, f, g, h] :: (sipWords rest).1, (sipWords rest).2)
  | rest => ([], rest)

def siphash244 (k0 k1 : UInt64) (msg : Bytes) : UInt64 :=
  let s : SipState := ⟨0x736f6d6570736575 ^^^ k0, 0x646f72616e646f6d ^^^ k1,
    0x6c7967656e657261 ^^^ k0, 0x7465646279746573 ^^^ k1⟩
  let (words, rest) := sipWords msg
  let s := words.foldl sipCompress s
  let last := (UInt64.ofNat msg.length <<< 56) ||| littleEndianWord rest
  let s := sipCompress s last
  let s := sipRound (sipRound (sipRound (sipRound { s with v2 := s.v2 ^^^ 0xff })))
  s.v0 ^^^ s.v1 ^^^ s.v2 ^^^ s.v3

-- the reference vectors of the empty text and of eight bytes
example : siphash244 0x0706050403020100 0x0f0e0d0c0b0a0908 [] = 0x726fdb47dd0e0e31 := by
  decide +kernel

example : siphash244 0x0706050403020100 0x0f0e0d0c0b0a0908 [0, 1, 2, 3, 4, 5, 6, 7]
    = 0x93f5f5799a932462 := by
  decide +kernel

def computeV2ShortID (k0 k1 : UInt64) (rawTxHash : Bytes) : UInt64 :=
  if rawTxHash.length = 0 then 0 else siphash244 k0 k1 rawTxHash &&& 0x0000FFFFFFFFFFFF

/-- An identifier is the text of a digest. -/
theorem exists_hash_of_txIDHex {cr : Crypto} {tx : Transaction} {id : Bytes}
    (h : txIDHex cr tx = .ok id) : ∃ hash, id = Hex.encodeToString hash ∧ hash.length = 32 := by
  unfold txIDHex at h
  split at h
  · cases h
  · next hash hhash =>
    obtain ⟨text, rfl⟩ := exists_of_signingHashLegacyJSON cr hhash
    exact ⟨_, (Except.ok.inj h).symm, cr.sha256_length text⟩

/-- The short identifier of an identifier of 64 hexadecimal digits, for the nonce `k0` of the
session; others have none. -/
def shortIDOf (k0 : UInt64) (txID : Bytes) : Option UInt64 :=
  let k1 := k0 ^^^ 0xDEADBEEFCAFEBABE
  match Hex.decodeString txID with
  | .error _ => none
  | .ok rawHash => if rawHash.length ≠ 32 then none else some (computeV2ShortID k0 k1 rawHash)

/-! ## Messages -/

structure CompactBlockMsg where
  header : BlockHeader
  height : UInt64
  coinbaseTx : Option Transaction
  /-- hash of the parent, in hexadecimal -/
  prevHash : Bytes
  nonce : UInt64
  /-- hash of the block, in hexadecimal -/
  fullHash : Bytes
  version : UInt8
  shortTxIDsV2 : List UInt64
  /-- short identifiers of the sender's pool -/
  saltTxIDsV2 : List UInt64
  /-- short identifiers of the old version -/
  shortTxIDs : List Bytes

/-- `BuildCompactBlockV2`: every transaction that has an identifier gets a short one, the
coinbase like the others. -/
def buildCompactBlockV2 (cr : Crypto) (block : Block) (sessionNonce : UInt64) :
    Option CompactBlockMsg :=
  if block.transactions.length = 0 then none
  else some
    { header := block.header
      height := block.height
      coinbaseTx := block.coinbaseTx
      prevHash := Hex.encodeToString block.header.prevHash
      nonce := sessionNonce
      fullHash := Hex.encodeToString block.hash
      version := 2
      shortTxIDsV2 := block.transactions.filterMap fun tx =>
        match txIDHex cr tx with
        | .error _ => none
        | .ok txID => shortIDOf sessionNonce txID
      saltTxIDsV2 := []
      shortTxIDs := [] }

/-- `BlockHeader.MarshalJSON`. -/
def BlockHeader.json (h : BlockHeader) : Json :=
  .obj ([("prevHash", .str (Hex.encodeToString h.prevHash)),
      ("merkleRoot", .str (Hex.encodeToString (sliceBytes h.merkleRoot))),
      ("stateRoot", .str (Hex.encodeToString h.stateRoot)),
      ("version", .num h.version.toNat), ("timestampUnix", .num h.timestampUnix.toInt),
      ("difficultyBits", .num h.difficultyBits.toNat), ("difficulty", .num h.difficulty.toNat),
      ("nonce", .num h.nonce.toNat)]
    ++ jsonUnless (h.height == 0) "height" (.num h.height.toNat)
    ++ jsonUnless h.minerAddress.isEmpty "minerAddress" (.str h.minerAddress))

/-- An `omitempty` pointer. -/
def jsonUnlessNil (key : String) : Option Json → List (String × Json)
  | none => []
  | some v => [(key, v)]

/-- `json.Marshal` of a compact block. -/
def CompactBlockMsg.json (cb : CompactBlockMsg) : Json :=
  .obj ([("header", cb.header.json), ("height", .num cb.height.toNat)]
    ++ jsonUnlessNil "coinbase_tx" (cb.coinbaseTx.map Transaction.json)
    ++ [("prev_hash", .str cb.prevHash), ("nonce", .num cb.nonce.toNat),
      ("full_hash", .str cb.fullHash)]
    ++ jsonUnless (cb.version == 0) "cmpt_version" (.num cb.version.toNat)
    ++ jsonUnless cb.shortTxIDsV2.isEmpty "short_tx_ids_v2"
      (.arr (cb.shortTxIDsV2.map fun sid => .num sid.toNat))
    ++ jsonUnless cb.saltTxIDsV2.isEmpty "salt_tx_ids_v2"
      (.arr (cb.saltTxIDsV2.map fun sid => .num sid.toNat))
    ++ jsonUnless cb.shortTxIDs.isEmpty "short_tx_ids" (.arr (cb.shortTxIDs.map .str)))

/-- An element of a `[]uint64`. -/
def uint64OfJson : Json → Except GoError UInt64
  | .null => .ok 0
  | .num n => if 0 ≤ n ∧ n < 2 ^ 64 then .ok (UInt64.ofNat n.toNat)
    else .error (Json.typeError "uint64")
  | _ => .error (Json.typeError "uint64")

/-- An element of a `[]string`. -/
def stringOfJson : Json → Except GoError Bytes
  | .null => .ok []
  | .str s => .ok (Json.coerceUtf8 0 s)
  | _ => .error (Json.typeError "string")

/-- Read a `uint8`. -/
def readUInt8 (key : String) (j : Json) : Except GoError UInt8 :=
  (Json.readNum 0 (2 ^ 8) key j).map fun n => UInt8.ofNat n.toNat

/-- `json.Unmarshal` into a `CompactBlockMsg`. -/
def CompactBlockMsg.ofJson : Json → Except GoError CompactBlockMsg :=
  readStruct fun j => do
    let header ← readHeader j
    let height ← readUInt64 "height" j
    let coinbaseTx ← Json.readPtr Transaction.ofJson "coinbase_tx" j
    let prevHash ← Json.readStr "prev_hash" j
    let nonce ← readUInt64 "nonce" j
    let fullHash ← Json.readStr "full_hash" j
    let version ← readUInt8 "cmpt_version" j
    let shortTxIDsV2 ← Json.readArr uint64OfJson "short_tx_ids_v2" j
    let saltTxIDsV2 ← Json.readArr uint64OfJson "salt_tx_ids_v2" j
    let shortTxIDs ← Json.readArr stringOfJson "short_tx_ids" j
    pure { header, height, coinbaseTx, prevHash, nonce, fullHash, version, shortTxIDsV2,
           saltTxIDsV2, shortTxIDs }

def deserializeCompactBlock (j : Json) : Except GoError CompactBlockMsg :=
  match CompactBlockMsg.ofJson j with
  | .error e => .error (.wrap "unmarshal compact block: %w" [] e)
  | .ok cb =>
    if cb.header.version = 0 then .error (.errorf "compact block has zero-version header" [])
    else .ok cb

/-! ## Reconstruction -/

/-- `MempoolInterface`: its identifiers in the order of a range over the map, and what it
answers. -/
structure MempoolInterface where
  getTxIDs : List Bytes
  /-- `GetTx(id)` -/
  getTx : Bytes → Option Transaction
  size : Nat

/-- The pool as the reconstructor sees it. -/
def Mempool.view (m : Mempool) (ids : List Bytes) : MempoolInterface where
  getTxIDs := ids
  getTx id := (m.entries.lookup id).map (·.tx)
  size := m.entries.keys.length

/-- What has been found so far, and what is missing. -/
structure Found where
  txs : List Transaction
  missingIDs : List Bytes

/-- One short identifier: the first candidate that the pool has, or an identifier to ask for.
Without candidates that is `unknown`. -/
def matchShortID (mp : MempoolInterface) (candidates : Option (List Bytes)) (unknown : Bytes)
    (found : Found) : Found :=
  match candidates with
  | none => { found with missingIDs := found.missingIDs ++ [unknown] }
  | some candidates =>
    match candidates.findSome? mp.getTx with
    | some tx => { found with txs := found.txs ++ [tx] }
    | none => { found with missingIDs := found.missingIDs ++ [candidates.headD []] }

/-- The block of a message with the given transactions. -/
def CompactBlockMsg.block (cb : CompactBlockMsg) (ptr : Nat) (txs : List Transaction) :
    Except GoError Block :=
  match Hex.decodeString cb.fullHash with
  | .error e => .error (.wrap "decode block hash: %w" [] e)
  | .ok hash => .ok
      { ptr, hash, height := cb.height, header := cb.header, transactions := txs,
        coinbaseTx := cb.coinbaseTx, minerAddress := cb.header.minerAddress, totalWork := [] }

/-- `ShortTxIDBytes*2`. -/
def shortIDPrefixLength : Nat := 8

def reconstructBlockLegacy (cb : CompactBlockMsg) (coinbaseTx : Transaction)
    (mp : MempoolInterface) : Found :=
  let shortCollisions := GoMap.group (fun id => some (id.take shortIDPrefixLength)) mp.getTxIDs
  cb.shortTxIDs.foldl (fun found shortID =>
    matchShortID mp (shortCollisions.lookup shortID) shortID found) ⟨[coinbaseTx], []⟩

/-- `fmt.Sprintf("sid:%016x", sid)`. -/
def sidText (sid : UInt64) : Bytes := ascii "sid:" ++ Hex.encodeToString (bigEndian 8 sid.toNat)

def reconstructBlockV2Naive (cb : CompactBlockMsg) (coinbaseTx : Transaction)
    (mp : MempoolInterface) : Found :=
  let sidMap := GoMap.group (shortIDOf cb.nonce) mp.getTxIDs
  cb.shortTxIDsV2.foldl (fun found sid => matchShortID mp (sidMap.lookup sid) (sidText sid) found)
    ⟨[coinbaseTx], []⟩

/-- A transaction with every field zero. -/
def Transaction.zero : Transaction where
  type := .other ⟨[], by decide, by decide⟩
  chainId := 0
  fromPubKey := none
  toAddress := []
  amount := 0
  fee := 0
  nonce := 0
  data := []
  signature := none

def reconstructBlockV2WithSalt (cb : CompactBlockMsg) (coinbaseTx : Transaction)
    (mp : MempoolInterface) : Found :=
  let blockSIDPos : GoMap UInt64 Nat :=
    cb.shortTxIDsV2.zipIdx.foldl (fun m e => m.insert e.1 e.2) ∅
  let foundMap : GoMap Nat Transaction := mp.getTxIDs.foldl (fun found fullID =>
    match shortIDOf cb.nonce fullID with
    | none => found
    | some sid =>
      if sid ∈ cb.saltTxIDsV2 then
        match blockSIDPos.lookup sid, mp.getTx fullID with
        | some pos, some tx => found.insert pos tx
        | _, _ => found
      else found) ∅
  { txs := coinbaseTx :: cb.shortTxIDsV2.mapIdx fun pos _ =>
      (foundMap.lookup pos).getD Transaction.zero
    missingIDs := (cb.shortTxIDsV2.zipIdx.filter fun e => (foundMap.lookup e.2).isNone).map
      fun e => sidText e.1 }

def compactBlockV2SaltThreshold : Nat := 5000

/-- What is found, by the way that the version and the size of the pool ask for. -/
def CompactBlockMsg.found (cb : CompactBlockMsg) (coinbaseTx : Transaction)
    (mp : MempoolInterface) : Found :=
  if cb.version ≥ 2 ∧ cb.shortTxIDsV2.length > 0 then
    if mp.size > compactBlockV2SaltThreshold then reconstructBlockV2WithSalt cb coinbaseTx mp
    else reconstructBlockV2Naive cb coinbaseTx mp
  else reconstructBlockLegacy cb coinbaseTx mp

/-- `ReconstructBlock`: the block as far as it is known, and what is missing. -/
def reconstructBlock (ptr : Nat) (cb : CompactBlockMsg) (mp : MempoolInterface) :
    Except GoError (Block × List Bytes) :=
  match cb.coinbaseTx with
  | none => .error (.errorf "compact block missing coinbase transaction" [])
  | some coinbaseTx =>
    match cb.block ptr (cb.found coinbaseTx mp).txs with
    | .error e => .error e
    | .ok block => .ok (block, (cb.found coinbaseTx mp).missingIDs)

end NogoChain
