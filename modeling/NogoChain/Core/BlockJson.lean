import Mathlib.Data.Nat.Cast.Order.Ring
import NogoChain.Core.Ledger
import NogoChain.Lib.JsonRead

/-!
# Blocks as JSON

`Block.MarshalJSON` writes the fields of a block and of its header side by side, byte strings
in hexadecimal. `Block.UnmarshalJSON` reads the older format, in which the header is an
object of its own, and fills what the header lacks from the fields at the top.

The two are not inverse. The top has one height and one miner address, which become those of
the block; the copies in the header are not written, and come back as zero. What else can
change is at the edges of the format: an empty byte slice that is not nil comes back nil, and
a string that is not valid UTF-8 comes back as one that is. `Block.reread` is the block that
comes back, and `unmarshalJSON_json_iff` says which blocks come back as they were.
-/

namespace NogoChain

/-! ## Reading -/

/-- Read a `uint64`. -/
def readUInt64 (key : String) (j : Json) : Except GoError UInt64 :=
  (Json.readNum 0 (2 ^ 64) key j).map fun n => UInt64.ofNat n.toNat

/-- Read a `uint32`. -/
def readUInt32 (key : String) (j : Json) : Except GoError UInt32 :=
  (Json.readNum 0 (2 ^ 32) key j).map fun n => UInt32.ofNat n.toNat

/-- Read an `int64`. -/
def readInt64 (key : String) (j : Json) : Except GoError Int64 :=
  (Json.readNum (-2 ^ 63) (2 ^ 63) key j).map Int64.ofInt

/-- The type a text names. -/
def TransactionType.ofName (s : Bytes) : TransactionType :=
  if hc : s = ascii "coinbase" then .coinbase
  else if ht : s = ascii "transfer" then .transfer
  else .other ⟨s, hc, ht⟩

/-- A struct is read from an object, or left as it is by `null`. -/
def readStruct {α : Type} (read : Json → Except GoError α) (j : Json) : Except GoError α :=
  match j with
  | .obj _ => read j
  | .null => read j
  | _ => .error (Json.typeError "struct")

/-- `json.Unmarshal` into a `Transaction`. -/
def Transaction.ofJson : Json → Except GoError Transaction :=
  readStruct fun j => do
    let type ← Json.readStr "type" j
    let chainId ← readUInt64 "chainId" j
    let fromPubKey ← Json.readBytes "fromPubKey" j
    let toAddress ← Json.readStr "toAddress" j
    let amount ← readUInt64 "amount" j
    let fee ← readUInt64 "fee" j
    let nonce ← readUInt64 "nonce" j
    let data ← Json.readStr "data" j
    let signature ← Json.readBytes "signature" j
    pure { type := .ofName type, chainId, fromPubKey, toAddress, amount, fee, nonce, data,
           signature }

/-- `hex.DecodeString` of a field, with the error of its field. -/
def decodeField (what : String) (s : Bytes) : Except GoError Bytes :=
  match Hex.decodeString s with
  | .error e => .error (.wrap what [] e)
  | .ok bs => .ok bs

/-- The header before anything is read into it. -/
def BlockHeader.zero : BlockHeader where
  version := 0
  prevHash := []
  timestampUnix := 0
  difficultyBits := 0
  difficulty := 0
  nonce := 0
  stateRoot := []
  merkleRoot := none
  height := 0
  minerAddress := []

/-- The fields of a header, the three byte strings still in hexadecimal. -/
def BlockHeader.readFields (j : Json) : Except GoError (BlockHeader × Bytes × Bytes × Bytes) := do
  let prevHash ← Json.readStr "prevHash" j
  let merkleRoot ← Json.readStr "merkleRoot" j
  let stateRoot ← Json.readStr "stateRoot" j
  let version ← readUInt32 "version" j
  let timestampUnix ← readInt64 "timestampUnix" j
  let difficultyBits ← readUInt32 "difficultyBits" j
  let difficulty ← readUInt32 "difficulty" j
  let nonce ← readUInt64 "nonce" j
  let height ← readUInt64 "height" j
  let minerAddress ← Json.readStr "minerAddress" j
  pure ({ BlockHeader.zero with
            version, timestampUnix, difficultyBits, difficulty, nonce, height, minerAddress },
    prevHash, merkleRoot, stateRoot)

/-- `BlockHeader.UnmarshalJSON`, into a header that is zero. -/
def BlockHeader.unmarshalJSON (j : Json) : Except GoError BlockHeader :=
  match readStruct BlockHeader.readFields j with
  | .error e => .error (.wrap "unmarshal block header: %w" [] e)
  | .ok (h, prevHash, merkleRoot, stateRoot) => do
    let h ← if prevHash = [] then pure h else do
      let bs ← decodeField "decode prevHash: %w" prevHash
      pure { h with prevHash := bs }
    let h ← if merkleRoot = [] then pure h else do
      let bs ← decodeField "decode merkleRoot: %w" merkleRoot
      pure { h with merkleRoot := some bs }
    if stateRoot = [] then pure h else do
      let bs ← decodeField "decode stateRoot: %w" stateRoot
      pure { h with stateRoot := bs }

structure BlockLegacyJSON where
  /-- hash in hexadecimal -/
  hash : Bytes
  height : UInt64
  /-- header, zero if the member is absent -/
  header : BlockHeader
  transactions : List Transaction
  coinbaseTx : Option Transaction
  minerAddress : Bytes
  totalWork : Bytes
  version : UInt32
  timestampUnix : Int64
  difficultyBits : UInt32
  /-- copy of the difficulty, at the top -/
  difficulty : UInt32
  nonce : UInt64
  /-- hash of the parent in hexadecimal, at the top -/
  prevHash : Bytes
  /-- state root in hexadecimal, at the top -/
  stateRoot : Bytes
  /-- root of the transactions in hexadecimal, at the top -/
  merkleRoot : Bytes

/-- The header of a block that is read. -/
def readHeader (j : Json) : Except GoError BlockHeader :=
  match j.member? "header" with
  | none => .ok BlockHeader.zero
  | some v => BlockHeader.unmarshalJSON v

/-- `json.Unmarshal` into a `blockLegacyJSON`. -/
def BlockLegacyJSON.ofJson : Json → Except GoError BlockLegacyJSON :=
  readStruct fun j => do
    let hash ← Json.readStr "hash" j
    let height ← readUInt64 "height" j
    let header ← readHeader j
    let transactions ← Json.readArr Transaction.ofJson "transactions" j
    let coinbaseTx ← Json.readPtr Transaction.ofJson "coinbaseTx" j
    let minerAddress ← Json.readStr "minerAddress" j
    let totalWork ← Json.readStr "totalWork" j
    let version ← readUInt32 "version" j
    let timestampUnix ← readInt64 "timestampUnix" j
    let difficultyBits ← readUInt32 "difficultyBits" j
    let difficulty ← readUInt32 "difficulty" j
    let nonce ← readUInt64 "nonce" j
    let prevHash ← Json.readStr "prevHash" j
    let stateRoot ← Json.readStr "stateRoot" j
    let merkleRoot ← Json.readStr "merkleRoot" j
    pure { hash, height, header, transactions, coinbaseTx, minerAddress, totalWork, version,
           timestampUnix, difficultyBits, difficulty, nonce, prevHash, stateRoot, merkleRoot }

/-- Fill a field of the header that is zero with the value at the top. -/
def fillField {α : Type} [DecidableEq α] (zero : α) (field : BlockHeader → α)
    (put : α → BlockHeader → BlockHeader) (v : α) (h : BlockHeader) : BlockHeader :=
  if v ≠ zero ∧ field h = zero then put v h else h

/-- `b.Header.Version`. -/
def fillVersion : UInt32 → BlockHeader → BlockHeader :=
  fillField 0 (·.version) fun v h => { h with version := v }

/-- `b.Header.TimestampUnix`. -/
def fillTimestampUnix : Int64 → BlockHeader → BlockHeader :=
  fillField 0 (·.timestampUnix) fun v h => { h with timestampUnix := v }

/-- `b.Header.DifficultyBits`. -/
def fillDifficultyBits : UInt32 → BlockHeader → BlockHeader :=
  fillField 0 (·.difficultyBits) fun v h => { h with difficultyBits := v }

/-- `b.Header.Difficulty`. -/
def fillDifficulty : UInt32 → BlockHeader → BlockHeader :=
  fillField 0 (·.difficulty) fun v h => { h with difficulty := v }

/-- `b.Header.Nonce`. -/
def fillNonce : UInt64 → BlockHeader → BlockHeader :=
  fillField 0 (·.nonce) fun v h => { h with nonce := v }

/-- `b.Header.PrevHash`. The text at the top is decoded even if it is not used. -/
def fillPrevHash (text : Bytes) (h : BlockHeader) : Except GoError BlockHeader :=
  if text = [] then pure h
  else do
    let prevHash ← decodeField "decode prevHash: %w" text
    pure (if h.prevHash = [] then { h with prevHash := prevHash } else h)

/-- `b.Header.StateRoot`. -/
def fillStateRoot (text : Bytes) (h : BlockHeader) : Except GoError BlockHeader :=
  if text ≠ [] ∧ h.stateRoot = [] then do
    let stateRoot ← decodeField "decode stateRoot: %w" text
    pure { h with stateRoot := stateRoot }
  else pure h

/-- `b.Header.MerkleRoot`. -/
def fillMerkleRoot (text : Bytes) (h : BlockHeader) : Except GoError BlockHeader :=
  if text ≠ [] ∧ sliceBytes h.merkleRoot = [] then do
    let merkleRoot ← decodeField "decode merkleRoot: %w" text
    pure { h with merkleRoot := some merkleRoot }
  else pure h

/-- The header with the fields at the top that it lacks. -/
def BlockLegacyJSON.migrate (l : BlockLegacyJSON) : Except GoError BlockHeader := do
  let h ← fillPrevHash l.prevHash (fillVersion l.version l.header)
  let h := fillTimestampUnix l.timestampUnix h
  let h := fillDifficultyBits l.difficultyBits h
  let h := fillDifficulty l.difficulty h
  let h := fillNonce l.nonce h
  let h ← fillStateRoot l.stateRoot h
  fillMerkleRoot l.merkleRoot h

/-- `b.Hash`. -/
def decodeHash (text : Bytes) : Except GoError Bytes :=
  if text = [] then .ok [] else decodeField "decode block hash: %w" text

/-- The block object `ptr` made of what was read. -/
def BlockLegacyJSON.toBlock (ptr : Nat) (l : BlockLegacyJSON) : Except GoError Block := do
  let hash ← decodeHash l.hash
  let header ← l.migrate
  pure { ptr, hash, height := l.height, header, transactions := l.transactions,
         coinbaseTx := l.coinbaseTx, minerAddress := l.minerAddress, totalWork := l.totalWork }

/-- `Block.UnmarshalJSON`, into a new block object `ptr`. -/
def Block.unmarshalJSON (ptr : Nat) (j : Json) : Except GoError Block :=
  match BlockLegacyJSON.ofJson j with
  | .error e => .error (.wrap "unmarshal block JSON: %w" [] e)
  | .ok l => l.toBlock ptr

/-! ## What comes back -/

/-- An empty slice comes back nil. -/
def rereadSlice (s : Option Bytes) : Option Bytes := if sliceBytes s = [] then none else s

/-- The transaction that comes back. -/
def Transaction.reread (t : Transaction) : Transaction :=
  { t with
    type := .ofName (Json.coerceUtf8 0 t.type.name)
    fromPubKey := rereadSlice t.fromPubKey
    toAddress := Json.coerceUtf8 0 t.toAddress
    data := Json.coerceUtf8 0 t.data
    signature := rereadSlice t.signature }

/-- **The block that comes back.** -/
def Block.reread (b : Block) : Block :=
  { b with
    header :=
      { b.header with
        merkleRoot := rereadSlice b.header.merkleRoot, height := 0, minerAddress := [] }
    transactions := b.transactions.map Transaction.reread
    coinbaseTx := b.coinbaseTx.map Transaction.reread
    minerAddress := Json.coerceUtf8 0 b.minerAddress
    totalWork := Json.coerceUtf8 0 b.totalWork }

/-- Hexadecimal text comes back as it is. -/
@[simp] theorem coerceUtf8_hex (s : Bytes) :
    Json.coerceUtf8 0 (Hex.encodeToString s) = Hex.encodeToString s :=
  Json.coerceUtf8_of_ascii (Hex.encodeToString_ascii s)

@[simp] theorem toNat_uint64_lt (n : UInt64) : n.toNat < 18446744073709551616 := n.toNat_lt

@[simp] theorem toNat_uint32_lt (n : UInt32) : n.toNat < 4294967296 := n.toNat_lt

@[simp] theorem le_toInt_int64 (n : Int64) : -9223372036854775808 ≤ n.toInt := n.le_toInt

@[simp] theorem toInt_int64_lt (n : Int64) : n.toInt < 9223372036854775808 := n.toInt_lt

/-! ### Transactions -/

@[simp] theorem lastMember_jsonUnless (key k : String) (empty : Bool) (v : Json) :
    Json.lastMember key (jsonUnless empty k v)
      = if empty then none else if k = key then some v else none := by
  cases empty <;> simp [jsonUnless]

@[simp] theorem TransactionType.name_ofName (s : Bytes) : (TransactionType.ofName s).name = s := by
  unfold ofName
  split
  · next h => rw [h]; rfl
  · split
    · next h => rw [h]; rfl
    · rfl

@[simp] theorem TransactionType.ofName_name (t : TransactionType) : ofName t.name = t := by
  cases t with
  | coinbase => rfl
  | transfer => rfl
  | other s =>
    unfold ofName name
    rw [dif_neg s.2.1, dif_neg s.2.2]

variable {j : Json} {key : String} {h : BlockHeader}

/-- A byte slice that is left out when it is empty. -/
theorem readBytes_of_member {s : Option Bytes}
    (h : j.member? key = if (sliceBytes s).isEmpty then none
      else some (.str (Json.base64 (sliceBytes s)))) :
    Json.readBytes key j = .ok (rereadSlice s) := by
  rw [Json.readBytes, h, rereadSlice]
  cases hs : sliceBytes s with
  | nil => rfl
  | cons b bs =>
    have hsome : s = some (b :: bs) := by
      cases s with
      | none => cases hs
      | some s => exact congrArg some hs
    simp only [List.isEmpty_cons, Bool.false_eq_true, if_false]
    rw [Json.coerceUtf8_of_ascii (Json.base64_ascii _), Json.decodeBase64_base64]
    simp [hsome]

/-- A string that is left out when it is empty. -/
theorem readStr_of_omitted {s : Bytes}
    (h : j.member? key = if s.isEmpty then none else some (.str s)) :
    Json.readStr key j = .ok (Json.coerceUtf8 0 s) := by
  rw [Json.readStr, h]
  cases s <;> rfl

/-- A number that is left out when it is zero. -/
theorem readUInt64_of_omitted {n : UInt64}
    (h : j.member? key = if (n == 0) then none else some (.num n.toNat)) :
    readUInt64 key j = .ok n := by
  rw [readUInt64, Json.readNum, h]
  by_cases hn : n = 0
  · rw [hn]
    rfl
  · simp [hn]

theorem Transaction.ofJson_json (t : Transaction) : Transaction.ofJson t.json = .ok t.reread := by
  have hkey : Json.readBytes "fromPubKey" t.json = .ok (rereadSlice t.fromPubKey) :=
    readBytes_of_member (by simp [Transaction.json])
  have hnonce : readUInt64 "nonce" t.json = .ok t.nonce :=
    readUInt64_of_omitted (by simp [Transaction.json])
  have hdata : Json.readStr "data" t.json = .ok (Json.coerceUtf8 0 t.data) :=
    readStr_of_omitted (by simp [Transaction.json])
  have hsig : Json.readBytes "signature" t.json = .ok (rereadSlice t.signature) :=
    readBytes_of_member (by simp [Transaction.json])
  have hstruct : ∀ read : Json → Except GoError Transaction,
      readStruct read t.json = read t.json := fun _ => rfl
  rw [Transaction.ofJson, hstruct, hkey, hnonce, hdata, hsig]
  -- the other members are always there
  simp [Transaction.json, Transaction.reread, Json.readStr, readUInt64, Json.readNum, pure,
    Except.pure]

/-! ### Blocks -/

theorem readPtr_coinbase {t : Option Transaction}
    (h : j.member? key = some (match t with | none => .null | some t => t.json)) :
    Json.readPtr Transaction.ofJson key j = .ok (t.map Transaction.reread) := by
  rw [Json.readPtr, h]
  cases t with
  | none => rfl
  | some t =>
    have hread : (Transaction.ofJson t.json).map some = .ok (some t.reread) := by
      rw [Transaction.ofJson_json]
      rfl
    exact hread

/-- What is read from the text of a block: there is no header in it. -/
def Block.legacy (b : Block) : BlockLegacyJSON where
  hash := Hex.encodeToString b.hash
  height := b.height
  header := BlockHeader.zero
  transactions := b.transactions.map Transaction.reread
  coinbaseTx := b.coinbaseTx.map Transaction.reread
  minerAddress := Json.coerceUtf8 0 b.minerAddress
  totalWork := Json.coerceUtf8 0 b.totalWork
  version := b.header.version
  timestampUnix := b.header.timestampUnix
  difficultyBits := b.header.difficultyBits
  difficulty := b.header.difficulty
  nonce := b.header.nonce
  prevHash := Hex.encodeToString b.header.prevHash
  stateRoot := Hex.encodeToString b.header.stateRoot
  merkleRoot := Hex.encodeToString (sliceBytes b.header.merkleRoot)

theorem BlockLegacyJSON.ofJson_json (b : Block) : BlockLegacyJSON.ofJson b.json = .ok b.legacy := by
  have htxs : Json.readArr Transaction.ofJson "transactions" b.json
      = .ok (b.transactions.map Transaction.reread) := by
    exact Except.mapM_map Transaction.ofJson_json b.transactions
  have hcoinbase : Json.readPtr Transaction.ofJson "coinbaseTx" b.json
      = .ok (b.coinbaseTx.map Transaction.reread) :=
    readPtr_coinbase (by
      cases hcb : b.coinbaseTx <;> simp [Block.json, hcb])
  have hstruct : ∀ read : Json → Except GoError BlockLegacyJSON,
      readStruct read b.json = read b.json := fun _ => rfl
  rw [BlockLegacyJSON.ofJson, hstruct, htxs, hcoinbase]
  simp [Block.json, Block.legacy, Json.readStr, readHeader, readUInt64, readUInt32, readInt64,
    Json.readNum, pure, Except.pure]

/-- Filling a field that is zero gives the value at the top, also when that is zero. -/
theorem fillField_eq {α : Type} [DecidableEq α] {zero v : α} {field : BlockHeader → α}
    {put : α → BlockHeader → BlockHeader} (hput : put (field h) h = h)
    (hzero : field h = zero) : fillField zero field put v h = put v h := by
  unfold fillField
  by_cases hv : v = zero
  · rw [if_neg (fun hc => hc.1 hv), hv, ← hzero, hput]
  · rw [if_pos ⟨hv, hzero⟩]

theorem fillVersion_eq (v : UInt32) (hzero : h.version = 0) :
    fillVersion v h = { h with version := v } := fillField_eq rfl hzero

theorem fillTimestampUnix_eq (v : Int64) (hzero : h.timestampUnix = 0) :
    fillTimestampUnix v h = { h with timestampUnix := v } := fillField_eq rfl hzero

theorem fillDifficultyBits_eq (v : UInt32) (hzero : h.difficultyBits = 0) :
    fillDifficultyBits v h = { h with difficultyBits := v } := fillField_eq rfl hzero

theorem fillDifficulty_eq (v : UInt32) (hzero : h.difficulty = 0) :
    fillDifficulty v h = { h with difficulty := v } := fillField_eq rfl hzero

theorem fillNonce_eq (v : UInt64) (hzero : h.nonce = 0) :
    fillNonce v h = { h with nonce := v } := fillField_eq rfl hzero

theorem decodeField_hex (what : String) (s : Bytes) :
    decodeField what (Hex.encodeToString s) = .ok s := by
  rw [decodeField, Hex.decodeString_encodeToString]

theorem fillPrevHash_hex (s : Bytes) (hnil : h.prevHash = []) :
    fillPrevHash (Hex.encodeToString s) h = .ok { h with prevHash := s } := by
  unfold fillPrevHash
  by_cases hs : s = []
  · rw [if_pos (Hex.encodeToString_eq_nil.mpr hs), hs, ← hnil]
    rfl
  · rw [if_neg (fun h => hs (Hex.encodeToString_eq_nil.mp h)), decodeField_hex]
    show Except.ok (if h.prevHash = [] then { h with prevHash := s } else h) = _
    rw [if_pos hnil]

theorem fillStateRoot_hex (s : Bytes) (hnil : h.stateRoot = []) :
    fillStateRoot (Hex.encodeToString s) h = .ok { h with stateRoot := s } := by
  unfold fillStateRoot
  by_cases hs : s = []
  · rw [if_neg (fun hc => hc.1 (Hex.encodeToString_eq_nil.mpr hs)), hs, ← hnil]
    rfl
  · rw [if_pos ⟨fun h => hs (Hex.encodeToString_eq_nil.mp h), hnil⟩, decodeField_hex]
    rfl

theorem fillMerkleRoot_hex (s : Option Bytes) (hnil : h.merkleRoot = none) :
    fillMerkleRoot (Hex.encodeToString (sliceBytes s)) h
      = .ok { h with merkleRoot := rereadSlice s } := by
  unfold fillMerkleRoot rereadSlice
  by_cases hs : sliceBytes s = []
  · rw [if_neg (fun hc => hc.1 (Hex.encodeToString_eq_nil.mpr hs)), if_pos hs, ← hnil]
    rfl
  · have hsome : some (sliceBytes s) = s := by
      cases s with
      | none => exact absurd rfl hs
      | some s => rfl
    have hslice : sliceBytes h.merkleRoot = [] := by rw [hnil]; rfl
    rw [if_pos ⟨fun h => hs (Hex.encodeToString_eq_nil.mp h), hslice⟩, if_neg hs,
      decodeField_hex]
    show Except.ok { h with merkleRoot := some (sliceBytes s) } = _
    rw [hsome]

theorem Block.legacy_migrate (b : Block) : b.legacy.migrate = .ok b.reread.header := by
  unfold BlockLegacyJSON.migrate Block.legacy
  rw [fillVersion_eq _ rfl, fillPrevHash_hex _ rfl]
  dsimp only [bind, Except.bind]
  rw [fillTimestampUnix_eq _ rfl, fillDifficultyBits_eq _ rfl, fillDifficulty_eq _ rfl,
    fillNonce_eq _ rfl, fillStateRoot_hex _ rfl]
  dsimp only
  rw [fillMerkleRoot_hex _ rfl]
  rfl

theorem decodeHash_hex (s : Bytes) : decodeHash (Hex.encodeToString s) = .ok s := by
  unfold decodeHash
  by_cases hs : s = []
  · rw [if_pos (Hex.encodeToString_eq_nil.mpr hs), hs]
  · rw [if_neg (fun h => hs (Hex.encodeToString_eq_nil.mp h))]
    exact decodeField_hex _ s

theorem Block.legacy_toBlock (b : Block) : b.legacy.toBlock b.ptr = .ok b.reread := by
  have hhash : decodeHash b.legacy.hash = .ok b.hash := decodeHash_hex b.hash
  unfold BlockLegacyJSON.toBlock
  rw [hhash, b.legacy_migrate]
  rfl

theorem Block.unmarshalJSON_of_ofJson {ptr : Nat} {l : BlockLegacyJSON}
    (h : BlockLegacyJSON.ofJson j = .ok l) : Block.unmarshalJSON ptr j = l.toBlock ptr := by
  rw [Block.unmarshalJSON, h]

/-- **Reading a block that was written.** -/
theorem Block.unmarshalJSON_json (b : Block) : Block.unmarshalJSON b.ptr b.json = .ok b.reread := by
  rw [Block.unmarshalJSON_of_ofJson (BlockLegacyJSON.ofJson_json b), b.legacy_toBlock]

/-! ## Which blocks come back as they were -/

/-- A transaction whose strings are valid UTF-8 and whose byte slices are nil if they are
empty. -/
structure Transaction.Plain (t : Transaction) : Prop where
  type : Json.ValidUtf8 t.type.name
  fromPubKey : t.fromPubKey ≠ some []
  toAddress : Json.ValidUtf8 t.toAddress
  data : Json.ValidUtf8 t.data
  signature : t.signature ≠ some []

/-- A block without copies of height and miner address in its header, whose strings are valid
UTF-8 and whose byte slices are nil if they are empty. -/
structure Block.Plain (b : Block) : Prop where
  /-- no height in the header -/
  headerHeight : b.header.height = 0
  /-- no miner address in the header -/
  headerMinerAddress : b.header.minerAddress = []
  merkleRoot : b.header.merkleRoot ≠ some []
  transactions : ∀ t ∈ b.transactions, t.Plain
  coinbaseTx : ∀ t ∈ b.coinbaseTx, t.Plain
  minerAddress : Json.ValidUtf8 b.minerAddress
  totalWork : Json.ValidUtf8 b.totalWork

theorem rereadSlice_eq_self_iff (s : Option Bytes) : rereadSlice s = s ↔ s ≠ some [] := by
  cases s with
  | none => simp [rereadSlice, sliceBytes]
  | some bs => cases bs <;> simp [rereadSlice, sliceBytes]

theorem Transaction.reread_eq_self_iff (t : Transaction) : t.reread = t ↔ t.Plain := by
  have htype : TransactionType.ofName (Json.coerceUtf8 0 t.type.name) = t.type
      ↔ Json.ValidUtf8 t.type.name := by
    rw [Json.ValidUtf8, ← Json.coerceUtf8_eq_self_iff]
    constructor
    · intro h
      have hname := congrArg TransactionType.name h
      rw [TransactionType.name_ofName] at hname
      exact hname
    · intro h
      rw [h, TransactionType.ofName_name]
  constructor
  · intro h
    exact ⟨htype.mp (congrArg Transaction.type h),
      (rereadSlice_eq_self_iff _).mp (congrArg Transaction.fromPubKey h),
      (Json.coerceUtf8_eq_self_iff 0 _).mp (congrArg Transaction.toAddress h),
      (Json.coerceUtf8_eq_self_iff 0 _).mp (congrArg Transaction.data h),
      (rereadSlice_eq_self_iff _).mp (congrArg Transaction.signature h)⟩
  · intro h
    unfold Transaction.reread
    rw [htype.mpr h.type, (rereadSlice_eq_self_iff _).mpr h.fromPubKey,
      (Json.coerceUtf8_eq_self_iff 0 _).mpr h.toAddress,
      (Json.coerceUtf8_eq_self_iff 0 _).mpr h.data, (rereadSlice_eq_self_iff _).mpr h.signature]

theorem Block.reread_eq_self_iff (b : Block) : b.reread = b ↔ b.Plain := by
  have htxs : b.transactions.map Transaction.reread = b.transactions
      ↔ ∀ t ∈ b.transactions, t.Plain := by
    conv_lhs => rhs; rw [← List.map_id b.transactions]
    rw [List.map_inj_left]
    exact forall₂_congr fun t _ => t.reread_eq_self_iff
  have hcoinbase : b.coinbaseTx.map Transaction.reread = b.coinbaseTx
      ↔ ∀ t ∈ b.coinbaseTx, t.Plain := by
    cases b.coinbaseTx with
    | none => simp
    | some t => simp [Transaction.reread_eq_self_iff]
  constructor
  · intro h
    have hheader := congrArg Block.header h
    exact ⟨(congrArg BlockHeader.height hheader).symm,
      (congrArg BlockHeader.minerAddress hheader).symm,
      (rereadSlice_eq_self_iff _).mp (congrArg BlockHeader.merkleRoot hheader),
      htxs.mp (congrArg Block.transactions h), hcoinbase.mp (congrArg Block.coinbaseTx h),
      (Json.coerceUtf8_eq_self_iff 0 _).mp (congrArg Block.minerAddress h),
      (Json.coerceUtf8_eq_self_iff 0 _).mp (congrArg Block.totalWork h)⟩
  · intro h
    unfold Block.reread
    rw [htxs.mpr h.transactions, hcoinbase.mpr h.coinbaseTx,
      (Json.coerceUtf8_eq_self_iff 0 _).mpr h.minerAddress,
      (Json.coerceUtf8_eq_self_iff 0 _).mpr h.totalWork,
      (rereadSlice_eq_self_iff _).mpr h.merkleRoot, ← h.headerHeight, ← h.headerMinerAddress]

/-- **The round trip.** Reading the text of a block gives the block back exactly if its header
has no copies of height and miner address, its strings are valid UTF-8 and no byte slice is
empty without being nil. -/
theorem unmarshalJSON_json_iff (b : Block) :
    Block.unmarshalJSON b.ptr b.json = .ok b ↔ b.Plain := by
  rw [Block.unmarshalJSON_json, Except.ok.injEq]
  exact b.reread_eq_self_iff

/-- A block as the miner builds it, with its height in the header. -/
def minedBlock : Block :=
  let b := sampleBlock [1] [] 1 1 []
  { b with header := { b.header with height := 1 } }

/-- **The height in the header is lost.** -/
theorem header_height_is_lost :
    Block.unmarshalJSON minedBlock.ptr minedBlock.json ≠ .ok minedBlock
      ∧ minedBlock.header.height = 1
      ∧ (Block.unmarshalJSON minedBlock.ptr minedBlock.json).toOption.map (·.header.height)
        = some 0 := by
  decide +kernel

end NogoChain
