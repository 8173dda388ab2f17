import NogoChain.Network.ShortIDs

/-!
# The round trip of a compact block

`BuildCompactBlock` gives the coinbase a short identifier like every other transaction, and
`ReconstructBlock` puts the coinbase first and then looks for every short identifier in the
pool. So the coinbase is asked for, or stands in the block twice; the block comes back as it
was only if its first transaction has no identifier at all, which a coinbase always has.
-/

namespace NogoChain

/-! ## Messages that are written and read -/

/-- The header that comes back. -/
def BlockHeader.reread (h : BlockHeader) : BlockHeader :=
  { h with
    merkleRoot := rereadSlice h.merkleRoot, minerAddress := Json.coerceUtf8 0 h.minerAddress }

theorem BlockHeader.readFields_json (h : BlockHeader) :
    BlockHeader.readFields h.json = .ok ({ BlockHeader.zero with
          version := h.version, timestampUnix := h.timestampUnix
          difficultyBits := h.difficultyBits, difficulty := h.difficulty, nonce := h.nonce
          height := h.height, minerAddress := Json.coerceUtf8 0 h.minerAddress },
        Hex.encodeToString h.prevHash, Hex.encodeToString (sliceBytes h.merkleRoot),
        Hex.encodeToString h.stateRoot) := by
  have hheight : readUInt64 "height" h.json = .ok h.height :=
    readUInt64_of_omitted (by simp [BlockHeader.json])
  have hminer : Json.readStr "minerAddress" h.json = .ok (Json.coerceUtf8 0 h.minerAddress) :=
    readStr_of_omitted (by simp [BlockHeader.json])
  rw [BlockHeader.readFields, hheight, hminer]
  simp [BlockHeader.json, Json.readStr, readUInt64, readUInt32, readInt64, Json.readNum, pure,
    Except.pure]

theorem BlockHeader.unmarshalJSON_json (h : BlockHeader) :
    BlockHeader.unmarshalJSON h.json = .ok h.reread := by
  have hstruct : readStruct BlockHeader.readFields h.json = BlockHeader.readFields h.json := rfl
  unfold BlockHeader.unmarshalJSON BlockHeader.reread rereadSlice
  rw [hstruct, h.readFields_json]
  obtain ⟨version, prevHash, time, bits, difficulty, nonce, state, root, height, miner⟩ := h
  dsimp only
  rw [decodeField_hex, decodeField_hex, decodeField_hex]
  -- an empty text leaves the field of the zero header, which is what was written
  have hroot : ∀ s : Option Bytes, sliceBytes s ≠ [] → some (sliceBytes s) = s := by
    intro s hs
    cases s with
    | none => exact absurd rfl hs
    | some bs => rfl
  by_cases hprev : prevHash = [] <;> by_cases hroot' : sliceBytes root = [] <;>
    by_cases hstate : state = [] <;>
    simp [hprev, hroot', hstate, hroot, pure, Except.pure, bind, Except.bind, BlockHeader.zero]

/-- The message that comes back. -/
def CompactBlockMsg.reread (cb : CompactBlockMsg) : CompactBlockMsg :=
  { cb with
    header := cb.header.reread
    coinbaseTx := cb.coinbaseTx.map Transaction.reread
    prevHash := Json.coerceUtf8 0 cb.prevHash
    fullHash := Json.coerceUtf8 0 cb.fullHash
    shortTxIDs := cb.shortTxIDs.map (Json.coerceUtf8 0) }

theorem uint64OfJson_num (n : UInt64) : uint64OfJson (.num n.toNat) = .ok n := by
  unfold uint64OfJson
  simp

variable {j : Json} {key : String} {id : Bytes} {k0 : UInt64} {tx : Transaction}

/-- A list that is left out when it is empty. -/
theorem readArr_of_omitted {α β : Type} {write : α → Json} {read : Json → Except GoError β}
    {g : α → β} {l : List α}
    (h : j.member? key = if l.isEmpty then none else some (.arr (l.map write)))
    (hread : ∀ a, read (write a) = .ok (g a)) : Json.readArr read key j = .ok (l.map g) := by
  rw [Json.readArr, h]
  cases l with
  | nil => rfl
  | cons a l => exact Except.mapM_map hread (a :: l)

/-- A transaction that is left out when it is nil. -/
theorem readPtr_of_omitted {t : Option Transaction} (h : j.member? key = t.map Transaction.json) :
    Json.readPtr Transaction.ofJson key j = .ok (t.map Transaction.reread) := by
  cases t with
  | none => rw [Json.readPtr, h]; rfl
  | some t => exact readPtr_coinbase (t := some t) h

@[simp] theorem lastMember_jsonUnlessNil (key k : String) (v : Option Json) :
    Json.lastMember key (jsonUnlessNil k v) = if k = key then v else none := by
  cases v <;> simp [jsonUnlessNil]

theorem readUInt8_of_omitted {n : UInt8}
    (h : j.member? key = if (n == 0) then none else some (.num n.toNat)) :
    readUInt8 key j = .ok n := by
  have hn := n.toNat_lt
  rw [readUInt8, Json.readNum, h]
  by_cases hzero : n = 0
  · rw [hzero]
    rfl
  · rw [if_neg (by simpa using hzero)]
    dsimp only
    rw [if_pos (by omega)]
    simp [Except.map]

theorem CompactBlockMsg.ofJson_json (cb : CompactBlockMsg) :
    CompactBlockMsg.ofJson cb.json = .ok cb.reread := by
  have hheader : readHeader cb.json = .ok cb.header.reread := by
    have hjson : cb.json.member? "header" = some cb.header.json := by
      simp [CompactBlockMsg.json]
    rw [readHeader, hjson]
    exact cb.header.unmarshalJSON_json
  have hcoinbase : Json.readPtr Transaction.ofJson "coinbase_tx" cb.json
      = .ok (cb.coinbaseTx.map Transaction.reread) :=
    readPtr_of_omitted (by simp [CompactBlockMsg.json])
  have hversion : readUInt8 "cmpt_version" cb.json = .ok cb.version :=
    readUInt8_of_omitted (by simp [CompactBlockMsg.json])
  have hshort : Json.readArr uint64OfJson "short_tx_ids_v2" cb.json
      = .ok (cb.shortTxIDsV2.map id) :=
    readArr_of_omitted (by simp [CompactBlockMsg.json]) uint64OfJson_num
  have hsalt : Json.readArr uint64OfJson "salt_tx_ids_v2" cb.json = .ok (cb.saltTxIDsV2.map id) :=
    readArr_of_omitted (by simp [CompactBlockMsg.json]) uint64OfJson_num
  have hold : Json.readArr stringOfJson "short_tx_ids" cb.json
      = .ok (cb.shortTxIDs.map (Json.coerceUtf8 0)) :=
    readArr_of_omitted (by simp [CompactBlockMsg.json]) fun s => (rfl : stringOfJson (.str s) = _)
  have hstruct : ∀ read : Json → Except GoError CompactBlockMsg,
      readStruct read cb.json = read cb.json := fun _ => rfl
  rw [CompactBlockMsg.ofJson, hstruct, hheader, hcoinbase, hversion, hshort, hsalt, hold]
  simp [CompactBlockMsg.json, CompactBlockMsg.reread, Json.readStr, readUInt64, Json.readNum, pure,
    Except.pure]

/-! ## The relay -/

/-- A block is sent as a compact block, read, and looked for in the pool. -/
def relayCompactBlock (cr : Crypto) (block : Block) (sessionNonce : UInt64) (ptr : Nat)
    (mp : MempoolInterface) : Option (Block × List Bytes) := do
  let cb ← buildCompactBlockV2 cr block sessionNonce
  let cb ← (deserializeCompactBlock cb.json).toOption
  (reconstructBlock ptr cb mp).toOption

/-- The block that arrives is the block that was sent. -/
structure SameBlock (b block : Block) : Prop where
  hash : b.hash = block.hash
  height : b.height = block.height
  minerAddress : b.minerAddress = block.minerAddress
  header : b.header = block.header
  transactions : b.transactions = block.transactions

/-- The pool has a transaction, under its identifier. -/
def Mempool.Has (cr : Crypto) (m : Mempool) (tx : Transaction) : Prop :=
  ∃ id e, txIDHex cr tx = .ok id ∧ m.entries.lookup id = some e ∧ e.tx = tx

/-- No two identifiers of the block and the pool have the same short identifier. -/
def NoShortCollision (cr : Crypto) (block : Block) (m : Mempool) (sessionNonce : UInt64) : Prop :=
  ∀ id id' sid, (id ∈ m.entries ∨ ∃ tx ∈ block.transactions, txIDHex cr tx = .ok id) →
    (id' ∈ m.entries ∨ ∃ tx ∈ block.transactions, txIDHex cr tx = .ok id') →
    shortIDOf sessionNonce id = some sid → shortIDOf sessionNonce id' = some sid → id = id'

/-- **The blocks that come back**, for a pool of the given size: the header has a version and a
miner, which is the one of the block; the copy of the coinbase reads as the first transaction;
that transaction has no identifier; and the pool is small, unless there is nothing to look for. -/
structure Block.Relayable (cr : Crypto) (block : Block) (coinbase : Transaction)
    (rest : List Transaction) (poolSize : Nat) : Prop where
  version : block.header.version ≠ 0
  merkleRoot : block.header.merkleRoot ≠ some []
  /-- the miner in the header can be written as text -/
  headerMiner : Json.ValidUtf8 block.header.minerAddress
  miner : block.header.minerAddress = block.minerAddress
  coinbaseTx : block.coinbaseTx.map Transaction.reread = some coinbase
  noID : ∀ id, txIDHex cr coinbase ≠ .ok id
  small : rest ≠ [] → poolSize ≤ compactBlockV2SaltThreshold

theorem BlockHeader.reread_eq_self_iff (h : BlockHeader) :
    h.reread = h ↔ h.merkleRoot ≠ some [] ∧ Json.ValidUtf8 h.minerAddress := by
  constructor
  · intro heq
    exact ⟨(rereadSlice_eq_self_iff _).mp (congrArg BlockHeader.merkleRoot heq),
      (Json.coerceUtf8_eq_self_iff 0 _).mp (congrArg BlockHeader.minerAddress heq)⟩
  · rintro ⟨hroot, hminer⟩
    unfold BlockHeader.reread
    rw [(rereadSlice_eq_self_iff _).mpr hroot, (Json.coerceUtf8_eq_self_iff 0 _).mpr hminer]

variable {cr : Crypto} {block : Block}

/-- An identifier has 64 digits, and so a short one. -/
theorem exists_shortIDOf
    (h : txIDHex cr tx = .ok id) (k0 : UInt64) : ∃ sid, shortIDOf k0 id = some sid := by
  obtain ⟨hash, rfl, hlength⟩ := exists_hash_of_txIDHex h
  unfold shortIDOf
  rw [Hex.decodeString_encodeToString]
  dsimp only
  rw [if_neg (not_not.mpr hlength)]
  exact ⟨_, rfl⟩

/-- The short identifiers of a list of transactions. -/
def shortIDs (cr : Crypto) (k0 : UInt64) (txs : List Transaction) : List UInt64 :=
  txs.filterMap fun tx => match txIDHex cr tx with
    | .error _ => none
    | .ok txID => shortIDOf k0 txID

theorem shortIDs_cons {sid : UInt64}
    (hid : txIDHex cr tx = .ok id) (hsid : shortIDOf k0 id = some sid) (txs : List Transaction) :
    shortIDs cr k0 (tx :: txs) = sid :: shortIDs cr k0 txs := by
  unfold shortIDs
  rw [List.filterMap_cons_some]
  rw [hid]
  exact hsid

theorem shortIDs_cons_of_noID (h : ∀ id, txIDHex cr tx ≠ .ok id)
    (k0 : UInt64) (txs : List Transaction) :
    shortIDs cr k0 (tx :: txs) = shortIDs cr k0 txs := by
  unfold shortIDs
  rw [List.filterMap_cons_none]
  cases hid : txIDHex cr tx with
  | error e => rfl
  | ok id => exact absurd hid (h id)

/-- The transactions that the pool has are found, in order. -/
theorem foldl_matchShortID_of_has {m : Mempool} {ids : List Bytes}
    (hids : ids.Perm m.entries.keys) {txs : List Transaction}
    (hhas : ∀ tx ∈ txs, m.Has cr tx)
    (hunique : ∀ tx ∈ txs, ∀ id id' sid, txIDHex cr tx = .ok id → id' ∈ m.entries →
      shortIDOf k0 id = some sid → shortIDOf k0 id' = some sid → id' = id) (found : Found) :
    (shortIDs cr k0 txs).foldl (fun found sid => matchShortID (m.view ids)
        ((GoMap.group (shortIDOf k0) (m.view ids).getTxIDs).lookup sid) (sidText sid) found) found
      = { found with txs := found.txs ++ txs } := by
  induction txs generalizing found with
  | nil => simp [shortIDs]
  | cons tx txs ih =>
    obtain ⟨id, e, hid, hlookup, htx⟩ := hhas tx List.mem_cons_self
    obtain ⟨sid, hsid⟩ := exists_shortIDOf hid k0
    have hmem : ∀ id', id' ∈ (m.view ids).getTxIDs ↔ id' ∈ m.entries := fun id' =>
      hids.mem_iff.trans AList.mem_keys.symm
    have hentry : id ∈ m.entries := by
      rw [← AList.lookup_isSome, hlookup]
      rfl
    have hget : (m.view ids).getTx id = some tx := by
      change (m.entries.lookup id).map (·.tx) = some tx
      rw [hlookup, Option.map_some, htx]
    rw [shortIDs_cons hid hsid, List.foldl_cons,
      matchShortID_of_unique ((hmem id).mpr hentry) hsid hget
      (fun id' hid' hsid' => hunique tx List.mem_cons_self id id' sid hid
        ((hmem id').mp hid') hsid hsid'),
      ih (fun t ht => hhas t (List.mem_cons_of_mem _ ht))
        (fun t ht => hunique t (List.mem_cons_of_mem _ ht))]
    simp

theorem shortIDs_length {m : Mempool} {txs : List Transaction}
    (hhas : ∀ tx ∈ txs, m.Has cr tx) (k0 : UInt64) : (shortIDs cr k0 txs).length = txs.length := by
  induction txs with
  | nil => rfl
  | cons tx txs ih =>
    obtain ⟨id, -, hid, -, -⟩ := hhas tx List.mem_cons_self
    obtain ⟨sid, hsid⟩ := exists_shortIDOf hid k0
    rw [shortIDs_cons hid hsid, List.length_cons, List.length_cons,
      ih fun t ht => hhas t (List.mem_cons_of_mem _ ht)]

/-- The message that is read when a block has been sent. -/
def readMsg (cr : Crypto) (block : Block) (sessionNonce : UInt64) : CompactBlockMsg where
  header := block.header.reread
  height := block.height
  coinbaseTx := block.coinbaseTx.map Transaction.reread
  prevHash := Hex.encodeToString block.header.prevHash
  nonce := sessionNonce
  fullHash := Hex.encodeToString block.hash
  version := 2
  shortTxIDsV2 := shortIDs cr sessionNonce block.transactions
  saltTxIDsV2 := []
  shortTxIDs := []

/-- The message that is read is the one that was built, up to the edges of the format. -/
theorem deserialize_built {sessionNonce : UInt64}
    {cb : CompactBlockMsg} (h : buildCompactBlockV2 cr block sessionNonce = some cb) :
    deserializeCompactBlock cb.json = if block.header.version = 0 then
          .error (.errorf "compact block has zero-version header" [])
        else .ok (readMsg cr block sessionNonce) := by
  unfold buildCompactBlockV2 at h
  split at h
  · cases h
  · cases h
    unfold deserializeCompactBlock
    rw [CompactBlockMsg.ofJson_json]
    unfold CompactBlockMsg.reread
    rw [Json.coerceUtf8_of_ascii (Hex.encodeToString_ascii _),
      Json.coerceUtf8_of_ascii (Hex.encodeToString_ascii _)]
    rfl

/-- What arrives, if the block has transactions. -/
theorem relayCompactBlock_eq_some_iff {sessionNonce : UInt64}
    {ptr : Nat} {mp : MempoolInterface} {b : Block} {missing : List Bytes}
    (htxs : block.transactions ≠ []) :
    relayCompactBlock cr block sessionNonce ptr mp = some (b, missing)
      ↔ block.header.version ≠ 0 ∧ ∃ c, block.coinbaseTx.map Transaction.reread = some c
        ∧ missing = ((readMsg cr block sessionNonce).found c mp).missingIDs
        ∧ b = { ptr, hash := block.hash, height := block.height, header := block.header.reread
                transactions := ((readMsg cr block sessionNonce).found c mp).txs
                coinbaseTx := some c, minerAddress := block.header.reread.minerAddress
                totalWork := [] } := by
  unfold relayCompactBlock
  cases hbuild : buildCompactBlockV2 cr block sessionNonce with
  | none =>
    unfold buildCompactBlockV2 at hbuild
    rw [if_neg (mt List.length_eq_zero_iff.mp htxs)] at hbuild
    cases hbuild
  | some cb =>
    rw [Option.bind_eq_bind, Option.bind_some, deserialize_built hbuild]
    split
    · next hversion =>
      exact iff_of_false (fun h => by cases h) fun h => h.1 hversion
    · next hversion =>
      change (reconstructBlock ptr (readMsg cr block sessionNonce) mp).toOption = _ ↔ _
      rw [Except.toOption_eq_some]
      unfold reconstructBlock CompactBlockMsg.block
      rw [show (readMsg cr block sessionNonce).coinbaseTx = block.coinbaseTx.map Transaction.reread
        from rfl]
      cases hc : block.coinbaseTx.map Transaction.reread with
      | none => simp
      | some c =>
        rw [show (readMsg cr block sessionNonce).fullHash = Hex.encodeToString block.hash from rfl,
          Hex.decodeString_encodeToString]
        constructor
        · intro h
          obtain ⟨rfl, rfl⟩ := Prod.mk.inj (Except.ok.inj h)
          exact ⟨hversion, c, rfl, rfl, rfl⟩
        · rintro ⟨-, c', hc', rfl, rfl⟩
          cases hc'
          rfl

section Search

variable {coinbase : Transaction} {rest : List Transaction}
variable {m : Mempool} {sessionNonce : UInt64} {ids : List Bytes}
  (htxs : block.transactions = coinbase :: rest)
include htxs

theorem readMsg_shortTxIDsV2 :
    (readMsg cr block sessionNonce).shortTxIDsV2 = shortIDs cr sessionNonce (coinbase :: rest) := by
  rw [← htxs]
  rfl

theorem readMsg_short (hshort : shortIDs cr sessionNonce (coinbase :: rest) ≠ []) :
    (readMsg cr block sessionNonce).version ≥ 2
      ∧ (readMsg cr block sessionNonce).shortTxIDsV2.length > 0 := by
  rw [readMsg_shortTxIDsV2 htxs]
  exact ⟨UInt8.le_refl 2, List.length_pos_of_ne_nil hshort⟩

/-- In a large pool, a message with short identifiers finds nothing. -/
theorem found_missingIDs_of_large (hshort : shortIDs cr sessionNonce (coinbase :: rest) ≠ [])
    (hlarge : (m.view ids).size > compactBlockV2SaltThreshold) (c : Transaction) :
    ((readMsg cr block sessionNonce).found c (m.view ids)).missingIDs ≠ [] := by
  unfold CompactBlockMsg.found
  rw [if_pos (readMsg_short htxs hshort), if_pos hlarge]
  rw [← readMsg_shortTxIDsV2 htxs] at hshort
  obtain ⟨sid, hsid⟩ := List.exists_mem_of_ne_nil _ hshort
  intro h
  -- the message has no salt
  obtain ⟨-, -, -, -, hsalt, -⟩ := (CompactBlockMsg.AllSalted.of_missingIDs h).has sid hsid
  cases hsalt

/-- In a small pool, the short identifiers are looked for one by one. -/
theorem found_of_small (hshort : shortIDs cr sessionNonce (coinbase :: rest) ≠ [])
    (hsmall : ¬ (m.view ids).size > compactBlockV2SaltThreshold) (c : Transaction) :
    (readMsg cr block sessionNonce).found c (m.view ids)
      = (shortIDs cr sessionNonce (coinbase :: rest)).foldl (fun found sid =>
          matchShortID (m.view ids)
            ((GoMap.group (shortIDOf sessionNonce) (m.view ids).getTxIDs).lookup sid) (sidText sid)
            found) ⟨[c], []⟩ := by
  unfold CompactBlockMsg.found
  rw [if_pos (readMsg_short htxs hshort), if_neg hsmall, ← readMsg_shortTxIDsV2 htxs]
  rfl

/-- **A coinbase with an identifier** is asked for, or found once more. -/
theorem not_found_of_id (hhas : ∀ tx ∈ rest, m.Has cr tx) (hid : txIDHex cr coinbase = .ok id)
    (c : Transaction) :
    ¬ (((readMsg cr block sessionNonce).found c (m.view ids)).missingIDs = []
      ∧ ((readMsg cr block sessionNonce).found c (m.view ids)).txs = coinbase :: rest) := by
  obtain ⟨sid, hsid⟩ := exists_shortIDOf hid sessionNonce
  have hcons := shortIDs_cons hid hsid rest
  have hshort : shortIDs cr sessionNonce (coinbase :: rest) ≠ [] := by
    rw [hcons]
    exact List.cons_ne_nil _ _
  rintro ⟨hmissing, hfound⟩
  by_cases hsize : (m.view ids).size > compactBlockV2SaltThreshold
  · exact found_missingIDs_of_large htxs hshort hsize c hmissing
  · rw [found_of_small htxs hshort hsize c] at hmissing hfound
    have hlength := foldl_matchShortID_length (m.view ids)
      (fun sid => (GoMap.group (shortIDOf sessionNonce) (m.view ids).getTxIDs).lookup sid) sidText
      (shortIDs cr sessionNonce (coinbase :: rest)) ⟨[c], []⟩
    rw [hmissing, hfound, hcons] at hlength
    simp only [List.length_cons, List.length_nil, shortIDs_length hhas sessionNonce] at hlength
    omega

/-- Without an identifier of the first transaction, the others are found. -/
theorem found_of_noID (hids : ids.Perm m.entries.keys) (hhas : ∀ tx ∈ rest, m.Has cr tx)
    (hdistinct : NoShortCollision cr block m sessionNonce)
    (hnoID : ∀ id, txIDHex cr coinbase ≠ .ok id)
    (hsmall : rest ≠ [] → ¬ (m.view ids).size > compactBlockV2SaltThreshold) (c : Transaction) :
    (readMsg cr block sessionNonce).found c (m.view ids) = ⟨c :: rest, []⟩ := by
  have hcons := shortIDs_cons_of_noID hnoID sessionNonce rest
  have hlength := shortIDs_length hhas sessionNonce
  by_cases hrest : rest = []
  · subst hrest
    have hnone : ¬ ((readMsg cr block sessionNonce).version ≥ 2
        ∧ (readMsg cr block sessionNonce).shortTxIDsV2.length > 0) := by
      rw [readMsg_shortTxIDsV2 htxs, hcons, hlength]
      exact fun h => absurd h.2 (Nat.lt_irrefl 0)
    unfold CompactBlockMsg.found
    rw [if_neg hnone]
    rfl
  · have hshort : shortIDs cr sessionNonce (coinbase :: rest) ≠ [] := by
      rw [hcons]
      intro h
      rw [h] at hlength
      exact hrest (List.length_eq_zero_iff.mp hlength.symm)
    rw [found_of_small htxs hshort (hsmall hrest), hcons, foldl_matchShortID_of_has hids hhas]
    · rfl
    · intro tx htx id id' sid hid hid' hsid hsid'
      refine hdistinct id' id sid (.inl hid') (.inr ⟨tx, ?_, hid⟩) hsid' hsid
      rw [htxs]
      exact List.mem_cons_of_mem _ htx

end Search

/-- **The round trip of a compact block.** For every block with a first transaction, every pool
that has the others, and every nonce without collisions of short identifiers, nothing is
missing and the block arrives as it was exactly if it is `Relayable`. -/
theorem relay_round_trip_iff (cr : Crypto) {block : Block} {coinbase : Transaction}
    {rest : List Transaction} (htxs : block.transactions = coinbase :: rest) {m : Mempool}
    {ids : List Bytes} (hids : ids.Perm m.entries.keys) (hhas : ∀ tx ∈ rest, m.Has cr tx)
    {sessionNonce : UInt64} (hdistinct : NoShortCollision cr block m sessionNonce) (ptr : Nat) :
    (∃ b, relayCompactBlock cr block sessionNonce ptr (m.view ids) = some (b, [])
        ∧ SameBlock b block)
      ↔ block.Relayable cr coinbase rest m.entries.keys.length := by
  have hne : block.transactions ≠ [] := by
    rw [htxs]
    exact List.cons_ne_nil _ _
  constructor
  · rintro ⟨b, hrelay, hsame⟩
    obtain ⟨hversion, c, hc, hmissing, rfl⟩ := (relayCompactBlock_eq_some_iff hne).mp hrelay
    have hfound := htxs ▸ hsame.transactions
    have hnoID : ∀ id, txIDHex cr coinbase ≠ .ok id := fun id hid =>
      not_found_of_id htxs hhas hid c ⟨hmissing.symm, hfound⟩
    have hsmall : rest ≠ [] → ¬ (m.view ids).size > compactBlockV2SaltThreshold := by
      intro hrest hlarge
      refine found_missingIDs_of_large htxs ?_ hlarge c hmissing.symm
      rw [shortIDs_cons_of_noID hnoID]
      intro h
      have hlength := shortIDs_length hhas sessionNonce
      rw [h] at hlength
      exact hrest (List.length_eq_zero_iff.mp hlength.symm)
    rw [found_of_noID htxs hids hhas hdistinct hnoID hsmall] at hfound
    obtain ⟨hroot, hminer⟩ := block.header.reread_eq_self_iff.mp hsame.header
    exact {
      version := hversion
      merkleRoot := hroot
      headerMiner := hminer
      miner := (congrArg BlockHeader.minerAddress hsame.header).symm.trans hsame.minerAddress
      coinbaseTx := by rw [hc, (List.cons.inj hfound).1]
      noID := hnoID
      small := fun hrest => Nat.not_lt.mp (hsmall hrest) }
  · intro h
    have hheader : block.header.reread = block.header :=
      block.header.reread_eq_self_iff.mpr ⟨h.merkleRoot, h.headerMiner⟩
    have hfound := found_of_noID htxs hids hhas hdistinct h.noID
      (fun hrest => Nat.not_lt.mpr (h.small hrest)) coinbase
    refine ⟨_, (relayCompactBlock_eq_some_iff hne).mpr
      ⟨h.version, coinbase, h.coinbaseTx, ?_, rfl⟩, ⟨rfl, rfl, ?_, hheader, ?_⟩⟩
    · rw [hfound]
    · rw [hheader, h.miner]
    · rw [hfound, htxs]

/-- **No block with a coinbase comes back**: a transaction that is not a transfer has an
identifier. -/
theorem not_relayable_of_coinbase {coinbase : Transaction}
    {rest : List Transaction} {poolSize : Nat} (hcoinbase : coinbase.type = .coinbase) :
    ¬ block.Relayable cr coinbase rest poolSize := by
  intro h
  have hhash : coinbase.signingHashLegacyJSON cr
      = .ok (cr.sha256 (Json.obj (coinbase.signingView [])).text) := by
    unfold Transaction.signingHashLegacyJSON
    rw [hcoinbase, if_neg (by decide)]
  refine h.noID (Hex.encodeToString (cr.sha256 (Json.obj (coinbase.signingView [])).text)) ?_
  unfold txIDHex
  rw [hhash]

/-- A pool with these transactions, under these identifiers. -/
def poolOf (txs : List (Bytes × Transaction)) : Mempool :=
  { newMempool 0 0 0 0 ConsensusParams.default 0 0 with
    entries := txs.foldl (fun m e => m.insert e.1 ⟨0, e.2, e.1, 0, 0, 0⟩) ∅ }

/-- A transfer without a public key: it has no identifier. -/
def keylessTransfer : Transaction := { coinbaseTo (zeroAddress 1) 1 with type := .transfer }

/-- A block with these transactions, the first of which is also its `CoinbaseTx`. -/
def relayedBlock (first : Transaction) (rest : List Transaction) : Block :=
  let b := sampleBlock [1] [] 1 1 []
  { b with
    transactions := first :: rest
    coinbaseTx := some first
    header := { b.header with minerAddress := b.minerAddress } }

theorem txIDHex_constant (h : txIDHex Crypto.constant tx = .ok id) : id = zeroID := by
  unfold txIDHex at h
  split at h
  · cases h
  · next hash hhash =>
    obtain ⟨text, rfl⟩ := exists_of_signingHashLegacyJSON _ hhash
    exact (Except.ok.inj h).symm

/-- A block whose first transaction has no identifier, and a pool with its second one. -/
theorem relay_round_trip_keyless :
    ∃ b, relayCompactBlock Crypto.constant
        (relayedBlock keylessTransfer [coinbaseTo (zeroAddress 2) 7]) 7 0
        ((poolOf [(zeroID, coinbaseTo (zeroAddress 2) 7)]).view [zeroID]) = some (b, [])
      ∧ SameBlock b (relayedBlock keylessTransfer [coinbaseTo (zeroAddress 2) 7]) := by
  have hids : [zeroID].Perm (poolOf [(zeroID, coinbaseTo (zeroAddress 2) 7)]).entries.keys :=
    List.Perm.refl _
  have hinvolved : ∀ id, (id ∈ (poolOf [(zeroID, coinbaseTo (zeroAddress 2) 7)]).entries
      ∨ ∃ tx ∈ (relayedBlock keylessTransfer [coinbaseTo (zeroAddress 2) 7]).transactions,
        txIDHex Crypto.constant tx = .ok id) → id = zeroID := by
    rintro id (hid | ⟨tx, -, hid⟩)
    · exact List.mem_singleton.mp (hids.mem_iff.mpr (AList.mem_keys.mp hid))
    · exact txIDHex_constant hid
  have hhas : ∀ tx ∈ [coinbaseTo (zeroAddress 2) 7],
      (poolOf [(zeroID, coinbaseTo (zeroAddress 2) 7)]).Has Crypto.constant tx :=
    List.forall_mem_singleton.mpr ⟨zeroID, _, by decide +kernel, rfl, rfl⟩
  refine (relay_round_trip_iff Crypto.constant rfl hids hhas
    (fun id id' _ hid hid' _ _ => (hinvolved id hid).trans (hinvolved id' hid').symm) 0).mpr ?_
  exact {
    version := by decide
    merkleRoot := by decide
    headerMiner := by decide +kernel
    miner := rfl
    coinbaseTx := by decide +kernel
    noID := fun id h => by
      have herror : (txIDHex Crypto.constant keylessTransfer).toOption = none := by decide +kernel
      rw [h] at herror
      cases herror
    small := fun _ => by decide }

/-- **The coinbase is missing**: a block with nothing but its coinbase, which is asked for. -/
theorem coinbase_is_missing :
    (relayCompactBlock Crypto.constant (relayedBlock (coinbaseTo (zeroAddress 1) 5) []) 7 0
      ((poolOf []).view [])).map (fun r => r.2) = some [ascii "sid:00008288ea40d110"] := by
  decide +kernel

end NogoChain
