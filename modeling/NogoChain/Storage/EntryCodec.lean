import NogoChain.Lib.Prog
import NogoChain.Storage.AddressIndex

/-!
# Entries of the address index as bytes

The database holds an entry as numbers of fixed width, four texts with their lengths, and a byte
for the type. The position in the block is written with 32 bits; the reader takes any byte for
a type, and does not ask what follows it.
-/

namespace NogoChain

open Prog

/-! ## A reader of bytes -/

/-- What is read with a `bytes.Reader`, whose state is what it has not read. No call panics. -/
abbrev Reader := Prog Bytes GoError Empty

/-- `binary.Read` of a number of `k` bytes. -/
def readFixed (k : Nat) : Reader (BitVec (8 * k)) := fun s =>
  match readFull k s with
  | none => .err (.new (if s = [] then "EOF" else "unexpected EOF")) []
  | some (digits, rest) => .ret (.ofNat _ (ofBigEndian digits)) rest

/-- `Read` into a buffer of `n` bytes; it may get fewer. -/
def readBytes (n : Nat) : Reader Bytes := fun s =>
  if s = [] then .err (.new "EOF") []
  else .ret (s.take n ++ List.replicate (n - s.length) 0) (s.drop n)

/-- A text with its length; nothing is read for an address of length 0. -/
def readSized (isAddress : Bool) : Reader Bytes := do
  let n ← readFixed 2
  if isAddress ∧ n = 0 then pure [] else readBytes n.toNat

/-- A text with its length of 16 bits; nothing is written for an address if that is 0. -/
def sized (isAddress : Bool) (text : Bytes) : Bytes :=
  bigEndian 2 text.length ++ if isAddress ∧ text.length % 65536 = 0 then [] else text

variable {s t a : Bytes} {isAddress : Bool}

theorem readFixed_eq_ret {k : Nat} {n : BitVec (8 * k)} :
    readFixed k s = .ret n t ↔ s = bigEndian k n.toNat ++ t := by
  have hpow (k : Nat) : 2 ^ (8 * k) = 256 ^ k := pow_mul 2 8 k
  unfold readFixed
  constructor
  · intro h
    split at h
    · cases h
    · next digits rest hread =>
      obtain ⟨rfl, rfl⟩ := Outcome.ret.inj h
      obtain ⟨rfl, rfl⟩ := readFull_eq_some.mp hread
      rw [BitVec.toNat_ofNat, hpow, Nat.mod_eq_of_lt (ofBigEndian_lt digits), bigEndian_ofBigEndian]
  · rintro rfl
    rw [readFull_eq_some.mpr ⟨bigEndian_length k _, rfl⟩]
    dsimp only
    rw [ofBigEndian_bigEndian k (hpow k ▸ n.isLt), BitVec.ofNat_toNat, BitVec.setWidth_eq]

/-- A read that gets fewer bytes leaves none. -/
theorem readBytes_eq_ret {n : Nat} (ht : t ≠ []) :
    readBytes n s = .ret a t ↔ a.length = n ∧ s = a ++ t := by
  unfold readBytes
  constructor
  · intro h
    split at h
    · cases h
    · obtain ⟨rfl, rfl⟩ := Outcome.ret.inj h
      have hlong : n < s.length := Nat.lt_of_not_le fun hle => ht (List.drop_eq_nil_of_le hle)
      simp [Nat.sub_eq_zero_of_le hlong.le, hlong.le]
  · rintro ⟨rfl, rfl⟩
    simp [ht]

theorem sized_eq (h : a.length < 65536) : sized isAddress a = bigEndian 2 a.length ++ a := by
  rw [sized, Nat.mod_eq_of_lt h]
  split
  · next hnil => rw [List.length_eq_zero_iff.mp hnil.2]
  · rfl

/-- A text is read back where something follows it. -/
theorem readSized_eq_ret (ht : t ≠ []) :
    readSized isAddress s = .ret a t ↔ a.length < 65536 ∧ s = sized isAddress a ++ t := by
  have hread (n : BitVec 16) (u : Bytes) : (if isAddress ∧ n = 0 then pure [] else readBytes n.toNat
      : Reader Bytes) u = .ret a t ↔ a.length = n.toNat ∧ u = a ++ t := by
    split
    · next h =>
      rw [h.2, pure_apply, Outcome.ret.injEq]
      constructor
      · rintro ⟨rfl, rfl⟩
        exact ⟨rfl, rfl⟩
      · rintro ⟨hlen, rfl⟩
        obtain rfl := List.length_eq_zero_iff.mp hlen
        exact ⟨rfl, rfl⟩
    · exact readBytes_eq_ret ht
  simp only [readSized, bind_eq_ret, readFixed_eq_ret, hread]
  constructor
  · rintro ⟨n, _, rfl, hlen, rfl⟩
    have hlt : a.length < 65536 := hlen ▸ n.isLt
    exact ⟨hlt, by rw [sized_eq hlt, hlen, List.append_assoc]⟩
  · rintro ⟨hlt, rfl⟩
    have hn : (BitVec.ofNat 16 a.length).toNat = a.length := Nat.mod_eq_of_lt hlt
    exact ⟨.ofNat 16 a.length, a ++ t, by rw [hn, sized_eq hlt, List.append_assoc], hn.symm, rfl⟩

/-! ## Entries -/

/-- The type of an entry as `serializeEntry` writes it. -/
def typeByte : TransactionType → UInt8
  | .coinbase => 0
  | .transfer => 1
  | .other _ => 0

/-- The type as `deserializeEntry` reads it. -/
def typeOfByte (b : UInt8) : TransactionType := if b = 0 then .coinbase else .transfer

/-- What `serializeEntry` writes before the type. -/
def AddressIndexEntry.layout (e : AddressIndexEntry) (txId blockHash : Bytes) : Bytes :=
  bigEndian 8 e.height.toNat ++ (bigEndian 4 e.index.toInt32.toUInt32.toNat ++
    (bigEndian 8 e.amount.toNat ++ (bigEndian 8 e.fee.toNat ++ (bigEndian 8 e.nonce.toNat ++
      (bigEndian 8 e.timestamp.toUInt64.toNat ++ (sized false txId ++ (sized false blockHash ++
        (sized true e.fromAddr ++ sized true e.toAddress))))))))

def serializeEntry (e : AddressIndexEntry) : Except GoError Bytes := do
  let txId ← Hex.decodeString e.txId
  let blockHash ← Hex.decodeString e.blockHash
  .ok (e.layout txId blockHash ++ [typeByte e.type])

def deserializeEntry : Reader AddressIndexEntry := do
  let height ← readFixed 8
  let index ← readFixed 4
  let amount ← readFixed 8
  let fee ← readFixed 8
  let nonce ← readFixed 8
  let timestamp ← readFixed 8
  let txId ← readSized false
  let blockHash ← readSized false
  let fromAddr ← readSized true
  let toAddress ← readSized true
  let type ← readFixed 1
  pure { txId := Hex.encodeToString txId, height := .ofBitVec height
         blockHash := Hex.encodeToString blockHash
         index := (UInt32.ofBitVec index).toInt32.toInt64, fromAddr := fromAddr
         toAddress := toAddress, amount := .ofBitVec amount, fee := .ofBitVec fee
         nonce := .ofBitVec nonce, timestamp := (UInt64.ofBitVec timestamp).toInt64
         type := typeOfByte (.ofBitVec type) }

/-- The hashes are hex, and the lengths of the texts fit in 16 bits. -/
structure AddressIndexEntry.Fits (e : AddressIndexEntry) (txId blockHash : Bytes) : Prop where
  txId : e.txId = Hex.encodeToString txId ∧ txId.length < 65536
  blockHash : e.blockHash = Hex.encodeToString blockHash ∧ blockHash.length < 65536
  fromAddr : e.fromAddr.length < 65536
  toAddress : e.toAddress.length < 65536

variable {e : AddressIndexEntry} {txId blockHash data : Bytes}

/-- **What is read is what was written**, for a position of 32 bits. -/
theorem deserializeEntry_eq_ret :
    deserializeEntry s = .ret e t ↔ ∃ txId blockHash type, e.Fits txId blockHash
      ∧ e.index.toInt32.toInt64 = e.index ∧ e.type = typeOfByte type
      ∧ s = e.layout txId blockHash ++ type :: t := by
  have hbyte (type : BitVec (8 * 1)) : bigEndian 1 type.toNat = [.ofBitVec type] := by
    have hlt : type.toNat < 256 := type.isLt
    simp [bigEndian, littleEndian, ← UInt8.toNat_inj, hlt]
  simp only [deserializeEntry, bind_eq_ret, readFixed_eq_ret, hbyte, pure_apply, Outcome.ret.injEq]
  constructor
  · rintro ⟨height, _, rfl, index, _, rfl, amount, _, rfl, fee, _, rfl, nonce, _, rfl, timestamp, _,
      rfl, txId, _, h₁, blockHash, _, h₂, fromAddr, _, h₃, toAddress, _, h₄, type, _, rfl, rfl, rfl⟩
    -- something follows each of the texts
    obtain ⟨hto, rfl⟩ := (readSized_eq_ret (by simp)).mp h₄
    obtain ⟨hfrom, rfl⟩ := (readSized_eq_ret (by simp)).mp h₃
    obtain ⟨hhash, rfl⟩ := (readSized_eq_ret (by simp)).mp h₂
    obtain ⟨htx, rfl⟩ := (readSized_eq_ret (by simp)).mp h₁
    have hindex := Int32.toInt32_toInt64 (UInt32.ofBitVec index).toInt32
    refine ⟨txId, blockHash, .ofBitVec type, ⟨⟨rfl, htx⟩, ⟨rfl, hhash⟩, hfrom, hto⟩,
      congrArg Int32.toInt64 hindex, rfl, ?_⟩
    simp only [AddressIndexEntry.layout, hindex, List.append_assoc]
    rfl
  · rintro ⟨txId, blockHash, type, hfits, hindex, htype, rfl⟩
    refine ⟨e.height.toBitVec, _, ?_, e.index.toInt32.toUInt32.toBitVec, _, rfl,
      e.amount.toBitVec, _,
      rfl, e.fee.toBitVec, _, rfl, e.nonce.toBitVec, _, rfl, e.timestamp.toUInt64.toBitVec, _, rfl,
      txId, _, (readSized_eq_ret (by simp)).mpr ⟨hfits.txId.2, rfl⟩,
      blockHash, _, (readSized_eq_ret (by simp)).mpr ⟨hfits.blockHash.2, rfl⟩,
      e.fromAddr, _, (readSized_eq_ret (by simp)).mpr ⟨hfits.fromAddr, rfl⟩,
      e.toAddress, _, (readSized_eq_ret (by simp)).mpr ⟨hfits.toAddress, rfl⟩,
      type.toBitVec, t, rfl, ?_, rfl⟩
    · simp only [AddressIndexEntry.layout, List.append_assoc]
      rfl
    · obtain ⟨⟩ := e
      obtain ⟨rfl, -⟩ := hfits.txId
      obtain ⟨rfl, -⟩ := hfits.blockHash
      dsimp only at hindex htype
      rw [htype]
      exact congrArg (AddressIndexEntry.mk _ _ _ · _ _ _ _ _ _ _) hindex

theorem serializeEntry_of_fits (h : e.Fits txId blockHash) :
    serializeEntry e = .ok (e.layout txId blockHash ++ [typeByte e.type]) := by
  rw [serializeEntry, h.txId.1, h.blockHash.1]
  simp only [Hex.decodeString_encodeToString]
  rfl

/-- A position too large is read as another one, and every type is read. -/
theorem exists_deserializeEntry (h : e.Fits txId blockHash) (type : UInt8) (t : Bytes) :
    ∃ e', deserializeEntry (e.layout txId blockHash ++ type :: t) = .ret e' t := by
  have hindex := Int32.toInt32_toInt64 e.index.toInt32
  refine ⟨{ e with index := e.index.toInt32.toInt64, type := typeOfByte type },
    deserializeEntry_eq_ret.mpr ⟨txId, blockHash, type, ⟨h.1, h.2, h.3, h.4⟩,
      congrArg Int32.toInt64 hindex, rfl, ?_⟩⟩
  simp only [AddressIndexEntry.layout, hindex]

/-- Entries of a known type whose hashes are hex and whose texts are not too long. -/
structure AddressIndexEntry.Storable (e : AddressIndexEntry) : Prop where
  fits : ∃ txId blockHash, e.Fits txId blockHash
  type : e.type = .coinbase ∨ e.type = .transfer

/-- What is written for an entry. -/
def IsEncoding (data : Bytes) : Prop :=
  ∃ e, AddressIndexEntry.Storable e ∧ serializeEntry e = .ok data

theorem IsEncoding.exists_eq (h : IsEncoding data) : ∃ e txId blockHash,
    AddressIndexEntry.Fits e txId blockHash
      ∧ data = e.layout txId blockHash ++ [typeByte e.type] := by
  obtain ⟨e, ⟨⟨txId, blockHash, hfits⟩, -⟩, hdata⟩ := h
  exact ⟨e, txId, blockHash, hfits, Except.ok.inj (hdata.symm.trans (serializeEntry_of_fits hfits))⟩

/-- The position survives if it fits in 32 bits. -/
theorem toInt64_toInt32_eq_iff {i : Int64} :
    i.toInt32.toInt64 = i ↔ -2 ^ 31 ≤ i.toInt ∧ i.toInt < 2 ^ 31 := by
  rw [← Int64.toInt_inj, Int32.toInt_toInt64, Int64.toInt_toInt32, Int.bmod_eq_iff (by decide)]
  omega

/-- **Entries are read back** if and only if their position fits in 32 bits. What is cut short is
refused; and so is whatever was not written for an entry, but for a type that is not known and
for bytes that follow. -/
theorem entry_codec_iff (e : AddressIndexEntry) (data : Bytes) :
    (e.Storable → ((∃ bytes, serializeEntry e = .ok bytes ∧ deserializeEntry bytes = .ret e [])
        ↔ -2 ^ 31 ≤ e.index.toInt ∧ e.index.toInt < 2 ^ 31))
      ∧ (IsEncoding data → ∀ short cut, data = short ++ cut → cut ≠ [] →
        ∃ err rest, deserializeEntry short = .err err rest)
      ∧ (IsEncoding data ∨ (∃ err rest, deserializeEntry data = .err err rest)
        ↔ ∀ fields type rest, data = fields ++ type :: rest →
          (∃ written, IsEncoding (fields ++ [written])) → (type = 0 ∨ type = 1) ∧ rest = []) := by
  refine ⟨?_, ?_, ?_, ?_⟩
  · rintro ⟨⟨txId, blockHash, hfits⟩, htype⟩
    rw [← toInt64_toInt32_eq_iff, serializeEntry_of_fits hfits]
    simp only [Except.ok.injEq, exists_eq_left']
    constructor
    · intro h
      obtain ⟨_, _, _, -, hindex, -⟩ := deserializeEntry_eq_ret.mp h
      exact hindex
    · intro hindex
      refine deserializeEntry_eq_ret.mpr ⟨txId, blockHash, typeByte e.type, hfits, hindex, ?_, rfl⟩
      rcases htype with htype | htype
      all_goals rw [htype]; rfl
  · rintro hdata short cut rfl hcut
    cases hret : deserializeEntry short with
    | err err rest => exact ⟨err, rest, rfl⟩
    | fault x => cases x
    | ret e' rest =>
      obtain ⟨txId, blockHash, type, hfits, hindex, htype, rfl⟩ := deserializeEntry_eq_ret.mp hret
      have hlong := deserializeEntry_eq_ret.mpr
        ⟨txId, blockHash, type, hfits, hindex, htype, List.append_assoc _ (type :: rest) cut⟩
      obtain ⟨e₁, txId₁, blockHash₁, hfits₁, heq⟩ := hdata.exists_eq
      obtain ⟨e₂, hread⟩ := exists_deserializeEntry hfits₁ (typeByte e₁.type) []
      rw [heq, hread] at hlong
      exact absurd (List.append_eq_nil_iff.mp (Outcome.ret.inj hlong).2.symm).2 hcut
  · rintro h fields type rest rfl ⟨written, hwritten⟩
    obtain ⟨e₁, txId₁, blockHash₁, hfits₁, heq₁⟩ := hwritten.exists_eq
    obtain ⟨rfl, -⟩ := List.append_inj' heq₁ rfl
    obtain ⟨e₃, hread₁⟩ := exists_deserializeEntry hfits₁ type rest
    rw [hread₁] at h
    obtain ⟨e₂, txId₂, blockHash₂, hfits₂, heq₂⟩ := (h.resolve_right nofun).exists_eq
    obtain ⟨e₄, hread₂⟩ := exists_deserializeEntry hfits₂ (typeByte e₂.type) []
    rw [heq₂, hread₂] at hread₁
    obtain ⟨-, rfl⟩ := Outcome.ret.inj hread₁
    obtain rfl := List.singleton_inj.mp (List.append_inj' heq₂ rfl).2
    exact ⟨by cases e₂.type <;> simp [typeByte], rfl⟩
  · intro h
    cases hret : deserializeEntry data with
    | err err rest => exact .inr ⟨err, rest, rfl⟩
    | fault x => cases x
    | ret e' rest =>
      obtain ⟨txId, blockHash, type, hfits, -, htype, rfl⟩ := deserializeEntry_eq_ret.mp hret
      have hstorable : e'.Storable := by
        refine ⟨⟨txId, blockHash, hfits⟩, ?_⟩
        rw [htype, typeOfByte]
        split <;> simp
      obtain ⟨hknown, rfl⟩ := h _ type rest rfl ⟨_, e', hstorable, serializeEntry_of_fits hfits⟩
      refine .inl ⟨e', hstorable, ?_⟩
      rw [serializeEntry_of_fits hfits, htype]
      rcases hknown with rfl | rfl
      all_goals rfl

/-- An entry with nothing but a position. -/
def AddressIndexEntry.at (index : Int64) : AddressIndexEntry :=
  ⟨[], 0, [], index, [], [], 0, 0, 0, 0, .transfer⟩

/-- **Entries that are not read back.** The position 2³¹ comes back negative; and the type 2 is
taken for a transfer. -/
theorem entry_codec_narrows : (AddressIndexEntry.at 2147483648).Storable
    ∧ (∃ bytes, serializeEntry (.at 2147483648) = .ok bytes
      ∧ deserializeEntry bytes = .ret (.at (-2147483648)) []
      ∧ deserializeEntry (bytes.dropLast ++ [2]) = .ret (.at (-2147483648)) []) := by
  have hfits : (AddressIndexEntry.at 2147483648).Fits [] [] :=
    ⟨⟨rfl, by decide⟩, ⟨rfl, by decide⟩, by decide, by decide⟩
  exact ⟨⟨⟨[], [], hfits⟩, .inr rfl⟩, _, serializeEntry_of_fits hfits, rfl, rfl⟩

end NogoChain
