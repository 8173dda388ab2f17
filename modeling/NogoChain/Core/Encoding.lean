import NogoChain.Core.Config

/-!
# Addresses, signing preimages and transaction checks

Addresses are `NOGO` followed by hexadecimal text of either case; the decoded bytes are
data followed by a four-byte checksum. The ledger uses the text itself as the key of an
account, while the signing preimage uses the 32 bytes between the version byte and the
checksum – `decodeHex32`.

The checks of a transaction follow `Transaction.VerifyForConsensus`: the type's own
constraints in the order of the source, then the signature over the signing hash, which is
the hash of the binary preimage where that encoding is active and of a JSON text elsewhere.
-/

namespace NogoChain

variable (cr : Crypto)

/-! ## Addresses -/

def addressPrefix : Bytes := ascii "NOGO"

def checksumLen : Nat := 4

def pubKeySize : Nat := 32

def signatureSize : Nat := 64

/-- `GenerateAddress`: version byte 0, the hash of the key, a checksum. -/
def generateAddress (pubKey : Bytes) : Bytes :=
  let addressData := 0 :: cr.sha256 pubKey
  addressPrefix ++ Hex.encodeToString (addressData ++ (cr.sha256 addressData).take checksumLen)

def validateAddress (addr : Bytes) : Except GoError Unit :=
  if addr.length < addressPrefix.length + 10 then
    .error (.new "address too short")
  else if addr.take addressPrefix.length ≠ addressPrefix then
    .error (.errorf "invalid prefix, expected %s" [.str addressPrefix])
  else
    match Hex.decodeString (addr.drop addressPrefix.length) with
    | .error e => .error (.wrap "invalid hex: %w" [] e)
    | .ok decoded =>
      if decoded.length < checksumLen + 1 then
        .error (.new "invalid encoded length")
      else
        let addressData := decoded.take (decoded.length - checksumLen)
        let storedChecksum := decoded.drop (decoded.length - checksumLen)
        if storedChecksum ≠ (cr.sha256 addressData).take checksumLen then
          .error (.new "checksum mismatch")
        else .ok ()

/-- `StringToAddress`: the first 20 bytes of the decoded text, without the prefix. -/
def stringToAddress (addr : Bytes) : Except GoError Bytes :=
  let encoded := if addr.length ≥ 4 ∧ addr.take 4 = addressPrefix then addr.drop 4 else addr
  match Hex.decodeString encoded with
  | .error e => .error (.wrap "invalid address hex encoding: %w" [] e)
  | .ok decoded =>
    if decoded.length < 20 then
      .error (.errorf "address too short: expected at least 20 bytes, got %d" [.num decoded.length])
    else .ok (decoded.take 20)

/-- Bytes 1 to 32 of the 37 that a NOGO address encodes – version byte and checksum are dropped –,
or 32 bytes given as plain hexadecimal text; other lengths have their own error. -/
def decode32 (otherLength : Nat → GoError) (addrHex : Bytes) : Except GoError Bytes :=
  if addrHex.length > 4 ∧ addrHex.take 4 = addressPrefix then
    match Hex.decodeString (addrHex.drop 4) with
    | .error e => .error (.wrap "decode NOGO address: %w" [] e)
    | .ok b =>
      if b.length < 33 then .error (.new "NOGO address too short")
      else if b.length = 37 then .ok ((b.drop 1).take 32)
      else .error (.new "invalid NOGO address length")
  else
    match Hex.decodeString addrHex with
    | .error e => .error (.wrap "decode hex: %w" [] e)
    | .ok b => if b.length ≠ 32 then .error (otherLength b.length) else .ok b

def decodeHex32 : Bytes → Except GoError Bytes :=
  decode32 fun n => .wrap "expected 32 bytes, got %d: %w" [.num n] (.new "invalid hash length")

/-! ## Signing preimages -/

/-- The bytes of a signed 64-bit length-prefixed text, as both branches of the preimage
write `Data`. -/
def dataPreimage (data : Bytes) : Bytes := uleb128 9 data.length ++ data

def txSigningPreimageBinaryV1 (tx : Transaction) : Except GoError Bytes :=
  match tx.type with
  | .other _ => .error (.new "unknown tx type")
  | .coinbase =>
    if tx.chainId = 0 then .error (.new "missing chainId")
    else
      match decodeHex32 tx.toAddress with
      | .error e => .error (.wrap "invalid toAddress: %w" [] e)
      | .ok dest =>
        .ok ([1, 0] ++ littleEndian 8 tx.chainId.toNat ++ dest ++ littleEndian 8 tx.amount.toNat
          ++ dataPreimage tx.data)
  | .transfer =>
    if tx.chainId = 0 then .error (.new "missing chainId")
    else if (sliceBytes tx.fromPubKey).length ≠ pubKeySize then
      .error (.errorf "invalid fromPubKey length: %d" [.num (sliceBytes tx.fromPubKey).length])
    else
      match decodeHex32 tx.toAddress with
      | .error e => .error (.wrap "invalid toAddress: %w" [] e)
      | .ok dest =>
        .ok ([1, 1] ++ littleEndian 8 tx.chainId.toNat ++ sliceBytes tx.fromPubKey ++ dest
          ++ littleEndian 8 tx.amount.toNat ++ littleEndian 8 tx.nonce.toNat
          ++ littleEndian 8 tx.fee.toNat ++ dataPreimage tx.data)

def Transaction.fromAddress (t : Transaction) : Except GoError Bytes :=
  if t.type ≠ .transfer then
    .error (.new "from address only exists for transfer transactions")
  else if (sliceBytes t.fromPubKey).length ≠ pubKeySize then
    .error (.errorf "invalid fromPubKey length: %d, expected %d"
      [.num (sliceBytes t.fromPubKey).length, .num pubKeySize])
  else .ok (generateAddress cr (sliceBytes t.fromPubKey))

/-- The members of the `signingView` of `signingHashLegacyJSON`; `fromAddr` is empty for a
coinbase. -/
def Transaction.signingView (t : Transaction) (fromAddr : Bytes) : List (String × Json) :=
  [("type", .str t.type.name), ("chainId", .num t.chainId.toNat)]
    ++ jsonUnless fromAddr.isEmpty "fromAddr" (.str fromAddr)
    ++ [("toAddress", .str t.toAddress), ("amount", .num t.amount.toNat), ("fee", .num t.fee.toNat)]
    ++ jsonUnless (t.nonce == 0) "nonce" (.num t.nonce.toNat)
    ++ jsonUnless t.data.isEmpty "data" (.str t.data)

def Transaction.signingHashLegacyJSON (t : Transaction) : Except GoError Bytes :=
  if t.type = .transfer then
    match t.fromAddress cr with
    | .error e => .error e
    | .ok fromAddr => .ok (cr.sha256 (Json.obj (t.signingView fromAddr)).text)
  else .ok (cr.sha256 (Json.obj (t.signingView [])).text)

theorem exists_of_signingHashLegacyJSON {t : Transaction} {hash : Bytes}
    (h : t.signingHashLegacyJSON cr = .ok hash) : ∃ text, hash = cr.sha256 text := by
  unfold Transaction.signingHashLegacyJSON at h
  split at h
  · split at h
    · cases h
    · exact ⟨_, (Except.ok.inj h).symm⟩
  · exact ⟨_, (Except.ok.inj h).symm⟩

def txSigningHashBinaryV1 (tx : Transaction) : Except GoError Bytes :=
  match txSigningPreimageBinaryV1 tx with
  | .error e => .error e
  | .ok pre => .ok (cr.sha256 pre)

def txSigningHashForConsensus (tx : Transaction) (p : ConsensusParams) (height : UInt64) :
    Except GoError Bytes :=
  if p.binaryEncodingActive height then txSigningHashBinaryV1 cr tx
  else tx.signingHashLegacyJSON cr

/-! ## Transaction checks -/

namespace Transaction

def verifyCoinbase (t : Transaction) : Except GoError Unit :=
  if t.chainId = 0 then .error (.new "chainId must be set")
  else if t.amount = 0 then .error (.new "coinbase amount must be > 0")
  else
    match validateAddress cr t.toAddress with
    | .error e => .error (.wrap "invalid toAddress: %w" [] e)
    | .ok () =>
      if t.fromPubKey ≠ none ∨ t.signature ≠ none ∨ t.nonce ≠ 0 ∨ t.fee ≠ 0 then
        .error (.new "coinbase must not include fromPubKey/signature/nonce/fee")
      else .ok ()

def verifyWithSigningHash (t : Transaction) (h : Bytes) : Except GoError Unit :=
  if t.type ≠ .transfer then
    .error (.new "signature verification only applies to transfer transactions")
  else if (sliceBytes t.fromPubKey).length ≠ pubKeySize then
    .error (.errorf "invalid fromPubKey length: %d" [.num (sliceBytes t.fromPubKey).length])
  else if (sliceBytes t.signature).length ≠ signatureSize then
    .error (.errorf "invalid signature length: %d" [.num (sliceBytes t.signature).length])
  else if !cr.ed25519Verify (sliceBytes t.fromPubKey) h (sliceBytes t.signature) then
    .error (.new "invalid signature")
  else .ok ()

def verifyTransferForConsensus (t : Transaction) (p : ConsensusParams) (height : UInt64) :
    Except GoError Unit :=
  if t.amount = 0 then .error (.new "amount must be > 0")
  else
    match validateAddress cr t.toAddress with
    | .error e => .error (.wrap "invalid toAddress: %w" [] e)
    | .ok () =>
      if (sliceBytes t.fromPubKey).length ≠ pubKeySize then
        .error (.errorf "invalid fromPubKey length: %d" [.num (sliceBytes t.fromPubKey).length])
      else if (sliceBytes t.signature).length ≠ signatureSize then
        .error (.errorf "invalid signature length: %d" [.num (sliceBytes t.signature).length])
      else if t.nonce = 0 then .error (.new "nonce must be > 0")
      else if t.chainId = 0 then .error (.new "chainId must be set")
      else
        match txSigningHashForConsensus cr t p height with
        | .error e => .error e
        | .ok h => t.verifyWithSigningHash cr h

def verifyForConsensus (t : Transaction) (p : ConsensusParams) (height : UInt64) :
    Except GoError Unit :=
  match t.type with
  | .coinbase => t.verifyCoinbase cr
  | .transfer => t.verifyTransferForConsensus cr p height
  | .other name => .error (.errorf "unknown transaction type: %q" [.quoted name.1])

end Transaction

end NogoChain
