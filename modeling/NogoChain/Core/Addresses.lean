import NogoChain.Core.SignedEffect

/-!
# Which texts are addresses

`GenerateAddress` writes one text for a key hash. `ValidateAddress` reads texts with a decoder
that takes digits of either case, asks for a least length only, and does not look at the
version byte. So it accepts more than `GenerateAddress` writes, and the account map, whose keys
are the texts, can hold several accounts for one hash. `PlainAddress` is what an accepted text
needs to be one of those written.
-/

namespace NogoChain

variable {cr : Crypto}

/-- The address of a key hash. -/
def addressOf (cr : Crypto) (hash : Bytes) : Bytes :=
  addressPrefix ++ Hex.encodeToString ((0 :: hash) ++ (cr.sha256 (0 :: hash)).take checksumLen)

/-- The text is what `GenerateAddress` writes for some hash of 32 bytes. -/
def IsGenerated (cr : Crypto) (addr : Bytes) : Prop :=
  ∃ hash : Bytes, hash.length = 32 ∧ addr = addressOf cr hash

/-- **The spelling that `GenerateAddress` uses**: 37 bytes of which the first is 0, in lower
case. -/
structure PlainAddress (addr : Bytes) : Prop where
  /-- the prefix and two digits for each of 37 bytes -/
  length : addr.length = 78
  /-- the version byte is 0 -/
  version : (addr.drop 4).take 2 = ascii "00"
  /-- no digit is in upper case -/
  lower : ∀ c ∈ addr.drop 4, Hex.isUpper c = false

variable {addr : Bytes} {p : ConsensusParams} {height : UInt64}

/-- **What `ValidateAddress` checks.** -/
theorem validateAddress_eq_ok :
    validateAddress cr addr = .ok () ↔ 14 ≤ addr.length ∧ addr.take 4 = addressPrefix
        ∧ ∃ decoded, Hex.decodeString (addr.drop 4) = .ok decoded ∧ 5 ≤ decoded.length
          ∧ decoded.drop (decoded.length - 4)
            = (cr.sha256 (decoded.take (decoded.length - 4))).take 4 := by
  have hlead : addressPrefix.length = 4 := rfl
  unfold validateAddress
  rw [hlead]
  split
  · next hshort =>
    exact ⟨nofun, fun ⟨hlength, _⟩ => absurd hlength (Nat.not_le.mpr hshort)⟩
  · next hshort =>
    by_cases hstart : addr.take 4 = addressPrefix
    · rw [if_neg (not_not.mpr hstart)]
      cases hdecode : Hex.decodeString (addr.drop 4) with
      | error e => exact ⟨nofun, fun ⟨_, _, _, h, _⟩ => nomatch h⟩
      | ok decoded =>
        dsimp only
        split
        · next hfew =>
          refine ⟨nofun, fun ⟨_, _, d, hd, hmany, _⟩ => ?_⟩
          cases hd
          exact absurd hmany (Nat.not_le.mpr hfew)
        · next hfew =>
          by_cases hsum : decoded.drop (decoded.length - checksumLen)
              = (cr.sha256 (decoded.take (decoded.length - checksumLen))).take checksumLen
          · rw [if_neg (not_not.mpr hsum)]
            exact ⟨fun _ => ⟨Nat.not_lt.mp hshort, hstart, decoded, rfl, Nat.not_lt.mp hfew, hsum⟩,
              fun _ => rfl⟩
          · rw [if_pos hsum]
            refine ⟨nofun, fun ⟨_, _, d, hd, _, hsum'⟩ => ?_⟩
            cases hd
            exact absurd hsum' hsum
    · rw [if_pos hstart]
      exact ⟨nofun, fun ⟨_, h, _⟩ => absurd h hstart⟩

/-! ## The texts that are written -/

theorem plainAddress_addressOf {hash : Bytes} (h : hash.length = 32) :
    PlainAddress (addressOf cr hash) where
  length := by
    have hdigits := Hex.length_of_decodeString (Hex.decodeString_encodeToString
      ((0 :: hash) ++ (cr.sha256 (0 :: hash)).take checksumLen))
    unfold addressOf
    rw [List.length_append, hdigits, List.length_append, List.length_cons, h, List.length_take,
      cr.sha256_length]
    rfl
  version := rfl
  lower := by
    exact Hex.isUpper_encodeToString _

/-- A text that `GenerateAddress` writes is accepted. -/
theorem validateAddress_addressOf {hash : Bytes} (h : hash.length = 32) :
    validateAddress cr (addressOf cr hash) = .ok () := by
  have hsum : ((cr.sha256 (0 :: hash)).take checksumLen).length = 4 := by
    rw [List.length_take, cr.sha256_length]
    rfl
  have hlength : ((0 :: hash) ++ (cr.sha256 (0 :: hash)).take checksumLen).length
      = (0 :: hash).length + 4 := by
    rw [List.length_append, hsum]
  refine validateAddress_eq_ok.mpr ⟨?_, rfl, _, Hex.decodeString_encodeToString _, ?_, ?_⟩
  · rw [(plainAddress_addressOf h).length]
    decide
  · rw [hlength, List.length_cons, h]
    decide
  · rw [hlength, Nat.add_sub_cancel, List.drop_left, List.take_left]
    rfl

/-- **An accepted text with the spelling of `GenerateAddress` is one it writes.** -/
theorem isGenerated_of_plain (h : validateAddress cr addr = .ok ())
    (hplain : PlainAddress addr) : IsGenerated cr addr := by
  obtain ⟨-, hstart, decoded, hdecode, -, hsum⟩ := validateAddress_eq_ok.mp h
  have hlength : decoded.length = 37 := by
    have hdigits := Hex.length_of_decodeString hdecode
    rw [List.length_drop, hplain.length] at hdigits
    omega
  -- the first two digits are those of the version byte
  obtain ⟨rest, hrest⟩ : ∃ rest, addr.drop 4 = 48 :: 48 :: rest := by
    refine ⟨(addr.drop 4).drop 2, ?_⟩
    conv_lhs => rw [← List.take_append_drop 2 (addr.drop 4), hplain.version]
    rfl
  obtain ⟨hash, hhash⟩ : ∃ hash, decoded = 0 :: hash := by
    rw [hrest] at hdecode
    obtain ⟨a, b, bs, ha, hb, -, hd⟩ := Hex.decodeString_cons_cons_eq_ok hdecode
    have hzero : Hex.value? 48 = some 0 := rfl
    rw [← Option.some.inj (hzero.symm.trans ha), ← Option.some.inj (hzero.symm.trans hb)] at hd
    exact ⟨bs, hd⟩
  rw [hlength] at hsum
  have htake : decoded.take 33 = 0 :: hash.take 32 := by rw [hhash, List.take_succ_cons]
  refine ⟨hash.take 32, ?_, ?_⟩
  · rw [hhash, List.length_cons] at hlength
    rw [List.length_take]
    omega
  · have hbytes : decoded = (0 :: hash.take 32) ++ (cr.sha256 (0 :: hash.take 32)).take 4 := by
      conv_lhs => rw [← List.take_append_drop 33 decoded, hsum, htake]
    calc addr = addr.take 4 ++ addr.drop 4 := (List.take_append_drop 4 addr).symm
      _ = addressPrefix ++ Hex.encodeToString decoded := by
          rw [hstart, ← Hex.eq_encodeToString_of_lower hdecode hplain.lower]
      _ = addressOf cr (hash.take 32) := by
          rw [hbytes]
          rfl

theorem isGenerated_iff_plain (h : validateAddress cr addr = .ok ()) :
    IsGenerated cr addr ↔ PlainAddress addr := by
  refine ⟨?_, isGenerated_of_plain h⟩
  rintro ⟨hash, hhash, rfl⟩
  exact plainAddress_addressOf hhash

/-- **Accepted texts for the same bytes** differ at most in the case of their digits. -/
theorem address_eq_iff_sameCase {a b d : Bytes} (ha : validateAddress cr a = .ok ())
    (hb : validateAddress cr b = .ok ()) (hda : Hex.decodeString (a.drop 4) = .ok d)
    (hdb : Hex.decodeString (b.drop 4) = .ok d) :
    a = b ↔ (a.drop 4).map Hex.isUpper = (b.drop 4).map Hex.isUpper := by
  obtain ⟨-, hpa, -⟩ := validateAddress_eq_ok.mp ha
  obtain ⟨-, hpb, -⟩ := validateAddress_eq_ok.mp hb
  constructor
  · rintro rfl
    rfl
  · intro hcase
    have hdigits : a.drop 4 = b.drop 4 := by
      rw [Hex.eq_encodeWith_of_decodeString hda, hcase, ← Hex.eq_encodeWith_of_decodeString hdb]
    rw [← List.take_append_drop 4 a, ← List.take_append_drop 4 b, hpa, hpb, hdigits]

/-! ## The recipients of a block -/

/-- A transfer that goes through pays its recipient, a text that `ValidateAddress` accepts. -/
theorem applyTransfer_pays {tx : Transaction}
    {s t : Ledger} (htype : tx.type = .transfer) (h : applyTransfer cr p height tx s = .ret () t) :
    validateAddress cr tx.toAddress = .ok ()
      ∧ t = credited (debited cr s tx) tx.toAddress tx.amount := by
  obtain ⟨hv, fromAddr, hfrom, -, -, -, hcredit⟩ := applyTransfer_eq_ret.mp h
  have hsender : fromAddr = tx.sender cr :=
    Except.ok.inj (hfrom.symm.trans (verified_transfer htype hv).fromAddress)
  rw [hsender] at hcredit
  exact ⟨(verified_transfer htype hv).toAddress, (credit_eq_ret.mp hcredit).2⟩

theorem exists_applyTransfer {txs : List Transaction}
    {i : Nat} {s t : Ledger} (h : applyTransactions cr p height i txs s = .ret () t) :
    ∀ tx ∈ txs, tx.type = .transfer → ∃ s' t', applyTransfer cr p height tx s' = .ret () t' := by
  induction txs generalizing i s with
  | nil => exact nofun
  | cons tx txs ih =>
    obtain ⟨s₁, hfirst, hrest⟩ := applyTransactions_cons_eq_ret.mp h
    refine List.forall_mem_cons.mpr ⟨fun htype => ?_, ih hrest⟩
    rw [applyTransaction_transfer htype] at hfirst
    exact ⟨s, s₁, hfirst⟩

/-- **Accepted addresses and those that `GenerateAddress` writes.** An accepted text is one
that is written exactly if it has the plain spelling; two accepted texts for the same bytes
are equal exactly if they agree in the case of their digits; and the recipient that a transfer
of an accepted block pays is one that is written exactly if it has the plain spelling. -/
theorem accepted_addresses (cr : Crypto) :
    (∀ addr, validateAddress cr addr = .ok () → (IsGenerated cr addr ↔ PlainAddress addr))
      ∧ (∀ a b d, validateAddress cr a = .ok () → validateAddress cr b = .ok () →
        Hex.decodeString (a.drop 4) = .ok d → Hex.decodeString (b.drop 4) = .ok d →
        (a = b ↔ (a.drop 4).map Hex.isUpper = (b.drop 4).map Hex.isUpper))
      ∧ ∀ p mp b genesisAddress s t, applyBlockToState cr p mp b genesisAddress s = .ret () t →
        ∀ tx ∈ b.transactions, tx.type = .transfer → (∃ s', applyTransfer cr p b.height tx s'
            = .ret () (credited (debited cr s' tx) tx.toAddress tx.amount))
          ∧ (IsGenerated cr tx.toAddress ↔ PlainAddress tx.toAddress) := by
  refine ⟨fun addr h => isGenerated_iff_plain h,
    fun a b d ha hb hda hdb => address_eq_iff_sameCase ha hb hda hdb, ?_⟩
  intro p mp b genesisAddress s t h tx htx htype
  obtain ⟨-, cb, rest, htxs, -, s₁, -, hall⟩ := applyBlockToState_eq_ret.mp h
  rw [htxs] at htx
  obtain ⟨s', t', happly⟩ := exists_applyTransfer hall tx htx htype
  obtain ⟨haddr, rfl⟩ := applyTransfer_pays htype happly
  exact ⟨⟨s', happly⟩, isGenerated_iff_plain haddr⟩

/-- A key hash with one letter among its digits. -/
def letteredHash : Bytes := 10 :: List.replicate 31 0

/-- The address of `letteredHash` with its letter in upper case. -/
def letteredUpper : Bytes := addressPrefix ++ ascii "000A" ++ List.replicate 70 48

/-- **An address that is accepted and not written.** It stands for the same bytes as the
address of `letteredHash`, differs from it, and an accepted block pays it. -/
theorem upper_case_address_paid :
    validateAddress Crypto.constant letteredUpper = .ok ()
      ∧ validateAddress Crypto.constant (addressOf Crypto.constant letteredHash) = .ok ()
      ∧ Hex.decodeString (letteredUpper.drop 4)
        = Hex.decodeString ((addressOf Crypto.constant letteredHash).drop 4)
      ∧ letteredUpper ≠ addressOf Crypto.constant letteredHash
      ∧ ¬ IsGenerated Crypto.constant letteredUpper
      ∧ ∃ t, applyBlockToState Crypto.constant ConsensusParams.default MonetaryPolicy.default
          (sampleBlock [1] [0] 1 10 [sampleTransfer letteredUpper]) (zeroAddress 0) sampleLedger
            = .ret () t
        ∧ (t.account letteredUpper).balance = 1 := by
  have hvalid : validateAddress Crypto.constant letteredUpper = .ok () := by decide +kernel
  refine ⟨hvalid, validateAddress_addressOf rfl, by decide +kernel, by decide +kernel, ?_,
    by decide +kernel⟩
  rw [isGenerated_iff_plain hvalid]
  intro hplain
  exact absurd (hplain.lower 65 (by decide)) (by decide)

end NogoChain
