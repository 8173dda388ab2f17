import NogoChain.Core.Ledger

/-!
# What a signature fixes of a transfer's effect

The binary signing preimage holds the recipient as 32 decoded bytes. The ledger keeps
accounts by the recipient's text. The map from texts to bytes is not one-to-one – the case
of a hexadecimal digit, the version byte and the checksum do not reach the preimage –, so
two transfers with the same preimage may pay different accounts.

`sameMap_iff` says exactly when they do not: the texts are equal, or the debit is refused
(then neither transfer changes anything), or the credit overflows at both recipients (then
both stop after the same debit).
-/

namespace NogoChain

open Prog

variable {cr : Crypto} {p : ConsensusParams} {height : UInt64}

/-! ## What the preimage determines -/

theorem decodeHex32_length {addr out : Bytes} (h : decodeHex32 addr = .ok out) :
    out.length = 32 := by
  unfold decodeHex32 decode32 at h
  split at h
  · split at h
    · cases h
    · split at h
      · cases h
      · split at h
        · next hlen =>
          rw [← Except.ok.inj h, List.length_take, List.length_drop, hlen]
          rfl
        · cases h
  · split at h
    · cases h
    · split at h
      · cases h
      · next hlen =>
        rw [← Except.ok.inj h]
        exact not_not.mp hlen

variable {tx : Transaction} {s : Ledger} {dest : Bytes} {amount : UInt64} {o : String}

/-- The preimage of a transfer, laid out. -/
theorem txSigningPreimageBinaryV1_transfer (htype : tx.type = .transfer)
    {pre : Bytes} (h : txSigningPreimageBinaryV1 tx = .ok pre) :
    (sliceBytes tx.fromPubKey).length = pubKeySize ∧ ∃ dest : Bytes, dest.length = 32
      ∧ pre = [1, 1] ++ littleEndian 8 tx.chainId.toNat ++ sliceBytes tx.fromPubKey ++ dest
          ++ littleEndian 8 tx.amount.toNat ++ littleEndian 8 tx.nonce.toNat
          ++ littleEndian 8 tx.fee.toNat ++ dataPreimage tx.data := by
  simp only [txSigningPreimageBinaryV1, htype] at h
  split at h
  · simp at h
  · split at h
    · simp at h
    · next hlen =>
      split at h
      · cases h
      · next dest hdec =>
        exact ⟨not_not.mp hlen, dest, decodeHex32_length hdec, (Except.ok.inj h).symm⟩

/-- **The preimage determines the debit.** Equal preimages of transfers have the same
sender, amount, number and fee. -/
theorem transfer_fields_of_preimage {t₁ t₂ : Transaction} (h₁ : t₁.type = .transfer)
    (h₂ : t₂.type = .transfer) {pre : Bytes} (hp₁ : txSigningPreimageBinaryV1 t₁ = .ok pre)
    (hp₂ : txSigningPreimageBinaryV1 t₂ = .ok pre) :
    sliceBytes t₁.fromPubKey = sliceBytes t₂.fromPubKey ∧ t₁.amount = t₂.amount
      ∧ t₁.nonce = t₂.nonce ∧ t₁.fee = t₂.fee := by
  obtain ⟨hk₁, d₁, hd₁, e₁⟩ := txSigningPreimageBinaryV1_transfer h₁ hp₁
  obtain ⟨hk₂, d₂, hd₂, e₂⟩ := txSigningPreimageBinaryV1_transfer h₂ hp₂
  -- every field before the data has a fixed width, so the fields are cut off from the right
  have h := e₁.symm.trans e₂
  have hlen : ∀ n, (littleEndian 8 n).length = 8 := littleEndian_length 8
  obtain ⟨h, _⟩ := List.append_inj h (by simp [hlen, hk₁, hk₂, hd₁, hd₂])
  obtain ⟨h, hfee⟩ := List.append_inj h (by simp [hlen, hk₁, hk₂, hd₁, hd₂])
  obtain ⟨h, hnonce⟩ := List.append_inj h (by simp [hlen, hk₁, hk₂, hd₁, hd₂])
  obtain ⟨h, hamount⟩ := List.append_inj h (by simp [hlen, hk₁, hk₂, hd₁, hd₂])
  obtain ⟨h, _⟩ := List.append_inj h (by simp [hlen, hk₁, hk₂])
  obtain ⟨_, hkey⟩ := List.append_inj h (by simp [hlen])
  exact ⟨hkey, littleEndian_uint64_inj hamount, littleEndian_uint64_inj hnonce,
    littleEndian_uint64_inj hfee⟩

/-! ## The effect of a transfer -/

/-- The address a transfer is debited from. -/
def Transaction.sender (cr : Crypto) (tx : Transaction) : Bytes :=
  generateAddress cr (sliceBytes tx.fromPubKey)

/-- The debit of a transfer is refused: wrong number, a sum that does not fit in 64 bits,
or too little balance. -/
def DebitRefused (cr : Crypto) (s : Ledger) (tx : Transaction) : Prop :=
  (s.account (tx.sender cr)).nonce + 1 ≠ tx.nonce ∨ tx.amount > maxUint64 - tx.fee
    ∨ (s.account (tx.sender cr)).balance < tx.amount + tx.fee

/-- The map after the debit of a transfer. -/
def debited (cr : Crypto) (s : Ledger) (tx : Transaction) : Ledger :=
  s.insert (tx.sender cr) ⟨(s.account (tx.sender cr)).balance - (tx.amount + tx.fee), tx.nonce⟩

/-- The credit at `dest` does not fit in 64 bits. -/
def CreditOverflows (s : Ledger) (dest : Bytes) (amount : UInt64) : Prop :=
  (s.account dest).balance > maxUint64 - amount

/-- The map after the credit at `dest`. -/
def credited (s : Ledger) (dest : Bytes) (amount : UInt64) : Ledger :=
  s.insert dest ⟨(s.account dest).balance + amount, (s.account dest).nonce⟩

/-- What a transfer that passes `VerifyForConsensus` has checked about its own fields. -/
structure Transaction.VerifiedTransfer (cr : Crypto) (tx : Transaction) (p : ConsensusParams)
    (height : UInt64) : Prop where
  amount : tx.amount ≠ 0
  toAddress : validateAddress cr tx.toAddress = .ok ()
  fromAddress : tx.fromAddress cr = .ok (tx.sender cr)
  nonce : tx.nonce ≠ 0
  chainId : tx.chainId ≠ 0
  signingHash : ∃ h, txSigningHashForConsensus cr tx p height = .ok h

theorem verified_transfer (htype : tx.type = .transfer)
    (hv : tx.verifyForConsensus cr p height = .ok ()) : tx.VerifiedTransfer cr p height := by
  simp only [Transaction.verifyForConsensus, htype, Transaction.verifyTransferForConsensus] at hv
  split at hv
  · cases hv
  · next hamount =>
    split at hv
    · cases hv
    · next haddr =>
      split at hv
      · cases hv
      · next hkey =>
        split at hv
        · cases hv
        · split at hv
          · cases hv
          · next hnonce =>
            split at hv
            · cases hv
            · next hid =>
              split at hv
              · cases hv
              · next h hhash =>
                refine ⟨hamount, haddr, ?_, hnonce, hid, h, hhash⟩
                simp [Transaction.fromAddress, htype, not_not.mp hkey, Transaction.sender]

theorem credit_state?_of_overflows
    (h : CreditOverflows s dest amount) : (credit dest amount o s).state? = some s := by
  have hguard : (s.account dest).balance > maxUint64 - amount := h
  unfold credit
  simp only [bind_apply, get_apply, if_pos hguard, throw_apply, Outcome.state?_err]

theorem credit_state?_of_fits (h : ¬ CreditOverflows s dest amount) :
    (credit dest amount o s).state? = some (credited s dest amount) := by
  have hguard : ¬ (s.account dest).balance > maxUint64 - amount := h
  unfold credit
  simp only [bind_apply, get_apply, if_neg hguard, modify_apply, Outcome.state?_ret,
    credited]

/-- **The map a verified transfer leaves**, whether it goes through or not: the map it found
if the debit is refused, otherwise the map of the credit on the debited one. -/
theorem applyTransfer_state? (htype : tx.type = .transfer)
    (hv : tx.verifyForConsensus cr p height = .ok ()) (s : Ledger) :
    (DebitRefused cr s tx → (applyTransfer cr p height tx s).state? = some s)
      ∧ (¬ DebitRefused cr s tx → (applyTransfer cr p height tx s).state?
          = (credit tx.toAddress tx.amount "transfer balance overflow"
              (debited cr s tx)).state?) := by
  have hfrom := (verified_transfer htype hv).fromAddress
  unfold applyTransfer DebitRefused
  simp only [hv, hfrom, Prog.ofExcept, bind_apply, pure_apply, get_apply,
    Prog.ite_apply]
  constructor
  · intro hrefused
    split
    · simp only [throw_apply, Outcome.state?_err]
    · next hn =>
      split
      · simp only [throw_apply, Outcome.state?_err]
      · next ho =>
        simp only [if_pos ((hrefused.resolve_left hn).resolve_left ho), throw_apply,
          Outcome.state?_err]
  · intro hok
    obtain ⟨hn, hok⟩ := not_or.mp hok
    obtain ⟨ho, hb⟩ := not_or.mp hok
    simp only [if_neg hn, if_neg ho, if_neg hb, modify_apply, debited]

theorem applyTransaction_transfer (htype : tx.type = .transfer) (i : Nat) :
    applyTransaction cr p height i tx = applyTransfer cr p height tx := by
  simp only [applyTransaction, htype]

/-! ## Same preimage, same map? -/

/-- A credit that goes through is seen at its recipient. -/
theorem credited_ne (hamount : amount ≠ 0) (hfits : ¬ CreditOverflows s dest amount) {t : Ledger}
    (ht : (t.account dest).balance = (s.account dest).balance) : credited s dest amount ≠ t := by
  intro heq
  have hbal : (s.account dest).balance + amount = (s.account dest).balance := by
    have hat : (t.account dest).balance = (s.account dest).balance + amount := by
      rw [← heq, credited, Ledger.account_insert, if_pos rfl]
    exact hat.symm.trans ht
  have hsum := congrArg UInt64.toNat hbal
  have hroom : (s.account dest).balance.toNat + amount.toNat < 2 ^ 64 := by
    have := (gt_maxUint64_sub_iff _ _).not.mp hfits
    omega
  have hpos : amount.toNat ≠ 0 := fun h0 => hamount (UInt64.toNat_inj.mp (by simpa using h0))
  rw [UInt64.toNat_add, Nat.mod_eq_of_lt hroom] at hsum
  omega

/-- Credits at two different recipients leave the same map only if both overflow. -/
theorem credit_sameMap_iff {d₁ d₂ : Bytes} (hne : d₁ ≠ d₂) (hamount : amount ≠ 0) :
    (credit d₁ amount o s).state? = (credit d₂ amount o s).state?
      ↔ CreditOverflows s d₁ amount ∧ CreditOverflows s d₂ amount := by
  by_cases h₁ : CreditOverflows s d₁ amount <;> by_cases h₂ : CreditOverflows s d₂ amount
  · rw [credit_state?_of_overflows h₁, credit_state?_of_overflows h₂]
    simp [h₁, h₂]
  · rw [credit_state?_of_overflows h₁, credit_state?_of_fits h₂, Option.some.injEq]
    exact ⟨fun h => absurd h.symm (credited_ne hamount h₂ rfl), fun h => absurd h.2 h₂⟩
  · rw [credit_state?_of_fits h₁, credit_state?_of_overflows h₂, Option.some.injEq]
    exact ⟨fun h => absurd h (credited_ne hamount h₁ rfl), fun h => absurd h.1 h₁⟩
  · rw [credit_state?_of_fits h₁, credit_state?_of_fits h₂, Option.some.injEq]
    have hframe : ((credited s d₂ amount).account d₁).balance = (s.account d₁).balance := by
      rw [credited, Ledger.account_insert, if_neg hne]
    exact ⟨fun h => absurd h (credited_ne hamount h₁ hframe), fun h => absurd h.1 h₁⟩

/-- **When the signed bytes determine the map.** Two verified transfers with the same binary
preimage leave the same map exactly when they name the recipient by the same text, or the
(common) debit is refused, or it goes through and the credit overflows at both recipients.
-/
theorem sameMap_iff (cr : Crypto) (p : ConsensusParams) (height : UInt64) (i : Nat) (s : Ledger)
    (t₁ t₂ : Transaction) (h₁ : t₁.type = .transfer) (h₂ : t₂.type = .transfer)
    (hv₁ : t₁.verifyForConsensus cr p height = .ok ())
    (hv₂ : t₂.verifyForConsensus cr p height = .ok ())
    (pre : Bytes) (hp₁ : txSigningPreimageBinaryV1 t₁ = .ok pre)
    (hp₂ : txSigningPreimageBinaryV1 t₂ = .ok pre) :
    (applyTransaction cr p height i t₁ s).state? = (applyTransaction cr p height i t₂ s).state?
      ↔ t₁.toAddress = t₂.toAddress ∨ DebitRefused cr s t₁
        ∨ (CreditOverflows (debited cr s t₁) t₁.toAddress t₁.amount
            ∧ CreditOverflows (debited cr s t₁) t₂.toAddress t₁.amount) := by
  obtain ⟨hkey, hamount, hnonce, hfee⟩ := transfer_fields_of_preimage h₁ h₂ hp₁ hp₂
  have hsender : t₁.sender cr = t₂.sender cr := by rw [Transaction.sender, hkey, Transaction.sender]
  have hdebited : debited cr s t₁ = debited cr s t₂ := by
    rw [debited, hsender, hamount, hnonce, hfee, debited]
  have hrefused : DebitRefused cr s t₁ ↔ DebitRefused cr s t₂ := by
    rw [DebitRefused, hsender, hamount, hnonce, hfee, DebitRefused]
  obtain ⟨hno₁, hyes₁⟩ := applyTransfer_state? h₁ hv₁ s
  obtain ⟨hno₂, hyes₂⟩ := applyTransfer_state? h₂ hv₂ s
  rw [applyTransaction_transfer h₁, applyTransaction_transfer h₂]
  by_cases hr : DebitRefused cr s t₁
  · rw [hno₁ hr, hno₂ (hrefused.mp hr)]
    simp [hr]
  · rw [hyes₁ hr, hyes₂ (hrefused.not.mp hr), ← hdebited, ← hamount]
    by_cases hto : t₁.toAddress = t₂.toAddress
    · simp [hto]
    · rw [credit_sameMap_iff hto (verified_transfer h₁ hv₁).amount]
      simp [hto, hr]

/-! ## The case of a digit -/

/-- A transfer of one wei by the zero key to `dest`. -/
def sampleTransfer (dest : Bytes) : Transaction where
  type := .transfer
  chainId := 1
  fromPubKey := some (List.replicate 32 0)
  toAddress := dest
  amount := 1
  fee := 0
  nonce := 1
  data := []
  signature := some (List.replicate 64 0)

/-- The same address, spelled with a lower-case and with an upper-case digit. -/
def lowerAddress : Bytes := zeroAddress 10

/-- `lowerAddress` with its one letter in upper case. -/
def upperAddress : Bytes := addressPrefix ++ ascii "0A" ++ List.replicate 72 48

/-- The default configuration with the binary encoding switched on. -/
def binaryConsensus : ConsensusParams :=
  { ConsensusParams.default with binaryEncodingEnable := true }

/-- A map in which the sender of `sampleTransfer` owns 5 wei. -/
def sampleLedger : Ledger := (∅ : Ledger).insert (zeroAddress 0) ⟨5, 0⟩

/-- `sameMap_iff` at the two spellings of one address: its hypotheses hold and its condition
does not. -/
theorem sameMap_iff_spellings :
    (applyTransaction Crypto.constant binaryConsensus 1 1 (sampleTransfer lowerAddress)
          sampleLedger).state?
        = (applyTransaction Crypto.constant binaryConsensus 1 1
            (sampleTransfer upperAddress) sampleLedger).state?
      ↔ lowerAddress = upperAddress
        ∨ DebitRefused Crypto.constant sampleLedger (sampleTransfer lowerAddress)
        ∨ (CreditOverflows
              (debited Crypto.constant sampleLedger (sampleTransfer lowerAddress)) lowerAddress 1
            ∧ CreditOverflows
              (debited Crypto.constant sampleLedger (sampleTransfer lowerAddress))
              upperAddress 1) :=
  sameMap_iff Crypto.constant binaryConsensus 1 1 sampleLedger
    (sampleTransfer lowerAddress) (sampleTransfer upperAddress) rfl rfl
    (by decide +kernel) (by decide +kernel)
    ([1, 1] ++ littleEndian 8 1 ++ List.replicate 32 0 ++ List.replicate 32 0
      ++ littleEndian 8 1 ++ littleEndian 8 1 ++ littleEndian 8 0 ++ dataPreimage [])
    (by decide +kernel) (by decide +kernel)

/-- **A signed transfer can be redirected.** Both spellings pass the consensus check and
have the same binary preimage, and the two transfers pay different accounts. -/
theorem same_preimage_other_account :
    (sampleTransfer lowerAddress).verifyForConsensus Crypto.constant binaryConsensus 1 = .ok ()
      ∧ (sampleTransfer upperAddress).verifyForConsensus Crypto.constant binaryConsensus 1 = .ok ()
      ∧ txSigningPreimageBinaryV1 (sampleTransfer lowerAddress)
        = txSigningPreimageBinaryV1 (sampleTransfer upperAddress)
      ∧ (txSigningPreimageBinaryV1 (sampleTransfer lowerAddress)).isOk = true
      ∧ (applyTransaction Crypto.constant binaryConsensus 1 1
            (sampleTransfer lowerAddress) sampleLedger).state?
        ≠ (applyTransaction Crypto.constant binaryConsensus 1 1
            (sampleTransfer upperAddress) sampleLedger).state? := by
  decide +kernel

end NogoChain
