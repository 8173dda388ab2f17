import NogoChain.Core.Encoding
import NogoChain.Lib.Prog

/-!
# Applying a block to the account map

`core.applyBlockToState` writes to the map it is given while it checks: the genesis share
and the coinbase are credited before the transfers are looked at, so a block that is
refused leaves the map changed. The program below keeps that order; its outcome holds the
map at the point of the error.
-/

namespace NogoChain

open Prog

variable (cr : Crypto)

/-- Programs on the account map. They return or fail, but never fault. -/
abbrev LedgerM := Prog Ledger GoError Empty

/-- `math.MaxUint64`. -/
def maxUint64 : UInt64 := 0xFFFFFFFFFFFFFFFF

/-- Add to the balance of an account, with the overflow check that the source writes out
three times. -/
def credit (addr : Bytes) (amount : UInt64) (overflow : String) : LedgerM Unit := do
  let state ← Prog.get
  let acct := state.account addr
  if acct.balance > maxUint64 - amount then
    Prog.throw (.new overflow)
  else
    Prog.modify (·.insert addr { acct with balance := acct.balance + amount })

/-- The fees of the transfers of a block, added up in 64 bits. The caller passes the
transactions after the first. -/
def transferFees (txs : List Transaction) : UInt64 :=
  txs.foldl (fun fees tx => if tx.type ≠ .transfer then fees else fees + tx.fee) 0

/-- The amount the coinbase of a block has to carry. -/
def expectedCoinbase (mp : MonetaryPolicy) (height : UInt64) (fees : UInt64) : UInt64 :=
  mp.blockReward height * mp.minerRewardShare.toUInt64 / 100 + mp.minerFeeAmount fees

/-- The share of the reward that goes to the genesis address. -/
def genesisReward (mp : MonetaryPolicy) (height : UInt64) : UInt64 :=
  mp.blockReward height * mp.genesisShare.toUInt64 / 100

/-- The economics checks for a block above genesis, and the genesis share. -/
def applyReward (mp : MonetaryPolicy) (b : Block) (cb : Transaction) (rest : List Transaction)
    (genesisAddress : Bytes) : LedgerM Unit :=
  match validateAddress cr b.minerAddress with
  | .error e => Prog.throw (.wrap "invalid minerAddress: %w" [] e)
  | .ok () =>
    if cb.toAddress ≠ b.minerAddress then
      Prog.throw (.new "coinbase toAddress must match minerAddress")
    else
      let expected := expectedCoinbase mp b.height (transferFees rest)
      if cb.amount ≠ expected then
        Prog.throw (.errorf "bad coinbase amount: expected %d got %d"
          [.num expected.toNat, .num cb.amount.toNat])
      else if genesisReward mp b.height > 0 then
        credit genesisAddress (genesisReward mp b.height) "genesis address balance overflow"
      else pure ()

/-- One transfer: the signature, the sender's next number, the debit, the credit. -/
def applyTransfer (p : ConsensusParams) (height : UInt64) (tx : Transaction) : LedgerM Unit := do
  Prog.ofExcept (tx.verifyForConsensus cr p height)
  let fromAddr ← Prog.ofExcept (tx.fromAddress cr)
  let state ← Prog.get
  let sender := state.account fromAddr
  if sender.nonce + 1 ≠ tx.nonce then
    Prog.throw (.errorf "bad nonce for %s: expected %d got %d"
      [.str fromAddr, .num (sender.nonce + 1).toNat, .num tx.nonce.toNat])
  else if tx.amount > maxUint64 - tx.fee then
    Prog.throw (.new "transaction amount + fee overflow")
  else
    let totalDebit := tx.amount + tx.fee
    if sender.balance < totalDebit then
      Prog.throw (.errorf "insufficient funds for %s" [.str fromAddr])
    else do
      Prog.modify (·.insert fromAddr ⟨sender.balance - totalDebit, tx.nonce⟩)
      credit tx.toAddress tx.amount "transfer balance overflow"

/-- One transaction, at position `i` of the block. -/
def applyTransaction (p : ConsensusParams) (height : UInt64) (i : Nat) (tx : Transaction) :
    LedgerM Unit :=
  match tx.type with
  | .coinbase =>
    if i ≠ 0 then Prog.throw (.new "coinbase must be first")
    else do
      Prog.ofExcept (tx.verifyForConsensus cr p height)
      credit tx.toAddress tx.amount "coinbase balance overflow"
  | .transfer => applyTransfer cr p height tx
  | .other name => Prog.throw (.errorf "unknown tx type: %q" [.quoted name.1])

/-- The loop over the transactions, from position `i` on. -/
def applyTransactions (p : ConsensusParams) (height : UInt64) :
    Nat → List Transaction → LedgerM Unit
  | _, [] => pure ()
  | i, tx :: txs => do
    applyTransaction cr p height i tx
    applyTransactions p height (i + 1) txs

/-- `applyBlockToState`. The block carries its current `TotalWork`, which counts towards its
size. -/
def applyBlockToState (p : ConsensusParams) (mp : MonetaryPolicy) (b : Block)
    (genesisAddress : Bytes) : LedgerM Unit :=
  if p.maxBlockSize > 0 ∧ blockSizeForConsensus b > p.maxBlockSize.toNat then
    Prog.throw (.errorf "block too large: %d bytes (max %d)"
      [.num (blockSizeForConsensus b), .num p.maxBlockSize.toNat])
  else
    match b.transactions with
    | [] => Prog.throw (.new "block has no transactions")
    | cb :: rest =>
      if cb.type ≠ .coinbase then
        Prog.throw (.new "first tx must be coinbase")
      else if b.height > 0 then do
        applyReward cr mp b cb rest genesisAddress
        applyTransactions cr p b.height 0 b.transactions
      else
        applyTransactions cr p b.height 0 b.transactions

/-! ## Concrete data

The address every digest of which is zero, and blocks of the default configuration with
their coinbase, for runs that are evaluated. -/

/-- The address with version byte `v` of a key whose hash is zero. -/
def zeroAddress (v : UInt8) : Bytes :=
  addressPrefix ++ Hex.encodeToString (v :: List.replicate 36 0)

/-- A coinbase for `addr`. -/
def coinbaseTo (addr : Bytes) (amount : UInt64) : Transaction where
  type := .coinbase
  chainId := 1
  fromPubKey := none
  toAddress := addr
  amount := amount
  fee := 0
  nonce := 0
  data := []
  signature := none

/-- A block with the given hash, parent, height, difficulty and transactions after the
coinbase, mined to `zeroAddress 1` under the default configuration. -/
def sampleBlock (hash prevHash : Bytes) (height : UInt64) (bits : UInt32)
    (rest : List Transaction) : Block where
  ptr := height.toNat
  hash := hash
  height := height
  header :=
    { version := 2, prevHash := prevHash, timestampUnix := 0, difficultyBits := bits,
      difficulty := bits, nonce := 0, stateRoot := [], merkleRoot := none, height := 0,
      minerAddress := [] }
  transactions := coinbaseTo (zeroAddress 1) 792000000 :: rest
  coinbaseTx := none
  minerAddress := zeroAddress 1
  totalWork := []

/-! ## What the pieces do -/

variable {s t : Ledger} {p : ConsensusParams}

section Spec

variable {cr}

@[simp] theorem Ledger.account_insert (s : Ledger) (a b : Bytes) (x : Account) :
    Ledger.account (s.insert a x) b = if b = a then x else s.account b := by
  unfold Ledger.account
  split
  · next h => rw [h, Finmap.lookup_insert]; rfl
  · next h => rw [Finmap.lookup_insert_of_ne _ h]

/-- The overflow guards compare against the room that is left in 64 bits. -/
theorem gt_maxUint64_sub_iff (a b : UInt64) : a > maxUint64 - b ↔ 2 ^ 64 ≤ a.toNat + b.toNat := by
  have hb := b.toNat_lt
  have hle : b ≤ maxUint64 := by
    rw [UInt64.le_iff_toNat_le]
    simp only [maxUint64, UInt64.reduceToNat]
    omega
  rw [gt_iff_lt, UInt64.lt_iff_toNat_lt, UInt64.toNat_sub_of_le _ _ hle]
  simp only [maxUint64, UInt64.reduceToNat]
  omega

/-- **Credit.** It returns exactly when the sum fits in 64 bits. -/
theorem credit_eq_ret {a : Bytes} {n : UInt64} {o : String} :
    credit a n o s = .ret () t ↔ (s.account a).balance.toNat + n.toNat < 2 ^ 64
        ∧ t = s.insert a ⟨(s.account a).balance + n, (s.account a).nonce⟩ := by
  unfold credit
  simp only [bind_apply, get_apply, gt_maxUint64_sub_iff]
  split
  · simp only [throw_apply, reduceCtorEq, false_iff, not_and]
    omega
  · simp only [modify_apply, Outcome.ret.injEq, true_and]
    constructor
    · intro ht; exact ⟨by omega, ht.symm⟩
    · intro ht; exact ht.2.symm

variable {height : UInt64} {tx : Transaction}

/-- **Transfer.** What a transfer that goes through has checked, and what it writes: the
debit first, the credit on the map after it. -/
theorem applyTransfer_eq_ret :
    applyTransfer cr p height tx s = .ret () t
      ↔ tx.verifyForConsensus cr p height = .ok () ∧ ∃ fromAddr, tx.fromAddress cr = .ok fromAddr
        ∧ (s.account fromAddr).nonce + 1 = tx.nonce
        ∧ tx.amount.toNat + tx.fee.toNat < 2 ^ 64
        ∧ tx.amount + tx.fee ≤ (s.account fromAddr).balance
        ∧ credit tx.toAddress tx.amount "transfer balance overflow"
            (s.insert fromAddr ⟨(s.account fromAddr).balance - (tx.amount + tx.fee), tx.nonce⟩)
          = .ret () t := by
  unfold applyTransfer
  simp only [bind_eq_ret, ofExcept_eq_ret, get_apply, Outcome.ret.injEq,
    gt_maxUint64_sub_iff]
  constructor
  · rintro ⟨_, _, ⟨hv, rfl⟩, fromAddr, _, ⟨hfrom, rfl⟩, _, _, ⟨rfl, rfl⟩, h⟩
    split at h
    · simp at h
    · next hn =>
      split at h
      · simp at h
      · next ho =>
        split at h
        · simp at h
        · next hb =>
          simp only [bind_eq_ret, modify_apply, Outcome.ret.injEq] at h
          obtain ⟨_, _, ⟨_, rfl⟩, h⟩ := h
          exact ⟨hv, fromAddr, hfrom, not_not.mp hn, by omega, UInt64.not_lt.mp hb, h⟩
  · rintro ⟨hv, fromAddr, hfrom, hn, ho, hb, h⟩
    refine ⟨(), s, ⟨hv, rfl⟩, fromAddr, s, ⟨hfrom, rfl⟩, s, s, ⟨rfl, rfl⟩, ?_⟩
    rw [if_neg (not_not.mpr hn), if_neg (by omega), if_neg (UInt64.not_lt.mpr hb)]
    simp only [bind_eq_ret, modify_apply, Outcome.ret.injEq]
    exact ⟨(), _, ⟨trivial, rfl⟩, h⟩

/-- The loop over the transactions, unrolled once. -/
theorem applyTransactions_cons_eq_ret {i : Nat} {txs : List Transaction} :
    applyTransactions cr p height i (tx :: txs) s = .ret () t
      ↔ ∃ s', applyTransaction cr p height i tx s = .ret () s'
        ∧ applyTransactions cr p height (i + 1) txs s' = .ret () t := by
  rw [applyTransactions, bind_unit_eq_ret]

/-- The coinbase in first place. -/
theorem applyTransaction_coinbase_eq_ret {i : Nat} (htype : tx.type = .coinbase) :
    applyTransaction cr p height i tx s = .ret () t
      ↔ i = 0 ∧ tx.verifyForConsensus cr p height = .ok ()
        ∧ credit tx.toAddress tx.amount "coinbase balance overflow" s = .ret () t := by
  unfold applyTransaction
  simp only [htype]
  by_cases hi : i = 0
  · simp only [hi, ne_eq, not_true_eq_false, if_false, true_and, bind_eq_ret, ofExcept_eq_ret]
    exact ⟨fun ⟨_, _, ⟨hv, rfl⟩, h⟩ => ⟨hv, h⟩, fun ⟨hv, h⟩ => ⟨(), s, ⟨hv, rfl⟩, h⟩⟩
  · simp [hi]

/-! ### Acceptance of a block -/

section Acceptance

variable {mp : MonetaryPolicy} {b : Block} {cb : Transaction} {rest : List Transaction}
  {genesisAddress : Bytes}

/-- The coinbase is paid to the miner and carries the amount the policy gives. -/
def CoinbasePays (mp : MonetaryPolicy) (b : Block) (cb : Transaction) (rest : List Transaction) :
    Prop :=
  cb.toAddress = b.minerAddress ∧ cb.amount = expectedCoinbase mp b.height (transferFees rest)

theorem applyReward_eq_ret :
    applyReward cr mp b cb rest genesisAddress s = .ret () t
      ↔ validateAddress cr b.minerAddress = .ok () ∧ CoinbasePays mp b cb rest
        ∧ (if genesisReward mp b.height > 0 then
            credit genesisAddress (genesisReward mp b.height) "genesis address balance overflow" s
              = .ret () t
          else t = s) := by
  unfold applyReward CoinbasePays
  cases validateAddress cr b.minerAddress with
  | error e => simp
  | ok u =>
    by_cases hto : cb.toAddress = b.minerAddress
    · by_cases ham : cb.amount = expectedCoinbase mp b.height (transferFees rest)
      · simp only [hto, ham, ne_eq, not_true_eq_false, if_false, and_self, true_and]
        split
        · rfl
        · simp [eq_comm]
      · simp [hto, ham]
    · simp [hto]

/-- **Acceptance of a block.** -/
theorem applyBlockToState_eq_ret :
    applyBlockToState cr p mp b genesisAddress s = .ret () t
      ↔ ¬ (p.maxBlockSize > 0 ∧ blockSizeForConsensus b > p.maxBlockSize.toNat)
        ∧ ∃ cb rest, b.transactions = cb :: rest ∧ cb.type = .coinbase
          ∧ ∃ s₁, (if b.height > 0 then applyReward cr mp b cb rest genesisAddress s = .ret () s₁
              else s₁ = s)
            ∧ applyTransactions cr p b.height 0 (cb :: rest) s₁ = .ret () t := by
  unfold applyBlockToState
  by_cases hsize : p.maxBlockSize > 0 ∧ blockSizeForConsensus b > p.maxBlockSize.toNat
  · simp [hsize]
  · rw [if_neg hsize]
    cases htxs : b.transactions with
    | nil => simp
    | cons cb rest =>
      by_cases hcb : cb.type = .coinbase
      · by_cases hh : b.height > 0
        · simp [hsize, hcb, hh, bind_unit_eq_ret]
        · simp [hsize, hcb, hh]
      · simp [hcb]

end Acceptance

end Spec

end NogoChain
