import NogoChain.Core.Ledger

/-!
# The second ledger transition

Package `consensus` has its own `applyBlockToState`, which the block validator runs before
a block reaches the chain. It is a copy of the one in package `core`, and this module
compares the two on one monetary policy: `Agree` says that they accept the same blocks
with the same resulting map.

They differ in three places. The copy knows no block size limit; it does not pay the
genesis share; and it adds amount and fee of a transfer without looking at overflow. It
also checks the miner's address less strictly, but that difference cannot be seen: the
coinbase has to be paid to the same address, and its own check is the strict one.
`NoDifference` says that a block runs into none of the three, and `agree_iff_noDifference`
that this is exactly when the two functions agree on a block that either accepts.
-/

namespace NogoChain.Consensus

variable (cr : Crypto)

/-- `consensus.validateAddress`: no checksum, and plain hexadecimal text will do. -/
def validateAddress (addr : Bytes) : Except GoError Unit :=
  if addr.length < 14 then .error (.new "address too short")
  else if addr.length ≥ 4 ∧ addr.take 4 = ascii "NOGO" then
    match Hex.decodeString (addr.drop 4) with
    | .error e => .error (.wrap "invalid hex: %w" [] e)
    | .ok decoded =>
      if decoded.length < 5 then .error (.new "invalid address length") else .ok ()
  else
    match Hex.decodeString addr with
    | .error e => .error (.wrap "invalid hex address: %w" [] e)
    | .ok _ => .ok ()

/-- The economics checks for a block above genesis. -/
def checkReward (mp : MonetaryPolicy) (b : Block) (cb : Transaction) (rest : List Transaction) :
    LedgerM Unit :=
  match validateAddress b.minerAddress with
  | .error e => Prog.throw (.wrap "invalid minerAddress: %w" [] e)
  | .ok () =>
    if cb.toAddress ≠ b.minerAddress then
      Prog.throw (.new "coinbase toAddress must match minerAddress")
    else
      let expected := expectedCoinbase mp b.height (transferFees rest)
      if cb.amount ≠ expected then
        Prog.throw (.errorf "bad coinbase amount: expected %d got %d"
          [.num expected.toNat, .num cb.amount.toNat])
      else pure ()

/-- One transfer; `totalDebit` is a 64-bit sum that may wrap. -/
def applyTransfer (p : ConsensusParams) (height : UInt64) (tx : Transaction) : LedgerM Unit := do
  Prog.ofExcept (tx.verifyForConsensus cr p height)
  let fromAddr ← Prog.ofExcept (tx.fromAddress cr)
  let state ← Prog.get
  let sender := state.account fromAddr
  if sender.nonce + 1 ≠ tx.nonce then
    Prog.throw (.errorf "bad nonce for %s: expected %d got %d"
      [.str fromAddr, .num (sender.nonce + 1).toNat, .num tx.nonce.toNat])
  else
    let totalDebit := tx.amount + tx.fee
    if sender.balance < totalDebit then
      Prog.throw (.errorf "insufficient funds for %s" [.str fromAddr])
    else do
      Prog.modify (·.insert fromAddr ⟨sender.balance - totalDebit, tx.nonce⟩)
      credit tx.toAddress tx.amount "transfer balance overflow"

/-- One transaction, at position `i` of the block. -/
def applyTransaction (p : ConsensusParams) (height : UInt64) (i : Nat) (tx : Transaction) :
    LedgerM Unit :=
  match tx.type with
  | .coinbase =>
    if i ≠ 0 then Prog.throw (.new "coinbase must be first")
    else do
      Prog.ofExcept (tx.verifyForConsensus cr p height)
      credit tx.toAddress tx.amount "coinbase balance overflow"
  | .transfer => applyTransfer cr p height tx
  | .other name => Prog.throw (.errorf "unknown tx type: %q" [.quoted name.1])

/-- The loop over the transactions, from position `i` on. -/
def applyTransactions (p : ConsensusParams) (height : UInt64) :
    Nat → List Transaction → LedgerM Unit
  | _, [] => pure ()
  | i, tx :: txs => do
    applyTransaction cr p height i tx
    applyTransactions p height (i + 1) txs

/-- `consensus.applyBlockToState`. -/
def applyBlockToState (p : ConsensusParams) (b : Block) : LedgerM Unit :=
  match b.transactions with
  | [] => Prog.throw (.new "block has no transactions")
  | cb :: rest =>
    if cb.type ≠ .coinbase then
      Prog.throw (.new "first tx must be coinbase")
    else if b.height > 0 then do
      checkReward p.monetaryPolicy b cb rest
      applyTransactions cr p b.height 0 b.transactions
    else
      applyTransactions cr p b.height 0 b.transactions

/-! ## Where the two functions meet -/

/-- The three differences, as a condition on the parameters and the block: the block is
within the size limit, no genesis share is due, and the debits of its transfers fit in
64 bits. -/
structure NoDifference (p : ConsensusParams) (b : Block) : Prop where
  /-- the size limit is off or kept -/
  size : ¬ (p.maxBlockSize > 0 ∧ blockSizeForConsensus b > p.maxBlockSize.toNat)
  /-- nothing is due to the genesis address -/
  share : b.height = 0 ∨ genesisReward p.monetaryPolicy b.height = 0
  debit : ∀ tx ∈ b.transactions, tx.type = .transfer → tx.amount.toNat + tx.fee.toNat < 2 ^ 64

/-- The two functions accept the same block with the same map. -/
def Agree (p : ConsensusParams) (genesisAddress : Bytes) (s : Ledger) (b : Block) : Prop :=
  ∀ t, NogoChain.applyBlockToState cr p p.monetaryPolicy b genesisAddress s = .ret () t
    ↔ applyBlockToState cr p b s = .ret () t

/-- One of the two functions accepts the block. -/
def EitherAccepts (p : ConsensusParams) (genesisAddress : Bytes) (s : Ledger) (b : Block) : Prop :=
  ∃ t, NogoChain.applyBlockToState cr p p.monetaryPolicy b genesisAddress s = .ret () t
    ∨ applyBlockToState cr p b s = .ret () t

variable {txs : List Transaction} {i : Nat} {s t : Ledger}

section Transactions

variable {cr} {p : ConsensusParams} {height : UInt64}

theorem applyTransfer_eq_core {tx : Transaction} (h : tx.amount.toNat + tx.fee.toNat < 2 ^ 64) :
    applyTransfer cr p height tx = NogoChain.applyTransfer cr p height tx := by
  unfold applyTransfer NogoChain.applyTransfer
  have hguard : ¬ tx.amount > maxUint64 - tx.fee := by
    rw [gt_maxUint64_sub_iff]
    omega
  simp only [if_neg hguard]

/-- Where no debit wraps, the loops are the same program. -/
theorem applyTransactions_eq_core
    (h : ∀ tx ∈ txs, tx.type = .transfer → tx.amount.toNat + tx.fee.toNat < 2 ^ 64) (i : Nat) :
    applyTransactions cr p height i txs = NogoChain.applyTransactions cr p height i txs := by
  induction txs generalizing i with
  | nil => rfl
  | cons tx txs ih =>
    have htx : applyTransaction cr p height i tx = NogoChain.applyTransaction cr p height i tx := by
      unfold applyTransaction NogoChain.applyTransaction
      cases htype : tx.type with
      | coinbase => rfl
      | transfer => exact applyTransfer_eq_core (h tx List.mem_cons_self htype)
      | other name => rfl
    rw [applyTransactions, NogoChain.applyTransactions, htx,
      ih (fun tx' h' => h tx' (List.mem_cons_of_mem _ h'))]

/-- The loop of `core` stops at a debit that would wrap. -/
theorem debit_fits_of_core (h : NogoChain.applyTransactions cr p height i txs s = .ret () t) :
    ∀ tx ∈ txs, tx.type = .transfer → tx.amount.toNat + tx.fee.toNat < 2 ^ 64 := by
  induction txs generalizing i s with
  | nil => simp
  | cons tx txs ih =>
    obtain ⟨s', htx, hrest⟩ := applyTransactions_cons_eq_ret.mp h
    intro tx' hmem htype
    rcases List.mem_cons.mp hmem with rfl | hmem
    · simp only [NogoChain.applyTransaction, htype] at htx
      obtain ⟨_, _, _, _, hfits, _⟩ := applyTransfer_eq_ret.mp htx
      exact hfits
    · exact ih hrest tx' hmem htype

/-! ### Balances along the loop -/

/-- What a transaction adds to the balance of `a`. -/
def flow (cr : Crypto) (a : Bytes) (tx : Transaction) : Int :=
  (if tx.toAddress = a then (tx.amount.toNat : Int) else 0)
    - (if tx.fromAddress cr = .ok a then (tx.amount.toNat + tx.fee.toNat : Int) else 0)

theorem credit_balance {dest : Bytes} {n : UInt64} {o : String}
    (h : credit dest n o s = .ret () t) (a : Bytes) :
    ((t.account a).balance.toNat : Int)
      = (s.account a).balance.toNat + (if dest = a then (n.toNat : Int) else 0) := by
  obtain ⟨hfits, rfl⟩ := credit_eq_ret.mp h
  rw [Ledger.account_insert]
  by_cases ha : dest = a
  · subst ha
    simp only [if_true, UInt64.toNat_add]
    rw [Nat.mod_eq_of_lt hfits]
    push_cast
    rfl
  · rw [if_neg (Ne.symm ha), if_neg ha, add_zero]

/-- One transaction of `core` moves every balance by its flow. -/
theorem core_transaction_balance {tx : Transaction}
    (h : NogoChain.applyTransaction cr p height i tx s = .ret () t) (a : Bytes) :
    ((t.account a).balance.toNat : Int) = (s.account a).balance.toNat + flow cr a tx := by
  cases htype : tx.type with
  | coinbase =>
    obtain ⟨_, _, hcredit⟩ := (applyTransaction_coinbase_eq_ret htype).mp h
    have hfrom : tx.fromAddress cr ≠ .ok a := by
      simp [Transaction.fromAddress, htype]
    rw [credit_balance hcredit a, flow, if_neg hfrom, sub_zero]
  | transfer =>
    simp only [NogoChain.applyTransaction, htype] at h
    obtain ⟨_, fromAddr, hfrom, _, hfits, hfunds, hcredit⟩ := applyTransfer_eq_ret.mp h
    rw [credit_balance hcredit a, flow, hfrom, Ledger.account_insert]
    have hsum : (tx.amount + tx.fee).toNat = tx.amount.toNat + tx.fee.toNat := by
      rw [UInt64.toNat_add, Nat.mod_eq_of_lt hfits]
    by_cases ha : fromAddr = a
    · subst ha
      have hle := UInt64.le_iff_toNat_le.mp hfunds
      simp only [if_true, UInt64.toNat_sub_of_le _ _ hfunds, hsum] at hle ⊢
      omega
    · simp only [if_neg (Ne.symm ha), Except.ok.injEq, ha, if_false, sub_zero]
  | other name => simp [NogoChain.applyTransaction, htype] at h

/-- The whole loop of `core` moves every balance by the sum of the flows, from whatever
map it starts. -/
theorem core_transactions_balance
    (h : NogoChain.applyTransactions cr p height i txs s = .ret () t) (a : Bytes) :
    ((t.account a).balance.toNat : Int)
      = (s.account a).balance.toNat + (txs.map (flow cr a)).sum := by
  induction txs generalizing i s with
  | nil =>
    simp only [NogoChain.applyTransactions, Prog.pure_apply, Outcome.ret.injEq, true_and] at h
    simp [h]
  | cons tx txs ih =>
    obtain ⟨s', htx, hrest⟩ := applyTransactions_cons_eq_ret.mp h
    rw [ih hrest, core_transaction_balance htx a, List.map_cons, List.sum_cons, add_assoc]

end Transactions

/-! ## Acceptance of a block -/

section Blocks

variable {cr} {p : ConsensusParams} {mp : MonetaryPolicy} {b : Block} {cb : Transaction}
  {rest : List Transaction} {genesisAddress : Bytes}

theorem checkReward_eq_ret :
    checkReward mp b cb rest s = .ret () t
      ↔ validateAddress b.minerAddress = .ok () ∧ CoinbasePays mp b cb rest ∧ t = s := by
  unfold checkReward CoinbasePays
  cases validateAddress b.minerAddress with
  | error e => simp
  | ok u =>
    by_cases hto : cb.toAddress = b.minerAddress
    · by_cases ham : cb.amount = expectedCoinbase mp b.height (transferFees rest)
      · simp [hto, ham, eq_comm]
      · simp [hto, ham]
    · simp [hto]

/-- **Acceptance by `consensus`.** -/
theorem consensus_eq_ret :
    applyBlockToState cr p b s = .ret () t
      ↔ ∃ cb rest, b.transactions = cb :: rest ∧ cb.type = .coinbase ∧ (b.height > 0 →
            validateAddress b.minerAddress = .ok () ∧ CoinbasePays p.monetaryPolicy b cb rest)
        ∧ applyTransactions cr p b.height 0 (cb :: rest) s = .ret () t := by
  unfold applyBlockToState
  cases htxs : b.transactions with
  | nil => simp
  | cons cb rest =>
    by_cases hcb : cb.type = .coinbase
    · by_cases hh : b.height > 0
      · simp [hcb, hh, Prog.bind_unit_eq_ret, checkReward_eq_ret, and_assoc]
      · simp [hcb, hh]
    · simp [hcb]

/-- The strict address check implies the lenient one. -/
theorem validateAddress_of_core {addr : Bytes}
    (h : NogoChain.validateAddress cr addr = .ok ()) : validateAddress addr = .ok () := by
  unfold NogoChain.validateAddress at h
  split at h
  · simp at h
  · next hlen =>
    split at h
    · simp at h
    · next hlead =>
      have hlen' : ¬ addr.length < 14 := by simpa [addressPrefix, ascii] using hlen
      have hp : addr.length ≥ 4 ∧ addr.take 4 = ascii "NOGO" := by
        refine ⟨by omega, ?_⟩
        simpa [addressPrefix, ascii] using hlead
      unfold validateAddress
      rw [if_neg hlen', if_pos hp]
      split at h
      · cases h
      · next decoded hdec =>
        rw [show Hex.decodeString (addr.drop 4) = .ok decoded from hdec]
        split at h
        · cases h
        · next hd => exact if_neg hd

/-- A coinbase that passes its own check is paid to an address that passes the strict
one. -/
theorem validateAddress_of_coinbase {height : UInt64} (htype : cb.type = .coinbase)
    (h : cb.verifyForConsensus cr p height = .ok ()) :
    NogoChain.validateAddress cr cb.toAddress = .ok () := by
  simp only [Transaction.verifyForConsensus, htype, Transaction.verifyCoinbase] at h
  split at h
  · simp at h
  · split at h
    · simp at h
    · split at h
      · cases h
      · assumption

end Blocks

/-! ## The comparison -/

section Comparison

variable {cr} {p : ConsensusParams} {b : Block} {genesisAddress : Bytes}

/-- On a block that runs into none of the differences, both functions do the same. -/
theorem agree_of_noDifference (h : NoDifference p b) : Agree cr p genesisAddress s b := by
  have hloop : ∀ cb rest, b.transactions = cb :: rest →
      applyTransactions cr p b.height 0 (cb :: rest)
        = NogoChain.applyTransactions cr p b.height 0 (cb :: rest) := by
    intro cb rest htxs
    exact applyTransactions_eq_core (htxs ▸ h.debit) 0
  intro t
  rw [applyBlockToState_eq_ret, consensus_eq_ret]
  constructor
  · rintro ⟨_, cb, rest, htxs, hcb, s₁, hreward, htx⟩
    refine ⟨cb, rest, htxs, hcb, ?_, ?_⟩
    · intro hh
      rw [if_pos hh] at hreward
      obtain ⟨haddr, hpays, _⟩ := applyReward_eq_ret.mp hreward
      exact ⟨validateAddress_of_core haddr, hpays⟩
    · have hs₁ : s₁ = s := by
        by_cases hh : b.height > 0
        · rw [if_pos hh] at hreward
          have hg : ¬ genesisReward p.monetaryPolicy b.height > 0 := by
            rcases h.share with h0 | h0
            · rw [h0] at hh; exact absurd hh (by decide)
            · rw [h0]; decide
          obtain ⟨_, _, hs⟩ := applyReward_eq_ret.mp hreward
          rwa [if_neg hg] at hs
        · rwa [if_neg hh] at hreward
      rw [hloop cb rest htxs, ← hs₁]
      exact htx
  · rintro ⟨cb, rest, htxs, hcb, hchecks, htx⟩
    rw [hloop cb rest htxs] at htx
    refine ⟨h.size, cb, rest, htxs, hcb, s, ?_, htx⟩
    split
    · next hh =>
      have hg : ¬ genesisReward p.monetaryPolicy b.height > 0 := by
        rcases h.share with h0 | h0
        · rw [h0] at hh; exact absurd hh (by decide)
        · rw [h0]; decide
      -- the lenient check of the miner's address is made good by that of the coinbase
      have hstrict : NogoChain.validateAddress cr b.minerAddress = .ok () := by
        obtain ⟨s', hfirst, _⟩ := applyTransactions_cons_eq_ret.mp htx
        obtain ⟨_, hverify, _⟩ := (applyTransaction_coinbase_eq_ret hcb).mp hfirst
        rw [← (hchecks hh).2.1]
        exact validateAddress_of_coinbase hcb hverify
      rw [applyReward_eq_ret, if_neg hg]
      exact ⟨hstrict, (hchecks hh).2, rfl⟩
    · rfl

/-- If both functions accept a block with the same map, it runs into none of the
differences: beyond the size limit and at a debit that wraps only `consensus` accepts, and
a genesis share shows up in the balance of the genesis address. -/
theorem noDifference_of_same
    (hcore : NogoChain.applyBlockToState cr p p.monetaryPolicy b genesisAddress s = .ret () t)
    (hcons : applyBlockToState cr p b s = .ret () t) : NoDifference p b := by
  obtain ⟨hsize, cb, rest, htxs, hcb, s₁, hreward, htx⟩ := applyBlockToState_eq_ret.mp hcore
  have hdebit := debit_fits_of_core htx
  refine ⟨hsize, ?_, htxs ▸ hdebit⟩
  by_contra hshare
  obtain ⟨hh, hg⟩ := not_or.mp hshare
  have hpos : b.height > 0 := UInt64.pos_iff_ne_zero.mpr hh
  have hgpos : genesisReward p.monetaryPolicy b.height > 0 := UInt64.pos_iff_ne_zero.mpr hg
  rw [if_pos hpos, applyReward_eq_ret, if_pos hgpos] at hreward
  obtain ⟨_, _, hcredit⟩ := hreward
  obtain ⟨cb', rest', htxs', _, _, htx'⟩ := consensus_eq_ret.mp hcons
  obtain ⟨rfl, rfl⟩ := List.cons.inj (htxs.symm.trans htxs')
  rw [applyTransactions_eq_core hdebit] at htx'
  -- the same flows from two maps that differ in the genesis balance
  have h₁ := core_transactions_balance htx genesisAddress
  have h₂ := core_transactions_balance htx' genesisAddress
  have h₃ := credit_balance hcredit genesisAddress
  rw [if_pos rfl] at h₃
  have hgnat : 0 < (genesisReward p.monetaryPolicy b.height).toNat := by
    simpa using UInt64.lt_iff_toNat_lt.mp hgpos
  omega

/-- **When the two transitions agree.** Below the three differences they agree on every
map; and on a block that at least one of them accepts they agree only there. A block that
both refuse is no disagreement. -/
theorem agree_iff_noDifference (cr : Crypto) (p : ConsensusParams) (genesisAddress : Bytes)
    (s : Ledger) (b : Block) :
    (NoDifference p b → Agree cr p genesisAddress s b) ∧ (EitherAccepts cr p genesisAddress s b →
          (Agree cr p genesisAddress s b ↔ NoDifference p b)) := by
  refine ⟨agree_of_noDifference, ?_⟩
  rintro ⟨t, haccepts⟩
  refine ⟨fun hagree => ?_, agree_of_noDifference⟩
  rcases haccepts with hcore | hcons
  · exact noDifference_of_same hcore ((hagree t).mp hcore)
  · exact noDifference_of_same ((hagree t).mpr hcons) hcons

/-- **The two transitions disagree** on the first block of the default configuration, mined
to another address than the genesis address: both accept it, but only `core` pays the
genesis share. -/
theorem not_agree_on_first_block :
    MonetaryPolicy.default.validate = .ok () ∧ ConsensusParams.default.monetaryPolicy
        = MonetaryPolicy.default
      ∧ EitherAccepts Crypto.constant ConsensusParams.default (zeroAddress 0) ∅
          (sampleBlock [1] [] 1 1 [])
      ∧ ¬ Agree Crypto.constant ConsensusParams.default (zeroAddress 0) ∅
          (sampleBlock [1] [] 1 1 []) := by
  have hcore : NogoChain.applyBlockToState Crypto.constant ConsensusParams.default
      MonetaryPolicy.default (sampleBlock [1] [] 1 1 []) (zeroAddress 0) ∅
      = .ret () (((∅ : Ledger).insert (zeroAddress 0) ⟨8000000, 0⟩).insert (zeroAddress 1)
          ⟨792000000, 0⟩) := by
    decide +kernel
  have hcons : applyBlockToState Crypto.constant ConsensusParams.default
      (sampleBlock [1] [] 1 1 []) ∅
      = .ret () ((∅ : Ledger).insert (zeroAddress 1) ⟨792000000, 0⟩) := by
    decide +kernel
  refine ⟨rfl, rfl, ⟨_, .inl hcore⟩, fun hagree => ?_⟩
  have hsame := hcons.symm.trans ((hagree _).mp hcore)
  have hbal := congrArg (fun s : Ledger => s.account (zeroAddress 0)) (Outcome.ret.inj hsame).2
  exact absurd hbal (by decide)

end Comparison

end NogoChain.Consensus
