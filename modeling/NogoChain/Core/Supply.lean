import Mathlib.Algebra.BigOperators.Group.Finset.Basic
import NogoChain.Core.SignedEffect

/-!
# Supply

The supply of an account map is the sum of all balances, taken exactly and not in 64 bits.
A block moves it by what its coinbase and the genesis share pay out, less the fees of its
transfers, which are debited from the senders and credited to nobody.

The amounts paid out are computed in 64 bits: the fees are added up modulo `2 ^ 64`, and so
are the products of a share with the reward or the fees before they are divided by 100. A
product that wraps only becomes smaller, so that the miner and the genesis address together
never get more than the reward and the fees, and a block never raises the supply by more
than the reward of its height.
-/

namespace NogoChain

/-- **Supply**: the exact sum of all balances. -/
def Ledger.supply (s : Ledger) : Nat := ∑ a ∈ s.keys, (s.account a).balance.toNat

/-- The fees of the transfers among `txs`, added up exactly. -/
def exactFees (txs : List Transaction) : Nat :=
  ((txs.filter (·.type = .transfer)).map (·.fee.toNat)).sum

/-- The amount of the coinbase of a block. -/
def Block.coinbaseAmount (b : Block) : Nat :=
  match b.transactions with
  | [] => 0
  | cb :: _ => cb.amount.toNat

variable {b : Block} {tx : Transaction} {s t : Ledger}

theorem Block.coinbaseAmount_eq {cb : Transaction} {rest : List Transaction}
    (h : b.transactions = cb :: rest) : b.coinbaseAmount = cb.amount.toNat := by
  rw [Block.coinbaseAmount, h]

theorem exactFees_cons_transfer (h : tx.type = .transfer)
    (txs : List Transaction) : exactFees (tx :: txs) = tx.fee.toNat + exactFees txs := by
  simp [exactFees, h]

theorem exactFees_cons_of_ne (h : tx.type ≠ .transfer)
    (txs : List Transaction) : exactFees (tx :: txs) = exactFees txs := by
  simp [exactFees, h]

/-! ## Writing one account -/

theorem Ledger.account_of_notMem {a : Bytes} (h : a ∉ s.keys) : s.account a = ⟨0, 0⟩ := by
  rw [Ledger.account, Finmap.lookup_eq_none.mpr h]
  rfl

/-- Accounts that are absent do not count, so that the sum may run over more addresses. -/
theorem Ledger.supply_eq_sum {addrs : Finset Bytes} (h : s.keys ⊆ addrs) :
    s.supply = ∑ a ∈ addrs, (s.account a).balance.toNat := by
  refine Finset.sum_subset h fun a _ ha => ?_
  rw [Ledger.account_of_notMem ha]
  rfl

/-- **Writing an account** replaces its balance in the sum. -/
theorem Ledger.supply_insert (s : Ledger) (a : Bytes) (x : Account) :
    Ledger.supply (s.insert a x) + (s.account a).balance.toNat = s.supply + x.balance.toNat := by
  have hkeys : (s.insert a x).keys ⊆ insert a s.keys := by
    intro c hc
    rw [Finmap.mem_keys, Finmap.mem_insert] at hc
    rw [Finset.mem_insert, Finmap.mem_keys]
    exact hc
  have hmem : a ∈ insert a s.keys := Finset.mem_insert_self a s.keys
  rw [Ledger.supply_eq_sum hkeys, Ledger.supply_eq_sum (Finset.subset_insert a s.keys),
    ← Finset.sum_erase_add _ _ hmem, ← Finset.sum_erase_add _ _ hmem]
  have hrest : ∀ c ∈ (insert a s.keys).erase a,
      (Ledger.account (s.insert a x) c).balance.toNat = (s.account c).balance.toNat := by
    intro c hc
    rw [Ledger.account_insert, if_neg (Finset.ne_of_mem_erase hc)]
  rw [Finset.sum_congr rfl hrest, Ledger.account_insert, if_pos rfl]
  omega

theorem supply_credit {a : Bytes} {n : UInt64} {o : String}
    (h : credit a n o s = .ret () t) : t.supply = s.supply + n.toNat := by
  obtain ⟨hfits, rfl⟩ := credit_eq_ret.mp h
  have hinsert := s.supply_insert a ⟨(s.account a).balance + n, (s.account a).nonce⟩
  rw [UInt64.toNat_add, Nat.mod_eq_of_lt hfits] at hinsert
  omega

/-! ## The transactions of a block -/

section Transactions

variable {cr : Crypto} {p : ConsensusParams} {height : UInt64}

/-- **A transfer** takes its fee out of the supply, also one that pays its own sender: the
credit reads the account after the debit. -/
theorem supply_applyTransfer (h : applyTransfer cr p height tx s = .ret () t) :
    t.supply + tx.fee.toNat = s.supply := by
  obtain ⟨_, fromAddr, _, _, hfits, hfunds, hcredit⟩ := applyTransfer_eq_ret.mp h
  have hdebit := s.supply_insert fromAddr
    ⟨(s.account fromAddr).balance - (tx.amount + tx.fee), tx.nonce⟩
  have hle := UInt64.le_iff_toNat_le.mp hfunds
  rw [UInt64.toNat_sub_of_le _ _ hfunds] at hdebit
  rw [UInt64.toNat_add, Nat.mod_eq_of_lt hfits] at hdebit hle
  rw [supply_credit hcredit]
  omega

/-- Behind the coinbase only transfers are accepted. -/
theorem supply_applyTransactions {txs : List Transaction} {i : Nat}
    (h : applyTransactions cr p height (i + 1) txs s = .ret () t) :
    t.supply + exactFees txs = s.supply := by
  induction txs generalizing i s with
  | nil =>
    rw [applyTransactions, Prog.pure_apply, Outcome.ret.injEq] at h
    rw [h.2]
    rfl
  | cons tx txs ih =>
    obtain ⟨s', htx, hrest⟩ := applyTransactions_cons_eq_ret.mp h
    have hs' := ih hrest
    cases htype : tx.type with
    | coinbase => exact absurd ((applyTransaction_coinbase_eq_ret htype).mp htx).1 (by simp)
    | transfer =>
      simp only [applyTransaction, htype] at htx
      have htransfer := supply_applyTransfer htx
      rw [exactFees_cons_transfer htype]
      omega
    | other name => simp [applyTransaction, htype] at htx

end Transactions

/-! ## What is paid out -/

/-- The fees added up in 64 bits are at most the exact ones. -/
theorem transferFees_le (txs : List Transaction) : (transferFees txs).toNat ≤ exactFees txs := by
  have hfold : ∀ acc : UInt64,
      (txs.foldl (fun fees tx => if tx.type ≠ .transfer then fees else fees + tx.fee) acc).toNat
        ≤ acc.toNat + exactFees txs := by
    induction txs with
    | nil => exact fun acc => Nat.le_refl _
    | cons tx txs ih =>
      intro acc
      rw [List.foldl_cons]
      by_cases htype : tx.type = .transfer
      · have hstep := ih (acc + tx.fee)
        rw [UInt64.toNat_add] at hstep
        rw [if_neg (not_not.mpr htype), exactFees_cons_transfer htype]
        omega
      · rw [if_pos htype, exactFees_cons_of_ne htype]
        exact ih acc
  have h0 := hfold 0
  rw [UInt64.toNat_zero, Nat.zero_add] at h0
  exact h0

/-- **A share, computed in 64 bits,** is at most the exact one. -/
theorem share_le (amount : UInt64) (share : UInt8) :
    (amount * share.toUInt64 / 100).toNat ≤ amount.toNat * share.toNat / 100 := by
  exact Nat.div_le_div_right (Nat.mod_le _ _)

theorem minerFeeAmount_le {mp : MonetaryPolicy} (hmp : mp.validate = .ok ()) (fees : UInt64) :
    (mp.minerFeeAmount fees).toNat ≤ fees.toNat := by
  unfold MonetaryPolicy.minerFeeAmount
  split
  · exact Nat.zero_le _
  · calc (fees * mp.minerFeeShare.toUInt64 / 100).toNat
        ≤ fees.toNat * mp.minerFeeShare.toNat / 100 := share_le fees mp.minerFeeShare
      _ ≤ fees.toNat * 100 / 100 :=
          Nat.div_le_div_right (Nat.mul_le_mul_left _ (MonetaryPolicy.shares_of_validate hmp).1)
      _ = fees.toNat := Nat.mul_div_cancel _ (by decide)

/-- **What a block pays out** under a valid policy: at most the reward and the fees. -/
theorem payout_le {mp : MonetaryPolicy} (hmp : mp.validate = .ok ()) (height fees : UInt64) :
    (expectedCoinbase mp height fees).toNat + (genesisReward mp height).toNat
      ≤ (mp.blockReward height).toNat + fees.toNat := by
  have hminer := share_le (mp.blockReward height) mp.minerRewardShare
  have hgenesis := share_le (mp.blockReward height) mp.genesisShare
  have hfee := minerFeeAmount_le hmp fees
  have hsum : (mp.blockReward height).toNat * mp.minerRewardShare.toNat
      + (mp.blockReward height).toNat * mp.genesisShare.toNat
        ≤ (mp.blockReward height).toNat * 100 := by
    rw [← Nat.mul_add]
    have htotal := (MonetaryPolicy.shares_of_validate hmp).2
    exact Nat.mul_le_mul_left _ (by omega)
  have hwrap : (expectedCoinbase mp height fees).toNat
      ≤ (mp.blockReward height * mp.minerRewardShare.toUInt64 / 100).toNat
        + (mp.minerFeeAmount fees).toNat := by
    exact Nat.mod_le _ _
  rw [genesisReward]
  omega

/-! ## Blocks and runs of blocks -/

section Blocks

variable {cr : Crypto} {p : ConsensusParams} {mp : MonetaryPolicy} {genesisAddress : Bytes}

theorem supply_applyReward {cb : Transaction} {rest : List Transaction}
    (h : applyReward cr mp b cb rest genesisAddress s = .ret () t) :
    t.supply = s.supply + (genesisReward mp b.height).toNat := by
  obtain ⟨_, _, hcredit⟩ := applyReward_eq_ret.mp h
  split at hcredit
  · exact supply_credit hcredit
  · next hzero =>
    rw [hcredit, UInt64.le_zero_iff.mp (UInt64.not_lt.mp hzero)]
    rfl

/-- **The supply after a block.** -/
theorem supply_applyBlockToState (hheight : 1 ≤ b.height)
    (h : applyBlockToState cr p mp b genesisAddress s = .ret () t) :
    t.supply + exactFees b.transactions
      = s.supply + b.coinbaseAmount + (genesisReward mp b.height).toNat := by
  obtain ⟨_, cb, rest, htxs, hcb, s₁, hreward, hloop⟩ := applyBlockToState_eq_ret.mp h
  have hpos : b.height > 0 := UInt64.lt_of_lt_of_le (by decide) hheight
  rw [if_pos hpos] at hreward
  obtain ⟨s₂, hfirst, hrest⟩ := applyTransactions_cons_eq_ret.mp hloop
  obtain ⟨_, _, hcredit⟩ := (applyTransaction_coinbase_eq_ret hcb).mp hfirst
  have h₁ := supply_applyReward hreward
  have h₂ := supply_credit hcredit
  have h₃ := supply_applyTransactions hrest
  rw [Block.coinbaseAmount_eq htxs, htxs, exactFees_cons_of_ne (by rw [hcb]; decide)]
  omega

/-- The coinbase of an accepted block and the genesis share stay within reward and fees. -/
theorem payout_of_applyBlockToState (hmp : mp.validate = .ok ()) (hheight : 1 ≤ b.height)
    (h : applyBlockToState cr p mp b genesisAddress s = .ret () t) :
    b.coinbaseAmount + (genesisReward mp b.height).toNat
      ≤ (mp.blockReward b.height).toNat + exactFees b.transactions := by
  obtain ⟨_, cb, rest, htxs, hcb, s₁, hreward, _⟩ := applyBlockToState_eq_ret.mp h
  have hpos : b.height > 0 := UInt64.lt_of_lt_of_le (by decide) hheight
  rw [if_pos hpos] at hreward
  obtain ⟨_, ⟨_, hamount⟩, _⟩ := applyReward_eq_ret.mp hreward
  have hpayout := payout_le hmp b.height (transferFees rest)
  have hfees := transferFees_le rest
  rw [Block.coinbaseAmount_eq htxs, htxs, exactFees_cons_of_ne (by rw [hcb]; decide), hamount]
  omega

/-- **No inflation.** A block above genesis that is accepted moves the supply by exactly its
coinbase and the genesis share less the fees, and raises it by at most the reward of its
height; a run of such blocks raises it by at most the sum of their rewards. -/
theorem supply_le_rewards (cr : Crypto) (p : ConsensusParams) (mp : MonetaryPolicy)
    (hmp : mp.validate = .ok ()) (genesisAddress : Bytes) :
    (∀ (s t : Ledger) (b : Block), 1 ≤ b.height →
        applyBlockToState cr p mp b genesisAddress s = .ret () t →
          t.supply ≤ s.supply + (mp.blockReward b.height).toNat
          ∧ t.supply + exactFees b.transactions
            = s.supply + b.coinbaseAmount + (genesisReward mp b.height).toNat)
      ∧ ∀ (bs : List Block) (s t : Ledger), (∀ b ∈ bs, 1 ≤ b.height) →
          Prog.forEach bs (fun b => applyBlockToState cr p mp b genesisAddress) s = .ret () t →
            t.supply ≤ s.supply + (bs.map fun b => (mp.blockReward b.height).toNat).sum := by
  have hblock : ∀ (s t : Ledger) (b : Block), 1 ≤ b.height →
      applyBlockToState cr p mp b genesisAddress s = .ret () t →
        t.supply ≤ s.supply + (mp.blockReward b.height).toNat := by
    intro s t b hheight h
    have hmoved := supply_applyBlockToState hheight h
    have hpayout := payout_of_applyBlockToState hmp hheight h
    omega
  refine ⟨fun s t b hheight h => ⟨hblock s t b hheight h, supply_applyBlockToState hheight h⟩,
    ?_⟩
  intro bs
  induction bs with
  | nil =>
    intro s t _ h
    rw [Prog.forEach, Prog.pure_apply, Outcome.ret.injEq] at h
    rw [h.2]
    exact Nat.le_add_right _ _
  | cons b bs ih =>
    intro s t hheights h
    rw [Prog.forEach, Prog.bind_unit_eq_ret] at h
    obtain ⟨s', hb, hbs⟩ := h
    have hfirst := hblock s s' b (hheights b List.mem_cons_self) hb
    have hrest := ih s' t (fun b' hb' => hheights b' (List.mem_cons_of_mem b hb')) hbs
    rw [List.map_cons, List.sum_cons]
    omega

/-- A second block, with a transfer and its fee out of the genesis share of the first. -/
def feePayingBlock : Block :=
  sampleBlock [2] [1] 2 1 [{ sampleTransfer (zeroAddress 2) with fee := 10000 }]

theorem supply_le_rewards_two_blocks :
    let apply b := applyBlockToState Crypto.constant .default .default b (zeroAddress 0)
    let first := sampleBlock [1] [] 1 1 []
    ∃ s : Ledger, apply first ∅ = .ret () s ∧ ∃ t : Ledger, apply feePayingBlock s = .ret () t
      ∧ t.supply + 10000
        = s.supply + feePayingBlock.coinbaseAmount + (genesisReward .default 2).toNat
      ∧ t.supply ≤ Ledger.supply ∅ + ([first, feePayingBlock].map fun b =>
          (MonetaryPolicy.default.blockReward b.height).toNat).sum := by
  intro apply first
  obtain ⟨s, hs, t, ht, -⟩ : ∃ s, apply first ∅ = .ret () s
      ∧ ∃ t, apply feePayingBlock s = .ret () t ∧ True := by
    decide +kernel
  have hbounds := supply_le_rewards Crypto.constant .default .default rfl (zeroAddress 0)
  refine ⟨s, hs, t, ht, (hbounds.1 s t feePayingBlock (by decide) ht).2,
    hbounds.2 _ ∅ t (by decide) ?_⟩
  simp only [Prog.forEach, Prog.bind_unit_eq_ret]
  exact ⟨s, hs, t, ht, rfl⟩

end Blocks

end NogoChain
