import NogoChain.Core.SignedEffect

/-!
# The numbers of the transfers

A transfer carries a number, and `applyBlockToState` lets it through only when the number is
one more than the one stored with its sender. Within one transaction the record of an account
is read and written back several times: the sender may be the recipient, the recipient the
miner, the miner the genesis address. None of these writes but the debit touches the number,
and the debit stores the number of the transfer; so the number stored with an address
**counts** the transfers the address has sent (`CountsNonces`), and the transfers of a sender
carry the numbers 1, 2, 3 and so on, in this order.

Zero is no number of a transfer (`verifyTransferForConsensus` refuses it), so the count cannot
wrap around: after the number 2⁶⁴ − 1 an address sends no more.
-/

namespace NogoChain

variable {cr : Crypto} {p : ConsensusParams} {mp : MonetaryPolicy} {genesisAddress : Bytes}

/-- The transaction is a transfer whose `FromAddress` is `a`. -/
def Transaction.SentBy (cr : Crypto) (a : Bytes) (tx : Transaction) : Prop :=
  tx.type = .transfer ∧ tx.fromAddress cr = .ok a

instance (cr : Crypto) (a : Bytes) : DecidablePred (Transaction.SentBy cr a) :=
  fun _ => inferInstanceAs (Decidable (_ ∧ _))

/-- The numbers of the transfers that `a` sends, in the order of the list. -/
def noncesOf (cr : Crypto) (a : Bytes) (txs : List Transaction) : List Nat :=
  (txs.filter (Transaction.SentBy cr a)).map (·.nonce.toNat)

/-- **The account map counts.** -/
structure CountsNonces (cr : Crypto) (txs : List Transaction) (s : Ledger) : Prop where
  /-- Every transfer has a sender. -/
  sent : ∀ tx ∈ txs, tx.type = .transfer → ∃ a, tx.fromAddress cr = .ok a
  /-- The transfers of every address carry the numbers from 1 up to the number stored with
  it. -/
  counted : ∀ a, noncesOf cr a txs = List.range' 1 (s.account a).nonce.toNat

theorem noncesOf_append (a : Bytes) (txs txs' : List Transaction) :
    noncesOf cr a (txs ++ txs') = noncesOf cr a txs ++ noncesOf cr a txs' := by
  rw [noncesOf, List.filter_append, List.map_append, ← noncesOf, ← noncesOf]

variable {a : Bytes} {tx : Transaction} {s t : Ledger} {txs : List Transaction}

theorem noncesOf_singleton_of_not (h : ¬ tx.SentBy cr a) : noncesOf cr a [tx] = [] := by
  simp [noncesOf, h]

theorem noncesOf_singleton_of_sentBy (h : tx.SentBy cr a) :
    noncesOf cr a [tx] = [tx.nonce.toNat] := by
  simp [noncesOf, h]

/-- A map with the same numbers counts the same transfers, and transactions that are no
transfers do not matter. -/
theorem CountsNonces.append_of_not_transfer
    (h : CountsNonces cr txs s) (htype : tx.type ≠ .transfer)
    (hnonce : ∀ a, (t.account a).nonce = (s.account a).nonce) :
    CountsNonces cr (txs ++ [tx]) t where
  sent := by
    intro x hx hxt
    rcases List.mem_append.mp hx with hx | hx
    · exact h.sent x hx hxt
    · exact absurd (List.mem_singleton.mp hx ▸ hxt) htype
  counted a := by
    rw [noncesOf_append, noncesOf_singleton_of_not (fun hs => htype hs.1), List.append_nil, hnonce]
    exact h.counted a

/-! ## One transaction -/

/-- A credit leaves every number as it was. -/
theorem credit_nonce {n : UInt64} {o : String}
    (h : credit a n o s = .ret () t) (x : Bytes) : (t.account x).nonce = (s.account x).nonce := by
  rw [(credit_eq_ret.mp h).2, Ledger.account_insert]
  split
  · next hx => rw [hx]
  · rfl

theorem applyReward_nonce {b : Block} {cb : Transaction} {rest : List Transaction}
    (h : applyReward cr mp b cb rest genesisAddress s = .ret () t) (x : Bytes) :
    (t.account x).nonce = (s.account x).nonce := by
  obtain ⟨_, _, hcredit⟩ := applyReward_eq_ret.mp h
  split at hcredit
  · exact credit_nonce hcredit x
  · rw [hcredit]

variable {height : UInt64}

/-- **Transfer.** The sender's number moves up to the one of the transfer, without a wrap;
the numbers of the other addresses stay. -/
theorem applyTransfer_nonce
    (htype : tx.type = .transfer) (h : applyTransfer cr p height tx s = .ret () t) :
    ∃ fromAddr, tx.fromAddress cr = .ok fromAddr
      ∧ tx.nonce.toNat = (s.account fromAddr).nonce.toNat + 1
      ∧ ∀ x, (t.account x).nonce = if x = fromAddr then tx.nonce else (s.account x).nonce := by
  obtain ⟨hv, fromAddr, hfrom, hnext, -, -, hcredit⟩ := applyTransfer_eq_ret.mp h
  refine ⟨fromAddr, hfrom, ?_, ?_⟩
  · have hne := (verified_transfer htype hv).nonce
    have hlt := (s.account fromAddr).nonce.toNat_lt
    have hnat : tx.nonce.toNat = ((s.account fromAddr).nonce.toNat + 1) % 2 ^ 64 := by
      rw [← hnext, UInt64.toNat_add]
      rfl
    have hpos : tx.nonce.toNat ≠ 0 := fun hz => hne (UInt64.toNat_inj.mp hz)
    omega
  · intro x
    rw [credit_nonce hcredit, Ledger.account_insert]
    split <;> rfl

theorem CountsNonces.append_of_transfer (hcount : CountsNonces cr txs s)
    (htype : tx.type = .transfer) (h : applyTransfer cr p height tx s = .ret () t) :
    CountsNonces cr (txs ++ [tx]) t := by
  obtain ⟨fromAddr, hfrom, hnext, hnonce⟩ := applyTransfer_nonce htype h
  refine ⟨fun x hx hxt => ?_, fun a => ?_⟩
  · rcases List.mem_append.mp hx with hx | hx
    · exact hcount.sent x hx hxt
    · exact ⟨fromAddr, List.mem_singleton.mp hx ▸ hfrom⟩
  rw [noncesOf_append, hcount.counted a, hnonce]
  by_cases ha : a = fromAddr
  · have hsent : tx.SentBy cr a := ⟨htype, ha ▸ hfrom⟩
    rw [noncesOf_singleton_of_sentBy hsent, if_pos ha, hnext, ha, List.range'_concat, Nat.one_mul,
      Nat.add_comm 1]
  · have hsent : ¬ tx.SentBy cr a := fun hs => ha (Except.ok.inj (hs.2.symm.trans hfrom))
    rw [noncesOf_singleton_of_not hsent, if_neg ha, List.append_nil]

/-- **One transaction** that is accepted is counted. -/
theorem CountsNonces.append_of_applied {i : Nat} (hcount : CountsNonces cr txs s)
    (h : applyTransaction cr p height i tx s = .ret () t) : CountsNonces cr (txs ++ [tx]) t := by
  cases htype : tx.type with
  | coinbase =>
    obtain ⟨-, -, hcredit⟩ := (applyTransaction_coinbase_eq_ret htype).mp h
    exact hcount.append_of_not_transfer (by rw [htype]; decide) (credit_nonce hcredit)
  | transfer =>
    rw [applyTransaction, htype] at h
    exact hcount.append_of_transfer htype h
  | other name =>
    rw [applyTransaction, htype] at h
    cases h

/-! ## Blocks and runs of blocks -/

theorem CountsNonces.applyTransactions {rest : List Transaction} {i : Nat}
    (hcount : CountsNonces cr txs s)
    (h : applyTransactions cr p height i rest s = .ret () t) : CountsNonces cr (txs ++ rest) t := by
  induction rest generalizing txs i s with
  | nil =>
    rw [NogoChain.applyTransactions, Prog.pure_apply, Outcome.ret.injEq] at h
    rw [List.append_nil, ← h.2]
    exact hcount
  | cons tx rest ih =>
    obtain ⟨s', hfirst, hrest⟩ := applyTransactions_cons_eq_ret.mp h
    have hnext := ih (hcount.append_of_applied hfirst) hrest
    rwa [List.append_assoc] at hnext

/-- **One block** that is accepted is counted with all its transactions. -/
theorem CountsNonces.applyBlock {b : Block} (hcount : CountsNonces cr txs s)
    (h : applyBlockToState cr p mp b genesisAddress s = .ret () t) :
    CountsNonces cr (txs ++ b.transactions) t := by
  obtain ⟨_, cb, rest, htxs, _, s₁, hreward, hloop⟩ := applyBlockToState_eq_ret.mp h
  have hstart : CountsNonces cr txs s₁ := by
    refine ⟨hcount.sent, fun a => ?_⟩
    split at hreward
    · rw [applyReward_nonce hreward]
      exact hcount.counted a
    · rw [hreward]
      exact hcount.counted a
  rw [htxs]
  exact hstart.applyTransactions hloop

theorem CountsNonces.applyBlocks {bs : List Block} (hcount : CountsNonces cr txs s)
    (h : Prog.forEach bs (fun b => applyBlockToState cr p mp b genesisAddress) s = .ret () t) :
    CountsNonces cr (txs ++ bs.flatMap (·.transactions)) t := by
  induction bs generalizing txs s with
  | nil =>
    rw [Prog.forEach, Prog.pure_apply, Outcome.ret.injEq] at h
    rw [List.flatMap_nil, List.append_nil, ← h.2]
    exact hcount
  | cons b bs ih =>
    rw [Prog.forEach, Prog.bind_unit_eq_ret] at h
    obtain ⟨s', hb, hbs⟩ := h
    have hnext := ih (hcount.applyBlock hb) hbs
    rwa [List.append_assoc, ← List.flatMap_cons] at hnext

theorem countsNonces_empty : CountsNonces cr [] ∅ where
  sent := nofun
  counted a := by
    rfl

/-- Where the transfers are counted, a sender and a number stand together at one place only. -/
theorem CountsNonces.nodup (hcount : CountsNonces cr txs s) :
    ((txs.filter (·.type = .transfer)).map fun tx => (tx.fromAddress cr, tx.nonce)).Nodup := by
  rw [List.nodup_iff_sublist]
  rintro ⟨sender, n⟩ htwice
  -- Two places with one pair would be two places with one number in the list of the sender.
  obtain ⟨pair, hpair, hmap⟩ := List.sublist_map_iff.mp htwice
  have hall : ∀ tx ∈ pair, tx.type = .transfer ∧ tx.fromAddress cr = sender ∧ tx.nonce = n := by
    intro tx htx
    have htype := of_decide_eq_true (List.mem_filter.mp (hpair.subset htx)).2
    have hpairs : (tx.fromAddress cr, tx.nonce) ∈ [(sender, n), (sender, n)] :=
      hmap ▸ List.mem_map_of_mem htx
    have heq : (tx.fromAddress cr, tx.nonce) = (sender, n) := by simpa using hpairs
    exact ⟨htype, (Prod.mk.inj heq).1, (Prod.mk.inj heq).2⟩
  obtain ⟨tx, tx', rfl⟩ : ∃ tx tx', pair = [tx, tx'] :=
    List.length_eq_two.mp (by simpa using (congrArg List.length hmap).symm)
  obtain ⟨htype, hfrom, hn⟩ := hall tx (by simp)
  obtain ⟨htype', hfrom', hn'⟩ := hall tx' (by simp)
  have hsub : [tx, tx'].Sublist txs := hpair.trans List.filter_sublist
  obtain ⟨a, ha⟩ := hcount.sent tx (hsub.subset (by simp)) htype
  have hnonces : [n.toNat, n.toNat].Sublist (noncesOf cr a txs) := by
    have hsame := (hsub.filter (Transaction.SentBy cr a)).map (·.nonce.toNat)
    have hsent : tx.SentBy cr a := ⟨htype, ha⟩
    have hsent' : tx'.SentBy cr a := ⟨htype', hfrom'.trans (hfrom.symm.trans ha)⟩
    simpa [hsent, hsent', hn, hn', noncesOf] using hsame
  rw [hcount.counted a] at hnonces
  exact List.nodup_iff_sublist.mp List.nodup_range' _ hnonces

/-- **Replay protection.** Over every run of blocks that is accepted from the empty map, the
transfers of each sender carry the numbers 1, 2, 3 and so on in this order, and no two
transfers have the same sender and number. -/
theorem applied_nonces (cr : Crypto) (p : ConsensusParams) (mp : MonetaryPolicy)
    (genesisAddress : Bytes) (bs : List Block) (s : Ledger)
    (h : Prog.forEach bs (fun b => applyBlockToState cr p mp b genesisAddress) ∅ = .ret () s) :
    (∀ a, noncesOf cr a (bs.flatMap (·.transactions))
        = List.range' 1 (noncesOf cr a (bs.flatMap (·.transactions))).length)
      ∧ (((bs.flatMap (·.transactions)).filter (·.type = .transfer)).map
          fun tx => (tx.fromAddress cr, tx.nonce)).Nodup := by
  have hcount := countsNonces_empty.applyBlocks h
  rw [List.nil_append] at hcount
  refine ⟨fun a => ?_, hcount.nodup⟩
  rw [hcount.counted a, List.length_range']

/-- Two blocks of the default configuration, in each of which the genesis address sends a
transfer. -/
def numberedBlocks : List Block :=
  [sampleBlock [1] [] 1 1 [sampleTransfer lowerAddress],
    sampleBlock [2] [1] 2 1 [{ sampleTransfer lowerAddress with nonce := 2 }]]

/-- `applied_nonces` at `numberedBlocks`. -/
theorem applied_nonces_numberedBlocks :
    noncesOf Crypto.constant (zeroAddress 0) (numberedBlocks.flatMap (·.transactions)) = [1, 2]
      ∧ (((numberedBlocks.flatMap (·.transactions)).filter (·.type = .transfer)).map
          fun tx => (tx.fromAddress Crypto.constant, tx.nonce)).Nodup := by
  have hrun : (Prog.forEach numberedBlocks (fun b => applyBlockToState Crypto.constant
      ConsensusParams.default MonetaryPolicy.default b (zeroAddress 0)) ∅).value? = some () := by
    decide +kernel
  obtain ⟨s, hs⟩ := Outcome.value?_eq_some hrun
  have hnonces := applied_nonces _ _ _ _ numberedBlocks s hs
  refine ⟨?_, hnonces.2⟩
  decide +kernel

end NogoChain
