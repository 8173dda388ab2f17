import NogoChain.Chain.Accept
import NogoChain.Chain.Replay
import NogoChain.Lib.Transfers
import NogoChain.Mempool.Runs
import NogoChain.Mining.Mine
import NogoChain.Mining.Select

/-!
# From the pool to the chain

The miner's pipeline: select transfers, assemble and seal a block, add it to the chain. The
three pieces do not look at the same things. The selection measures each transfer against
the balance on the chain, in 64 bits, and does not look at fees or at the identifier of
another chain; the assembly refuses the whole list for one of those, and pays the miner
without a share of the fees; the ledger asks for the share, and for every sender to pay all
its transfers.

`Payable` collects what is left over, and `mined_block_accepted_iff` says that as long as no
fork is heavier, it is exactly what decides whether the block goes through.
-/

namespace NogoChain

open Prog Transfers

/-! ## Transfers on the ledger -/

/-- How the ledger reads a transfer. -/
def transferReading (cr : Crypto) : Reading Bytes Transaction where
  sender tx := tx.sender cr
  cost tx := tx.amount.toNat + tx.fee.toNat
  recipient tx := tx.toAddress
  amount tx := tx.amount.toNat

/-- The balances of the accounts, as numbers. -/
def Ledger.balances (s : Ledger) (addr : Bytes) : Nat := (s.account addr).balance.toNat

/-- The nonces of the accounts. -/
def Ledger.nonces (s : Ledger) (addr : Bytes) : UInt64 := (s.account addr).nonce

variable {env : Env} {height : UInt64} {s : Ledger} {tx : Transaction}

theorem balances_debited {cr : Crypto}
    (h : tx.amount.toNat + tx.fee.toNat ≤ s.balances (tx.sender cr)) (a : Bytes) :
    (debited cr s tx).balances a
      = s.balances a - if a = tx.sender cr then tx.amount.toNat + tx.fee.toNat else 0 := by
  have hlt := (s.account (tx.sender cr)).balance.toNat_lt
  have hsum : (tx.amount + tx.fee).toNat = tx.amount.toNat + tx.fee.toNat := by
    exact Nat.mod_eq_of_lt (lt_of_le_of_lt h hlt)
  unfold Ledger.balances debited
  rw [Ledger.account_insert]
  split
  · next ha =>
    have hle : tx.amount + tx.fee ≤ (s.account (tx.sender cr)).balance := by
      rw [UInt64.le_iff_toNat_le, hsum]
      exact h
    rw [UInt64.toNat_sub_of_le _ _ hle, hsum, ha]
  · rw [Nat.sub_zero]

theorem balances_credited {dest : Bytes} {amount : UInt64}
    (h : s.balances dest + amount.toNat < 2 ^ 64) (a : Bytes) :
    (credited s dest amount).balances a = s.balances a + if a = dest then amount.toNat else 0 := by
  unfold Ledger.balances credited
  rw [Ledger.account_insert]
  split
  · next ha =>
    rw [UInt64.toNat_add, ha]
    exact Nat.mod_eq_of_lt h
  · rw [Nat.add_zero]

theorem nonces_debited (cr : Crypto) (s : Ledger) (tx : Transaction) (a : Bytes) :
    (debited cr s tx).nonces a = if a = tx.sender cr then tx.nonce else s.nonces a := by
  unfold Ledger.nonces debited
  rw [Ledger.account_insert]
  split <;> rfl

theorem nonces_credited (s : Ledger) (dest : Bytes) (amount : UInt64) (a : Bytes) :
    (credited s dest amount).nonces a = s.nonces a := by
  unfold Ledger.nonces credited
  rw [Ledger.account_insert]
  split
  · next ha => rw [ha]
  · rfl

variable {nonces : Bytes → UInt64} {txs : List Transaction} {minerAddress root : Bytes}

/-- A credit goes through if there is room for it. -/
theorem credit_iff {dest : Bytes} {amount : UInt64} {o : String} {t : Ledger} :
    credit dest amount o s = .ret () t
      ↔ s.balances dest + amount.toNat < 2 ^ 64 ∧ t = credited s dest amount :=
  credit_eq_ret

/-- A verified transfer with the next nonce goes through if the sender can pay and the
recipient has room. -/
theorem applyTransfer_iff (htype : tx.type = .transfer)
    (hverify : tx.verifyForConsensus env.cr env.consensus height = .ok ()) {s' : Ledger}
    (hnonce : tx.nonce = s.nonces (tx.sender env.cr) + 1) :
    applyTransfer env.cr env.consensus height tx s = .ret () s'
      ↔ tx.amount.toNat + tx.fee.toNat ≤ s.balances (tx.sender env.cr)
        ∧ (debited env.cr s tx).balances tx.toAddress + tx.amount.toNat < 2 ^ 64
        ∧ s' = credited (debited env.cr s tx) tx.toAddress tx.amount := by
  have hfrom := (verified_transfer htype hverify).fromAddress
  have hlt := (s.account (tx.sender env.cr)).balance.toNat_lt
  rw [applyTransfer_eq_ret]
  constructor
  · rintro ⟨-, addr, haddr, -, hfits, hpays, hcredit⟩
    obtain rfl : tx.sender env.cr = addr := Except.ok.inj (hfrom.symm.trans haddr)
    rw [UInt64.le_iff_toNat_le, UInt64.toNat_add, Nat.mod_eq_of_lt hfits] at hpays
    exact ⟨hpays, credit_iff.mp hcredit⟩
  · rintro ⟨hpays, hcredit⟩
    have hfits : tx.amount.toNat + tx.fee.toNat < 2 ^ 64 := lt_of_le_of_lt hpays hlt
    refine ⟨hverify, tx.sender env.cr, hfrom, hnonce.symm, hfits, ?_, credit_iff.mpr hcredit⟩
    rw [UInt64.le_iff_toNat_le, UInt64.toNat_add, Nat.mod_eq_of_lt hfits]
    exact hpays

/-- **One transfer** does to the balances what a transfer does. -/
theorem balances_transferred {cr : Crypto}
    (hpays : tx.amount.toNat + tx.fee.toNat ≤ s.balances (tx.sender cr))
    (hroom : (debited cr s tx).balances tx.toAddress + tx.amount.toNat < 2 ^ 64) :
    (credited (debited cr s tx) tx.toAddress tx.amount).balances
      = after (transferReading cr) s.balances tx := by
  funext a
  rw [balances_credited hroom, balances_debited hpays]
  rfl

theorem nonces_transferred (cr : Crypto) (s : Ledger) (tx : Transaction) (a : Bytes) :
    (credited (debited cr s tx) tx.toAddress tx.amount).nonces a
      = if a = tx.sender cr then tx.nonce else s.nonces a := by
  rw [nonces_credited, nonces_debited]

/-! ## A list of transfers -/

/-- **The transfers are in turn**: verified, and each with the nonce that follows those of
its sender before it. -/
def InTurn (env : Env) (height : UInt64) (nonces : Bytes → UInt64) (txs : List Transaction) :
    Prop :=
  ∀ pre tx post, txs = pre ++ tx :: post →
    tx.type = .transfer ∧ tx.verifyForConsensus env.cr env.consensus height = .ok ()
      ∧ tx.nonce = nonces (tx.sender env.cr) + 1
          + UInt64.ofNat (sentBy env pre (tx.sender env.cr))

theorem sentBy_cons (tx : Transaction) (txs : List Transaction) (addr : Bytes) :
    sentBy env (tx :: txs) addr
      = sentBy env txs addr + if tx.fromAddress env.cr = .ok addr then 1 else 0 := by
  unfold sentBy
  rw [List.countP_cons]
  simp

theorem InTurn.head (h : InTurn env height nonces (tx :: txs)) :
    tx.type = .transfer ∧ tx.verifyForConsensus env.cr env.consensus height = .ok ()
      ∧ tx.nonce = nonces (tx.sender env.cr) + 1 := by
  obtain ⟨htype, hverify, hnonce⟩ := h [] tx txs rfl
  exact ⟨htype, hverify, hnonce.trans (add_zero _)⟩

/-- The rest is in turn after the nonce of the first sender has been counted up. -/
theorem InTurn.tail {nonces' : Bytes → UInt64} (h : InTurn env height nonces (tx :: txs))
    (hnonces : ∀ a, nonces' a = if a = tx.sender env.cr then tx.nonce else nonces a) :
    InTurn env height nonces' txs := by
  obtain ⟨htype, hverify, hnonce⟩ := h.head
  have hfrom := (verified_transfer htype hverify).fromAddress
  intro pre t post heq
  obtain ⟨ht, hv, hn⟩ := h (tx :: pre) t post (by rw [heq, List.cons_append])
  refine ⟨ht, hv, hn.trans ?_⟩
  rw [hnonces, sentBy_cons, hfrom]
  by_cases hsame : t.sender env.cr = tx.sender env.cr
  · rw [if_pos (congrArg Except.ok hsame.symm), if_pos hsame, hnonce, hsame, UInt64.ofNat_add,
      add_comm (UInt64.ofNat _), ← add_assoc]
    rfl
  · rw [if_neg fun heq => hsame (Except.ok.inj heq).symm, if_neg hsame, Nat.add_zero]

/-- **The ledger carries out transfers in turn** exactly if they are affordable. -/
theorem exists_applyTransactions_iff :
    ∀ (txs : List Transaction) (i : Nat) (s : Ledger), InTurn env height s.nonces txs →
      ((∃ t, applyTransactions env.cr env.consensus height i txs s = .ret () t)
        ↔ Affordable (transferReading env.cr) (2 ^ 64) s.balances txs)
  | [], _, s, _ => ⟨fun _ => affordable_nil _ _ _, fun _ => ⟨s, rfl⟩⟩
  | tx :: txs, i, s, h => by
    obtain ⟨htype, hverify, hnonce⟩ := h.head
    have hroom : tx.amount.toNat + tx.fee.toNat ≤ s.balances (tx.sender env.cr) →
        after (transferReading env.cr) s.balances tx tx.toAddress
          = (debited env.cr s tx).balances tx.toAddress + tx.amount.toNat := by
      intro hpays
      rw [balances_debited hpays]
      exact after_recipient (transferReading env.cr) s.balances tx
    rw [affordable_cons]
    constructor
    · rintro ⟨t, ht⟩
      obtain ⟨s', hs', hrest⟩ := applyTransactions_cons_eq_ret.mp ht
      rw [applyTransaction_transfer htype] at hs'
      obtain ⟨hpays, hfits, rfl⟩ := (applyTransfer_iff htype hverify hnonce).mp hs'
      have hturn := h.tail (nonces_transferred env.cr s tx)
      refine ⟨hpays, (hroom hpays).trans_lt hfits, ?_⟩
      rw [← balances_transferred hpays hfits]
      exact (exists_applyTransactions_iff txs (i + 1) _ hturn).mp ⟨t, hrest⟩
    · rintro ⟨hpays, hfits, hrest⟩
      have hfits' := (hroom hpays).symm.trans_lt hfits
      have hturn := h.tail (nonces_transferred env.cr s tx)
      rw [← balances_transferred hpays hfits'] at hrest
      obtain ⟨t, ht⟩ := (exists_applyTransactions_iff txs (i + 1) _ hturn).mpr hrest
      refine ⟨t, applyTransactions_cons_eq_ret.mpr ⟨_, ?_, ht⟩⟩
      rw [applyTransaction_transfer htype]
      exact (applyTransfer_iff htype hverify hnonce).mpr ⟨hpays, hfits', rfl⟩

/-! ## A block of transfers -/

/-- The balances the transfers of a block start from: the genesis share and the reward of the
miner come first. -/
def afterRewards (env : Env) (s : Ledger) (height : UInt64) (minerAddress addr : Bytes) : Nat :=
  s.balances addr
    + (if addr = env.genesisAddress then (genesisReward env.monetaryPolicy height).toNat else 0)
    + if addr = minerAddress then (minerReward env.monetaryPolicy height).toNat else 0

/-- The ledger with the genesis share. -/
def shared (env : Env) (s : Ledger) (height : UInt64) : Ledger :=
  if genesisReward env.monetaryPolicy height > 0 then
    credited s env.genesisAddress (genesisReward env.monetaryPolicy height)
  else s

theorem toNat_eq_zero_of_not_pos {n : UInt64} (h : ¬ n > 0) : n.toNat = 0 := by
  rw [gt_iff_lt, UInt64.lt_iff_toNat_lt, UInt64.toNat_zero] at h
  omega

/-- The genesis share is paid if there is room for it. -/
theorem genesisShare_iff {t : Ledger} : (if genesisReward env.monetaryPolicy height > 0 then
        credit env.genesisAddress (genesisReward env.monetaryPolicy height)
          "genesis address balance overflow" s = .ret () t
      else t = s)
      ↔ s.balances env.genesisAddress + (genesisReward env.monetaryPolicy height).toNat < 2 ^ 64
        ∧ t = shared env s height := by
  unfold shared
  split
  · exact credit_iff
  · next hzero =>
    rw [toNat_eq_zero_of_not_pos hzero]
    exact (and_iff_right (s.account env.genesisAddress).balance.toNat_lt).symm

theorem balances_shared
    (h : s.balances env.genesisAddress + (genesisReward env.monetaryPolicy height).toNat < 2 ^ 64)
    (a : Bytes) :
    (shared env s height).balances a = s.balances a
      + if a = env.genesisAddress then (genesisReward env.monetaryPolicy height).toNat else 0 := by
  unfold shared
  split
  · exact balances_credited h a
  · next hzero =>
    rw [toNat_eq_zero_of_not_pos hzero, ite_self, Nat.add_zero]

theorem nonces_shared (s : Ledger) : (shared env s height).nonces = s.nonces := by
  unfold shared
  split
  · exact funext (nonces_credited s _ _)
  · rfl

/-- The ledger the transfers of a block start from. -/
def rewarded (env : Env) (s : Ledger) (height : UInt64) (minerAddress : Bytes) : Ledger :=
  credited (shared env s height) minerAddress (minerReward env.monetaryPolicy height)

theorem afterRewards_miner
    (h : s.balances env.genesisAddress + (genesisReward env.monetaryPolicy height).toNat < 2 ^ 64) :
    afterRewards env s height minerAddress minerAddress
      = (shared env s height).balances minerAddress
        + (minerReward env.monetaryPolicy height).toNat := by
  rw [afterRewards, balances_shared h, if_pos (rfl : minerAddress = minerAddress)]

theorem balances_rewarded
    (h : s.balances env.genesisAddress + (genesisReward env.monetaryPolicy height).toNat < 2 ^ 64)
    (hroom : afterRewards env s height minerAddress minerAddress < 2 ^ 64) :
    (rewarded env s height minerAddress).balances = afterRewards env s height minerAddress := by
  rw [afterRewards_miner h] at hroom
  funext a
  rw [rewarded, balances_credited hroom, balances_shared h, afterRewards]

theorem nonces_rewarded (s : Ledger) (minerAddress : Bytes) :
    (rewarded env s height minerAddress).nonces = s.nonces :=
  (funext (nonces_credited _ _ _)).trans (nonces_shared s)

/-- The coinbase carries the amount asked for if no share of the fees is due. -/
theorem minerReward_eq_expectedCoinbase {mp : MonetaryPolicy} {fees : UInt64} :
    minerReward mp height = expectedCoinbase mp height fees ↔ mp.minerFeeAmount fees = 0 := by
  exact left_eq_add

/-- The checks on the coinbase itself. -/
theorem verify_minedCoinbase {p : ConsensusParams} :
    (minedCoinbase env minerAddress height).verifyForConsensus env.cr p height = .ok ()
      ↔ env.chainId ≠ 0 ∧ minerReward env.monetaryPolicy height ≠ 0
        ∧ validateAddress env.cr minerAddress = .ok () := by
  change (if env.chainId = 0 then _ else if minerReward env.monetaryPolicy height = 0 then _
    else _) = _ ↔ _
  by_cases hid : env.chainId = 0
  · simp [hid]
  by_cases hreward : minerReward env.monetaryPolicy height = 0
  · simp [hid, hreward]
  rw [if_neg hid, if_neg hreward,
    show (minedCoinbase env minerAddress height).toAddress = minerAddress from rfl]
  cases validateAddress env.cr minerAddress with
  | error e => simp
  | ok u => simp [hid, hreward, minedCoinbase]

/-- **When the ledger applies a block** of a mined coinbase and transfers in turn. -/
theorem exists_applyIn_iff {b : Block} (hheight : 0 < b.height)
    (htxs : b.transactions = minedCoinbase env minerAddress b.height :: txs)
    (hminer : b.minerAddress = minerAddress) (hturn : InTurn env b.height s.nonces txs) :
    (∃ t, applyIn env b s = .ret () t) ↔ Fits env b
        ∧ (env.chainId ≠ 0 ∧ minerReward env.monetaryPolicy b.height ≠ 0
          ∧ validateAddress env.cr minerAddress = .ok ())
        ∧ env.monetaryPolicy.minerFeeAmount (transferFees txs) = 0
        ∧ s.balances env.genesisAddress + (genesisReward env.monetaryPolicy b.height).toNat < 2 ^ 64
        ∧ afterRewards env s b.height minerAddress minerAddress < 2 ^ 64
        ∧ Affordable (transferReading env.cr) (2 ^ 64) (afterRewards env s b.height minerAddress)
            txs := by
  have hturn' : InTurn env b.height (rewarded env s b.height minerAddress).nonces txs := by
    rw [nonces_rewarded]
    exact hturn
  have hrest := exists_applyTransactions_iff txs 1 _ hturn'
  constructor
  · rintro ⟨t, ht⟩
    obtain ⟨hsize, cb, rest, heq, -, s₁, hreward, happly⟩ := applyBlockToState_eq_ret.mp ht
    obtain ⟨rfl, rfl⟩ := List.cons.inj (htxs.symm.trans heq)
    rw [if_pos hheight] at hreward
    obtain ⟨-, ⟨-, hamount⟩, hshare⟩ := applyReward_eq_ret.mp hreward
    obtain ⟨hgenesis, rfl⟩ := genesisShare_iff.mp hshare
    obtain ⟨s₂, hcoinbase, htransfers⟩ := applyTransactions_cons_eq_ret.mp happly
    obtain ⟨-, hverify, hcredit⟩ := (applyTransaction_coinbase_eq_ret rfl).mp hcoinbase
    obtain ⟨hroom, rfl⟩ := credit_iff.mp hcredit
    have hminerRoom : afterRewards env s b.height minerAddress minerAddress < 2 ^ 64 :=
      (afterRewards_miner hgenesis).trans_lt hroom
    refine ⟨hsize, verify_minedCoinbase.mp hverify, minerReward_eq_expectedCoinbase.mp hamount,
      hgenesis, hminerRoom, ?_⟩
    rw [← balances_rewarded hgenesis hminerRoom]
    exact hrest.mp ⟨t, htransfers⟩
  · rintro ⟨hsize, hverify, hfees, hgenesis, hminerRoom, haffordable⟩
    rw [← balances_rewarded hgenesis hminerRoom] at haffordable
    obtain ⟨t, ht⟩ := hrest.mpr haffordable
    have hroom := (afterRewards_miner hgenesis).symm.trans_lt hminerRoom
    have hcoinbase : applyTransaction env.cr env.consensus b.height 0
        (minedCoinbase env minerAddress b.height) (shared env s b.height)
          = .ret () (rewarded env s b.height minerAddress) :=
      (applyTransaction_coinbase_eq_ret rfl).mpr
        ⟨rfl, verify_minedCoinbase.mpr hverify, credit_iff.mpr ⟨hroom, rfl⟩⟩
    refine ⟨t, applyBlockToState_eq_ret.mpr ⟨hsize, _, txs, htxs, rfl, shared env s b.height, ?_,
      applyTransactions_cons_eq_ret.mpr ⟨_, hcoinbase, ht⟩⟩⟩
    rw [if_pos hheight]
    refine applyReward_eq_ret.mpr ⟨hminer ▸ hverify.2.2, ⟨hminer.symm, ?_⟩,
      genesisShare_iff.mpr ⟨hgenesis, rfl⟩⟩
    exact minerReward_eq_expectedCoinbase.mpr hfees

/-! ## The pipeline -/

/-- The transfers in line are in turn. -/
theorem inTurn_inLine {state : Ledger} {limit : Int} :
    InTurn env height state.nonces (inLine env state height limit [] txs) := by
  intro pre tx post heq
  have hempty : ∀ pre tx post, ([] : List Transaction) = pre ++ tx :: post →
      IsNext env state height pre tx := by
    intro pre' tx' post' hnil
    exact absurd hnil.symm (List.append_ne_nil_of_right_ne_nil pre' (List.cons_ne_nil tx' post'))
  obtain ⟨htype, hverify, addr, haddr, hnonce, -⟩ := isNext_of_inLine hempty pre tx post heq
  obtain rfl : tx.sender env.cr = addr :=
    Except.ok.inj ((verified_transfer htype hverify).fromAddress.symm.trans haddr)
  exact ⟨htype, hverify, hnonce⟩

theorem InTurn.mem (h : InTurn env height nonces txs) (htx : tx ∈ txs) :
    tx.type = .transfer ∧ tx.verifyForConsensus env.cr env.consensus height = .ok () := by
  obtain ⟨pre, post, heq⟩ := List.append_of_mem htx
  obtain ⟨htype, hverify, -⟩ := h pre tx post heq
  exact ⟨htype, hverify⟩

theorem wrongChainId_eq_ok {chainId : UInt64} : ∀ {i : Nat} {txs : List Transaction},
    wrongChainId chainId i txs = .ok () ↔ ∀ tx ∈ txs, tx.chainId = chainId
  | _, [] => by simp [wrongChainId]
  | i, tx :: txs => by
    rw [wrongChainId, List.forall_mem_cons]
    split
    · next hne => simp [hne]
    · next heq => rw [and_iff_right (not_not.mp heq), wrongChainId_eq_ok]

/-- **What the selection leaves open** about the transfers of a block on `latest`: what the
assembly and the ledger ask for besides valid signatures and nonces in turn. -/
structure Payable (env : Env) (c : Chain) (latest : Block) (minerAddress : Bytes)
    (answer : SealAnswer) (txs : List Transaction) : Prop where
  /-- this chain has an identifier -/
  chainId : env.chainId ≠ 0
  /-- the transfers are for this chain -/
  chainIds : ∀ tx ∈ txs, tx.chainId = env.chainId
  /-- the fees follow the fee rules -/
  fees : ∀ tx ∈ txs, (newFeeChecker minFee minFeePerByte).validateFee tx = .ok ()
  share : env.monetaryPolicy.minerRewardShare ≠ 0
  initial : env.monetaryPolicy.initialBlockReward ≠ 0
  /-- the miner's reward at this height is not nothing -/
  reward : minerReward env.monetaryPolicy (latest.height + 1) ≠ 0
  /-- no share of the fees is due to the miner -/
  feeShare : env.monetaryPolicy.minerFeeAmount (transferFees txs) = 0
  minerValid : validateAddress env.cr minerAddress = .ok ()
  /-- the proof-of-work engine can read the address of the miner -/
  minerEngine : ∃ addr, stringToAddress minerAddress = .ok addr
  /-- so can the binary encoding, where it is active -/
  minerBinary : env.consensus.binaryEncodingActive (latest.height + 1) = true →
    ∃ dest, decodeHex32 minerAddress = .ok dest
  /-- the genesis address has room for its share -/
  genesisRoom : c.state.balances env.genesisAddress
    + (genesisReward env.monetaryPolicy (latest.height + 1)).toNat < 2 ^ 64
  minerRoom : afterRewards env c.state (latest.height + 1) minerAddress minerAddress < 2 ^ 64
  /-- every sender can pay all its transfers, every recipient has room -/
  affordable : Affordable (transferReading env.cr) (2 ^ 64)
    (afterRewards env c.state (latest.height + 1) minerAddress) txs
  /-- a block of these transfers is within the limit, whatever its Merkle root -/
  size : Fits env (c.withWork (newBlock env c latest minerAddress answer (List.replicate 32 0) txs))

section Pipeline

variable {w : World} {tip : Block} {answer : SealAnswer}

/-- Where no fork is heavier, `MineTransfers` goes straight to the assembly. -/
theorem mineTransfers_of_best {t : World} (h : shouldReorgToHeaviestLocked env w = .ret false t)
    (htip : w.chain.tip? = some tip) (htip' : t.chain.tip? = some tip) :
    mineTransfers env minerAddress answer txs w
      = Prog.ofExcept (assembleBlock env t.chain tip minerAddress answer txs) t := by
  unfold mineTransfers
  rw [chain_bind_apply]
  rw [htip]
  dsimp only
  rw [bind_of_ret h]
  have hwhen : Prog.when false (do let _ ← Prog.attempt (reorganizeToHeaviestLocked env)) t
      = .ret () t := rfl
  rw [bind_of_ret hwhen]
  rw [chain_bind_apply]
  rw [htip']

/-- The assembly asks of a transfer in turn what the selection did not look at. -/
theorem checkTransfer_iff (hturn : InTurn env height nonces txs) (htx : tx ∈ txs) :
    checkTransfer env height tx = .ok () ↔ tx.chainId = env.chainId
        ∧ (newFeeChecker minFee minFeePerByte).validateFee tx = .ok () := by
  obtain ⟨htype, hverify⟩ := hturn.mem htx
  exact checkTransfer_eq_ok htype hverify (verified_transfer htype hverify).chainId

/-- The size of a block does not depend on its Merkle root. -/
theorem fits_newBlock_iff {c : Chain} (h : root.length = 32) :
    Fits env (c.withWork (newBlock env c tip minerAddress answer root txs)) ↔ Fits env (c.withWork
          (newBlock env c tip minerAddress answer (List.replicate 32 0) txs)) := by
  have hsize := blockSizeForConsensus_merkleRoot
    (c.withWork (newBlock env c tip minerAddress answer root txs))
    (h.trans (List.length_replicate (n := 32) (a := (0 : UInt8))).symm)
  exact not_congr (and_congr_right fun _ => iff_of_eq (congrArg (· > _) hsize))

/-- A block with a coinbase, a hash, a difficulty and the version of its height is only
checked for the identifiers of its transactions. -/
theorem validateBlockConsensusLocked_eq_ok {b : Block} {cb : Transaction}
    {rest : List Transaction} (htxs : b.transactions = cb :: rest) (htype : cb.type = .coinbase)
    (hhash : b.hash ≠ []) (hbits : b.header.difficultyBits ≠ 0)
    (hversion : b.header.version = env.consensus.blockVersionForHeight b.height) :
    validateBlockConsensusLocked env b = .ok () ↔ ∀ tx ∈ cb :: rest, tx.chainId = env.chainId := by
  unfold validateBlockConsensusLocked
  rw [htxs]
  dsimp only
  rw [if_neg (not_not.mpr htype), if_neg hhash, if_neg hbits, if_neg (not_not.mpr hversion),
    wrongChainId_eq_ok]

theorem validate_newBlock_iff {c : Chain} (hbits : UInt32.ofNat answer.difficulty ≠ 0) :
    validateBlockConsensusLocked env (newBlock env c tip minerAddress answer root txs) = .ok ()
      ↔ ∀ tx ∈ txs, tx.chainId = env.chainId := by
  have hhash : answer.hash ≠ [] := List.ne_nil_of_length_eq_add_one answer.hash_length
  refine (validateBlockConsensusLocked_eq_ok (b := newBlock env c tip minerAddress answer root txs)
    rfl rfl hhash hbits rfl).trans ?_
  rw [List.forall_mem_cons]
  exact and_iff_right rfl

/-- The store takes a block on the block it has at the height below. -/
theorem appendCanonical_newBlock (hpos : 0 < tip.height + 1)
    (hcanon : w.chain.store.canon.lookup tip.height = some tip.hash) :
    (w.chain.store.appendCanonical (w.chain.withWork
      (newBlock env w.chain tip minerAddress answer root txs))).isOk = true := by
  have hheight : (newBlock env w.chain tip minerAddress answer root txs).height > 0 := hpos
  have hparent : w.chain.store.canon.lookup
      ((newBlock env w.chain tip minerAddress answer root txs).height - 1) = some tip.hash := by
    have hbelow : (newBlock env w.chain tip minerAddress answer root txs).height - 1 = tip.height :=
      add_sub_cancel_right tip.height 1
    rw [hbelow]
    exact hcanon
  obtain ⟨store, hok⟩ := BoltStore.appendCanonical_of_parent (b := w.chain.withWork
      (newBlock env w.chain tip minerAddress answer root txs))
    (List.ne_nil_of_length_eq_add_one answer.hash_length) hheight hparent rfl
  rw [hok]
  rfl

/-- The block is sealed and accepted exactly if the transfers, which are in turn, are payable. -/
theorem mined_accepted_iff {w₀ : World} (hbest : shouldReorgToHeaviestLocked env w = .ret false w₀)
    (htip : w.chain.tip? = some tip) (hheight : tip.height + 1 = w.chain.length64)
    (hpos : 0 < tip.height + 1)
    (hcanon : w.chain.store.canon.lookup tip.height = some tip.hash)
    (hstore : env.storeOk w₀.chain.expiryTick = true)
    (hbits : UInt32.ofNat answer.difficulty ≠ 0)
    (hturn : InTurn env (tip.height + 1) w.chain.state.nonces txs) :
    (∃ b w₁ w₂, mineTransfers env minerAddress answer txs w = .ret b w₁ ∧ Accepts env b w₁ w₂)
      ↔ Payable env w.chain tip minerAddress answer txs := by
  obtain ⟨cache, tick, rfl⟩ : CacheOnly w w₀ :=
    (errless_shouldReorgToHeaviestLocked w).steps.of_ret hbest
  have hhash : 8 ≤ answer.hash.length := by
    rw [answer.hash_length]
    decide
  -- what the chain says about the block with a given root
  have haccept : ∀ root : Bytes,
      ((∃ w₂, Accepts env (newBlock env w.chain tip minerAddress answer root txs)
          ⟨{ w.chain with workCache := cache, tick := tick }, w.steps⟩ w₂)
        ↔ (∀ tx ∈ txs, tx.chainId = env.chainId) ∧ ∃ s, applyIn env (w.chain.withWork
              (newBlock env w.chain tip minerAddress answer root txs)) w.chain.state
            = .ret () s) := by
    intro root
    refine (accepts_iff (b := newBlock env w.chain tip minerAddress answer root txs)
      (w := ⟨{ w.chain with workCache := cache, tick := tick }, w.steps⟩)
      hheight htip rfl hhash).trans ?_
    rw [validate_newBlock_iff hbits]
    refine and_congr_right fun _ => ?_
    refine (and_iff_right hstore).trans
      ((and_iff_right (appendCanonical_newBlock hpos hcanon)).trans ?_)
    exact ⟨Outcome.value?_eq_some, fun ⟨_, hs⟩ => congrArg Outcome.value? hs⟩
  have happly := fun root => exists_applyIn_iff
    (b := w.chain.withWork (newBlock env w.chain tip minerAddress answer root txs)) hpos rfl
    rfl hturn
  rw [mineTransfers_of_best hbest htip htip]
  constructor
  · rintro ⟨b, w₁, w₂, hmine, hadd⟩
    obtain ⟨hassemble, rfl⟩ := ofExcept_eq_ret.mp hmine
    obtain ⟨hcheck, hshare, hinitial, haddr, leaves, root, hleaves, hroot, rfl⟩ :=
      assembleBlock_eq_ok.mp hassemble
    have hlength := merkleRoot_length hroot
    obtain ⟨hids, hstate⟩ := (haccept root).mp ⟨w₂, hadd⟩
    obtain ⟨hsize, ⟨hid, hreward, hvalid⟩, hfeeShare, hgenesis, hminer, haffordable⟩ :=
      (happly root).mp hstate
    have hcoinbase := Except.exists_mapM_eq_ok.mp ⟨leaves, hleaves⟩ _ List.mem_cons_self
    exact {
      chainId := hid
      chainIds := hids
      fees := fun tx htx => ((checkTransfer_iff hturn htx).mp
        (checkTransfers_eq_ok.mp hcheck tx htx)).2
      share := hshare
      initial := hinitial
      reward := hreward
      feeShare := hfeeShare
      minerValid := hvalid
      minerEngine := haddr
      minerBinary := (signingHash_of_coinbase rfl hid).mp hcoinbase
      genesisRoom := hgenesis
      minerRoom := hminer
      affordable := haffordable
      size := (fits_newBlock_iff hlength).mp hsize }
  · intro h
    have hcheck : checkTransfers env (tip.height + 1) txs = .ok () :=
      checkTransfers_eq_ok.mpr fun tx htx =>
        (checkTransfer_iff hturn htx).mpr ⟨h.chainIds tx htx, h.fees tx htx⟩
    have hhashes : ∀ tx ∈ minedCoinbase env minerAddress (tip.height + 1) :: txs,
        ∃ hash, txSigningHashForConsensus env.cr tx env.consensus (tip.height + 1) = .ok hash := by
      rw [List.forall_mem_cons]
      refine ⟨(signingHash_of_coinbase rfl h.chainId).mpr h.minerBinary, fun tx htx => ?_⟩
      obtain ⟨htype, hverify⟩ := hturn.mem htx
      exact (verified_transfer htype hverify).signingHash
    obtain ⟨leaves, hleaves⟩ := Except.exists_mapM_eq_ok.mpr hhashes
    obtain ⟨root, hroot⟩ := exists_merkleRoot (List.cons_ne_nil _ _) hleaves
    have hlength := merkleRoot_length hroot
    have hassemble : assembleBlock env w.chain tip minerAddress answer txs
        = .ok (newBlock env w.chain tip minerAddress answer root txs) :=
      assembleBlock_eq_ok.mpr
        ⟨hcheck, h.share, h.initial, h.minerEngine, leaves, root, hleaves, hroot, rfl⟩
    have hstate := (happly root).mpr ⟨(fits_newBlock_iff hlength).mpr h.size,
      ⟨h.chainId, h.reward, h.minerValid⟩, h.feeShare, h.genesisRoom, h.minerRoom, h.affordable⟩
    obtain ⟨w₂, hadd⟩ := (haccept root).mpr ⟨h.chainIds, hstate⟩
    exact ⟨_, _, w₂, ofExcept_eq_ret.mpr ⟨hassemble, rfl⟩, hadd⟩

end Pipeline

/-! ## Two pools -/

/-- A payment by the genesis miner in the pool. -/
def pooledPayment (name : String) (nonce amount fee : UInt64) : PoolCall :=
  .addWithTxID { sampleTransfer (zeroAddress 2) with nonce := nonce, amount := amount, fee := fee }
    (ascii name) ConsensusParams.default 2

/-- A first block, after which the genesis miner has 8001000 wei. -/
def firstBlock : Block := sampleBlock (List.replicate 32 1) (List.replicate 32 0) 1 10 []

/-- Answers of the clock and the engine for a second block. -/
def sampleAnswer : SealAnswer where
  now := 20
  difficulty := 10
  nonce := 7
  hash := List.replicate 32 2
  hash_length := List.length_replicate
  ptr := 2

/-- Whether a block with so many payments is mined from a pool after these calls, and has this
property on the chain it is mined on. -/
def minedAfter (run : List Call) (calls : List PoolCall) (payments : Nat)
    (outcome : Block → World → Bool) : Bool :=
  (runFromStart sampleEnv run).any fun w =>
    (runPool sampleEnv calls samplePool).any fun m =>
      match selectMempoolTxs sampleEnv w.chain m 1000 with
      | .error _ => false
      | .ok (txs, _, _) =>
        match mineTransfers sampleEnv (zeroAddress 1) sampleAnswer txs w with
        | .ret b w₁ => txs.length = payments ∧ outcome b w₁
        | _ => false

theorem exists_of_minedAfter {run : List Call} {calls : List PoolCall} {payments : Nat}
    {outcome : Block → World → Bool} (h : minedAfter run calls payments outcome = true) :
    ∃ w m txs ids m' b w₁, runFromStart sampleEnv run = some w
      ∧ runPool sampleEnv calls samplePool = some m
      ∧ selectMempoolTxs sampleEnv w.chain m 1000 = .ok (txs, ids, m') ∧ txs.length = payments
      ∧ mineTransfers sampleEnv (zeroAddress 1) sampleAnswer txs w = .ret b w₁
      ∧ outcome b w₁ = true := by
  obtain ⟨w, hw, h⟩ := (Option.any_eq_true _ _).mp h
  obtain ⟨m, hm, h⟩ := (Option.any_eq_true _ _).mp h
  split at h
  · cases h
  · next txs ids m' hselect =>
    split at h
    · next b w₁ hmine =>
      obtain ⟨hlength, houtcome⟩ := of_decide_eq_true h
      exact ⟨w, m, txs, ids, m', b, w₁, hw, hm, hselect, hlength, hmine, houtcome⟩
    · cases h

/-- The first block, a lighter one beside it and one whose parent is unknown. -/
def busyCalls : List Call :=
  [.addBlock firstBlock,
    .addBlock (sampleBlock (List.replicate 32 9) (List.replicate 32 0) 1 5 []),
    .addBlock (sampleBlock (List.replicate 32 8) (List.replicate 32 7) 5 10 [])]

end NogoChain
