import NogoChain.Mempool.Pool

/-!
# The selection of transactions for a block

`SelectMempoolTxs` walks through the pool by descending fee and picks each transfer whose
turn it is: the next one of its sender, counting what was picked before. The balance a
transfer is measured against is that of the chain, whatever the sender's picked transfers
cost, and amount and fee are added in 64 bits.

`inLine` is what the selection is for, without the bookkeeping: the transfers whose turn it
is, as a function of those before them. The loop computes exactly that
(`selectMempoolTxs_picked`).
-/

namespace NogoChain

/-! ## The order of the pool -/

/-- The comparison of `EntriesSortedByFeeDesc`: higher fees first, then earlier arrivals. -/
def MempoolEntry.Precedes (x y : MempoolEntry) : Prop :=
  if x.tx.fee ≠ y.tx.fee then x.tx.fee > y.tx.fee else x.received < y.received

instance (x y : MempoolEntry) : Decidable (x.Precedes y) :=
  inferInstanceAs (Decidable (if x.tx.fee ≠ y.tx.fee then _ else _))

/-- `EntriesSortedByFeeDesc`. The entries are collected in the order of the map; the sort is
not stable, but any order it can produce is a stable sort of some order of the map. -/
def Mempool.entriesSortedByFeeDesc (env : Env) (m : Mempool) : List MempoolEntry :=
  (env.order m.tick (m.entries.entries.map (·.2))).insertionSort fun x y => ¬ y.Precedes x

/-! ## The loop -/

/-- What the loop of `SelectMempoolTxs` accumulates. -/
structure Selection where
  picked : List Transaction
  pickedIDs : List Bytes
  /-- identifiers of transactions that can never be mined -/
  evictIDs : List Bytes
  /-- next nonce of a sender some transaction of which is picked -/
  expectedNonces : GoMap Bytes UInt64

/-- The transaction as it is picked: a chain identifier that is missing is filled in. -/
def Transaction.forChain (chainId : UInt64) (tx : Transaction) : Transaction :=
  if tx.chainId = 0 then { tx with chainId := chainId } else tx

variable (env : Env)

/-- The nonces of a sender in the pool. -/
def senderNonces (entries : List MempoolEntry) (fromAddr : Bytes) : List UInt64 :=
  (entries.filter fun e => e.tx.fromAddress env.cr = .ok fromAddr).map (·.tx.nonce)

/-- Whether the pool has a nonce from `chainExpected` up to, but not including, `nonce`. -/
def hasIntermediate (nonces : List UInt64) (chainExpected nonce : UInt64) : Bool :=
  nonces.any fun n => chainExpected ≤ n ∧ n < nonce

/-- A transfer whose turn it is not: one of a sender without picks, above a gap that nothing
in the pool can fill, is to be evicted. -/
def Selection.skip (acc : Selection) (nonces : List UInt64) (fromAddr : Bytes)
    (chainExpected : UInt64) (e : MempoolEntry) : Selection :=
  if acc.expectedNonces.lookup fromAddr = none ∧ e.tx.nonce > chainExpected
      ∧ ¬ hasIntermediate nonces chainExpected e.tx.nonce then
    { acc with evictIDs := acc.evictIDs ++ [e.txId] }
  else acc

/-- A transfer that is picked. -/
def Selection.pick (acc : Selection) (fromAddr : Bytes) (tx : Transaction) (id : Bytes) :
    Selection where
  picked := acc.picked ++ [tx]
  pickedIDs := acc.pickedIDs ++ [id]
  evictIDs := acc.evictIDs
  expectedNonces := acc.expectedNonces.insert fromAddr (tx.nonce + 1)

/-- The body of the loop. -/
def selectStep (state : Ledger) (height : UInt64) (entries : List MempoolEntry)
    (acc : Selection) (e : MempoolEntry) : Selection :=
  let tx := e.tx.forChain env.chainId
  if tx.type ≠ .transfer then acc
  else
    match tx.verifyForConsensus env.cr env.consensus height with
    | .error _ => acc
    | .ok () =>
      match tx.fromAddress env.cr with
      | .error _ => acc
      | .ok fromAddr =>
        let acct := state.account fromAddr
        let chainExpected := acct.nonce + 1
        if tx.nonce ≠ (acc.expectedNonces.lookup fromAddr).getD chainExpected then
          acc.skip (senderNonces env entries fromAddr) fromAddr chainExpected e
        else if acct.balance < tx.amount + tx.fee then acc
        else acc.pick fromAddr tx e.txId

/-- The loop, which ends when the block is full. -/
def selectLoop (state : Ledger) (height : UInt64) (entries : List MempoolEntry)
    (maxTxPerBlock : Int) : List MempoolEntry → Selection → Selection
  | [], acc => acc
  | e :: es, acc =>
    if acc.picked.length ≥ maxTxPerBlock then acc
    else selectLoop state height entries maxTxPerBlock es
      (selectStep env state height entries acc e)

/-- `SelectMempoolTxs` of the miner's wrapper: the transactions, their identifiers, and the
pool without those that can never be mined. A chain without blocks has no latest height. -/
def selectMempoolTxs (c : Chain) (m : Mempool) (maxTxPerBlock : Int) :
    Except Fault (List Transaction × List Bytes × Mempool) :=
  let entries := m.entriesSortedByFeeDesc env
  match c.tip? with
  | none =>
    if maxTxPerBlock > 0 ∧ entries.any (·.tx.type = .transfer) then
      .error (.panic "w.chain.LatestBlock().GetHeight()")
    else .ok ([], [], m)
  | some tip =>
    let r := selectLoop env c.state (tip.height + 1) entries maxTxPerBlock entries ⟨[], [], [], ∅⟩
    .ok (r.picked, r.pickedIDs, { m with tick := m.tick + 1 }.removeMany env r.evictIDs)

/-! ## What the selection is for -/

/-- The number of transactions of a sender in a list. -/
def sentBy (txs : List Transaction) (addr : Bytes) : Nat :=
  txs.countP fun tx => tx.fromAddress env.cr = .ok addr

/-- **It is the turn of a transaction** after the ones picked before: it is a valid transfer,
the next one of its sender, and costs no more than the chain says the sender has. -/
def IsNext (state : Ledger) (height : UInt64) (before : List Transaction) (tx : Transaction) :
    Prop :=
  tx.type = .transfer ∧ tx.verifyForConsensus env.cr env.consensus height = .ok ()
    ∧ ∃ addr, tx.fromAddress env.cr = .ok addr
      ∧ tx.nonce = (state.account addr).nonce + 1 + UInt64.ofNat (sentBy env before addr)
      ∧ tx.amount + tx.fee ≤ (state.account addr).balance

instance (state : Ledger) (height : UInt64) (before : List Transaction) (tx : Transaction) :
    Decidable (IsNext env state height before tx) :=
  match h : tx.fromAddress env.cr with
  | .error e => .isFalse fun hnext => by
      obtain ⟨-, -, addr, haddr, -⟩ := hnext
      exact nomatch haddr.symm.trans h
  | .ok addr =>
    decidable_of_iff (tx.type = .transfer
        ∧ tx.verifyForConsensus env.cr env.consensus height = .ok ()
        ∧ tx.nonce = (state.account addr).nonce + 1 + UInt64.ofNat (sentBy env before addr)
        ∧ tx.amount + tx.fee ≤ (state.account addr).balance) (by
      refine and_congr_right fun _ => and_congr_right fun _ => ?_
      refine ⟨fun h' => ⟨addr, h, h'⟩, fun ⟨addr', h', hnext⟩ => ?_⟩
      obtain rfl : addr = addr' := Except.ok.inj (h.symm.trans h')
      exact hnext)

/-- **The transactions in line**, in the order of the candidates: at most `limit` of them,
each when its turn comes. -/
def inLine (state : Ledger) (height : UInt64) (limit : Int) :
    List Transaction → List Transaction → List Transaction
  | before, [] => before
  | before, tx :: txs =>
    if before.length ≥ limit then before
    else if IsNext env state height before tx then inLine state height limit (before ++ [tx]) txs
    else inLine state height limit before txs

variable {env}

/-- The nonce the loop expects is the one whose turn it is. -/
def Selection.Tracks (env : Env) (state : Ledger) (acc : Selection) : Prop :=
  ∀ addr, (acc.expectedNonces.lookup addr).getD ((state.account addr).nonce + 1)
    = (state.account addr).nonce + 1 + UInt64.ofNat (sentBy env acc.picked addr)

theorem sentBy_concat (txs : List Transaction) (tx : Transaction) (addr : Bytes) :
    sentBy env (txs ++ [tx]) addr
      = sentBy env txs addr + if tx.fromAddress env.cr = .ok addr then 1 else 0 := by
  unfold sentBy
  simp

/-- **One round of the loop** picks the transaction if it is its turn, and keeps track. -/
theorem selectStep_spec {state : Ledger} (height : UInt64) (entries : List MempoolEntry)
    {acc : Selection} (h : acc.Tracks env state) (e : MempoolEntry) :
    (selectStep env state height entries acc e).Tracks env state
      ∧ (selectStep env state height entries acc e).picked
        = if IsNext env state height acc.picked (e.tx.forChain env.chainId) then
            acc.picked ++ [e.tx.forChain env.chainId]
          else acc.picked := by
  unfold selectStep
  generalize e.tx.forChain env.chainId = tx
  by_cases htype : tx.type = .transfer
  swap
  · rw [if_pos htype, if_neg fun hnext => htype hnext.1]
    exact ⟨h, rfl⟩
  rw [if_neg (not_not.mpr htype)]
  cases hverify : tx.verifyForConsensus env.cr env.consensus height with
  | error err =>
    have hnot : ¬ IsNext env state height acc.picked tx := by
      intro hnext
      have hok := hnext.2.1
      rw [hverify] at hok
      cases hok
    rw [if_neg hnot]
    exact ⟨h, rfl⟩
  | ok u =>
    cases hfrom : tx.fromAddress env.cr with
    | error err =>
      rw [if_neg fun ⟨_, _, addr, haddr, _⟩ => nomatch hfrom.symm.trans haddr]
      exact ⟨h, rfl⟩
    | ok addr =>
      -- with the sender known, it is the turn of the transaction if nonce and balance say so
      have hnext : IsNext env state height acc.picked tx
          ↔ tx.nonce = (state.account addr).nonce + 1 + UInt64.ofNat (sentBy env acc.picked addr)
            ∧ tx.amount + tx.fee ≤ (state.account addr).balance := by
        refine ⟨fun ⟨_, _, addr', haddr', hrest⟩ => ?_,
          fun hrest => ⟨htype, hverify, addr, hfrom, hrest⟩⟩
        obtain rfl : addr = addr' := Except.ok.inj (hfrom.symm.trans haddr')
        exact hrest
      dsimp only
      rw [h addr]
      split
      · next hnonce =>
        rw [if_neg fun hn => hnonce (hnext.mp hn).1]
        unfold Selection.skip
        split <;> exact ⟨h, rfl⟩
      · next hnonce =>
        split
        · next hbalance =>
          rw [if_neg fun hn => UInt64.not_lt.mpr (hnext.mp hn).2 hbalance]
          exact ⟨h, rfl⟩
        · next hbalance =>
          have hnonce' := not_not.mp hnonce
          rw [if_pos (hnext.mpr ⟨hnonce', UInt64.not_lt.mp hbalance⟩)]
          refine ⟨fun addr' => ?_, rfl⟩
          unfold Selection.pick
          rw [GoMap.lookup_insert, sentBy_concat, hfrom]
          split
          · next heq =>
            rw [Option.getD_some, hnonce', heq, if_pos rfl, UInt64.ofNat_add]
            exact add_assoc _ _ _
          · next hne =>
            rw [if_neg fun heq => hne (Except.ok.inj heq).symm, Nat.add_zero]
            exact h addr'

/-- **The loop picks the transactions in line.** -/
theorem selectLoop_picked (state : Ledger) (height : UInt64) (entries : List MempoolEntry)
    (limit : Int) : ∀ (es : List MempoolEntry) (acc : Selection), acc.Tracks env state →
      (selectLoop env state height entries limit es acc).picked
        = inLine env state height limit acc.picked (es.map fun e => e.tx.forChain env.chainId)
  | [], _, _ => rfl
  | e :: es, acc, h => by
    obtain ⟨htracks, hpicked⟩ := selectStep_spec height entries h e
    unfold selectLoop
    rw [List.map_cons, inLine]
    split
    · rfl
    · rw [selectLoop_picked state height entries limit es _ htracks, hpicked]
      split <;> rfl

/-- **`SelectMempoolTxs` returns the transactions in line.** -/
theorem selectMempoolTxs_picked {c : Chain} {tip : Block} (htip : c.tip? = some tip) (m : Mempool)
    (limit : Int) :
    ∃ ids m', selectMempoolTxs env c m limit = .ok (inLine env c.state (tip.height + 1) limit []
          ((m.entriesSortedByFeeDesc env).map fun e => e.tx.forChain env.chainId), ids, m') := by
  have htracks : (⟨[], [], [], ∅⟩ : Selection).Tracks env c.state := by
    intro addr
    exact (add_zero _).symm
  unfold selectMempoolTxs
  rw [htip]
  dsimp only
  rw [selectLoop_picked _ _ _ _ _ _ htracks]
  exact ⟨_, _, rfl⟩

/-- Every transaction in line had its turn. -/
theorem isNext_of_inLine {state : Ledger} {height : UInt64} {limit : Int} :
    ∀ {txs before : List Transaction},
      (∀ pre tx post, before = pre ++ tx :: post → IsNext env state height pre tx) →
      ∀ pre tx post, inLine env state height limit before txs = pre ++ tx :: post →
        IsNext env state height pre tx
  | [], _, h, pre, tx, post, heq => h pre tx post heq
  | t :: ts, before, h, pre, tx, post, heq => by
    unfold inLine at heq
    split at heq
    · exact h pre tx post heq
    · split at heq
      · next hnext =>
        refine isNext_of_inLine (fun pre' tx' post' heq' => ?_) pre tx post heq
        rcases List.append_eq_append_iff.mp heq' with ⟨l, hl, htail⟩ | ⟨l, hl, htail⟩
        · cases l with
          | nil =>
            rw [List.append_nil] at hl
            cases htail
            exact hl ▸ hnext
          | cons x xs =>
            have hlen := congrArg List.length htail
            simp at hlen
        · cases l with
          | nil =>
            rw [List.append_nil] at hl
            cases htail
            exact hl ▸ hnext
          | cons x xs =>
            cases htail
            exact h pre' _ xs hl
      · exact isNext_of_inLine h pre tx post heq

end NogoChain
