import NogoChain.Chain.State
import NogoChain.Core.SignedEffect

/-!
# Signatures, one by one and in a batch

The block validator checks the signatures of a block in one of two ways. Up to ten
transactions it calls `VerifyForConsensus` for each transfer. Beyond that it collects keys,
messages and signatures and hands them to `VerifyBatch` – and the messages come from
encoders of its own.

Those are not the encoders of package `core`. The JSON text has one member more, the height,
and the binary encoder starts with the type of the transaction, a text, which `binary.Write`
refuses. The batch also skips every check of `VerifyForConsensus` that is not about the
signature. So the number of transactions decides which transfers are good:
`verifyTransactionsBatch_eq_ret` says what each way accepts.
-/

namespace NogoChain.Consensus

variable (cr : Crypto)

/-! ## The messages of the batch -/

/-- What `binary.Write` is given here. -/
inductive WireValue where
  | uint8 (n : UInt8)
  | uint16 (n : UInt16)
  | uint64 (n : UInt64)
  | text (typeName : String)

/-- `binary.Write(buf, binary.LittleEndian, v)`: the bytes of a value of fixed size. -/
def binaryWrite : WireValue → Except GoError Bytes
  | .uint8 n => .ok [n]
  | .uint16 n => .ok (littleEndian 2 n.toNat)
  | .uint64 n => .ok (littleEndian 8 n.toNat)
  | .text typeName =>
    .error (.new ("binary.Write: some values are not fixed-sized in type " ++ typeName))

/-- A value of the encoder, with the text that goes around an error. -/
def writeField (format : String) (v : WireValue) : Except GoError Bytes :=
  match binaryWrite v with
  | .error e => .error (.wrap format [] e)
  | .ok b => .ok b

/-- `consensus.txSigningHashBinary`. -/
def txSigningHashBinary (tx : Transaction) (height : UInt64) : Except GoError Bytes := do
  let kind ← writeField "write type: %w" (.text "core.TransactionType")
  let chainId ← writeField "write chainId: %w" (.uint64 tx.chainId)
  let key := sliceBytes tx.fromPubKey
  let sender ←
    if tx.type = .transfer ∧ key.length > 0 then do
      let length ← writeField "write fromPubKey length: %w" (.uint8 key.length.toUInt8)
      pure (length ++ key)
    else pure []
  let toLength ← writeField "write toAddress length: %w" (.uint8 tx.toAddress.length.toUInt8)
  let amount ← writeField "write amount: %w" (.uint64 tx.amount)
  let fee ← writeField "write fee: %w" (.uint64 tx.fee)
  let nonce ← writeField "write nonce: %w" (.uint64 tx.nonce)
  let dataLength ← writeField "write data length: %w" (.uint16 tx.data.length.toUInt16)
  let atHeight ← writeField "write height: %w" (.uint64 height)
  pure (cr.sha256 ([1] ++ kind ++ chainId ++ sender ++ (toLength ++ tx.toAddress) ++ amount ++ fee
    ++ nonce ++ (dataLength ++ tx.data) ++ atHeight))

/-- The `signingView` of `consensus.txSigningHashJSON`: that of `core` and the height. -/
def signingViewAt (t : Transaction) (fromAddr : Bytes) (height : UInt64) : Json :=
  .obj (t.signingView fromAddr ++ [("height", .num height.toNat)])

/-- `consensus.txSigningHashJSON`. -/
def txSigningHashJSON (tx : Transaction) (height : UInt64) : Except GoError Bytes :=
  if tx.type = .transfer then
    match tx.fromAddress cr with
    | .error e => .error e
    | .ok fromAddr => .ok (cr.sha256 (signingViewAt tx fromAddr height).text)
  else .ok (cr.sha256 (signingViewAt tx [] height).text)

/-- `consensus.txSigningHashForConsensus`. -/
def txSigningHashForConsensus (tx : Transaction) (p : ConsensusParams) (height : UInt64) :
    Except GoError Bytes :=
  if p.binaryEncodingActive height then txSigningHashBinary cr tx height
  else txSigningHashJSON cr tx height

/-! ## The batch -/

/-- `BATCH_VERIFY_THRESHOLD`. -/
def batchVerifyThreshold : Nat := 10

/-- One entry of the batch: its place in the block, key, message and signature. -/
structure BatchEntry where
  index : Nat
  pubKey : Bytes
  /-- what is signed -/
  message : Bytes
  signature : Bytes

/-- `crypto.Verify`. -/
def verify (pubKey message signature : Bytes) : Bool :=
  if pubKey.length ≠ pubKeySize then false else cr.ed25519Verify pubKey message signature

/-- The chunks of `VerifyBatch`, ten signatures at a time and the rest; within a chunk each
signature is checked for itself. -/
def verifyChunks (triples : List (Bytes × Bytes × Bytes)) : List Bool :=
  match triples with
  | [] => []
  | t :: ts =>
    ((t :: ts).take batchVerifyThreshold).map (fun e => verify cr e.1 e.2.1 e.2.2)
      ++ verifyChunks ((t :: ts).drop batchVerifyThreshold)
termination_by triples.length
decreasing_by
  rw [List.length_drop, batchVerifyThreshold, List.length_cons]
  omega

def verifyBatch (pubKeys messages signatures : List Bytes) : Except GoError (List Bool) :=
  if pubKeys.length ≠ messages.length ∨ messages.length ≠ signatures.length then
    .error (.errorf "batch size mismatch: pubKeys=%d, messages=%d, signatures=%d"
      [.num pubKeys.length, .num messages.length, .num signatures.length])
  else .ok (verifyChunks cr (pubKeys.zip (messages.zip signatures)))

/-- The loop of the first way, from position `i` on. -/
def checkSingly (p : ConsensusParams) (height : UInt64) :
    Nat → List Transaction → List Bool → List Bool
  | _, [], results => results
  | i, tx :: txs, results =>
    checkSingly p height (i + 1) txs (if tx.type ≠ .transfer then results.set i true
        else results.set i (tx.verifyForConsensus cr p height).isOk)

/-- The loop that fills the batch, from position `i` on: what can be decided at once is
written to the results. -/
def collectBatch (p : ConsensusParams) (height : UInt64) :
    Nat → List Transaction → List Bool × List BatchEntry → List Bool × List BatchEntry
  | _, [], acc => acc
  | i, tx :: txs, (results, batch) =>
    collectBatch p height (i + 1) txs (if tx.type ≠ .transfer then (results.set i true, batch)
      else if (sliceBytes tx.fromPubKey).length ≠ pubKeySize
          ∨ (sliceBytes tx.signature).length ≠ signatureSize then (results.set i false, batch)
      else
        match txSigningHashForConsensus cr tx p height with
        | .error _ => (results.set i false, batch)
        | .ok h => (results, batch ++ [⟨i, sliceBytes tx.fromPubKey, h, sliceBytes tx.signature⟩]))

/-- What becomes of the results once the batch is verified. -/
def settleBatch (results : List Bool) (batch : List BatchEntry) : List Bool :=
  if batch.length > 0 then
    match verifyBatch cr (batch.map (·.pubKey)) (batch.map (·.message))
        (batch.map (·.signature)) with
    | .error _ => batch.foldl (fun r e => r.set e.index false) results
    | .ok verdicts => (batch.zip verdicts).foldl (fun r e => r.set e.1.index e.2) results
  else results

/-- The loop over the results: the first that is not good is reported. -/
def reportResults {σ : Type} (results : List Bool) : Prog σ GoError Fault Unit :=
  match results.findIdx? (!·) with
  | some i => Prog.throw (.wrap "%w: transaction %d" [.num i]
      (.new "transaction signature verification failed"))
  | none => pure ()

/-- `verifyTransactionsBatch`. The first result is written before the length is looked at. -/
def verifyTransactionsBatch {σ : Type} (p : ConsensusParams) (block : Block) :
    Prog σ GoError Fault Unit :=
  match block.transactions with
  | [] => Prog.crash (.panic "results[0]")
  | _ :: rest =>
    let results := true :: List.replicate rest.length false
    let results :=
      if block.transactions.length ≤ batchVerifyThreshold then
        checkSingly cr p block.height 1 rest results
      else
        let (results, batch) := collectBatch cr p block.height 1 rest (results, [])
        settleBatch cr results batch
    reportResults results

/-! ## What the loops compute -/

section Loops

variable {cr} {p : ConsensusParams} {height : UInt64}

theorem verifyChunks_eq_map (triples : List (Bytes × Bytes × Bytes)) :
    verifyChunks cr triples = triples.map fun e => verify cr e.1 e.2.1 e.2.2 := by
  induction h : triples.length using Nat.strong_induction_on generalizing triples with
  | _ n ih =>
    cases triples with
    | nil => rw [verifyChunks, List.map_nil]
    | cons t ts =>
      have hshort : ((t :: ts).drop batchVerifyThreshold).length < n := by
        rw [← h, List.length_drop, batchVerifyThreshold, List.length_cons]
        omega
      rw [verifyChunks, ih _ hshort _ rfl, ← List.map_append, List.take_append_drop]

/-- The verdict on one entry. -/
def BatchEntry.valid (cr : Crypto) (e : BatchEntry) : Bool :=
  verify cr e.pubKey e.message e.signature

/-- **Batch verification is verification of each entry.** -/
theorem settleBatch_eq_foldl (results : List Bool) (batch : List BatchEntry) :
    settleBatch cr results batch = batch.foldl (fun r e => r.set e.index (e.valid cr)) results := by
  have hverify : verifyBatch cr (batch.map (·.pubKey)) (batch.map (·.message))
      (batch.map (·.signature)) = .ok (batch.map (·.valid cr)) := by
    rw [verifyBatch, if_neg (by simp), verifyChunks_eq_map, List.zip_map', List.zip_map',
      List.map_map]
    rfl
  unfold settleBatch
  rw [hverify]
  cases batch with
  | nil => rfl
  | cons e es =>
    rw [if_pos (by simp)]
    have hzip : (e :: es).zip ((e :: es).map (·.valid cr))
        = (e :: es).map fun e => (e, e.valid cr) := by
      simpa using List.zip_map' (f := id) (g := (·.valid cr)) (l := e :: es)
    show ((e :: es).zip ((e :: es).map (·.valid cr))).foldl _ results = _
    rw [hzip, List.foldl_map]

/-- An entry that joins the batch writes its own verdict. -/
theorem settleBatch_concat (results : List Bool) (batch : List BatchEntry) (e : BatchEntry) :
    settleBatch cr results (batch ++ [e])
      = (settleBatch cr results batch).set e.index (e.valid cr) := by
  rw [settleBatch_eq_foldl, settleBatch_eq_foldl, List.foldl_append, List.foldl_cons,
    List.foldl_nil]

/-- Results written in order, from position `i` on. -/
def fill : Nat → List Bool → List Bool → List Bool
  | _, [], results => results
  | i, v :: vs, results => fill (i + 1) vs (results.set i v)

theorem fill_append (done vs : List Bool) :
    fill done.length vs (done ++ List.replicate vs.length false) = done ++ vs := by
  induction vs generalizing done with
  | nil => simp [fill]
  | cons v vs ih =>
    have hset : (done ++ List.replicate (v :: vs).length false).set done.length v
        = (done ++ [v]) ++ List.replicate vs.length false := by
      simp [List.replicate_succ]
    have hnext := ih (done ++ [v])
    rw [List.length_append, List.length_singleton] at hnext
    rw [fill, hset, hnext, List.append_assoc, List.singleton_append]

/-- What the first way decides about a transaction. -/
def singleVerdict (cr : Crypto) (p : ConsensusParams) (height : UInt64) (tx : Transaction) : Bool :=
  tx.type ≠ .transfer || (tx.verifyForConsensus cr p height).isOk

/-- What the second way decides about a transaction. -/
def batchVerdict (cr : Crypto) (p : ConsensusParams) (height : UInt64) (tx : Transaction) : Bool :=
  tx.type ≠ .transfer
    || (decide ((sliceBytes tx.fromPubKey).length = pubKeySize
          ∧ (sliceBytes tx.signature).length = signatureSize)
        && match txSigningHashForConsensus cr tx p height with
          | .error _ => false
          | .ok h => verify cr (sliceBytes tx.fromPubKey) h (sliceBytes tx.signature))

theorem checkSingly_eq_fill (txs : List Transaction) (i : Nat) (results : List Bool) :
    checkSingly cr p height i txs results
      = fill i (txs.map (singleVerdict cr p height)) results := by
  induction txs generalizing i results with
  | nil => rfl
  | cons tx txs ih =>
    rw [checkSingly, ih, List.map_cons, fill]
    by_cases htype : tx.type = .transfer <;> simp [singleVerdict, htype]

/-- A result that is written while the batch waits stays where the batch does not write. -/
theorem settleBatch_set {batch : List BatchEntry} {i : Nat} (h : ∀ e ∈ batch, e.index ≠ i)
    (v : Bool) (results : List Bool) :
    settleBatch cr (results.set i v) batch = (settleBatch cr results batch).set i v := by
  rw [settleBatch_eq_foldl, settleBatch_eq_foldl]
  induction batch generalizing results with
  | nil => rfl
  | cons e es ih =>
    obtain ⟨he, hes⟩ := List.forall_mem_cons.mp h
    rw [List.foldl_cons, List.foldl_cons, List.set_comm _ _ (Ne.symm he), ih hes]

/-- **The batch fills the results in order**, although it writes some of them late: an entry
that waits is written at its own position, which nothing else writes. -/
theorem settleBatch_collectBatch (txs : List Transaction) (i : Nat) (results : List Bool)
    (batch : List BatchEntry) (h : ∀ e ∈ batch, e.index < i) :
    settleBatch cr (collectBatch cr p height i txs (results, batch)).1
        (collectBatch cr p height i txs (results, batch)).2
      = fill i (txs.map (batchVerdict cr p height)) (settleBatch cr results batch) := by
  induction txs generalizing i results batch with
  | nil => rfl
  | cons tx txs ih =>
    have hlt : ∀ e ∈ batch, e.index < i + 1 := fun e he => Nat.lt_succ_of_lt (h e he)
    have hnow : ∀ v, settleBatch cr (results.set i v) batch
        = (settleBatch cr results batch).set i v := fun v =>
      settleBatch_set (fun e he => (h e he).ne) v results
    rw [collectBatch, List.map_cons, fill]
    by_cases htype : tx.type = .transfer
    · rw [if_neg (not_not.mpr htype)]
      by_cases hlen : (sliceBytes tx.fromPubKey).length = pubKeySize
          ∧ (sliceBytes tx.signature).length = signatureSize
      · rw [if_neg (by simp [hlen])]
        cases hmsg : txSigningHashForConsensus cr tx p height with
        | error e =>
          dsimp only
          rw [ih _ _ _ hlt, hnow]
          simp [batchVerdict, htype, hlen, hmsg]
        | ok m =>
          dsimp only
          rw [ih _ _ _ (fun e he => ?_), settleBatch_concat]
          · simp [batchVerdict, htype, hlen, hmsg, BatchEntry.valid]
          · rcases List.mem_append.mp he with he | he
            · exact hlt e he
            · rw [List.mem_singleton.mp he]
              exact Nat.lt_succ_self i
      · rw [if_pos (not_and_or.mp hlen), ih _ _ _ hlt, hnow]
        simp [batchVerdict, htype, hlen]
    · rw [if_pos htype, ih _ _ _ hlt, hnow]
      simp [batchVerdict, htype]

end Loops

/-! ## What the two ways accept -/

section Verdicts

variable {cr} {p : ConsensusParams} {height : UInt64}

/-- A transfer whose signature is good for the text of the batch, the one with the height in
it. Where the binary encoding is active there is no such transfer. -/
structure HeightSigned (cr : Crypto) (p : ConsensusParams) (height : UInt64) (tx : Transaction) :
    Prop where
  pubKey : (sliceBytes tx.fromPubKey).length = pubKeySize
  signature : (sliceBytes tx.signature).length = signatureSize
  /-- the message is a JSON text -/
  json : p.binaryEncodingActive height = false
  /-- that is signed together with the height -/
  signed : cr.ed25519Verify (sliceBytes tx.fromPubKey)
    (cr.sha256 (signingViewAt tx (generateAddress cr (sliceBytes tx.fromPubKey)) height).text)
    (sliceBytes tx.signature) = true

/-- The binary encoder of the batch fails for every transaction. -/
theorem txSigningHashBinary_fails (cr : Crypto) (tx : Transaction) (height : UInt64) :
    ∃ e, txSigningHashBinary cr tx height = .error e := ⟨_, rfl⟩

/-- The message of the batch for a transfer with a proper key. -/
theorem txSigningHashForConsensus_of_transfer {tx : Transaction} (htype : tx.type = .transfer)
    (hkey : (sliceBytes tx.fromPubKey).length = pubKeySize)
    (hjson : p.binaryEncodingActive height = false) :
    txSigningHashForConsensus cr tx p height = .ok (cr.sha256
          (signingViewAt tx (generateAddress cr (sliceBytes tx.fromPubKey)) height).text) := by
  have hfrom : tx.fromAddress cr = .ok (generateAddress cr (sliceBytes tx.fromPubKey)) := by
    rw [Transaction.fromAddress, if_neg (not_not.mpr htype), if_neg (not_not.mpr hkey)]
  rw [txSigningHashForConsensus, if_neg (by simp [hjson]), txSigningHashJSON, if_pos htype, hfrom]

theorem batchVerdict_eq_true_iff {tx : Transaction} :
    batchVerdict cr p height tx = true ↔ (tx.type = .transfer → HeightSigned cr p height tx) := by
  by_cases htype : tx.type = .transfer
  · constructor
    · intro h _
      simp only [batchVerdict, htype, ne_eq, not_true_eq_false, decide_false, Bool.false_or,
        Bool.and_eq_true, decide_eq_true_eq] at h
      obtain ⟨⟨hkey, hsig⟩, hmsg⟩ := h
      cases hjson : p.binaryEncodingActive height with
      | true =>
        obtain ⟨e, he⟩ := txSigningHashBinary_fails cr tx height
        rw [txSigningHashForConsensus, if_pos hjson, he] at hmsg
        cases hmsg
      | false =>
        rw [txSigningHashForConsensus_of_transfer htype hkey hjson] at hmsg
        simp only [verify, hkey, ne_eq, not_true_eq_false, if_false] at hmsg
        exact ⟨hkey, hsig, hjson, hmsg⟩
    · intro h
      obtain ⟨hkey, hsig, hjson, hsigned⟩ := h htype
      simp [batchVerdict, htype, hkey, hsig, verify, hsigned,
        txSigningHashForConsensus_of_transfer htype hkey hjson]
  · simp [batchVerdict, htype]

theorem singleVerdict_eq_true_iff {tx : Transaction} :
    singleVerdict cr p height tx = true
      ↔ (tx.type = .transfer → tx.verifyForConsensus cr p height = .ok ()) := by
  by_cases htype : tx.type = .transfer
  · cases h : tx.verifyForConsensus cr p height with
    | error e | ok u => simp [singleVerdict, htype, h, Except.isOk, Except.toBool]
  · simp [singleVerdict, htype]

/-- A transfer is good for `VerifyForConsensus`. -/
def SingleGood (cr : Crypto) (p : ConsensusParams) (height : UInt64) (tx : Transaction) : Prop :=
  tx.type = .transfer → tx.verifyForConsensus cr p height = .ok ()

/-- A transfer is good for the batch. -/
def BatchGood (cr : Crypto) (p : ConsensusParams) (height : UInt64) (tx : Transaction) : Prop :=
  tx.type = .transfer → HeightSigned cr p height tx

theorem reportResults_eq_ret {σ : Type} {results : List Bool} {s t : σ} :
    reportResults results s = .ret () t ↔ t = s ∧ ∀ v ∈ results, v = true := by
  unfold reportResults
  cases hfind : results.findIdx? (!·) with
  | none =>
    have hall : ∀ v ∈ results, v = true := by
      simpa using List.findIdx?_eq_none_iff.mp hfind
    simp only [Prog.pure_apply, Outcome.ret.injEq, true_and]
    exact ⟨fun h => ⟨h.symm, hall⟩, fun h => h.1.symm⟩
  | some i =>
    refine iff_of_false nofun fun h => ?_
    have hnone : results.findIdx? (!·) = none := by
      simpa using h.2
    rw [hnone] at hfind
    cases hfind

/-- **What is accepted**: a block with a first transaction, whose other transfers are good
for the way that their number selects. -/
theorem verifyTransactionsBatch_eq_ret {σ : Type} {block : Block} {s t : σ} :
    verifyTransactionsBatch cr p block s = .ret () t
      ↔ t = s ∧ ∃ first rest, block.transactions = first :: rest
        ∧ ∀ tx ∈ rest, if block.transactions.length ≤ batchVerifyThreshold
            then SingleGood cr p block.height tx else BatchGood cr p block.height tx := by
  unfold verifyTransactionsBatch
  cases htxs : block.transactions with
  | nil => simp
  | cons first rest =>
    have hfill : ∀ f : Transaction → Bool,
        fill 1 (rest.map f) (true :: List.replicate rest.length false) = true :: rest.map f := by
      intro f
      have h := fill_append [true] (rest.map f)
      rwa [List.length_map] at h
    dsimp only
    split
    · rw [checkSingly_eq_fill, hfill, reportResults_eq_ret]
      simp [singleVerdict_eq_true_iff, SingleGood]
    · rw [settleBatch_collectBatch _ _ _ _ (by simp), settleBatch_eq_foldl, List.foldl_nil, hfill,
        reportResults_eq_ret]
      simp [batchVerdict_eq_true_iff, BatchGood]

end Verdicts

/-! ## Where the number of transactions makes no difference -/

/-- The block has a first transaction; and if it is small, that one – which is not looked
at – is good or another is not; if it is large, all transfers are good both for
`VerifyForConsensus` and for the batch, or some transfer is bad for the one and some,
not necessarily the same, for the other. -/
def ThresholdUnseen (cr : Crypto) (p : ConsensusParams) (block : Block) : Prop :=
  ∃ first rest, block.transactions = first :: rest
    ∧ if block.transactions.length ≤ batchVerifyThreshold then
        SingleGood cr p block.height first ∨ ∃ tx ∈ rest, ¬ SingleGood cr p block.height tx
      else
        ((∀ tx ∈ block.transactions, SingleGood cr p block.height tx)
            ∧ ∀ tx ∈ rest, BatchGood cr p block.height tx)
          ∨ ((∃ tx ∈ block.transactions, ¬ SingleGood cr p block.height tx)
            ∧ ∃ tx ∈ rest, ¬ BatchGood cr p block.height tx)

/-- **When the two ways agree.** `verifyTransactionsBatch` accepts a block exactly if
`VerifyForConsensus` accepts each of its transfers, on the blocks of `ThresholdUnseen` and
on no others. A block of at most ten transactions that starts with a coinbase is always one
of them. -/
theorem verifyTransactionsBatch_agrees_iff {σ : Type} (cr : Crypto) (p : ConsensusParams)
    (block : Block) (s : σ) :
    (verifyTransactionsBatch cr p block s = .ret () s
        ↔ ∀ tx ∈ block.transactions, tx.type = .transfer →
            tx.verifyForConsensus cr p block.height = .ok ())
      ↔ ThresholdUnseen cr p block := by
  rw [verifyTransactionsBatch_eq_ret]
  cases htxs : block.transactions with
  | nil => simp [ThresholdUnseen, htxs]
  | cons first rest =>
    have hall : (∀ tx ∈ first :: rest, tx.type = .transfer →
        tx.verifyForConsensus cr p block.height = .ok ())
        ↔ SingleGood cr p block.height first ∧ ∀ tx ∈ rest, SingleGood cr p block.height tx :=
      List.forall_mem_cons
    have hunseen : ThresholdUnseen cr p block
        ↔ if (first :: rest).length ≤ batchVerifyThreshold then
            SingleGood cr p block.height first ∨ ∃ tx ∈ rest, ¬ SingleGood cr p block.height tx
          else
            ((∀ tx ∈ first :: rest, SingleGood cr p block.height tx)
                ∧ ∀ tx ∈ rest, BatchGood cr p block.height tx)
              ∨ ((∃ tx ∈ first :: rest, ¬ SingleGood cr p block.height tx)
                ∧ ∃ tx ∈ rest, ¬ BatchGood cr p block.height tx) := by
      simp [ThresholdUnseen, htxs]
    have hret : (∃ first' rest', first :: rest = first' :: rest'
        ∧ ∀ tx ∈ rest', if (first :: rest).length ≤ batchVerifyThreshold
            then SingleGood cr p block.height tx else BatchGood cr p block.height tx)
        ↔ ∀ tx ∈ rest, if (first :: rest).length ≤ batchVerifyThreshold
            then SingleGood cr p block.height tx else BatchGood cr p block.height tx := by
      simp
    have hbad : ∀ (P : Transaction → Prop) (l : List Transaction),
        (∃ tx ∈ l, ¬ P tx) ↔ ¬ ∀ tx ∈ l, P tx := by
      simp only [not_forall, exists_prop, implies_true]
    rw [hunseen, hret, hall, hbad, hbad, hbad, List.forall_mem_cons]
    clear hunseen hret hall hbad
    by_cases hsmall : (first :: rest).length ≤ batchVerifyThreshold
    · simp only [if_pos hsmall, true_and]
      generalize SingleGood cr p block.height first = goodFirst,
        (∀ tx ∈ rest, SingleGood cr p block.height tx) = goodRest
      tauto
    · simp only [if_neg hsmall, true_and]
      generalize (SingleGood cr p block.height first
          ∧ ∀ tx ∈ rest, SingleGood cr p block.height tx) = good,
        (∀ tx ∈ rest, BatchGood cr p block.height tx) = goodBatch
      tauto

/-- Digests that tell the length of the text, and signatures that are the digest they sign. -/
def Crypto.lengthOnly : Crypto :=
  { Crypto.constant with
    sha256 := fun x => littleEndian 32 x.length
    sha256_length := fun _ => littleEndian_length 32 _
    ed25519Verify := fun _ m s => s.take 32 == m }

/-- A transfer to its own sender, signed as `core` has it. -/
def signedTransfer : Transaction :=
  let unsigned := sampleTransfer (generateAddress Crypto.lengthOnly (List.replicate 32 0))
  { unsigned with
    signature := (unsigned.signingHashLegacyJSON Crypto.lengthOnly).toOption.map
      (· ++ List.replicate 32 0) }

/-- **The eleventh transaction makes the others bad.** With the default parameters a block of
a coinbase and nine transfers is accepted; with one more transfer it is refused, because of
its second transaction, although each of its transfers is good. The other way round, ten
transfers without a number are all bad, and accepted. -/
theorem eleventh_transaction_refused :
    signedTransfer.verifyForConsensus Crypto.lengthOnly ConsensusParams.default 1 = .ok ()
      ∧ verifyTransactionsBatch Crypto.lengthOnly ConsensusParams.default
          (sampleBlock [1] [] 1 1 (List.replicate 9 signedTransfer)) () = .ret () ()
      ∧ (verifyTransactionsBatch Crypto.lengthOnly ConsensusParams.default
          (sampleBlock [1] [] 1 1 (List.replicate 10 signedTransfer)) ()).error?
        = some (.wrap "%w: transaction %d" [.num 1]
            (.new "transaction signature verification failed"))
      ∧ { sampleTransfer lowerAddress with nonce := 0 }.verifyForConsensus Crypto.constant
          ConsensusParams.default 1 = .error (.new "nonce must be > 0")
      ∧ verifyTransactionsBatch Crypto.constant ConsensusParams.default (sampleBlock [1] [] 1 1
            (List.replicate 10 { sampleTransfer lowerAddress with nonce := 0 })) ()
        = .ret () () := by
  refine ⟨by decide +kernel, by decide +kernel, by decide +kernel, by decide +kernel,
    by decide +kernel⟩

end NogoChain.Consensus
