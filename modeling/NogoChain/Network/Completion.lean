import NogoChain.Network.CompactRelay
import NogoChain.Network.PendingPool

/-!
# When a pending block is handed over

The positions of a pending block are those of transactions that were found, so an identifier
that is missing has a position only if a transaction with that identifier was found as well.
The new kind of message asks for short identifiers, which no transaction has as its
identifier: such a block stays pending whatever is sent (`never_handed_of_v2`).

For the others, every transaction counts each time it arrives. If every identifier that was
asked for has a position, and none is answered twice, the block is handed over exactly when
all have been answered.
-/

namespace NogoChain

variable {cr : Crypto}

/-! ## Positions -/

variable {id : Bytes} {tx : Transaction} {ids : List Bytes} {k0 : UInt64}
  {pos : Nat} {block : Block} {blockHash : Bytes} {resps : List SyncTxResponse}
  {entry : PendingReconstruction}

theorem exists_of_lookup_txIDPos {txs : List Transaction}
    (h : (txIDPos cr txs).lookup id = some pos) :
    ∃ tx, txs[pos]? = some tx ∧ txIDHex cr tx = .ok id := by
  obtain ⟨⟨tx, i⟩, hmem, hf⟩ := GoMap.exists_of_lookup_fill h
  split at hf
  · cases hf
  · next hid =>
    obtain ⟨rfl, rfl⟩ := Prod.mk.inj (Option.some.inj hf)
    exact ⟨tx, List.mem_zipIdx_iff_getElem?.mp hmem, hid⟩

theorem exists_lookup_txIDPos {txs : List Transaction}
    (htx : tx ∈ txs) (hid : txIDHex cr tx = .ok id) :
    ∃ pos, (txIDPos cr txs).lookup id = some pos := by
  obtain ⟨i, hi⟩ := List.mem_iff_getElem?.mp htx
  have hmem : (tx, i) ∈ txs.zipIdx := List.mem_zipIdx_iff_getElem?.mpr hi
  refine GoMap.exists_lookup_fill hmem (v := i) ?_
  rw [hid]

section Entry

variable {missingIDs : List Bytes} {peerID : Bytes} {now : Int}
  (h : (pendingOf cr block missingIDs peerID now).missingMap.lookup id = some pos)
include h

theorem lookup_missingMap :
    id ∈ missingIDs ∧ (txIDPos cr block.transactions).lookup id = some pos := by
  obtain ⟨id', hmem, hf⟩ := GoMap.exists_of_lookup_fill h
  obtain ⟨pos', hpos, heq⟩ := Option.map_eq_some_iff.mp hf
  cases heq
  exact ⟨hmem, hpos⟩

/-- Different identifiers have different positions. -/
theorem missingMap_inj {id' : Bytes}
    (h' : (pendingOf cr block missingIDs peerID now).missingMap.lookup id' = some pos) :
    id = id' := by
  obtain ⟨tx, htx, hid⟩ := exists_of_lookup_txIDPos (lookup_missingMap h).2
  obtain ⟨tx', htx', hid'⟩ := exists_of_lookup_txIDPos (lookup_missingMap h').2
  obtain rfl := Option.some.inj (htx.symm.trans htx')
  exact Except.ok.inj (hid.symm.trans hid')

theorem missingMap_lt : pos < block.transactions.length := by
  obtain ⟨tx, htx, -⟩ := exists_of_lookup_txIDPos (lookup_missingMap h).2
  exact (List.getElem?_eq_some_iff.mp htx).1

end Entry

/-- **Every identifier that is asked for has a position**: a transaction with that identifier
is in the list, and no identifier is asked for twice. -/
structure Placed (cr : Crypto) (block : Block) (missingIDs : List Bytes) : Prop where
  nodup : missingIDs.Nodup
  /-- each identifier has a transaction -/
  placed : ∀ id ∈ missingIDs, ∃ tx ∈ block.transactions, txIDHex cr tx = .ok id

theorem Placed.lookup {missingIDs : List Bytes} (h : Placed cr block missingIDs)
    (hid : id ∈ missingIDs) (peerID : Bytes) (now : Int) :
    ∃ pos, (pendingOf cr block missingIDs peerID now).missingMap.lookup id = some pos := by
  obtain ⟨tx, htx, htxid⟩ := h.placed id hid
  obtain ⟨pos, hpos⟩ := exists_lookup_txIDPos htx htxid
  refine GoMap.exists_lookup_fill hid (v := pos) ?_
  rw [hpos]
  rfl

/-! ## Answers -/

/-- The identifier that a response for a block answers, among the given ones. -/
def answer (cr : Crypto) (blockHash : Bytes) (ids : List Bytes) (resp : SyncTxResponse) :
    Option Bytes :=
  if resp.1 = blockHash then
    match txIDHex cr resp.2 with
    | .error _ => none
    | .ok id => if id ∈ ids then some id else none
  else none

/-- The identifiers that have been answered, each as often as that happened. -/
def answers (cr : Crypto) (blockHash : Bytes) (ids : List Bytes) (resps : List SyncTxResponse) :
    List Bytes :=
  resps.filterMap (answer cr blockHash ids)

theorem answer_eq_some_iff {resp : SyncTxResponse} : answer cr blockHash ids resp = some id
    ↔ resp.1 = blockHash ∧ txIDHex cr resp.2 = .ok id ∧ id ∈ ids := by
  unfold answer
  cases txIDHex cr resp.2 with
  | error e => simp
  | ok id' =>
    simp only [Option.ite_none_right_eq_some, Option.some.injEq, Except.ok.injEq]
    refine and_congr_right fun _ => ⟨?_, ?_⟩
    · rintro ⟨hmem, rfl⟩
      exact ⟨rfl, hmem⟩
    · rintro ⟨rfl, hmem⟩
      exact ⟨hmem, rfl⟩

theorem mem_answers_iff :
    id ∈ answers cr blockHash ids resps
      ↔ id ∈ ids ∧ ∃ tx, (blockHash, tx) ∈ resps ∧ txIDHex cr tx = .ok id := by
  unfold answers
  rw [List.mem_filterMap]
  constructor
  · rintro ⟨⟨hash, tx⟩, hmem, hanswer⟩
    obtain ⟨rfl, htx, hid⟩ := answer_eq_some_iff.mp hanswer
    exact ⟨hid, tx, hmem, htx⟩
  · rintro ⟨hid, tx, hmem, htx⟩
    exact ⟨(blockHash, tx), hmem, answer_eq_some_iff.mpr ⟨rfl, htx, hid⟩⟩

theorem answers_append_singleton (blockHash : Bytes) (ids : List Bytes)
    (resps : List SyncTxResponse) (resp : SyncTxResponse) :
    answers cr blockHash ids (resps ++ [resp])
      = answers cr blockHash ids resps ++ (answer cr blockHash ids resp).toList := by
  unfold answers
  rw [List.filterMap_append]
  cases h : answer cr blockHash ids resp with
  | none => rw [List.filterMap_cons_none h]; rfl
  | some id => rw [List.filterMap_cons_some h]; rfl

theorem answers_sublist {ids' : List Bytes} (hsub : ids ⊆ ids') (resps : List SyncTxResponse) :
    (answers cr blockHash ids resps).Sublist (answers cr blockHash ids' resps) := by
  induction resps with
  | nil => exact List.Sublist.refl _
  | cons resp resps ih =>
    unfold answers at ih ⊢
    cases h : answer cr blockHash ids resp with
    | some id =>
      obtain ⟨hhash, htx, hid⟩ := answer_eq_some_iff.mp h
      rw [List.filterMap_cons_some h,
        List.filterMap_cons_some (answer_eq_some_iff.mpr ⟨hhash, htx, hsub hid⟩)]
      exact ih.cons_cons id
    | none =>
      rw [List.filterMap_cons_none h, List.filterMap_cons]
      split
      · exact ih
      · exact ih.cons _

/-! ## Progress -/

/-- **A block with the answers in their places**: at the position of every identifier that has
been answered is a transaction that arrived with that identifier; no transaction is added or
dropped. -/
structure Filled (cr : Crypto) (blockHash : Bytes) (entry : PendingReconstruction)
    (resps : List SyncTxResponse) (block : Block) : Prop where
  length : block.transactions.length = entry.block.transactions.length
  inPlace : ∀ id ∈ answers cr blockHash entry.missingMap.keys resps, ∃ pos tx,
    entry.missingMap.lookup id = some pos ∧ (blockHash, tx) ∈ resps ∧ txIDHex cr tx = .ok id
      ∧ block.transactions[pos]? = some tx

/-- **How far a pending block has come**: it waits, with the number of answers as its count, or
it has been handed over, once, when the answers were the identifiers that are asked for. -/
inductive Progress (cr : Crypto) (blockHash : Bytes) (entry : PendingReconstruction)
    (resps : List SyncTxResponse) (n : CompactNode) : Prop where
  | waiting (pr : PendingReconstruction) (pending : n.pool.pending.lookup blockHash = some pr)
      (map : pr.missingMap = entry.missingMap) (total : pr.totalMissing = entry.totalMissing)
      (received : pr.receivedTxs = (answers cr blockHash entry.missingMap.keys resps).length)
      (few : pr.receivedTxs < pr.totalMissing) (unhanded : ∀ b, (blockHash, b) ∉ n.handed)
      (filled : Filled cr blockHash entry resps pr.block)
  | done (block : Block) (pending : n.pool.pending.lookup blockHash = none)
      (handed : ∀ b, (blockHash, b) ∈ n.handed ↔ b = block)
      (all : entry.missingIDs ⊆ answers cr blockHash entry.missingMap.keys resps)
      (nodup : entry.missingIDs.Nodup)
      (filled : Filled cr blockHash entry resps block)

section Steps

variable {resp : SyncTxResponse} {n : CompactNode}

/-- A response that answers nothing leaves a block as filled as it is. -/
theorem Filled.of_unanswered (h : Filled cr blockHash entry resps block)
    (hnone : answer cr blockHash entry.missingMap.keys resp = none) :
    Filled cr blockHash entry (resps ++ [resp]) block := by
  refine ⟨h.length, fun id hid => ?_⟩
  rw [answers_append_singleton, hnone, Option.toList_none, List.append_nil] at hid
  obtain ⟨pos, tx, hpos, hmem, htx, hget⟩ := h.inPlace id hid
  exact ⟨pos, tx, hpos, List.mem_append_left _ hmem, htx, hget⟩

/-- A new answer goes to its own place; the others stay. -/
theorem Filled.set (h : Filled cr blockHash entry resps block)
    (hinj : ∀ id' pos', entry.missingMap.lookup id' = some pos' → pos' = pos → id' = id)
    (hpos : entry.missingMap.lookup id = some pos) (hlt : pos < entry.block.transactions.length)
    (htx : txIDHex cr tx = .ok id)
    (hanswer : answer cr blockHash entry.missingMap.keys (blockHash, tx) = some id)
    (hnew : id ∉ answers cr blockHash entry.missingMap.keys resps) :
    Filled cr blockHash entry (resps ++ [(blockHash, tx)])
      { block with transactions := block.transactions.set pos tx } := by
  refine ⟨List.length_set.trans h.length, fun id' hid' => ?_⟩
  rw [answers_append_singleton, hanswer] at hid'
  rcases List.mem_append.mp hid' with hold | heq
  · obtain ⟨pos', tx', hpos', hmem, htx', hget⟩ := h.inPlace id' hold
    refine ⟨pos', tx', hpos', List.mem_append_left _ hmem, htx', ?_⟩
    have hne : pos ≠ pos' := fun heq => hnew (hinj id' pos' hpos' heq.symm ▸ hold)
    rw [List.getElem?_set_ne hne]
    exact hget
  · rw [List.mem_singleton.mp heq]
    refine ⟨pos, tx, hpos, List.mem_append_right _ List.mem_cons_self, htx, ?_⟩
    rw [List.getElem?_set_self (h.length ▸ hlt)]

variable {pr : PendingReconstruction}

/-- What `AddTx` makes of an entry when a transaction goes to a position. -/
def PendingReconstruction.put (pr : PendingReconstruction) (idx : Nat) (tx : Transaction) :
    PendingReconstruction :=
  { pr with
    block := { pr.block with transactions := pr.block.transactions.set idx tx }
    receivedTxs := pr.receivedTxs + 1 }

theorem onSyncTxResponse_of_placed
    (h : n.pool.pending.lookup resp.1 = some pr) (htx : txIDHex cr resp.2 = .ok id)
    {idx : Nat} (hid : pr.missingMap.lookup id = some idx)
    (hlt : idx < pr.block.transactions.length) :
    onSyncTxResponse cr n resp =
      if pr.receivedTxs + 1 ≥ pr.totalMissing then
        ⟨{ n.pool with pending := n.pool.pending.erase resp.1 },
          n.handed ++ [(resp.1, (pr.put idx resp.2).block)]⟩
      else ⟨{ n.pool with pending := n.pool.pending.insert resp.1 (pr.put idx resp.2) },
        n.handed⟩ := by
  unfold onSyncTxResponse PendingPool.addTx
  rw [h]
  rw [htx]
  dsimp only
  rw [hid]
  dsimp only
  rw [if_neg (Nat.not_le.mpr hlt)]
  by_cases hdone : pr.receivedTxs + 1 ≥ pr.totalMissing
  · rw [if_pos hdone, if_pos hdone]
    rfl
  · rw [if_neg hdone, if_neg hdone]
    rfl

/-- **What a response does**: nothing, or it goes to the position of its identifier. -/
theorem onSyncTxResponse_cases (cr : Crypto) (n : CompactNode) (resp : SyncTxResponse) :
    onSyncTxResponse cr n resp = n
      ∨ ∃ pr id idx, n.pool.pending.lookup resp.1 = some pr ∧ txIDHex cr resp.2 = .ok id
        ∧ pr.missingMap.lookup id = some idx ∧ idx < pr.block.transactions.length := by
  cases hpr : n.pool.pending.lookup resp.1 with
  | none => exact .inl (by simp [onSyncTxResponse, PendingPool.addTx, hpr])
  | some pr =>
    cases htx : txIDHex cr resp.2 with
    | error e => exact .inl (by simp [onSyncTxResponse, PendingPool.addTx, hpr, htx])
    | ok id =>
      cases hid : pr.missingMap.lookup id with
      | none => exact .inl (by simp [onSyncTxResponse, PendingPool.addTx, hpr, htx, hid])
      | some idx =>
        by_cases hlt : idx < pr.block.transactions.length
        · exact .inr ⟨pr, id, idx, rfl, rfl, hid, hlt⟩
        · refine .inl ?_
          simp [onSyncTxResponse, PendingPool.addTx, hpr, htx, hid, Nat.not_lt.mp hlt]

/-- A response for another block leaves this one alone. -/
theorem onSyncTxResponse_frame (hne : resp.1 ≠ blockHash) (b : Block) :
    (onSyncTxResponse cr n resp).pool.pending.lookup blockHash = n.pool.pending.lookup blockHash
      ∧ ((blockHash, b) ∈ (onSyncTxResponse cr n resp).handed ↔ (blockHash, b) ∈ n.handed) := by
  rcases onSyncTxResponse_cases cr n resp with hsame | ⟨pr, id, idx, hpr, htx, hid, hlt⟩
  · rw [hsame]
    exact ⟨rfl, Iff.rfl⟩
  · rw [onSyncTxResponse_of_placed hpr htx hid hlt]
    split <;> simp [hne.symm]

/-- The number of answers decides whether a node that does not change has progressed. -/
theorem Progress.of_same {n' : CompactNode} (h : Progress cr blockHash entry resps n)
    (hnone : answer cr blockHash entry.missingMap.keys resp = none)
    (hpending : n'.pool.pending.lookup blockHash = n.pool.pending.lookup blockHash)
    (hhanded : ∀ b, (blockHash, b) ∈ n'.handed ↔ (blockHash, b) ∈ n.handed) :
    Progress cr blockHash entry (resps ++ [resp]) n' := by
  have hanswers : answers cr blockHash entry.missingMap.keys (resps ++ [resp])
      = answers cr blockHash entry.missingMap.keys resps := by
    rw [answers_append_singleton, hnone, Option.toList_none, List.append_nil]
  cases h with
  | waiting pr pending map total received few unhanded filled =>
    exact .waiting pr (hpending.trans pending) map total (hanswers ▸ received) few
      (fun b hb => unhanded b ((hhanded b).mp hb)) (filled.of_unanswered hnone)
  | done block pending handed all nodup filled =>
    exact .done block (hpending.trans pending) (fun b => (hhanded b).trans (handed b))
      (hanswers ▸ all) nodup (filled.of_unanswered hnone)

/-- A response that answers nothing leaves the progress as it is: `AddTx` does not find the
block, or not the identifier. -/
theorem Progress.of_unanswered (h : Progress cr blockHash entry resps n)
    (hnone : answer cr blockHash entry.missingMap.keys resp = none) :
    Progress cr blockHash entry (resps ++ [resp]) (onSyncTxResponse cr n resp) := by
  by_cases hhash : resp.1 = blockHash
  · -- in every case that is left the node does not change
    have hsame : onSyncTxResponse cr n resp = n := by
      refine (onSyncTxResponse_cases cr n resp).resolve_right ?_
      rintro ⟨pr', id, idx, hpr, htx, hid, -⟩
      rw [hhash] at hpr
      cases h with
      | done block pending handed all nodup filled => exact nomatch pending.symm.trans hpr
      | waiting pr pending map total received few unhanded filled =>
        obtain rfl := Option.some.inj (pending.symm.trans hpr)
        have hanswer := answer_eq_some_iff.mpr ⟨hhash, htx, GoMap.mem_keys_of_lookup (map ▸ hid)⟩
        exact nomatch hanswer.symm.trans hnone
    rw [hsame]
    exact h.of_same hnone rfl fun b => Iff.rfl
  · exact h.of_same hnone (onSyncTxResponse_frame hhash (entry.block)).1
      fun b => (onSyncTxResponse_frame hhash b).2

end Steps

/-! ## Runs -/

section Runs

variable {missingIDs : List Bytes} {peerID : Bytes} {now : Int}

theorem missingMap_keys_subset :
    (pendingOf cr block missingIDs peerID now).missingMap.keys ⊆ missingIDs := by
  intro id hid
  obtain ⟨pos, hpos⟩ := GoMap.exists_lookup_of_mem_keys hid
  exact (lookup_missingMap hpos).1

/-- **An answer that is new** is put in its place and counted; with the last one the block is
handed over. -/
theorem Progress.of_answered {n : CompactNode}
    (h : Progress cr blockHash (pendingOf cr block missingIDs peerID now) resps n)
    (hanswer : answer cr blockHash (pendingOf cr block missingIDs peerID now).missingMap.keys
      (blockHash, tx) = some id)
    (hnodup : (answers cr blockHash (pendingOf cr block missingIDs peerID now).missingMap.keys
      (resps ++ [(blockHash, tx)])).Nodup) :
    Progress cr blockHash (pendingOf cr block missingIDs peerID now) (resps ++ [(blockHash, tx)])
      (onSyncTxResponse cr n (blockHash, tx)) := by
  obtain ⟨-, htx, hid⟩ := answer_eq_some_iff.mp hanswer
  obtain ⟨pos, hpos⟩ := GoMap.exists_lookup_of_mem_keys hid
  have hanswers : answers cr blockHash _ (resps ++ [(blockHash, tx)]) = _ ++ _ :=
    answers_append_singleton blockHash
      (pendingOf cr block missingIDs peerID now).missingMap.keys resps (blockHash, tx)
  rw [hanswer, Option.toList_some] at hanswers
  have hlen := congrArg List.length hanswers
  rw [List.length_append, List.length_singleton] at hlen
  have hnew : id ∉ answers cr blockHash
      (pendingOf cr block missingIDs peerID now).missingMap.keys resps := by
    rw [hanswers] at hnodup
    exact fun hmem => (List.nodup_append.mp hnodup).2.2 id hmem id List.mem_cons_self rfl
  cases h with
  | done b pending handed all nodup filled =>
    exact absurd (all (missingMap_keys_subset hid)) hnew
  | waiting pr pending map total received few unhanded filled =>
    have hlt : pos < pr.block.transactions.length := filled.length ▸ missingMap_lt hpos
    have hput := filled.set (fun id' pos' h' heq => missingMap_inj (heq ▸ h') hpos) hpos
      (missingMap_lt hpos) htx hanswer hnew
    rw [onSyncTxResponse_of_placed pending htx (map ▸ hpos) hlt]
    split
    · next hdone =>
      -- as many answers as identifiers, none of them twice: the answers are the identifiers
      have hperm := (hnodup.subperm fun a ha =>
        missingMap_keys_subset (mem_answers_iff.mp ha).1).perm_of_length_le (calc
          missingIDs.length = pr.totalMissing := total.symm
          _ ≤ pr.receivedTxs + 1 := hdone
          _ = _ := (congrArg (· + 1) received).trans hlen.symm)
      refine .done _ ((GoMap.lookup_erase _ _ _).trans (if_pos rfl)) (fun b => ?_)
        hperm.symm.subset (hperm.nodup_iff.mp hnodup) hput
      rw [List.mem_append, List.mem_singleton]
      refine ⟨fun hb => ?_, fun hb => Or.inr (hb ▸ rfl)⟩
      rcases hb with hb | hb
      · exact absurd hb (unhanded b)
      · exact congrArg Prod.snd hb
    · next hdone =>
      refine .waiting (pr.put pos tx) ((GoMap.lookup_insert _ _ _ _).trans (if_pos rfl))
        map total ?_
        (Nat.not_le.mp hdone) unhanded hput
      exact (congrArg (· + 1) received).trans hlen.symm

/-- **Every run makes progress**, as long as no identifier with a position is answered twice. -/
theorem progress_of_nodup {pool : PendingPool} (hmissing : missingIDs.length ≠ 0)
    (hpool : pool.pending.lookup blockHash = some (pendingOf cr block missingIDs peerID now))
    (resps : List SyncTxResponse)
    (hnodup : (answers cr blockHash (pendingOf cr block missingIDs peerID now).missingMap.keys
      resps).Nodup) :
    Progress cr blockHash (pendingOf cr block missingIDs peerID now) resps
      (runResponses cr pool resps) := by
  induction resps using List.reverseRecOn with
  | nil =>
    exact .waiting _ hpool rfl rfl rfl (Nat.pos_of_ne_zero hmissing) (fun b => nofun)
      ⟨rfl, fun id => nofun⟩
  | append_singleton resps resp ih =>
    have hsub : (answers cr blockHash
        (pendingOf cr block missingIDs peerID now).missingMap.keys resps).Nodup := by
      rw [answers_append_singleton] at hnodup
      exact (List.nodup_append.mp hnodup).1
    have hstep : runResponses cr pool (resps ++ [resp])
        = onSyncTxResponse cr (runResponses cr pool resps) resp := by
      unfold runResponses
      rw [List.foldl_append]
      rfl
    rw [hstep]
    cases hanswer : answer cr blockHash
        (pendingOf cr block missingIDs peerID now).missingMap.keys resp with
    | none => exact (ih hsub).of_unanswered hanswer
    | some id =>
      obtain ⟨hash, tx⟩ := resp
      obtain ⟨rfl, -, -⟩ := answer_eq_some_iff.mp hanswer
      exact (ih hsub).of_answered hanswer hnodup

end Runs

/-! ## Completion -/

/-- **A transaction is announced by an identifier**: by its own identifier, by the digits that
the old message has, or by the text for its short identifier. -/
def Announces (cr : Crypto) (k0 : UInt64) (id : Bytes) (tx : Transaction) : Prop :=
  match txIDHex cr tx with
  | .error _ => False
  | .ok txID => id = txID ∨ id = txID.take shortIDPrefixLength
      ∨ (shortIDOf k0 txID).map sidText = some id

instance (k0 : UInt64) (id : Bytes) (tx : Transaction) : Decidable (Announces cr k0 id tx) := by
  unfold Announces
  cases txIDHex cr tx <;> infer_instance

/-- An identifier that is asked for has been answered. -/
def Answered (cr : Crypto) (k0 : UInt64) (req : MissingTxRequest) (resps : List SyncTxResponse)
    (id : Bytes) : Prop :=
  ∃ resp ∈ resps, resp.1 = req.blockHash ∧ Announces cr k0 id resp.2

instance (k0 : UInt64) (req : MissingTxRequest) (resps : List SyncTxResponse) (id : Bytes) :
    Decidable (Answered cr k0 req resps id) :=
  inferInstanceAs (Decidable (∃ resp ∈ resps, _))

/-- **What completion means** for a request, after some responses: the block is handed over
exactly if every identifier has been answered, and then with the answers at their positions. -/
structure Completes (cr : Crypto) (k0 : UInt64) (entry : PendingReconstruction)
    (req : MissingTxRequest) (resps : List SyncTxResponse) (n : CompactNode) : Prop where
  /-- the block is handed over exactly if every identifier has been answered -/
  exactly : (∃ e ∈ n.handed, e.1 = req.blockHash) ↔ ∀ id ∈ req.txIDs, Answered cr k0 req resps id
  /-- with the answers at their positions -/
  inPlace : ∀ e ∈ n.handed, e.1 = req.blockHash → ∀ id ∈ req.txIDs, ∃ pos tx,
    entry.missingMap.lookup id = some pos ∧ (req.blockHash, tx) ∈ resps ∧ Announces cr k0 id tx
      ∧ e.2.transactions[pos]? = some tx

/-- No identifier that is asked for is answered twice. -/
def NoRepeats (cr : Crypto) (req : MissingTxRequest) (resps : List SyncTxResponse) : Prop :=
  (answers cr req.blockHash req.txIDs resps).Nodup

theorem announces_of_txIDHex (h : txIDHex cr tx = .ok id) : Announces cr k0 id tx := by
  unfold Announces
  rw [h]
  exact Or.inl rfl

/-- Which identifiers announce a transaction depends on its own identifier. -/
theorem Announces.congr {txID : Bytes} {tx' : Transaction}
    (h : Announces cr k0 id tx) (htx : txIDHex cr tx = .ok txID)
    (htx' : txIDHex cr tx' = .ok txID) :
    Announces cr k0 id tx' := by
  unfold Announces at h ⊢
  rw [htx'.trans htx.symm]
  exact h

theorem Announces.exists_txIDHex
    (h : Announces cr k0 id tx) : ∃ txID, txIDHex cr tx = .ok txID := by
  unfold Announces at h
  cases htx : txIDHex cr tx with
  | error e =>
    rw [htx] at h
    exact h.elim
  | ok txID => exact ⟨txID, rfl⟩

theorem txIDHex_length (h : txIDHex cr tx = .ok id) : id.length = 64 := by
  obtain ⟨hash, rfl, hhash⟩ := exists_hash_of_txIDHex h
  rw [Hex.encodeToString_length, hhash]

theorem sidText_length (sid : UInt64) : (sidText sid).length = 20 := by
  rfl

/-- An identifier that is as long as that of a transaction announces nothing else. -/
theorem Announces.txIDHex_eq
    (h : Announces cr k0 id tx) (hlength : id.length = 64) : txIDHex cr tx = .ok id := by
  obtain ⟨txID, htx⟩ := h.exists_txIDHex
  unfold Announces at h
  rw [htx] at h
  rcases h with rfl | rfl | hsid
  · exact htx
  · rw [List.length_take, txIDHex_length htx] at hlength
    exact absurd hlength (by decide)
  · obtain ⟨sid, -, rfl⟩ := Option.map_eq_some_iff.mp hsid
    rw [sidText_length] at hlength
    exact absurd hlength (by decide)

/-- Responses that answer every identifier, each transaction sent once. -/
theorem exists_resps_answering (blockHash : Bytes) (ids : List Bytes)
    (hexists : ∀ id ∈ ids, ∃ tx, Announces cr k0 id tx) :
    ∃ resps : List SyncTxResponse, (∀ all, (answers cr blockHash all resps).Nodup)
      ∧ ∀ id ∈ ids, ∃ tx, (blockHash, tx) ∈ resps ∧ Announces cr k0 id tx := by
  induction ids with
  | nil => exact ⟨[], fun _ => List.nodup_nil, fun _ => nofun⟩
  | cons id ids ih =>
    obtain ⟨resps, hnodup, hall⟩ := ih fun i hi => hexists i (List.mem_cons_of_mem _ hi)
    obtain ⟨tx, htx⟩ := hexists id List.mem_cons_self
    obtain ⟨txID, htxID⟩ := htx.exists_txIDHex
    by_cases hsent : ∃ tx', (blockHash, tx') ∈ resps ∧ txIDHex cr tx' = .ok txID
    · obtain ⟨tx', hmem, htx'⟩ := hsent
      refine ⟨resps, hnodup, fun i hi => ?_⟩
      rcases List.mem_cons.mp hi with rfl | hi
      · exact ⟨tx', hmem, htx.congr htxID htx'⟩
      · exact hall i hi
    · refine ⟨(blockHash, tx) :: resps, fun all => ?_, fun i hi => ?_⟩
      · unfold answers
        rw [List.filterMap_cons]
        split
        · exact hnodup all
        · next id' hid' =>
          refine List.nodup_cons.mpr ⟨fun hmem => hsent ?_, hnodup all⟩
          obtain ⟨-, tx', hmem', htx'⟩ := mem_answers_iff.mp hmem
          obtain ⟨-, hid', -⟩ := answer_eq_some_iff.mp hid'
          exact ⟨tx', hmem', htx'.trans (hid'.symm.trans htxID)⟩
      · rcases List.mem_cons.mp hi with rfl | hi
        · exact ⟨tx, List.mem_cons_self, htx⟩
        · obtain ⟨tx', hmem, htx'⟩ := hall i hi
          exact ⟨tx', List.mem_cons_of_mem _ hmem, htx'⟩

variable {pool pool' : PendingPool} {now : Int} {order : List (Bytes × PendingReconstruction)}
  {ptr : Nat} {mp : MempoolInterface} {peerID : Bytes} {cb : CompactBlockMsg}
  {entry : PendingReconstruction} {req : MissingTxRequest}

section Pending

variable (h : onCompactBlock cr pool now order ptr mp peerID cb = .pending pool' entry req)
include h

/-- What `OnCompactBlock` has registered, and what it asks for. -/
theorem onCompactBlock_pending :
    ∃ block, reconstructBlock ptr cb mp = .ok (block, req.txIDs)
      ∧ entry = pendingOf cr block req.txIDs peerID now ∧ req.txIDs.length ≠ 0
      ∧ req.blockHash = cb.fullHash ∧ pool'.pending.lookup req.blockHash = some entry := by
  unfold onCompactBlock at h
  split at h
  · cases h
  · next block missingIDs hrec =>
    dsimp only at h
    split at h
    · cases h
    · next hlen =>
      split at h
      · cases h
      · next hreg =>
        obtain ⟨rfl, rfl, rfl⟩ := CompactOutcome.pending.inj h
        refine ⟨block, hrec, rfl, hlen, rfl, ?_⟩
        unfold PendingPool.register at hreg
        split at hreg
        · dsimp only at hreg
          split at hreg
          · cases hreg
          · rw [← Except.ok.inj hreg]
            exact (GoMap.lookup_insert _ _ _ _).trans (if_pos rfl)
        · rw [← Except.ok.inj hreg]
          exact (GoMap.lookup_insert _ _ _ _).trans (if_pos rfl)

theorem progress_of_noRepeats (hresps : NoRepeats cr req resps) :
    Progress cr req.blockHash entry resps (runResponses cr pool' resps) := by
  obtain ⟨block, -, rfl, hlen, -, hpool⟩ := onCompactBlock_pending h
  exact progress_of_nodup hlen hpool resps
    (hresps.sublist (answers_sublist missingMap_keys_subset resps))

/-- If every identifier has a position, all answers complete the block. -/
theorem completes_of_placed (hplaced : Placed cr entry.block req.txIDs)
    (hresps : NoRepeats cr req resps) :
    Completes cr cb.nonce entry req resps (runResponses cr pool' resps) := by
  have hprogress := progress_of_noRepeats h hresps
  obtain ⟨block, -, rfl, -, -, -⟩ := onCompactBlock_pending h
  have hkeys : ∀ id ∈ req.txIDs, id ∈ (pendingOf cr block req.txIDs peerID now).missingMap.keys :=
    fun id hid => by
      obtain ⟨pos, hpos⟩ := hplaced.lookup hid peerID now
      exact GoMap.mem_keys_of_lookup hpos
  have hlength : ∀ id ∈ req.txIDs, id.length = 64 := fun id hid => by
    obtain ⟨tx, -, htx⟩ := hplaced.placed id hid
    exact txIDHex_length htx
  cases hprogress with
  | waiting pr pending map total received few unhanded filled =>
    refine ⟨⟨?_, fun hall => ?_⟩, fun e he hhash => absurd (hhash ▸ he) (unhanded e.2)⟩
    · rintro ⟨e, he, hhash⟩
      exact absurd (hhash ▸ he) (unhanded e.2)
    · -- then all identifiers are among the answers, which are too few
      have hsub : req.txIDs ⊆ answers cr req.blockHash
          (pendingOf cr block req.txIDs peerID now).missingMap.keys resps := by
        intro id hid
        obtain ⟨⟨hash, tx⟩, hmem, rfl, hannounces⟩ := hall id hid
        exact mem_answers_iff.mpr ⟨hkeys id hid, tx, hmem, hannounces.txIDHex_eq (hlength id hid)⟩
      have hle := (hplaced.nodup.subperm hsub).length_le
      rw [received, total] at few
      exact absurd hle (Nat.not_le.mpr few)
  | done b pending handed all nodup filled =>
    refine ⟨⟨fun _ id hid => ?_, fun _ => ⟨(req.blockHash, b), (handed b).mpr rfl, rfl⟩⟩, ?_⟩
    · obtain ⟨-, tx, hmem, htx⟩ := mem_answers_iff.mp (all hid)
      exact ⟨(req.blockHash, tx), hmem, rfl, announces_of_txIDHex htx⟩
    · rintro ⟨hash, b'⟩ he rfl id hid
      obtain rfl := (handed b').mp he
      obtain ⟨pos, tx, hpos, hmem, htx, hget⟩ := filled.inPlace id (all hid)
      exact ⟨pos, tx, hpos, hmem, announces_of_txIDHex htx, hget⟩

/-- If all answers complete the block, every identifier has a position. -/
theorem placed_of_completes (hexists : ∀ id ∈ req.txIDs, ∃ tx, Announces cr cb.nonce id tx)
    (hcompletes : ∀ resps, NoRepeats cr req resps →
      Completes cr cb.nonce entry req resps (runResponses cr pool' resps)) :
    Placed cr entry.block req.txIDs := by
  obtain ⟨resps, hnodup, hall⟩ := exists_resps_answering req.blockHash req.txIDs hexists
  have hprogress := progress_of_noRepeats h (hnodup req.txIDs)
  obtain ⟨⟨hash, b⟩, hb, rfl⟩ := (hcompletes resps (hnodup req.txIDs)).exactly.mpr fun id hid => by
    obtain ⟨tx, hmem, htx⟩ := hall id hid
    exact ⟨(req.blockHash, tx), hmem, rfl, htx⟩
  obtain ⟨block, -, rfl, -, -, -⟩ := onCompactBlock_pending h
  cases hprogress with
  | waiting pr pending map total received few unhanded filled => exact absurd hb (unhanded b)
  | done b' pending handed all nodup filled =>
    refine ⟨nodup, fun id hid => ?_⟩
    obtain ⟨pos, hpos⟩ := GoMap.exists_lookup_of_mem_keys (mem_answers_iff.mp (all hid)).1
    obtain ⟨tx, htx, htxid⟩ := exists_of_lookup_txIDPos (lookup_missingMap hpos).2
    exact ⟨tx, List.mem_of_getElem? htx, htxid⟩

end Pending

/-- **When compact blocks are completed**: for a block that `OnCompactBlock` has registered, and
identifiers for which there are transactions, the responses complete the block – in every run
in which none is repeated – exactly if each identifier has a position. -/
theorem completes_iff_placed
    (h : onCompactBlock cr pool now order ptr mp peerID cb = .pending pool' entry req)
    (hexists : ∀ id ∈ req.txIDs, ∃ tx, Announces cr cb.nonce id tx) :
    (∀ resps, NoRepeats cr req resps →
        Completes cr cb.nonce entry req resps (runResponses cr pool' resps))
      ↔ Placed cr entry.block req.txIDs :=
  ⟨placed_of_completes h hexists, fun hplaced _ hresps => completes_of_placed h hplaced hresps⟩

/-! ## Messages of the new version -/

/-- A pool that has the transactions it lists. -/
def MempoolInterface.Sound (mp : MempoolInterface) : Prop :=
  ∀ id ∈ mp.getTxIDs, mp.getTx id ≠ none

/-- With such a pool, only what has no candidates is missing. -/
theorem matchShortID_missingIDs (hmp : mp.Sound) (sid : UInt64) {found : Found}
    (hfound : ∀ id ∈ found.missingIDs, ∃ sid, id = sidText sid) :
    ∀ id ∈ (matchShortID mp ((GoMap.group (shortIDOf k0) mp.getTxIDs).lookup sid)
      (sidText sid) found).missingIDs, ∃ sid, id = sidText sid := by
  intro id hid
  rw [GoMap.lookup_group] at hid
  split at hid
  · exact (List.mem_append.mp hid).elim (hfound id) fun h => ⟨sid, List.mem_singleton.mp h⟩
  · next hne =>
    unfold matchShortID at hid
    dsimp only at hid
    cases hfind : (mp.getTxIDs.filter fun x => shortIDOf k0 x = some sid).findSome? mp.getTx with
    | some tx =>
      rw [hfind] at hid
      exact hfound id hid
    | none =>
      obtain ⟨x, hx⟩ := List.exists_mem_of_ne_nil _ hne
      exact absurd (List.findSome?_eq_none_iff.mp hfind x hx) (hmp x (List.mem_filter.mp hx).1)

/-- What is missing from a message of the new version is named by its short identifier. -/
theorem CompactBlockMsg.found_missingIDs (hmp : mp.Sound)
    (hversion : cb.version ≥ 2 ∧ cb.shortTxIDsV2.length > 0)
    {coinbaseTx : Transaction} (hid : id ∈ (cb.found coinbaseTx mp).missingIDs) :
    ∃ sid, id = sidText sid := by
  unfold CompactBlockMsg.found at hid
  rw [if_pos hversion] at hid
  split at hid
  · obtain ⟨e, -, rfl⟩ := List.mem_map.mp hid
    exact ⟨e.1, rfl⟩
  · refine List.foldlRecOn (motive := fun found : Found =>
      ∀ id ∈ found.missingIDs, ∃ sid, id = sidText sid) _ _ ?_ ?_ id hid
    · exact fun _ h => absurd h List.not_mem_nil
    · exact fun _ hfound sid _ => matchShortID_missingIDs hmp sid hfound

/-- **A block of the new version is never completed**: no short identifier has a position, so
whatever arrives, the block is not handed over. -/
theorem never_handed_of_v2
    (h : onCompactBlock cr pool now order ptr mp peerID cb = .pending pool' entry req)
    (hversion : cb.version ≥ 2 ∧ cb.shortTxIDsV2.length > 0) (hmp : mp.Sound)
    (resps : List SyncTxResponse) (b : Block) :
    (req.blockHash, b) ∉ (runResponses cr pool' resps).handed := by
  obtain ⟨block, hrec, rfl, hlen, -, hpool⟩ := onCompactBlock_pending h
  have hsid : ∀ id ∈ req.txIDs, ∃ sid, id = sidText sid := fun id hid => by
    unfold reconstructBlock at hrec
    split at hrec
    · cases hrec
    · split at hrec
      · cases hrec
      · rw [← (Prod.mk.inj (Except.ok.inj hrec)).2] at hid
        exact CompactBlockMsg.found_missingIDs hmp hversion hid
  have hkeys : (pendingOf cr block req.txIDs peerID now).missingMap.keys = [] := by
    refine List.eq_nil_iff_forall_not_mem.mpr fun id hid => ?_
    obtain ⟨sid, rfl⟩ := hsid id (missingMap_keys_subset hid)
    obtain ⟨pos, hpos⟩ := GoMap.exists_lookup_of_mem_keys hid
    obtain ⟨tx, -, htx⟩ := exists_of_lookup_txIDPos (lookup_missingMap hpos).2
    exact absurd ((sidText_length sid).symm.trans (txIDHex_length htx)) (by decide)
  have hanswers : ∀ id, id ∉ answers cr req.blockHash
      (pendingOf cr block req.txIDs peerID now).missingMap.keys resps := fun id hid => by
    simpa [hkeys] using (mem_answers_iff.mp hid).1
  have hnil := List.eq_nil_iff_forall_not_mem.mpr hanswers
  cases progress_of_nodup hlen hpool resps (hnil ▸ List.nodup_nil) with
  | waiting pr pending map total received few unhanded filled => exact unhanded b
  | done b' pending handed all nodup filled =>
    obtain ⟨id, hid⟩ := List.exists_mem_of_ne_nil _ (fun hnil => hlen (congrArg List.length hnil))
    exact absurd (all hid) (hanswers id)

/-! ## Runs of the handlers -/

/-- What is pending after `OnCompactBlock`. -/
def CompactOutcome.pending? : CompactOutcome →
    Option (PendingPool × PendingReconstruction × MissingTxRequest)
  | .pending pool entry req => some (pool, entry, req)
  | _ => none

instance {P : PendingPool → PendingReconstruction → MissingTxRequest → Prop}
    [∀ pool entry req, Decidable (P pool entry req)] (o : CompactOutcome) :
    Decidable (∃ pool entry req, o = .pending pool entry req ∧ P pool entry req) :=
  decidable_of_iff (∃ p, o.pending? = some p ∧ P p.1 p.2.1 p.2.2)
    (by cases o <;> simp [CompactOutcome.pending?])

/-- A message of the old version with this coinbase and these texts for its transactions. -/
def oldMessage (coinbase : Transaction) (shortTxIDs : List Bytes) : CompactBlockMsg :=
  { readMsg Crypto.constant (relayedBlock coinbase []) 7 with
    version := 1, shortTxIDsV2 := [], shortTxIDs := shortTxIDs }

/-- The handler of a node without pending blocks. -/
def receiveFresh (cr : Crypto) (mp : MempoolInterface) (cb : CompactBlockMsg) : CompactOutcome :=
  onCompactBlock cr ⟨∅, 50⟩ 0 [] 0 mp [] cb

/-- A message that asks for its own coinbase. -/
theorem completes_iff_placed_coinbase :
    ∃ pool entry req,
      receiveFresh Crypto.constant ((poolOf []).view [])
          (oldMessage (coinbaseTo (zeroAddress 1) 5) [zeroID]) = .pending pool entry req
        ∧ ∀ resps, NoRepeats Crypto.constant req resps →
          Completes Crypto.constant 7 entry req resps
            (runResponses Crypto.constant pool resps) := by
  obtain ⟨pool, entry, req, hpending, hids, htxs⟩ : ∃ pool entry req,
      receiveFresh Crypto.constant ((poolOf []).view [])
          (oldMessage (coinbaseTo (zeroAddress 1) 5) [zeroID]) = .pending pool entry req
        ∧ req.txIDs = [zeroID] ∧ entry.block.transactions = [coinbaseTo (zeroAddress 1) 5] := by
    decide +kernel
  have hid : txIDHex Crypto.constant (coinbaseTo (zeroAddress 1) 5) = .ok zeroID := by
    decide +kernel
  refine ⟨pool, entry, req, hpending, (completes_iff_placed hpending ?_).mpr ⟨?_, ?_⟩⟩
  · rw [hids]
    exact List.forall_mem_singleton.mpr ⟨_, announces_of_txIDHex hid⟩
  · rw [hids]
    exact List.nodup_singleton zeroID
  · rw [hids, htxs]
    exact List.forall_mem_singleton.mpr ⟨_, List.mem_cons_self, hid⟩

/-- The message for a block with only its coinbase, which is missing. -/
theorem never_handed_of_v2_coinbase :
    ∃ pool entry req, receiveFresh Crypto.constant ((poolOf []).view [])
          (readMsg Crypto.constant (relayedBlock (coinbaseTo (zeroAddress 1) 5) []) 7)
        = .pending pool entry req
      ∧ ∀ resps b, (req.blockHash, b) ∉ (runResponses Crypto.constant pool resps).handed := by
  obtain ⟨pool, entry, req, hpending, -⟩ : ∃ pool entry req,
      receiveFresh Crypto.constant ((poolOf []).view [])
          (readMsg Crypto.constant (relayedBlock (coinbaseTo (zeroAddress 1) 5) []) 7)
        = .pending pool entry req ∧ True := by decide +kernel
  exact ⟨pool, entry, req, hpending, never_handed_of_v2 hpending (by decide +kernel) nofun⟩

/-- **Answers are lost, and counted twice**: a block whose only missing transaction arrives
stays pending; a block with two missing transactions is handed over when one of them arrives
twice. -/
theorem answers_miscounted : (∃ pool entry req,
      receiveFresh Crypto.constant ((poolOf []).view [])
          (readMsg Crypto.constant (relayedBlock (coinbaseTo (zeroAddress 1) 5) []) 7)
        = .pending pool entry req
        ∧ ¬ Completes Crypto.constant 7 entry req [(req.blockHash, coinbaseTo (zeroAddress 1) 5)]
          (runResponses Crypto.constant pool [(req.blockHash, coinbaseTo (zeroAddress 1) 5)]))
    ∧ (∃ pool entry req,
      receiveFresh Crypto.tally
          ((poolOf [(tallyID (coinbaseTo (zeroAddress 1) 6), coinbaseTo (zeroAddress 1) 6)]).view
            [tallyID (coinbaseTo (zeroAddress 1) 6)])
          (oldMessage (coinbaseTo (zeroAddress 1) 5)
            [(tallyID (coinbaseTo (zeroAddress 1) 6)).take 8,
              tallyID (coinbaseTo (zeroAddress 1) 5),
              tallyID (coinbaseTo (zeroAddress 1) 6)])
        = .pending pool entry req
        ∧ ¬ Completes Crypto.tally 7 entry req [(req.blockHash, coinbaseTo (zeroAddress 1) 5),
            (req.blockHash, coinbaseTo (zeroAddress 1) 5)]
          (runResponses Crypto.tally pool [(req.blockHash, coinbaseTo (zeroAddress 1) 5),
              (req.blockHash, coinbaseTo (zeroAddress 1) 5)])) := by
  -- in both runs the block is not handed over exactly if all is answered
  constructor <;>
    exact Exists.imp (fun _ => Exists.imp fun _ => Exists.imp fun _ =>
      And.imp_right (mt Completes.exactly)) (by decide +kernel)

end NogoChain
