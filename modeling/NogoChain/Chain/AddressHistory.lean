import NogoChain.Chain.Replay
import NogoChain.Core.SignedEffect
import NogoChain.Storage.AddressIndex

/-!
# The persistent address index along a run

The persistent address index has one writer after the start of the node:
`addCanonicalBlockLocked` enters the transfers of a block as soon as the block is appended
to the tip, before the store and the state have seen it. Nothing takes entries out again.
Since every extension of the tip is on record, the database is a function of the record.

It holds exactly the transfers of the canonical chain as long as no block with transfers is
refused at the tip, brought in by a reorganisation, or removed.
-/

namespace NogoChain

variable {env : Env}

/-- The entry of a transaction, before the block is filled in; a transaction that is no
transfer, has no sender or no identifier has none. -/
def addressEntryOf (cr : Crypto) (tx : Transaction) : Option AddressIndexEntry :=
  match tx.type, tx.fromAddress cr, tx.signingHashLegacyJSON cr with
  | .transfer, .ok fromAddr, .ok txId =>
    some ⟨txId, 0, [], 0, fromAddr, tx.toAddress, tx.amount, tx.fee, tx.nonce, 0, tx.type⟩
  | _, _, _ => none

/-- The write of `addCanonicalBlockLocked`. -/
def AddressIndex.indexBlock (cr : Crypto) (x : AddressIndex) (b : Block) : AddressIndex :=
  x.indexBlockSimple b.hash b.height b.header.timestampUnix
    (b.transactions.filterMap (addressEntryOf cr))

/-- **The persistent address index after the recorded steps**, the latest first: one write for
each block that was put on the tip, whether it stayed there or not. `ok` says which of the
writes the database carries out. -/
def addressIndexBolt (cr : Crypto) (ok : Nat → Bool) : List CoreStep → AddressIndex
  | [] => .empty
  | .extend _ b :: steps =>
    let x := addressIndexBolt cr ok steps
    if ok steps.length then x.indexBlock cr b else x
  | _ :: steps => addressIndexBolt cr ok steps

/-! ## The transfers of the canonical chain -/

/-- The entries of a block: its transfers, with the place they have in it. -/
def Block.addressEntries (cr : Crypto) (b : Block) : List AddressIndexEntry :=
  (b.transactions.filterMap (addressEntryOf cr)).mapIdx fun i entry =>
    { entry with height := b.height, blockHash := b.hash, index := .ofNat i
                 timestamp := b.header.timestampUnix }

/-- The entries of a list of blocks. -/
def chainEntries (cr : Crypto) (bs : List Block) : List AddressIndexEntry :=
  bs.flatMap (Block.addressEntries cr)

theorem chainEntries_append (cr : Crypto) (xs ys : List Block) :
    chainEntries cr (xs ++ ys) = chainEntries cr xs ++ chainEntries cr ys :=
  List.flatMap_append

variable {cr : Crypto} {b : Block} {ok : Nat → Bool} {w w' : World}

theorem chainEntries_eq_nil {bs : List Block} (h : ∀ b ∈ bs, b.addressEntries cr = []) :
    chainEntries cr bs = [] :=
  List.flatMap_eq_nil_iff.mpr h

/-! ## One block -/

open AddressIndex

theorem addressEntryOf_eq_some {tx : Transaction} {e : AddressIndexEntry}
    (h : addressEntryOf cr tx = some e) : tx.type = .transfer ∧ e.amount = tx.amount := by
  unfold addressEntryOf at h
  split at h
  · next htype hfrom hid =>
    rw [← Option.some.inj h]
    exact ⟨htype, rfl⟩
  · cases h

/-- The amount of an entry is that of its transfer. -/
theorem exists_transfer_of_mem_addressEntries {e : AddressIndexEntry}
    (h : e ∈ b.addressEntries cr) :
    ∃ tx ∈ b.transactions, tx.type = .transfer ∧ e.amount = tx.amount := by
  obtain ⟨i, hi, rfl⟩ := List.mem_mapIdx.mp h
  obtain ⟨tx, htx, hentry⟩ := List.mem_filterMap.mp (List.getElem_mem hi)
  have htransfer := addressEntryOf_eq_some hentry
  exact ⟨tx, htx, htransfer.1, htransfer.2⟩

/-- A transfer of a block that is applied moves something. -/
theorem amount_pos_of_applyTransactions {p : ConsensusParams} {height : UInt64} :
    ∀ {txs : List Transaction} {i : Nat} {s t : Ledger},
      applyTransactions cr p height i txs s = .ret () t →
      ∀ tx ∈ txs, tx.type = .transfer → tx.amount ≠ 0
  | [], _, _, _, _, _, h, _ => nomatch h
  | tx :: txs, i, s, t, h, tx', hmem, htype => by
    obtain ⟨s', htx, hrest⟩ := applyTransactions_cons_eq_ret.mp h
    cases List.mem_cons.mp hmem with
    | inr hmem => exact amount_pos_of_applyTransactions hrest tx' hmem htype
    | inl heq =>
      subst heq
      simp only [applyTransaction, htype] at htx
      obtain ⟨hverify, -⟩ := applyTransfer_eq_ret.mp htx
      exact (verified_transfer htype hverify).amount

/-- The entries of a block that is applied are worth something. -/
theorem amount_pos_of_applyIn {s t : Ledger} (h : applyIn env b s = .ret () t) :
    ∀ e ∈ b.addressEntries env.cr, e.amount ≠ 0 := by
  intro e he
  obtain ⟨tx, htx, htype, hamount⟩ := exists_transfer_of_mem_addressEntries he
  obtain ⟨-, cb, rest, htxs, -, s₁, -, hrun⟩ := applyBlockToState_eq_ret.mp h
  rw [hamount]
  exact amount_pos_of_applyTransactions hrun tx (htxs ▸ htx) htype

/-! ## Runs -/

/-- The amounts of the transfers that touch an address, added up over a chain. -/
def turnover (cr : Crypto) (bs : List Block) (addr : Bytes) : Nat :=
  total (touching (chainEntries cr bs) addr)

/-- **The condition under which a step keeps the persistent index exact.** An extension: the
block has no transfers, or it is accepted and the turnover of each sender and recipient
stays within 64 bits. A reorganisation or a rollback: no transfers come or go. -/
def CoreStep.KeepsHistory (env : Env) : CoreStep → Prop
  | .extend before b => b.addressEntries env.cr = []
      ∨ (CoreStep.Accepts env (.extend before b) ∧ ∀ e ∈ b.addressEntries env.cr,
          turnover env.cr (before.blocks ++ [b]) e.fromAddr < 2 ^ 64
            ∧ turnover env.cr (before.blocks ++ [b]) e.toAddress < 2 ^ 64)
  | .reorganize before ancestor newBlocks =>
    (∀ b ∈ before.blocks.drop (goInt ancestor.height + 1).toNat, b.addressEntries env.cr = [])
      ∧ ∀ b ∈ newBlocks, b.addressEntries env.cr = []
  | .rollback before height =>
    ∀ b ∈ before.blocks.drop (height.toNat + 1), b.addressEntries env.cr = []

instance (step : CoreStep) : Decidable (step.KeepsHistory env) :=
  match step with
  | .extend _ _ => inferInstanceAs (Decidable (_ ∨ (_ ∧ ∀ e ∈ _, _)))
  | .reorganize _ _ _ => inferInstanceAs (Decidable ((∀ b ∈ _, _) ∧ ∀ b ∈ _, _))
  | .rollback _ _ => inferInstanceAs (Decidable (∀ b ∈ _, _))

/-- The index tracks the canonical chain, whose transfers are all worth something. -/
structure History (env : Env) (ok : Nat → Bool) (w : World) : Prop where
  tracks : (addressIndexBolt env.cr ok w.steps).Tracks
    (touching (chainEntries env.cr w.chain.blocks))
  amounts : ∀ e ∈ chainEntries env.cr w.chain.blocks, e.amount ≠ 0

/-- Nothing but the blocks and the index matters. -/
theorem History.of_eq (h : History env ok w)
    (hindex : addressIndexBolt env.cr ok w'.steps = addressIndexBolt env.cr ok w.steps)
    (hentries : chainEntries env.cr w'.chain.blocks = chainEntries env.cr w.chain.blocks) :
    History env ok w' := by
  refine ⟨?_, ?_⟩
  · rw [hindex, hentries]
    exact h.tracks
  · rw [hentries]
    exact h.amounts

/-- Blocks without transfers may be replaced by others. -/
theorem chainEntries_replace {bs new : List Block} {k : Nat}
    (hold : ∀ b ∈ bs.drop k, b.addressEntries cr = [])
    (hnew : ∀ b ∈ new, b.addressEntries cr = []) :
    chainEntries cr (bs.take k ++ new) = chainEntries cr bs := by
  conv_rhs => rw [← List.take_append_drop k bs]
  rw [chainEntries_append, chainEntries_append, chainEntries_eq_nil hold, chainEntries_eq_nil hnew]

/-- The blocks after an extension that is accepted. -/
theorem Extension.blocks_of_accepts (h : Extension env w w' b)
    (haccepts : CoreStep.Accepts env (.extend w.chain b)) :
    w'.chain.blocks = w.chain.blocks ++ [b] := by
  obtain ⟨⟨store, hstore⟩, s, hs⟩ := CoreStep.accepts_extend.mp haccepts
  have hcore := h.core
  rw [hstore, hs] at hcore
  exact congrArg Core.blocks hcore

/-- The view of a block has the same transfers. -/
theorem Block.addressEntries_view (cr : Crypto) (c : Chain) (b : Block) :
    (c.view b).addressEntries cr = b.addressEntries cr := by
  unfold Chain.view
  split <;> rfl

/-- The entries of the block are added, whether it is accepted or not. -/
theorem Extension.addressIndexBolt_eq (hok : ∀ n, ok n = true) (h : Extension env w w' b) :
    addressIndexBolt env.cr ok w'.steps = (b.addressEntries env.cr).foldl AddressIndex.indexEntry
      (addressIndexBolt env.cr ok w.steps) := by
  rw [h.steps, addressIndexBolt, hok, if_pos rfl]
  rfl

/-- An extension that is accepted. -/
theorem Extension.history (hok : ∀ n, ok n = true)
    (h : Extension env w w' b) (hw : History env ok w)
    (haccepts : CoreStep.Accepts env (.extend w.chain b))
    (hturnover : ∀ e ∈ b.addressEntries env.cr,
      turnover env.cr (w.chain.blocks ++ [b]) e.fromAddr < 2 ^ 64
        ∧ turnover env.cr (w.chain.blocks ++ [b]) e.toAddress < 2 ^ 64) :
    History env ok w' := by
  have hentries : chainEntries env.cr (w.chain.blocks ++ [b])
      = chainEntries env.cr w.chain.blocks ++ b.addressEntries env.cr := by
    rw [chainEntries_append]
    exact congrArg _ (List.flatMap_singleton _ b)
  have hamounts : ∀ e ∈ chainEntries env.cr (w.chain.blocks ++ [b]), e.amount ≠ 0 := by
    intro e he
    rw [hentries] at he
    cases List.mem_append.mp he with
    | inl hold => exact hw.amounts e hold
    | inr hnew =>
      obtain ⟨-, s, hs⟩ := CoreStep.accepts_extend.mp haccepts
      refine amount_pos_of_applyIn hs e ?_
      rw [Block.addressEntries_view]
      exact hnew
  refine ⟨?_, ?_⟩
  · rw [h.addressIndexBolt_eq hok, h.blocks_of_accepts haccepts, hentries]
    refine hw.tracks.foldl_indexEntry fun e he => ?_
    rw [← hentries]
    obtain ⟨hfrom, hto⟩ := hturnover e he
    exact ⟨room_of_total_lt hamounts hfrom, room_of_total_lt hamounts hto⟩
  · rw [h.blocks_of_accepts haccepts]
    exact hamounts

/-- **One move keeps the persistent index exact.** -/
theorem Move.history {P : Block → Prop} {T : Chain → Block → Block → Prop}
    (hok : ∀ n, ok n = true) (h : Move env P T w w')
    (hclean : ∀ step ∈ w'.steps, CoreStep.KeepsHistory env step) (hw : History env ok w) :
    History env ok w' := by
  cases h with
  | still hsteps hcore =>
    have hblocks : w'.chain.blocks = w.chain.blocks := congrArg Core.blocks hcore
    exact hw.of_eq (by rw [hsteps]) (by rw [hblocks])
  | extend b hP hattach h =>
    have hstep := hclean (.extend w.chain b) (h.steps ▸ List.mem_cons_self)
    cases hstep with
    | inl hnone =>
      refine hw.of_eq ?_ ?_
      · rw [h.addressIndexBolt_eq hok, hnone]
        rfl
      · rcases h.blocks_eq with hblocks | ⟨-, -, hblocks⟩
        · rw [hblocks]
        · rw [hblocks, chainEntries_append,
            chainEntries_eq_nil (List.forall_mem_singleton.mpr hnone), List.append_nil]
    | inr haccepted => exact h.history hok hw haccepted.1 haccepted.2
  | switch ancestor newTip visited hP hT hbranch h =>
    have hstep := hclean (.reorganize w.chain ancestor visited.dropLast.reverse)
      (h.steps ▸ List.mem_cons_self)
    refine hw.of_eq (by rw [h.steps]; rfl) ?_
    rw [h.blocks_eq]
    exact chainEntries_replace hstep.1 hstep.2
  | cut height h =>
    have hstep := hclean (.rollback w.chain height) (h.steps ▸ List.mem_cons_self)
    refine hw.of_eq (by rw [h.steps]; rfl) ?_
    rw [h.blocks_eq, ← List.append_nil (List.take _ _)]
    exact chainEntries_replace hstep nofun

/-- **The persistent index holds the transfers of the canonical chain**, those that touch an
address each once under that address, at the end of every run all of whose steps meet
`KeepsHistory`, if the database carries its writes out. -/
theorem addressIndexBolt_perm {ok : Nat → Bool} (hok : ∀ n, ok n = true) {calls : List Call}
    {w : World} (h : runFromStart env calls = some w)
    (hsteps : ∀ step ∈ w.steps, CoreStep.KeepsHistory env step) (addr : Bytes) :
    ((addressIndexBolt env.cr ok w.steps).entriesOf addr).Perm
      ((chainEntries env.cr w.chain.blocks).filter (·.Touches addr)) := by
  have hhistory : History env ok w := by
    refine run_invariant_any (fun w hfresh => ?_)
      (fun w w' _ hclean hw hmove => hmove.history hok hclean hw) h hsteps
    have hentries : chainEntries env.cr w.chain.blocks = [] := by
      rw [hfresh.blocks]
      rfl
    refine ⟨?_, by simp [hentries]⟩
    rw [hfresh.steps, hentries]
    exact tracks_empty
  exact hhistory.tracks.entries addr

/-- A block on the genesis block in which the genesis miner pays `zeroAddress 2`. -/
def payingBlock : Block :=
  sampleBlock (List.replicate 32 1) (List.replicate 32 0) 1 10 [sampleTransfer (zeroAddress 2)]

/-- The payment is on the chain and under its recipient. -/
theorem addressIndexBolt_perm_payingBlock :
    ∃ w, runFromStart sampleEnv [.addBlock payingBlock] = some w
      ∧ (chainEntries sampleEnv.cr w.chain.blocks).length = 1
      ∧ ((addressIndexBolt sampleEnv.cr (fun _ => true) w.steps).entriesOf (zeroAddress 2)).Perm
        ((chainEntries sampleEnv.cr w.chain.blocks).filter (·.Touches (zeroAddress 2))) := by
  refine Prog.exists_and_of (fun w => (chainEntries sampleEnv.cr w.chain.blocks).length = 1
      ∧ ∀ step ∈ w.steps, CoreStep.KeepsHistory sampleEnv step) (by decide +kernel) fun w hw h => ?_
  obtain ⟨hlength, hclean⟩ := h
  exact ⟨hlength, addressIndexBolt_perm (fun _ => rfl) hw hclean (zeroAddress 2)⟩

/-- **A payment stays in the index after its block has been rolled back.** -/
theorem payment_indexed_after_rollback :
    ∃ w, runFromStart sampleEnv [.addBlock payingBlock, .rollbackToHeight 0] = some w
      ∧ ¬ ((addressIndexBolt sampleEnv.cr (fun _ => true) w.steps).entriesOf (zeroAddress 2)).Perm
        ((chainEntries sampleEnv.cr w.chain.blocks).filter (·.Touches (zeroAddress 2))) := by
  refine Prog.exists_and_of (fun w =>
    ((addressIndexBolt sampleEnv.cr (fun _ => true) w.steps).entriesOf (zeroAddress 2)).length = 1
      ∧ (chainEntries sampleEnv.cr w.chain.blocks).length = 0) (by decide +kernel) fun w hw h => ?_
  obtain ⟨hindexed, hchain⟩ := h
  refine fun hperm => ?_
  have hlength := hperm.length_eq
  rw [hindexed, List.length_eq_zero_iff.mp hchain] at hlength
  exact absurd hlength (by decide)

end NogoChain
