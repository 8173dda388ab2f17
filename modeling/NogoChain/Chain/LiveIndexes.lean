import NogoChain.Chain.Replay

/-!
# The indexes while the chain grows, and after they are rebuilt

A query for a transaction or for the history of an address reads the indexes as they are.
They are rebuilt from the canonical blocks at the start, after a reorganisation below the
tip and after a rollback; a block at the tip is entered by another function, with other
contents. So the answer to a query depends on how the chain came to its blocks: it is the
rebuilt one as long as the last step rebuilt the indexes, and it is another one as soon as a
block has been accepted at the tip – the coinbase has a location that no rebuilt index has,
and a transfer has an entry without its type.
-/

namespace NogoChain

variable {env : Env}

/-! ## When the indexes are the rebuilt ones -/

/-- The same indexes, as maps. -/
structure Indexes.Same (x y : Indexes) : Prop where
  txIndex : ∀ id, x.txIndex.lookup id = y.txIndex.lookup id
  addressIndex : ∀ addr, x.addressIndex.lookup addr = y.addressIndex.lookup addr

/-- **A step that rebuilds the indexes**: a rollback, or a reorganisation from an ancestor that
is not the tip whose new chain can be replayed. -/
def CoreStep.Rebuilds (env : Env) : CoreStep → Prop
  | .extend _ _ => False
  | .reorganize before ancestor newBlocks => ¬ before.AtTip ancestor
      ∧ (replayBlocks env ((before.spliced ancestor newBlocks).map before.view) ∅).value? = some ()
  | .rollback _ _ => True

instance (step : CoreStep) : Decidable (step.Rebuilds env) :=
  match step with
  | .extend _ _ => inferInstanceAs (Decidable False)
  | .reorganize _ _ _ => inferInstanceAs (Decidable (¬ _ ∧ _))
  | .rollback _ _ => inferInstanceAs (Decidable True)

/-- After a replay that succeeds, the indexes are the ones it was to end with. -/
theorem Replayed.indexes_eq {old new : Core} {r : Nat × GoMap Nat Bytes} {x : Indexes}
    (h : Replayed env old r x new)
    (hok : ∃ s, replayBlocks env (old.blocks.map (viewWith old.totalWork)) ∅ = .ret () s) :
    new.indexes = x := by
  obtain ⟨s, hs⟩ := hok
  unfold Replayed at h
  rw [hs] at h
  obtain ⟨store, rfl⟩ := h
  rfl

/-- Where the indexes are rebuilt before the replay, it does not matter how the replay ends. -/
theorem Replayed.indexes_eq_of_eq {old new : Core} {r : Nat × GoMap Nat Bytes} {x : Indexes}
    (h : Replayed env old r x new) (hx : old.indexes = x) : new.indexes = x := by
  unfold Replayed at h
  split at h
  · rw [h]
    exact hx
  · obtain ⟨store, rfl⟩ := h
    rfl

/-- **One move**: if the last step rebuilt the indexes, they are those of the blocks. -/
theorem Move.reindexed {P : Block → Prop} {T : Chain → Block → Block → Prop} {w w' : World}
    (h : Move env P T w w')
    (hw : (∀ step ∈ w.steps.head?, step.Rebuilds env) →
      w.chain.indexes = Indexes.reindexAll env w.chain.blocks)
    (hlast : ∀ step ∈ w'.steps.head?, step.Rebuilds env) :
    w'.chain.indexes = Indexes.reindexAll env w'.chain.blocks := by
  cases h with
  | still hsteps hcore =>
    have hindexes : w'.chain.indexes = w.chain.indexes := congrArg Core.indexes hcore
    have hblocks : w'.chain.blocks = w.chain.blocks := congrArg Core.blocks hcore
    rw [hindexes, hblocks]
    exact hw (hsteps ▸ hlast)
  | extend b hP hattach h =>
    rw [h.steps] at hlast
    exact (hlast _ rfl).elim
  | switch ancestor newTip visited hP hT hbranch h =>
    rw [h.steps] at hlast
    obtain ⟨hnot, hok⟩ := hlast _ rfl
    obtain ⟨x, y, hreindexes, hreplayed⟩ := h.core
    have hindexes : w'.chain.indexes = y := hreplayed.indexes_eq (Outcome.value?_eq_some hok)
    rw [hindexes, h.blocks_eq]
    cases hreindexes with
    | inl h => exact absurd h.1 hnot
    | inr h => exact h.2
  | cut height h =>
    have hindexes : w'.chain.indexes = _ := h.core.indexes_eq_of_eq rfl
    rw [hindexes, h.blocks_eq]

/-- **Rebuilt indexes.** At the end of every run whose last step, if there is one, rebuilt
them, the indexes are those of the canonical blocks. -/
theorem indexes_eq_reindexAll {calls : List Call} {w : World} (h : runFromStart env calls = some w)
    (hlast : ∀ step ∈ w.steps.head?, step.Rebuilds env) :
    w.chain.indexes = Indexes.reindexAll env w.chain.blocks := by
  refine run_invariant_any (I := fun w => (∀ step ∈ w.steps.head?, step.Rebuilds env) →
      w.chain.indexes = Indexes.reindexAll env w.chain.blocks) ?_
    (fun w w' _ _ hw hmove hlast' => hmove.reindexed hw hlast') h (fun _ _ => trivial) hlast
  intro w hfresh _
  rw [hfresh.indexes, hfresh.blocks]

/-! ## What a rebuilt index never holds -/

/-- The first transaction is the coinbase, as the consensus check asks for. -/
def Block.StartsWithCoinbase (b : Block) : Prop :=
  ∃ cb rest, b.transactions = cb :: rest ∧ cb.type = .coinbase

namespace Indexes

/-- No location is the first of a block. -/
def NoFirst (m : GoMap Bytes TxLocation) : Prop := ∀ id loc, m.lookup id = some loc → loc.index ≠ 0

/-- Every entry has its type. -/
def Typed (m : GoMap Bytes (List AddressTxEntry)) : Prop :=
  ∀ addr l, m.lookup addr = some l → ∀ e ∈ l, e.type ≠ none

theorem NoFirst.insert {m : GoMap Bytes TxLocation} (h : NoFirst m) (id : Bytes) {loc : TxLocation}
    (hloc : loc.index ≠ 0) : NoFirst (m.insert id loc) := by
  intro id' loc' hlookup
  rw [GoMap.lookup_insert] at hlookup
  split at hlookup
  · exact Option.some.inj hlookup ▸ hloc
  · exact h id' loc' hlookup

theorem Typed.appendEntry {m : GoMap Bytes (List AddressTxEntry)} (h : Typed m) (addr : Bytes)
    {e : AddressTxEntry} (he : e.type ≠ none) : Typed (appendEntry m addr e) := by
  intro addr' l hlookup e' he'
  unfold NogoChain.appendEntry at hlookup
  rw [GoMap.lookup_insert] at hlookup
  split at hlookup
  · rw [← Option.some.inj hlookup] at he'
    cases List.mem_append.mp he' with
    | inl hold =>
      obtain ⟨l', hm, hold⟩ := GoMap.exists_lookup_of_mem_getD hold
      exact h addr l' hm e' hold
    | inr hnew => exact List.mem_singleton.mp hnew ▸ he
  · exact h addr' l hlookup e' he'

/-- The loop over the transactions after the first. -/
theorem noFirst_indexTxsFrom (b : Block) :
    ∀ (txs : List Transaction) (i : Nat) {m : GoMap Bytes TxLocation}, i ≠ 0 → NoFirst m →
      NoFirst (indexTxsFrom env b i txs m)
  | [], _, _, _, h => h
  | tx :: txs, i, m, hi, h => by
    refine noFirst_indexTxsFrom b txs (i + 1) (Nat.succ_ne_zero i) ?_
    split
    · exact h.insert _ hi
    · exact h

theorem typed_indexAddressTxsFrom (b : Block) :
    ∀ (txs : List Transaction) (i : Nat) {m : GoMap Bytes (List AddressTxEntry)}, Typed m →
      Typed (indexAddressTxsFrom env b i txs m)
  | [], _, _, h => h
  | tx :: txs, i, m, h => by
    refine typed_indexAddressTxsFrom b txs (i + 1) ?_
    split
    · split
      · exact (h.appendEntry _ (Option.some_ne_none _)).appendEntry _ (Option.some_ne_none _)
      · exact h.appendEntry _ (Option.some_ne_none _)
    · exact h

/-- A block that starts with its coinbase. -/
theorem noFirst_indexBlock {b : Block} (hb : b.StartsWithCoinbase) {m : GoMap Bytes TxLocation}
    (h : NoFirst m) : NoFirst (indexTxsFrom env b 0 b.transactions m) := by
  obtain ⟨cb, rest, htxs, hcb⟩ := hb
  rw [htxs]
  unfold Indexes.indexTxsFrom
  rw [hcb]
  exact noFirst_indexTxsFrom b rest 1 Nat.one_ne_zero h

/-- **A rebuilt index** has no location of a coinbase and no entry without a type. -/
theorem reindexAll_spec {bs : List Block} (hbs : ∀ b ∈ bs, b.StartsWithCoinbase) :
    NoFirst (reindexAll env bs).txIndex ∧ Typed (reindexAll env bs).addressIndex := by
  constructor
  · exact List.foldlRecOn bs _ (motive := NoFirst) nofun fun m hm b hb =>
      noFirst_indexBlock (hbs b hb) hm
  · exact List.foldlRecOn bs _ (motive := Typed) nofun fun m hm b _ =>
      typed_indexAddressTxsFrom b b.transactions 0 hm

/-! ## What the index of a growing chain holds -/

/-- The history of an address has an entry without a type. -/
def HasUntyped (m : GoMap Bytes (List AddressTxEntry)) (addr : Bytes) : Prop :=
  ∃ l, m.lookup addr = some l ∧ ∃ e ∈ l, e.type = none

theorem hasUntyped_appendEntry (m : GoMap Bytes (List AddressTxEntry)) (addr : Bytes)
    {e : AddressTxEntry} (he : e.type = none) : HasUntyped (appendEntry m addr e) addr :=
  ⟨_, AList.lookup_insert m, e, List.mem_append_right _ (List.mem_singleton_self e), he⟩

theorem HasUntyped.appendEntry {m : GoMap Bytes (List AddressTxEntry)} {addr : Bytes}
    (h : HasUntyped m addr) (addr' : Bytes) (e : AddressTxEntry) :
    HasUntyped (appendEntry m addr' e) addr := by
  obtain ⟨l, hl, e', he', hnone⟩ := h
  unfold NogoChain.appendEntry
  by_cases haddr : addr = addr'
  · refine ⟨l ++ [e], ?_, e', List.mem_append_left _ he', hnone⟩
    rw [GoMap.lookup_insert, if_pos haddr, ← haddr, hl]
    rfl
  · refine ⟨l, ?_, e', he', hnone⟩
    rw [GoMap.lookup_insert, if_neg haddr, hl]

/-- Entries stay while later transactions are entered. -/
theorem hasUntyped_updateFrom_of {addr hash : Bytes} {height : UInt64} :
    ∀ (txs : List Transaction) (i : Nat) {x : Indexes}, HasUntyped x.addressIndex addr →
      HasUntyped (updateFrom env hash height i txs x).addressIndex addr
  | [], _, _, h => h
  | tx :: txs, i, x, h => by
    refine hasUntyped_updateFrom_of txs (i + 1) ?_
    split
    · exact h
    · split
      · exact h.appendEntry _ _
      · exact (h.appendEntry _ _).appendEntry _ _

/-- A transfer enters the history of its sender without a type. -/
theorem hasUntyped_updateFrom {tx : Transaction} {fromAddr hash : Bytes} {height : UInt64}
    (hfrom : tx.fromAddress env.cr = .ok fromAddr) (txs : List Transaction) (i : Nat)
    (x : Indexes) :
    HasUntyped (updateFrom env hash height i (tx :: txs) x).addressIndex fromAddr := by
  refine hasUntyped_updateFrom_of txs (i + 1) ?_
  rw [hfrom]
  dsimp only
  split
  · exact hasUntyped_appendEntry _ _ rfl
  · exact (hasUntyped_appendEntry _ _ rfl).appendEntry _ _

/-- `TotalWork` does not matter to the indexes. -/
theorem updateIndexesForBlock_view (c : Chain) (x : Indexes) (b : Block) (height : UInt64) :
    x.updateIndexesForBlock env (c.view b) height = x.updateIndexesForBlock env b height := by
  unfold Chain.view
  split <;> rfl

/-- **A block that the state has accepted** leaves a mark that no rebuilt index has. -/
theorem not_same_of_applied {b : Block} {s t : Ledger} (happlied : applyIn env b s = .ret () t)
    (x : Indexes) (height : UInt64) {bs : List Block} (hbs : ∀ b ∈ bs, b.StartsWithCoinbase) :
    ¬ (x.updateIndexesForBlock env b height).Same (reindexAll env bs) := by
  intro hsame
  obtain ⟨hfirst, htyped⟩ : NoFirst (reindexAll env bs).txIndex
      ∧ Typed (reindexAll env bs).addressIndex := reindexAll_spec hbs
  obtain ⟨-, cb, rest, htxs, hcb, s₁, -, hrun⟩ := applyBlockToState_eq_ret.mp happlied
  have hcbFrom : ∃ e, cb.fromAddress env.cr = .error e := by
    unfold Transaction.fromAddress
    rw [hcb, if_pos nofun]
    exact ⟨_, rfl⟩
  obtain ⟨e, hcbFrom⟩ := hcbFrom
  cases rest with
  | nil =>
    -- the coinbase alone: its location is the first of the block
    have hlookup : (x.updateIndexesForBlock env b height).txIndex.lookup (cb.getID env.cr)
        = some ⟨height, b.hash, 0⟩ := by
      unfold updateIndexesForBlock
      rw [htxs, updateFrom, updateFrom, hcbFrom]
      exact AList.lookup_insert _
    rw [hsame.txIndex] at hlookup
    exact hfirst _ _ hlookup rfl
  | cons tx txs =>
    -- a second transaction is a transfer, and has a sender
    obtain ⟨s₂, -, hrun⟩ := applyTransactions_cons_eq_ret.mp hrun
    obtain ⟨s₃, htx, -⟩ := applyTransactions_cons_eq_ret.mp hrun
    have hfrom : ∃ fromAddr, tx.fromAddress env.cr = .ok fromAddr := by
      cases htype : tx.type with
      | coinbase =>
        have hindex := (applyTransaction_coinbase_eq_ret htype).mp htx
        exact absurd hindex.1 (Nat.succ_ne_zero 0)
      | transfer =>
        simp only [applyTransaction, htype] at htx
        obtain ⟨-, fromAddr, hfrom, -⟩ := applyTransfer_eq_ret.mp htx
        exact ⟨fromAddr, hfrom⟩
      | other name =>
        simp only [applyTransaction, htype] at htx
        cases htx
    obtain ⟨fromAddr, hfrom⟩ := hfrom
    have huntyped : HasUntyped (x.updateIndexesForBlock env b height).addressIndex fromAddr := by
      unfold updateIndexesForBlock
      rw [htxs, updateFrom, hcbFrom]
      exact hasUntyped_updateFrom hfrom txs 1 _
    obtain ⟨l, hl, e', he', hnone⟩ := huntyped
    rw [hsame.addressIndex] at hl
    exact htyped fromAddr l hl e' he' hnone

end Indexes

/-! ## Runs of `AddBlock` -/

/-- One move: if the last step accepted a block at the tip, the indexes are those that
`updateIndexesForBlock` made of it. -/
theorem Move.indexes_of_accepts {P : Block → Prop} {T : Chain → Block → Block → Prop}
    {w w' : World} (h : Move env P T w w')
    (hw : ∀ before b, w.steps.head? = some (.extend before b) →
      CoreStep.Accepts env (.extend before b) →
      w.chain.indexes = before.indexes.updateIndexesForBlock env b before.length64)
    (before : Chain) (b : Block) (hlast : w'.steps.head? = some (.extend before b))
    (haccepts : CoreStep.Accepts env (.extend before b)) :
    w'.chain.indexes = before.indexes.updateIndexesForBlock env b before.length64 := by
  cases h with
  | still hsteps hcore =>
    have hindexes : w'.chain.indexes = w.chain.indexes := congrArg Core.indexes hcore
    rw [hindexes]
    exact hw before b (hsteps ▸ hlast) haccepts
  | extend b' hP hattach h =>
    rw [h.steps] at hlast
    obtain ⟨rfl, rfl⟩ := CoreStep.extend.inj (Option.some.inj hlast)
    obtain ⟨⟨store, hstore⟩, s, hs⟩ := CoreStep.accepts_extend.mp haccepts
    have hcore := h.core
    rw [hstore, hs] at hcore
    exact congrArg Core.indexes hcore
  | switch ancestor newTip visited hP hT hbranch h | cut height h =>
    rw [h.steps] at hlast
    cases hlast

/-- **The indexes after a run of `AddBlock` calls**, those that failed included. If the last
step rebuilt them, or there was none, they are the indexes of the canonical blocks. If it
accepted a block at the tip, they are not. -/
theorem live_indexes_of_run {bs : List Block} {w : World}
    (h : runFromStart env (bs.map .addBlock) = some w) :
    ((∀ step ∈ w.steps.head?, step.Rebuilds env) →
        w.chain.indexes.Same (Indexes.reindexAll env w.chain.blocks))
      ∧ ∀ step ∈ w.steps.head?, step.Accepts env →
        ¬ w.chain.indexes.Same (Indexes.reindexAll env w.chain.blocks) := by
  constructor
  · intro hlast
    rw [indexes_eq_reindexAll h hlast]
    exact ⟨fun _ => rfl, fun _ => rfl⟩
  · have hcalls : ∀ call ∈ bs.map Call.addBlock,
        call.Allowed env Block.StartsWithCoinbase fun _ _ _ => True := by
      intro call hcall
      obtain ⟨b, -, rfl⟩ := List.mem_map.mp hcall
      exact fun hvalid => (of_validateBlockConsensusLocked hvalid).1
    have hinv := run_invariant (P := Block.StartsWithCoinbase) (T := fun _ _ _ => True)
      (I := fun w => ∀ before b, w.steps.head? = some (.extend before b) →
        CoreStep.Accepts env (.extend before b) →
        w.chain.indexes = before.indexes.updateIndexesForBlock env b before.length64)
      (fun _ _ _ _ => trivial) ⟨_, _, rfl, rfl⟩
      (fun w hfresh before b hlast _ => by rw [hfresh.steps] at hlast; exact nomatch hlast)
      (fun w w' _ (_ : ∀ step ∈ w'.steps, True) hw hmove => hmove.indexes_of_accepts hw) hcalls h
    intro step hstep haccepts
    cases step with
    | reorganize before ancestor newBlocks | rollback before height => exact haccepts.elim
    | extend before b =>
      rw [hinv.2 (fun _ _ => trivial) before b hstep haccepts]
      obtain ⟨-, s, hs⟩ := CoreStep.accepts_extend.mp haccepts
      have hbs := hinv.1.blocks
      rw [← Indexes.updateIndexesForBlock_view (before.putOn env b)]
      exact Indexes.not_same_of_applied hs before.indexes before.length64 hbs

/-- The indexes after a reorganisation are the rebuilt ones. -/
theorem live_indexes_rivalBlocks :
    ∃ w, runFromStart sampleEnv ([rivalBlocks.1, rivalBlocks.2].map .addBlock) = some w
      ∧ w.steps.length = 2
      ∧ w.chain.indexes.Same (Indexes.reindexAll sampleEnv w.chain.blocks) := by
  exact Prog.exists_and_of (fun w => w.steps.length = 2
      ∧ ∀ step ∈ w.steps.head?, CoreStep.Rebuilds sampleEnv step) (by decide +kernel)
    fun w hw h => ⟨h.1, (live_indexes_of_run hw).1 h.2⟩

/-- **The coinbase is found until the next restart**: after the first block, a query for its
coinbase gives a location, and the rebuilt index has none. -/
theorem coinbase_found_until_rebuilt :
    ∃ w, runFromStart sampleEnv ([rivalBlocks.1].map .addBlock) = some w
      ∧ ¬ w.chain.indexes.Same (Indexes.reindexAll sampleEnv w.chain.blocks) := by
  refine Prog.exists_and_of (fun w =>
    w.chain.indexes.txIndex.lookup (List.replicate 32 0) = some ⟨1, rivalBlocks.1.hash, 0⟩
      ∧ (Indexes.reindexAll sampleEnv w.chain.blocks).txIndex.lookup (List.replicate 32 0) = none)
    (by decide +kernel) fun w hw h => ?_
  obtain ⟨hlive, hrebuilt⟩ := h
  refine fun hsame => ?_
  rw [hsame.txIndex, hrebuilt] at hlive
  cases hlive

end NogoChain
