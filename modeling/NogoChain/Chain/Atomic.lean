import NogoChain.Chain.Ancestry

/-!
# Failures that leave traces

A block at the tip is indexed, weighed, stored and applied, in this order, and a reorganisation
switches the chain before it replays the state. Each has error exits between these steps, and
none of them undoes what was done before it: a refused block leaves its work, its transactions
in the indexes and, if the state refused it, its entry in the store; a refused branch leaves its
blocks on the canonical chain.

So both are atomic in the cases in which nothing was done, and in those in which they do not
fail. The two theorems say exactly which these are, as conditions on the chain before the call:
what the store and the account map say to the block, or to the branch.
-/

namespace NogoChain

open Prog

variable {env : Env}

/-- **What a failed call must not change**: the canonical chain, the account map, the work, the
indexes, and the canonical chain of the store. -/
structure Chain.SameCanon (c c' : Chain) : Prop where
  blocks : c'.blocks = c.blocks
  state : c'.state = c.state
  canonicalWork : c'.canonicalWork = c.canonicalWork
  indexes : c'.indexes = c.indexes
  stored : c'.store.readCanonical = c.store.readCanonical

/-! ## A block at the tip -/

variable {w' w : World} {b : Block}

/-- A block that is refused at the tip has left its work. -/
theorem appendToTip_err_canonicalWork {e : GoError} (h : appendToTip env b w = .err e w') :
    w'.chain.canonicalWork = w.chain.canonicalWork
      + workForDifficultyBits b.header.difficultyBits := by
  rw [appendToTip_apply] at h
  split at h
  · cases h
    rfl
  · split at h
    · cases h
    · cases h
      rfl

/-- A block is refused at the tip unless the store and the state both take it. -/
theorem exists_appendToTip_err_iff : (∃ e w', appendToTip env b w = .err e w')
      ↔ ¬ (env.storeOk w.chain.tick = true
        ∧ (w.chain.store.appendCanonical (w.chain.withWork b)).isOk = true
        ∧ (applyIn env (w.chain.withWork b) w.chain.state).value? = some ()) := by
  rw [appendToTip_apply]
  unfold Chain.appended Chain.applied Chain.written
  rw [view_putOn]
  by_cases hok : env.storeOk w.chain.tick = true
  · rw [if_pos hok]
    dsimp only
    cases w.chain.store.appendCanonical (w.chain.withWork b) with
    | error e => exact ⟨fun _ h => (nomatch h.2.1), fun _ => ⟨_, _, rfl⟩⟩
    | ok store =>
      cases applyIn env (w.chain.withWork b) w.chain.state with
      | fault x => exact x.elim
      | err e s => exact ⟨fun _ h => (nomatch h.2.2), fun _ => ⟨_, _, rfl⟩⟩
      | ret a s => exact ⟨fun ⟨_, _, h⟩ => (nomatch h), fun h => absurd ⟨hok, rfl, rfl⟩ h⟩
  · rw [if_neg hok]
    exact ⟨fun _ h => hok h.1, fun _ => ⟨_, _, rfl⟩⟩

/-- **The chain takes a block at its tip**: the database carries the write out, the store accepts
the block with its total work, and `applyBlockToState` accepts it. -/
def Chain.Takes (env : Env) (c : Chain) (b : Block) : Prop :=
  env.storeOk c.expiryTick = true ∧ (c.store.appendCanonical (c.withWork b)).isOk = true
    ∧ (applyIn env (c.withWork b) c.state).value? = some ()

instance (c : Chain) (b : Block) : Decidable (c.Takes env b) :=
  inferInstanceAs (Decidable (_ ∧ _ ∧ _))

/-- The state in which a block is put on the tip: the expired orphans are gone, and the block is
known. -/
def World.atTip (w : World) (orphans : Option Orphans) (arrays : Slice.Heap Bytes)
    (known : GoMap Bytes Block) : World :=
  ⟨{ w.chain.expired orphans arrays with blocksByHash := known }, w.steps⟩

/-- `AddBlock` of a block at the tip that passes the consensus check. -/
theorem addBlock_at_tip {tip : Block} (hheight : b.height = w.chain.length64)
    (htip : w.chain.tip? = some tip) (hprev : b.header.prevHash = tip.hash)
    (hvalid : validateBlockConsensusLocked env b = .ok ()) :
    ∃ orphans arrays known,
      cleanupExpiredOrphansLocked env w = .ret () ⟨w.chain.expired orphans arrays, w.steps⟩
      ∧ addBlock env b w =
        if (w.chain.blocksByHash.lookup b.hash).isSome = true ∧ b.hash.length < 8 then
          .fault (.panic "hashHex[:16]")
        else addCanonicalBlockLocked env (processOrphanDescendantsLocked env) b
          (w.atTip orphans arrays known) := by
  obtain ⟨o, a, hclean⟩ : ∃ o a, cleanupExpiredOrphansLocked env w
      = .ret () ⟨w.chain.expired o a, w.steps⟩ := exists_cleanupExpiredOrphansLocked w
  have hnolt : ¬ b.height < w.chain.length64 := by
    rw [hheight]
    exact UInt64.lt_irrefl _
  unfold addBlock
  rw [bind_apply, hclean]
  rw [hvalid]
  dsimp only
  rw [chain_bind_apply]
  by_cases hknown : (w.chain.blocksByHash.lookup b.hash).isSome = true
  · refine ⟨o, a, (w.chain.expired o a).blocksByHash, rfl, ?_⟩
    have hlookup : ((w.chain.expired o a).blocksByHash.lookup b.hash).isSome = true := hknown
    rw [if_pos hlookup]
    change (if b.height < w.chain.length64 then _
      else if b.height = w.chain.length64 then _ else _ :
      ChainM Bool) _ = _
    rw [if_neg hnolt, if_pos hheight]
    rw [show (World.mk (w.chain.expired o a) w.steps).chain.tip? = some tip from htip]
    dsimp only
    rw [if_neg (not_not.mpr hprev)]
    unfold hexPrefix16
    split
    · next hshort => rw [if_pos ⟨hknown, hshort⟩]; rfl
    · next hshort => rw [if_neg fun h => hshort h.2]; rfl
  · refine ⟨o, a, ((w.chain.expired o a).learn [b]).blocksByHash, rfl, ?_⟩
    have hlookup : ¬ ((w.chain.expired o a).blocksByHash.lookup b.hash).isSome = true := hknown
    rw [if_neg hlookup, if_neg fun h => hknown h.1]
    change (if b.height = w.chain.length64 then _ else _ : ChainM Bool) _ = _
    rw [if_pos hheight]
    rw [show (World.mk ((w.chain.expired o a).learn [b]) w.steps).chain.tip? = some tip from htip]
    dsimp only
    rw [if_neg (not_not.mpr hprev)]
    rfl

/-- **When `AddBlock` is atomic at the tip.** An error leaves the chain as it was exactly if the
consensus check refuses the block, or the chain takes it; or the call panics, for a known block with
a short hash. -/
theorem addBlock_atomic_iff {w : World} {b tip : Block} (hheight : b.height = w.chain.length64)
    (htip : w.chain.tip? = some tip) (hprev : b.header.prevHash = tip.hash) :
    (∀ e w', addBlock env b w = .err e w' →
        w.chain.SameCanon w'.chain ∧ w'.chain.blocksByHash = w.chain.blocksByHash)
      ↔ (∃ e, validateBlockConsensusLocked env b = .error e)
        ∨ ((w.chain.blocksByHash.lookup b.hash).isSome = true ∧ b.hash.length < 8)
        ∨ w.chain.Takes env b := by
  cases hvalid : validateBlockConsensusLocked env b with
  | error e =>
    refine ⟨fun _ => .inl ⟨e, rfl⟩, fun _ e' w' h => ?_⟩
    obtain ⟨o, a, hclean⟩ : ∃ o a, cleanupExpiredOrphansLocked env w
        = .ret () ⟨w.chain.expired o a, w.steps⟩ := exists_cleanupExpiredOrphansLocked w
    unfold addBlock at h
    rw [bind_apply, hclean] at h
    rw [hvalid] at h
    cases h
    exact ⟨⟨rfl, rfl, rfl, rfl, rfl⟩, rfl⟩
  | ok u =>
    obtain ⟨orphans, arrays, known, -, hadd⟩ := addBlock_at_tip hheight htip hprev hvalid
    constructor
    · intro hatomic
      right
      by_contra hnone
      obtain ⟨hpanic, hrefused⟩ := not_or.mp hnone
      obtain ⟨e, w', h⟩ :=
        (exists_appendToTip_err_iff (w := w.atTip orphans arrays known)).mpr hrefused
      rw [if_neg hpanic] at hadd
      have hadd' := hadd.trans ((addCanonicalBlockLocked_eq_err
        noErr_processOrphanDescendantsLocked).mpr h)
      -- the work of the refused block was added and not taken off
      have hsame := (hatomic e w' hadd').1.canonicalWork
      rw [appendToTip_err_canonicalWork h] at hsame
      have hbits : workForDifficultyBits b.header.difficultyBits = 0 := Nat.add_eq_left.mp hsame
      exact (of_validateBlockConsensusLocked hvalid).2.2 (UInt32.toNat.inj hbits)
    · rintro (⟨e, he⟩ | hpanic | hok) e' w' h
      · cases he
      · rw [hadd, if_pos hpanic] at h
        cases h
      · rw [hadd] at h
        split at h
        · cases h
        · exact absurd hok (exists_appendToTip_err_iff.mp ⟨e', w', (addCanonicalBlockLocked_eq_err
            noErr_processOrphanDescendantsLocked).mp h⟩)

/-- `addBlock_atomic_iff` at a block without difficulty bits, which is refused and leaves no
trace. -/
theorem addBlock_atomic_iff_without_bits :
    ∃ w e w', runFromStart sampleEnv [] = some w
      ∧ addBlock sampleEnv (numberedBlock 1 0 1 0) w = .err e w'
      ∧ w.chain.SameCanon w'.chain ∧ w'.chain.blocksByHash = w.chain.blocksByHash := by
  obtain ⟨w, hw, hheight, htip, e, w', hw', -⟩ : ∃ w, runFromStart sampleEnv [] = some w
      ∧ (numberedBlock 1 0 1 0).height = w.chain.length64
      ∧ w.chain.tip? = some (createGenesisBlock sampleEnv)
      ∧ ∃ e w', addBlock sampleEnv (numberedBlock 1 0 1 0) w = .err e w' ∧ True := by
    decide +kernel
  have hatomic := (addBlock_atomic_iff hheight htip (by decide +kernel)).mpr
    (.inl ⟨.new "invalid difficulty bits", by decide +kernel⟩) e w' hw'
  exact ⟨w, e, w', hw, hw', hatomic⟩

/-- A first block with a transfer that nobody has signed. -/
def unsignedTransfer : Block :=
  { numberedBlock 1 0 1 10 with
    transactions := [coinbaseTo (zeroAddress 1) 792000000,
      { coinbaseTo (zeroAddress 1) 1 with type := .transfer }] }

/-- **A refused block leaves traces**: its work, its entry in the store, its transactions in the
index, and the genesis share and the coinbase in the account map. -/
theorem unsignedTransfer_leaves_traces :
    ∃ w e w', runFromStart sampleEnv [] = some w ∧ unsignedTransfer.height = w.chain.length64
      ∧ w.chain.tip?.map (·.hash) = some unsignedTransfer.header.prevHash
      ∧ addBlock sampleEnv unsignedTransfer w = .err e w'
      ∧ w'.chain.canonicalWork ≠ w.chain.canonicalWork ∧ w'.chain.state ≠ w.chain.state
      ∧ w'.chain.indexes.txIndex.entries ≠ w.chain.indexes.txIndex.entries
      ∧ w'.chain.store.readCanonical ≠ w.chain.store.readCanonical := by
  simp only [exists_and_left]
  decide +kernel

/-! ## A branch -/

/-- **The blocks that a reorganisation collects** from a block down: those above a height, each on
the known parent that it is not refused on, the lowest first. -/
inductive Chain.Collects (c : Chain) (refuse : Block → Block → Option BranchEnd) (height : UInt64) :
    Block → List Block → Prop
  /-- at a block no higher than the height -/
  | stop {b : Block} (h : ¬ height < b.height) : c.Collects refuse height b []
  | parent {b p : Block} {l : List Block} (h : height < b.height) (hp : c.knownParent? b = some p)
      (hseal : refuse b p = none) (hl : c.Collects refuse height p l) :
      c.Collects refuse height b (l ++ [b])

section Collect

variable {c : Chain} {refuse : Block → Block → Option BranchEnd} {height : UInt64}

theorem Chain.collects_of_walk (hrefuse : ∀ x y, refuse x y ≠ some .reached) :
    ∀ {n : Nat} {b : Block} {visited : List Block},
      walk (branchStep refuse c height) n b = some (visited, .reached) →
      c.Collects refuse height b visited.dropLast.reverse
  | 0, _, _, h => nomatch h
  | n + 1, b, visited, h => by
    rcases walk_succ_eq_some.mp h with ⟨hs, rfl⟩ | ⟨p, l, hs, hw, rfl⟩
    · exact .stop (branchStep_eq_reached hrefuse hs)
    · obtain ⟨habove, hp, hseal⟩ := branchStep_eq_next hs
      rw [List.dropLast_cons_of_ne_nil (walk_ne_nil hw), List.reverse_cons]
      exact .parent habove hp hseal (Chain.collects_of_walk hrefuse hw)

theorem Chain.Collects.exists_walk {l : List Block} (h : c.Collects refuse height b l) :
    ∃ n visited, walk (branchStep refuse c height) n b = some (visited, .reached)
      ∧ visited.dropLast.reverse = l := by
  induction h with
  | @stop b h =>
    refine ⟨1, [b], walk_succ_eq_some.mpr (.inl ⟨?_, rfl⟩), rfl⟩
    unfold branchStep
    rw [if_neg h]
  | @parent b p l h hp hseal _ ih =>
    obtain ⟨n, visited, hw, rfl⟩ := ih
    refine ⟨n + 1, b :: visited, walk_succ_eq_some.mpr (.inr ⟨p, visited, ?_, hw, rfl⟩), ?_⟩
    · unfold branchStep
      rw [if_pos h, hp]
      dsimp only
      rw [hseal]
    · rw [List.dropLast_cons_of_ne_nil (walk_ne_nil hw), List.reverse_cons]

/-- The walk collects exactly these blocks. -/
theorem Chain.collects_iff (hrefuse : ∀ x y, refuse x y ≠ some .reached) {l : List Block} :
    c.Collects refuse height b l
      ↔ ∃ visited, walk (branchStep refuse c height) c.branchBound b = some (visited, .reached)
        ∧ visited.dropLast.reverse = l := by
  constructor
  · intro h
    obtain ⟨n, visited, hw, hl⟩ := h.exists_walk
    refine ⟨visited, ?_, hl⟩
    rw [← c.length_branchBlocks]
    exact walk_within c.branchBlocks (fun _ _ hs => Chain.mem_branchBlocks (branchStep_next hs)) hw
  · rintro ⟨visited, hw, rfl⟩
    exact Chain.collects_of_walk hrefuse hw

end Collect

/-- **The branch between an ancestor and a new tip**: seals are checked unless the ancestor is the
tip of the chain. -/
def Chain.BranchBetween (env : Env) (c : Chain) (ancestor newTip : Block) (newBlocks : List Block) :
    Prop :=
  c.Collects (if c.AtTip ancestor then fun _ _ => none else refuseSeal env) ancestor.height newTip
    newBlocks

/-- **What a failed reorganisation must not change**: the fork blocks besides. -/
structure Chain.Untouched (c c' : Chain) : Prop extends Chain.SameCanon c c' where
  forkBlocks : c'.forkBlocks = c.forkBlocks
  forkBlocksByHash : c'.forkBlocksByHash = c.forkBlocksByHash

/-- The fork blocks are the same. -/
def Chain.SameForks (c c' : Chain) : Prop :=
  c'.forkBlocks = c.forkBlocks ∧ c'.forkBlocksByHash = c.forkBlocksByHash

theorem Chain.untouched_iff {c c' : Chain} (hforks : c.SameForks c') {blocks : List Block}
    {state : Ledger} {work : Nat} {texts : GoMap Nat Bytes} {x : Indexes}
    (hcore : c'.core = ⟨blocks, state, work, texts, c.store, x⟩) :
    c.Untouched c' ↔ blocks = c.blocks ∧ state = c.state ∧ work = c.canonicalWork
      ∧ x = c.indexes := by
  obtain ⟨rfl, rfl, rfl, -, hstore, rfl⟩ := Core.mk.inj hcore
  constructor
  · intro h
    exact ⟨h.blocks, h.state, h.canonicalWork, h.indexes⟩
  · rintro ⟨hblocks, hstate, hwork, hindexes⟩
    exact ⟨⟨hblocks, hstate, hwork, hindexes, by rw [hstore]⟩, hforks.1, hforks.2⟩

/-- **A replay that does no harm**, of the given blocks, with the indexes `x` during and `y` after
it, and with the work and the texts `r` after it. -/
def Chain.SafeReplay (env : Env) (c : Chain) (blocks : List Block) (x y : Indexes)
    (r : Nat × GoMap Nat Bytes) : Prop :=
  match replayBlocks env (blocks.map c.view) ∅ with
  | .err _ s => blocks = c.blocks ∧ s = c.state ∧ x = c.indexes
  | .ret () s =>
    (env.storeOk c.tick = true ∧ (c.store.rewriteCanonical (blocks.map (viewWith r.2))).isOk = true)
      ∨ (blocks = c.blocks ∧ s = c.state ∧ r.1 = c.canonicalWork ∧ y = c.indexes)

/-- **When a replay that is then written is atomic**, with `w₀` the state in which it starts. -/
theorem replay_atomic_iff (w₀ : World) {msg : String} {finish : Chain → Chain} {m : ChainM Unit}
    (hm : ∀ t t', (∃ e, m t = .err e t') ↔ ∃ e, rewriteCanonical env t = .err e t')
    (blocks : List Block) (x y : Indexes) (r : Nat × GoMap Nat Bytes)
    (hcore : w₀.chain.core = { w.chain.core with blocks := blocks, indexes := x })
    (hforks : w.chain.SameForks w₀.chain)
    (hfinish : ∀ s, (finish (w₀.withState s).chain).core = ⟨blocks, s, r.1, r.2, w.chain.store, y⟩
      ∧ w.chain.SameForks (finish (w₀.withState s).chain)
      ∧ (finish (w₀.withState s).chain).tick = w.chain.tick) :
    (∀ e w', (do
        wrapping msg [] (recomputeStateLocked env)
        update finish
        m : ChainM Unit) w₀ = .err e w' → w.chain.Untouched w'.chain)
      ↔ w.chain.SafeReplay env blocks x y r := by
  have hblocks : w₀.chain.blocks = blocks := congrArg Core.blocks hcore
  have hview : w₀.chain.view = w.chain.view := by
    have htexts : w₀.chain.totalWork = w.chain.totalWork := congrArg Core.totalWork hcore
    rw [Chain.view_eq, Chain.view_eq, htexts]
  have hreplay : w₀.chain.replay env = replayBlocks env (blocks.map w.chain.view) ∅ := by
    rw [Chain.replay, hblocks, hview]
  rw [forall_comm]
  simp only [← exists_imp, exists_replay_err_iff hm, hreplay, Chain.SafeReplay]
  cases replayBlocks env (blocks.map w.chain.view) ∅ with
  | fault x => exact x.elim
  | err e s =>
    have hstopped : (w₀.withState s).chain.core
        = ⟨blocks, s, w.chain.canonicalWork, w.chain.totalWork, w.chain.store, x⟩ := by
      have hwith : (w₀.withState s).chain.core = { w₀.chain.core with state := s } := rfl
      rw [hwith, hcore]
      rfl
    have hsame : w.chain.SameForks (w₀.withState s).chain := hforks
    simp only [forall_eq]
    rw [Chain.untouched_iff hsame hstopped]
    exact ⟨fun h => ⟨h.1, h.2.1, h.2.2.2⟩, fun h => ⟨h.1, h.2.1, rfl, h.2.2⟩⟩
  | ret a s =>
    obtain ⟨hfinal, hsame, htick⟩ := hfinish s
    dsimp only
    generalize finish (w₀.withState s).chain = c at hfinal hsame htick
    have hwritable : c.Writable env ↔ env.storeOk w.chain.tick = true
        ∧ (w.chain.store.rewriteCanonical (blocks.map (viewWith r.2))).isOk = true := by
      have hb : c.blocks = blocks := congrArg Core.blocks hfinal
      have ht : c.totalWork = r.2 := congrArg Core.totalWork hfinal
      have hs : c.store = w.chain.store := congrArg Core.store hfinal
      rw [Chain.Writable, hb, hs, htick, Chain.view_eq, ht]
    have hticked : c.ticked.core = ⟨blocks, s, r.1, r.2, w.chain.store, y⟩ := hfinal
    have hsame' : w.chain.SameForks c.ticked := hsame
    rw [← hwritable, ← Chain.untouched_iff hsame' hticked]
    constructor
    · intro h
      by_cases hw : c.Writable env
      · exact .inl hw
      · exact .inr (h ⟨c.ticked, w₀.steps⟩ ⟨hw, rfl⟩)
    · rintro (hw | hsafe) w' ⟨hnot, rfl⟩
      · exact absurd hw hnot
      · exact hsafe

/-- **A branch that can be switched to without harm.** The state can be replayed along it, and the
chain can be written to the store. Otherwise it is the branch of the chain itself, and what was
written before the failure is what was there: the state up to the block that fails, or the state,
the work and the indexes of the whole chain. -/
def Chain.Adopts (env : Env) (c : Chain) (ancestor : Block) (newBlocks : List Block) : Prop :=
  c.SafeReplay env (c.spliced ancestor newBlocks) c.indexes
    (if c.AtTip ancestor then c.indexes else Indexes.reindexAll env (c.spliced ancestor newBlocks))
    (totalWorkOf (c.spliced ancestor newBlocks) c.totalWork)

section Switch

variable {ancestor newTip : Block} {newBlocks : List Block}

theorem switchBranch_atomic_iff (htip : ¬ w.chain.AtTip ancestor)
    (hindex : 0 ≤ goInt ancestor.height + 1) :
    (∀ e w', switchBranch env ancestor newTip newBlocks w = .err e w' → w.chain.Untouched w'.chain)
      ↔ w.chain.Adopts env ancestor newBlocks := by
  obtain ⟨k, hk⟩ := Int.eq_ofNat_of_zero_le hindex
  unfold switchBranch Chain.Adopts
  rw [hk, Chain.spliced_of_index hk, if_neg htip]
  refine replay_atomic_iff
    ⟨w.chain.splice k newBlocks, .reorganize w.chain ancestor newBlocks :: w.steps⟩
    (exists_stored_err_iff fun _ t => ?_) _ _ _ _ rfl ⟨rfl, rfl⟩ fun s => ⟨rfl, ⟨rfl, rfl⟩, rfl⟩
  refine errs_chain_bind ?_
  split
  · exact errs_crash _ t
  · refine errs_bind_all (noErr_update _ t) fun _ t => ?_
    exact errs_bind_all (aside_cleanOrphanPoolAboveHeight _ t).noErr fun _ t => noErr_update _ t

/-- The indexes after blocks are appended that are none. -/
theorem Chain.indexes_lengthen_of_append_eq {c : Chain} (h : c.blocks ++ newBlocks = c.blocks) :
    (c.lengthen env newBlocks).indexes = c.indexes := by
  obtain rfl : newBlocks = [] := by simpa using h
  rfl

theorem appendBranch_atomic_iff (htip : w.chain.AtTip ancestor) :
    (∀ e w', appendBranch env ancestor newTip newBlocks w = .err e w' → w.chain.Untouched w'.chain)
      ↔ w.chain.Adopts env ancestor newBlocks := by
  have hatomic : (∀ e w', appendBranch env ancestor newTip newBlocks w = .err e w' →
      w.chain.Untouched w'.chain)
        ↔ w.chain.SafeReplay env (w.chain.blocks ++ newBlocks)
          (w.chain.lengthen env newBlocks).indexes
          (w.chain.lengthen env newBlocks).indexes
          (totalWorkOf (w.chain.blocks ++ newBlocks) w.chain.totalWork) :=
    replay_atomic_iff
      ⟨w.chain.lengthen env newBlocks, .reorganize w.chain ancestor newBlocks :: w.steps⟩
      (fun t t' => exists_wrapping_err_iff _ _ _ t t') _ _ _ _ rfl ⟨rfl, rfl⟩ fun s =>
      ⟨rfl, ⟨rfl, rfl⟩, rfl⟩
  rw [hatomic]
  unfold Chain.Adopts Chain.SafeReplay
  rw [(htip.spliced newBlocks).2, if_pos htip]
  -- where the indexes matter, nothing was appended
  cases replayBlocks env ((w.chain.blocks ++ newBlocks).map w.chain.view) ∅ with
  | fault x => exact x.elim
  | err e s =>
    refine and_congr_right fun hblocks => ?_
    rw [Chain.indexes_lengthen_of_append_eq hblocks]
  | ret a s =>
    refine or_congr_right (and_congr_right fun hblocks => ?_)
    rw [Chain.indexes_lengthen_of_append_eq hblocks]

end Switch

theorem RequestsOnly.untouched (h : RequestsOnly w w') : w.chain.Untouched w'.chain := by
  obtain ⟨m, n, rfl⟩ := h
  exact ⟨⟨rfl, rfl, rfl, rfl, rfl⟩, rfl, rfl⟩

section Reorganize

variable {ancestor newTip : Block}

/-- A reorganisation whose walk gets to the height of the ancestor collects what it has visited. -/
theorem Chain.Follows.collects_iff {refuse : Block → Block → Option BranchEnd}
    (hrefuse : ∀ x y, refuse x y ≠ some .reached) {visited : List Block}
    (h : w.chain.Follows refuse ancestor newTip visited) (newBlocks : List Block) :
    w.chain.Collects refuse ancestor.height newTip newBlocks
      ↔ visited.dropLast.reverse = newBlocks := by
  rw [Chain.collects_iff hrefuse, show walk _ _ _ = _ from h]
  simp

theorem extendFromTip_atomic_iff (htip : w.chain.AtTip ancestor) :
    (∀ e w', extendFromTip env ancestor newTip w = .err e w' → w.chain.Untouched w'.chain)
      ↔ ∀ newBlocks, w.chain.Collects (fun _ _ => none) ancestor.height newTip newBlocks →
        w.chain.Adopts env ancestor newBlocks := by
  rcases extendFromTip_cases ancestor newTip w with ⟨visited, hfollows, heq⟩ | ⟨hnone, -, hrequests⟩
  · rw [heq]
    simp only [hfollows.collects_iff refuseNone_ne_reached, forall_eq']
    exact appendBranch_atomic_iff htip
  · refine ⟨fun _ newBlocks h => ?_, fun _ e w' h => (hrequests.errs e w' h).untouched⟩
    obtain ⟨visited, hv, -⟩ := (Chain.collects_iff refuseNone_ne_reached).mp h
    exact absurd hv (hnone visited)

theorem adoptBranch_atomic_iff (htip : ¬ w.chain.AtTip ancestor) :
    (∀ e w', adoptBranch env ancestor newTip w = .err e w' → w.chain.Untouched w'.chain)
      ↔ ∀ newBlocks, 0 ≤ goInt ancestor.height + 1 →
        w.chain.Collects (refuseSeal env) ancestor.height newTip newBlocks →
        w.chain.Adopts env ancestor newBlocks := by
  rcases adoptBranch_cases ancestor newTip w with ⟨visited, hfollows, heq⟩ | ⟨hnone, -, hrequests⟩
  · rw [heq]
    simp only [hfollows.collects_iff refuseSeal_ne_reached]
    by_cases hindex : 0 ≤ goInt ancestor.height + 1
    · simp only [hindex, forall_true_left, forall_eq']
      exact switchBranch_atomic_iff htip hindex
    · refine ⟨fun _ _ h => absurd h hindex, fun _ e w' h => ?_⟩
      obtain ⟨k, hk⟩ := Int.eq_negSucc_of_lt_zero (Int.not_le.mp hindex)
      unfold switchBranch at h
      rw [hk] at h
      cases h
  · refine ⟨fun _ newBlocks _ h => ?_, fun _ e w' h => (hrequests.errs e w' h).untouched⟩
    obtain ⟨visited, hv, -⟩ := (Chain.collects_iff refuseSeal_ne_reached).mp h
    exact absurd hv (hnone visited)

end Reorganize

/-- **When a reorganisation is atomic.** An error leaves the chain as it was exactly if every branch
between the ancestor and the new tip, for an ancestor whose height is that of a canonical block,
can be switched to without harm. -/
theorem reorganizeChainLocked_atomic_iff (env : Env) (w : World) (ancestor newTip : Block) :
    (∀ e w', reorganizeChainLocked env ancestor newTip w = .err e w' → w.chain.Untouched w'.chain)
      ↔ ∀ newBlocks, w.chain.blocks ≠ [] → goInt ancestor.height < w.chain.blocks.length →
        0 ≤ goInt ancestor.height + 1 → w.chain.BranchBetween env ancestor newTip newBlocks →
        w.chain.Adopts env ancestor newBlocks := by
  have hthrow (e' e : GoError) (w' : World) (h : (Prog.throw e' : ChainM Unit) w = .err e w') :
      w.chain.Untouched w'.chain :=
    RequestsOnly.untouched ((steps_throw e' w).errs e w' h)
  unfold reorganizeChainLocked Chain.BranchBetween
  rw [chain_bind_apply]
  cases htip : w.chain.tip? with
  | none =>
    exact ⟨fun _ _ hne => absurd (List.getLast?_eq_none_iff.mp htip) hne, fun _ => hthrow _⟩
  | some tip =>
    have hne : w.chain.blocks ≠ [] := List.ne_nil_of_mem (List.mem_of_getLast? htip)
    dsimp only
    by_cases hhigh : goInt ancestor.height > (w.chain.blocks.length : Int) - 1
    · rw [if_pos hhigh]
      exact ⟨fun _ _ _ hlt => absurd hlt (by omega), fun _ => hthrow _⟩
    · have hlt : goInt ancestor.height < w.chain.blocks.length := by omega
      rw [if_neg hhigh]
      by_cases hat : goInt ancestor.height = (w.chain.blocks.length : Int) - 1
          ∧ ancestor.hash = tip.hash
      · have hatTip : w.chain.AtTip ancestor := ⟨hat.1, tip, htip, hat.2⟩
        rw [if_pos hat, if_pos hatTip, extendFromTip_atomic_iff hatTip]
        exact ⟨fun h newBlocks _ _ _ => h newBlocks,
          fun h newBlocks => h newBlocks hne hlt (hatTip.spliced []).1⟩
      · have hnotTip : ¬ w.chain.AtTip ancestor := by
          rintro ⟨hheight, tip', htip', hhash⟩
          obtain rfl := Option.some.inj (htip.symm.trans htip')
          exact hat ⟨hheight, hhash⟩
        rw [if_neg hat, if_neg hnotTip, adoptBranch_atomic_iff hnotTip]
        exact ⟨fun h newBlocks _ _ => h newBlocks, fun h newBlocks => h newBlocks hne hlt⟩

/-- A light fork block whose coinbase has the wrong amount. -/
def wrongCoinbase : Block :=
  { numberedBlock 2 0 1 5 with transactions := [coinbaseTo (zeroAddress 1) 1] }

/-- **A refused branch stays on the canonical chain.** The replay fails at its block, and the chain
ends with it all the same; the store still has the old chain. -/
theorem refused_branch_stays :
    ∃ w e w', runFromStart sampleEnv [.addBlock (numberedBlock 1 0 1 10), .addBlock wrongCoinbase]
        = some w
      ∧ w.chain.blocks = [createGenesisBlock sampleEnv, numberedBlock 1 0 1 10]
      ∧ reorganizeChainLocked sampleEnv (createGenesisBlock sampleEnv) wrongCoinbase w = .err e w'
      ∧ w'.chain.blocks = [createGenesisBlock sampleEnv, wrongCoinbase]
      ∧ w'.chain.state ≠ w.chain.state
      ∧ w'.chain.store.readCanonical = w.chain.store.readCanonical := by
  simp only [exists_and_left]
  decide +kernel

end NogoChain
