import NogoChain.Chain.Reachable

/-!
# The stock of blocks

Beside the canonical chain, a chain object keeps the blocks it knows in three maps and the
orphans in a pool. A call changes this *stock* in a few places only; between them it computes
states, work and indexes, writes to the store and reads the clock, all of which is
`SameStock`. What a reorganisation and a rollback do to the stock is said here once, down to
the clean-up of the pool.
-/

namespace NogoChain

open Prog

variable {env : Env}

/-- The canonical chain, the maps of blocks, and the pool with its arrays. -/
structure Stock where
  blocks : List Block
  /-- every known block -/
  blocksByHash : GoMap Bytes Block
  forkBlocks : GoMap UInt64 (List Block)
  forkBlocksByHash : GoMap Bytes Block
  orphans : Option Orphans
  arrays : Slice.Heap Bytes

/-- The stock of a chain. -/
def Chain.stock (c : Chain) : Stock :=
  ⟨c.blocks, c.blocksByHash, c.forkBlocks, c.forkBlocksByHash, c.orphans, c.arrays⟩

/-- **The stock stays**, and no step is recorded. -/
structure SameStock (w w' : World) : Prop where
  steps : w'.steps = w.steps
  stock : w'.chain.stock = w.chain.stock

instance : IsPreorder World SameStock where
  refl _ := ⟨rfl, rfl⟩
  trans _ _ _ h h' := ⟨h'.steps.trans h.steps, h'.stock.trans h.stock⟩

variable {w w' : World}

theorem CacheOnly.sameStock (h : CacheOnly w w') : SameStock w w' := by
  obtain ⟨m, n, rfl⟩ := h
  exact ⟨rfl, rfl⟩

theorem Clerical.sameStock (h : Clerical w w') : SameStock w w' := by
  obtain ⟨m, l, es, n, rfl⟩ := h
  exact ⟨rfl, rfl⟩

/-! ## What the parts of a reorganisation can change -/

section Parts

variable {R : World → World → Prop}

/-- The state. -/
theorem steps_recomputeStateLocked (h : ∀ s, R w (w.withState s)) :
    Steps R (recomputeStateLocked env) w := by
  intro w' hw'
  have hreplay := recomputeStateLocked_apply env w
  split at hreplay
  · next s _ =>
    rw [show recomputeStateLocked env w = _ from hreplay] at hw'
    exact Option.some.inj hw' ▸ h s
  · next s _ =>
    obtain ⟨e', he'⟩ := hreplay
    rw [he'] at hw'
    exact Option.some.inj hw' ▸ h s

/-- The store, and the counter. -/
theorem steps_rewriteCanonical (hrefused : R w { w with chain := w.chain.ticked })
    (hwritten : ∀ store, R w { w with chain := w.chain.withStore store }) :
    Steps R (rewriteCanonical env) w := by
  intro w' h
  rw [rewriteCanonical_apply, storeWrite_apply] at h
  split at h
  · exact Option.some.inj h ▸ hrefused
  · exact Option.some.inj h ▸ hwritten _

/-- The orphan pool, and the counter. -/
theorem steps_cleanOrphanPool [IsPreorder World R]
    (h : ∀ (w : World) orphans arrays n, R w { w with chain := { w.chain with
      orphans := orphans, arrays := arrays, tick := n } }) (height : UInt64) (w : World) :
    Steps R (cleanOrphanPoolAboveHeight env height) w := by
  have hdrop : ∀ (es : List ((_ : Bytes) × Block)) (c : Chain),
      Chain.dropDisconnected height es c = { c with
        orphans := (Chain.dropDisconnected height es c).orphans } := by
    intro es
    induction es with
    | nil => exact fun c => rfl
    | cons e es ih =>
      intro c
      unfold Chain.dropDisconnected
      rw [ih]
      split <;> rfl
  refine (errless_cleanOrphanPoolAboveHeight (fun t => h t t.chain.orphans t.chain.arrays _)
    (fun es t => ?_) (fun es t => ?_) w).steps
  · rw [hdrop es t.chain]
    exact h t _ t.chain.arrays t.chain.tick
  · unfold Chain.rebuildOrphanByParentIndexLocked
    cases t.chain.orphans with
    | none => exact refl_of R t
    | some o => exact h t _ _ t.chain.tick

end Parts

theorem sameStock_recomputeStateLocked (w : World) : Steps SameStock (recomputeStateLocked env) w :=
  steps_recomputeStateLocked fun _ => ⟨rfl, rfl⟩

theorem sameStock_rewriteCanonical (w : World) : Steps SameStock (rewriteCanonical env) w :=
  steps_rewriteCanonical ⟨rfl, rfl⟩ fun _ => ⟨rfl, rfl⟩

theorem Chain.isSome_lookup_learn {c : Chain} {bs : List Block} {k : Bytes} :
    ((c.learn bs).blocksByHash.lookup k).isSome
      ↔ k ∈ bs.map (·.hash) ∨ (c.blocksByHash.lookup k).isSome :=
  GoMap.isSome_lookup_foldl_insert _ _ _ _ _

/-! ## The pool -/

/-- **Of the stock, only the pool changes**, and no step is recorded. -/
structure PoolOnly (w w' : World) : Prop where
  steps : w'.steps = w.steps
  stock : w'.chain.stock
    = { w.chain.stock with orphans := w'.chain.orphans, arrays := w'.chain.arrays }

instance : IsPreorder World PoolOnly where
  refl _ := ⟨rfl, rfl⟩
  trans _ _ _ h h' := ⟨h'.steps.trans h.steps, by rw [h'.stock, h.stock]⟩

theorem SameStock.poolOnly (h : SameStock w w') : PoolOnly w w' := by
  refine ⟨h.steps, ?_⟩
  have ho : w'.chain.orphans = w.chain.orphans := congrArg Stock.orphans h.stock
  have ha : w'.chain.arrays = w.chain.arrays := congrArg Stock.arrays h.stock
  rw [h.stock, ho, ha]
  rfl

theorem poolOnly_removeOrphanLocked (w : World) (k : Bytes) :
    PoolOnly w ⟨w.chain.removeOrphanLocked k, w.steps⟩ := by
  obtain ⟨o, a, h⟩ := exists_removeOrphanLocked w.chain k
  rw [h]
  exact ⟨rfl, rfl⟩

theorem poolOnly_putOrphan (env : Env) (w : World) (k : Bytes) (b : Block) (now : Int) :
    PoolOnly w ⟨w.chain.putOrphan env k b now, w.steps⟩ := by
  refine ⟨rfl, ?_⟩
  unfold Chain.putOrphan
  cases w.chain.orphans <;> rfl

theorem poolOnly_makeOrphanPool (w : World) : PoolOnly w ⟨w.chain.makeOrphanPool, w.steps⟩ := by
  refine ⟨rfl, ?_⟩
  unfold Chain.makeOrphanPool
  cases w.chain.orphans <;> rfl

theorem poolOnly_cleanOrphanPoolAboveHeight (height : UInt64) (w : World) :
    Steps PoolOnly (cleanOrphanPoolAboveHeight env height) w :=
  steps_cleanOrphanPool (fun _ _ _ _ => ⟨rfl, rfl⟩) height w

/-! ## Switching to another branch -/

/-- **What the end of a reorganisation does to the stock**: nothing, if the state or the store
refuses the new blocks; otherwise fork blocks above the new tip go, and the pool is cleaned up
for its height. -/
inductive CleansUp (env : Env) (w w' : World) : Prop
  /-- nothing -/
  | stopped (h : SameStock w w')
  /-- fork blocks and pool -/
  | cleaned (tip : Block) (t t' : World) (htip : w.chain.tip? = some tip)
      (ht : SameStock ⟨w.chain.dropForksAbove tip.height, w.steps⟩ t)
      (hclean : (cleanOrphanPoolAboveHeight env tip.height t).state? = some t')
      (hend : SameStock t' w')

theorem SameStock.dropForksAbove (h : SameStock w w') (height : UInt64) :
    SameStock ⟨w.chain.dropForksAbove height, w.steps⟩
      ⟨w'.chain.dropForksAbove height, w'.steps⟩ := by
  have hstock := h.stock
  simp only [Chain.stock, Stock.mk.injEq] at hstock
  obtain ⟨hb, hk, hf, hh, ho, ha⟩ := hstock
  refine ⟨h.steps, ?_⟩
  simp only [Chain.dropForksAbove, Chain.forget, Chain.stock, hb, hk, hf, hh, ho, ha]

theorem SameStock.tip? (h : SameStock w w') : w'.chain.tip? = w.chain.tip? :=
  congrArg (fun s : Stock => s.blocks.getLast?) h.stock

/-- What leaves the stock alone may come first. -/
theorem cleansUp_bind {α β : Type} {m : ChainM α} {f : α → ChainM β}
    (hm : Steps SameStock m w) (hf : ∀ a t, Steps (CleansUp env) (f a) t) :
    Steps (CleansUp env) (m >>= f) w := by
  refine steps_bind_goal (hm.errs.mono fun _ => .stopped) fun a t h => ?_
  have hsame : SameStock w t := hm.of_ret h
  intro w' hw'
  cases hf a t w' hw' with
  | stopped h => exact .stopped (trans_of SameStock hsame h)
  | cleaned tip t1 t2 htip h1 h2 h3 =>
    refine .cleaned tip t1 t2 (hsame.tip? ▸ htip) ?_ h2 h3
    exact trans_of SameStock (hsame.dropForksAbove tip.height) h1

/-- The chain after a reorganisation has put the new blocks above the ancestor. -/
def Chain.switchedTo (c : Chain) (ancestor : Block) (newBlocks : List Block) : Chain :=
  c.splice (goInt ancestor.height + 1).toNat newBlocks

/-- **What a switch does to the stock**: the new blocks stand above the ancestor, and the rest
may be cleaned up. -/
def SwitchedTo (env : Env) (ancestor : Block) (newBlocks : List Block) (w w' : World) : Prop :=
  CleansUp env ⟨w.chain.switchedTo ancestor newBlocks,
    .reorganize w.chain ancestor newBlocks :: w.steps⟩ w'

theorem switchedTo_switchBranch (ancestor newTip : Block) (newBlocks : List Block) (w : World) :
    Steps (SwitchedTo env ancestor newBlocks) (switchBranch env ancestor newTip newBlocks) w := by
  unfold switchBranch
  generalize hk : goInt ancestor.height + 1 = i
  cases i with
  | negSucc k => exact steps_crash _ w
  | ofNat k =>
    intro w' h
    have hsplice : w.chain.switchedTo ancestor newBlocks = w.chain.splice k newBlocks := by
      rw [Chain.switchedTo, hk]
      rfl
    unfold SwitchedTo
    rw [hsplice]
    refine cleansUp_bind (steps_wrapping (sameStock_recomputeStateLocked _)) (fun _ t => ?_) w' h
    refine cleansUp_bind (steps_update ⟨rfl, rfl⟩) fun _ t => ?_
    refine cleansUp_bind (steps_wrapping (sameStock_rewriteCanonical t)) fun _ t => ?_
    refine steps_chain_bind ?_
    split
    · exact steps_crash _ t
    · next tip htip =>
      intro w' h
      obtain ⟨_, t1, h1, h⟩ := state?_bind_of_errs (noErr_update _ t) h
      cases h1
      obtain ⟨_, t2, h2, h⟩ := state?_bind_of_errs (aside_cleanOrphanPoolAboveHeight _ _).noErr h
      cases h
      exact .cleaned tip _ t2 htip (refl_of SameStock _) (by rw [h2, Outcome.state?_ret]) ⟨rfl, rfl⟩

theorem switchedTo_appendBranch {ancestor : Block} (newTip : Block) (newBlocks : List Block)
    (htip : w.chain.AtTip ancestor) :
    Steps (SwitchedTo env ancestor newBlocks) (appendBranch env ancestor newTip newBlocks) w := by
  intro w' h
  have hstock : SameStock ⟨w.chain.switchedTo ancestor newBlocks,
      .reorganize w.chain ancestor newBlocks :: w.steps⟩
      ⟨w.chain.lengthen env newBlocks, .reorganize w.chain ancestor newBlocks :: w.steps⟩ := by
    refine ⟨rfl, ?_⟩
    have hk : goInt ancestor.height + 1 = w.chain.blocks.length := by
      rw [htip.1]
      omega
    rw [Chain.switchedTo, hk, Int.toNat_natCast, Chain.splice, List.take_length]
    rfl
  refine .stopped (trans_of SameStock hstock ?_)
  refine steps_bind_all (steps_wrapping (sameStock_recomputeStateLocked _)) (fun _ t => ?_) w' h
  refine steps_bind_all (steps_update ⟨rfl, rfl⟩) fun _ t => ?_
  exact steps_wrapping (sameStock_rewriteCanonical t)

/-- **A reorganisation leaves the stock alone**, or it switches to the branch of the new
tip. -/
def Reshelves (env : Env) (ancestor newTip : Block) (w w' : World) : Prop :=
  SameStock w w' ∨ ∃ visited, Branch env w.chain ancestor newTip visited
    ∧ SwitchedTo env ancestor visited.dropLast.reverse w w'

theorem reshelves_reorganizeChainLocked (ancestor newTip : Block) (w : World) :
    Steps (Reshelves env ancestor newTip) (reorganizeChainLocked env ancestor newTip) w := by
  intro w' h
  rcases undertakes_reorganizeChainLocked ancestor newTip w w' h with
    hrequests | ⟨visited, hbranch, ⟨htip, happend⟩ | hswitch⟩
  · exact .inl hrequests.clerical.sameStock
  · exact .inr ⟨visited, hbranch, switchedTo_appendBranch newTip _ htip w' happend⟩
  · exact .inr ⟨visited, hbranch, switchedTo_switchBranch ancestor newTip _ w w' hswitch⟩

/-! ## Cutting the chain -/

/-- The chain with its canonical blocks entered in `blocksByHash`. -/
def Chain.relearned (c : Chain) : Chain := c.learn (c.blocks.filter fun b => b.hash ≠ [])

/-- The chain after a rollback has cut it, if no known block is evicted on the way. -/
def Chain.cutTo (env : Env) (c : Chain) (height : UInt64) : Chain :=
  (c.unlinkAbove env height.toNat).relearned.dropForkHeightsAbove height

/-- **What a rollback does to the stock**: blocks leave the chain and the map of known blocks,
the others are entered anew, fork heights go and the pool is cleaned up. -/
structure CutTo (env : Env) (height : UInt64) (w w' t t' : World) : Prop where
  /-- the blocks that stay are entered in `blocksByHash` -/
  index : initCanonicalIndexesLocked env
    ⟨{ w.chain.unlinkAbove env height.toNat with workCache := ∅ },
    .rollback w.chain height :: w.steps⟩ = .ret () t
  /-- the pool is cleaned up -/
  clean : (cleanOrphanPoolAboveHeight env height
    ⟨t.chain.dropForkHeightsAbove height, t.steps⟩).state? = some t'
  /-- the rest of the rollback -/
  finish : SameStock t' w'

theorem exists_cutTo {height : UInt64}
    (h : (cutChain env height w).state? = some w') : ∃ t t', CutTo env height w w' t t' := by
  obtain ⟨_, t0, h0, h⟩ := state?_bind_of_errs (m := record _) nofun h
  cases h0
  obtain ⟨_, t0, h0, h⟩ := state?_bind_of_errs (noErr_update _ _) h
  cases h0
  obtain ⟨_, t, hindex, h⟩ := state?_bind_of_errs (noErr_initCanonicalIndexesLocked _) h
  obtain ⟨_, t2, h2, h⟩ := state?_bind_of_errs (noErr_update _ _) h
  cases h2
  obtain ⟨_, t', hclean, h⟩ := state?_bind_of_errs (aside_cleanOrphanPoolAboveHeight _ _).noErr h
  refine ⟨t, t', hindex, by rw [hclean, Outcome.state?_ret], ?_⟩
  refine steps_bind_all (steps_update ⟨rfl, rfl⟩) (fun _ t => ?_) w' h
  refine steps_bind_all (steps_wrapping (sameStock_recomputeStateLocked t)) fun _ t => ?_
  exact steps_bind_all (steps_attempt (sameStock_rewriteCanonical t)) fun _ t =>
    steps_pure () t

/-- Of the stock, nothing but `blocksByHash` changes. -/
structure KnownOnly (w w' : World) : Prop where
  steps : w'.steps = w.steps
  stock : w'.chain.stock = { w.chain.stock with blocksByHash := w'.chain.blocksByHash }

instance : IsPreorder World KnownOnly where
  refl _ := ⟨rfl, rfl⟩
  trans _ _ _ h h' := ⟨h'.steps.trans h.steps, by rw [h'.stock, h.stock]⟩

theorem knownOnly_initCanonicalIndexesLocked (w : World) :
    Steps KnownOnly (initCanonicalIndexesLocked env) w := by
  refine steps_chain_bind (steps_bind_all ?_ fun _ t => steps_update ⟨rfl, rfl⟩)
  refine steps_forEach (fun b _ t => ?_) w
  unfold addToIndexLocked
  split
  · exact steps_pure () t
  · refine steps_bind_all (steps_update ⟨rfl, rfl⟩) fun _ t => steps_chain_bind ?_
    split
    · exact steps_pure () t
    · have hask : Steps KnownOnly (ranged env t.chain.blocksByHash.entries) t :=
        steps_of_ret (t := { t with chain := t.chain.ticked }) rfl ⟨rfl, rfl⟩
      exact steps_bind_all hask fun _ t => steps_update ⟨rfl, rfl⟩

/-- If all known blocks fit, entering the canonical ones evicts none. -/
theorem forEach_addToIndexLocked :
    ∀ (bs : List Block) (w : World),
      (w.chain.learn (bs.filter fun b => b.hash ≠ [])).blocksByHash.entries.length
        ≤ maxBlocksByHashSize →
      Prog.forEach bs (addToIndexLocked env) w
        = .ret () ⟨w.chain.learn (bs.filter fun b => b.hash ≠ []), w.steps⟩
  | [], _, _ => rfl
  | b :: bs, w, hfit => by
    by_cases hhash : b.hash = []
    · have hskip : addToIndexLocked env b w = .ret () w := by
        rw [addToIndexLocked, if_pos hhash]
        rfl
      have hfilter : (b :: bs).filter (fun b => b.hash ≠ []) = bs.filter fun b => b.hash ≠ [] := by
        simp [hhash]
      rw [hfilter] at hfit ⊢
      rw [Prog.forEach, bind_apply, hskip]
      exact forEach_addToIndexLocked bs w hfit
    · have hfilter : (b :: bs).filter (fun b => b.hash ≠ [])
          = b :: bs.filter fun b => b.hash ≠ [] := by
        simp [hhash]
      rw [hfilter] at hfit ⊢
      have hsmall : (w.chain.learn [b]).blocksByHash.entries.length ≤ maxBlocksByHashSize :=
        (GoMap.length_le_foldl_insert _ _ _ _).trans hfit
      have henter : addToIndexLocked env b w = .ret () ⟨w.chain.learn [b], w.steps⟩ := by
        rw [addToIndexLocked, if_neg hhash]
        exact enforceBlocksByHashSize_apply hsmall
      rw [Prog.forEach, bind_apply, henter]
      exact forEach_addToIndexLocked bs ⟨w.chain.learn [b], w.steps⟩ hfit

theorem initCanonicalIndexesLocked_stock {t : World}
    (h : initCanonicalIndexesLocked env w = .ret () t)
    (hfit : w.chain.relearned.blocksByHash.entries.length ≤ maxBlocksByHashSize) :
    t.chain.stock = w.chain.relearned.stock := by
  unfold initCanonicalIndexesLocked at h
  rw [chain_bind_apply, bind_apply, forEach_addToIndexLocked _ w hfit] at h
  cases h
  rfl

theorem CutTo.stock {height : UInt64} {t t' : World} (h : CutTo env height w w' t t')
    (hfit : (w.chain.unlinkAbove env height.toNat).relearned.blocksByHash.entries.length
      ≤ maxBlocksByHashSize) :
    (t.chain.dropForkHeightsAbove height).stock = (w.chain.cutTo env height).stock := by
  have hstock := initCanonicalIndexesLocked_stock h.index hfit
  simp only [Chain.stock, Stock.mk.injEq] at hstock
  obtain ⟨hb, hk, hf, hh, ho, ha⟩ := hstock
  simp only [Chain.cutTo, Chain.dropForkHeightsAbove, Chain.stock, hb, hk, hf, hh, ho, ha]
  rfl

/-! ## Operations

The calls of a run, and what the node does on its own every few minutes. -/

/-- A call, or the removal of expired orphans by the clean-up loop. -/
inductive Operation where
  | call (call : Call)
  /-- a tick of the clean-up loop -/
  | cleanup

/-- The program of an operation. -/
def Operation.exec (env : Env) : Operation → ChainM Unit
  | .call c => c.exec env
  | .cleanup => cleanupExpiredOrphansLocked env

/-- The state after a sequence of operations, unless one of them faults. -/
def runOperations (env : Env) : List Operation → World → Option World
  | [], w => some w
  | op :: ops, w => (op.exec env w).state?.bind (runOperations env ops)

/-- The state after a start on an empty store and a sequence of operations. -/
def operateFromStart (env : Env) (ops : List Operation) : Option World :=
  match start env BoltStore.empty 0 with
  | .ret () w => runOperations env ops w
  | _ => none

/-- A relation that every operation goes through relates the states before and after a run. -/
theorem runOperations_rel {R : World → World → Prop} [IsPreorder World R] {ops : List Operation} :
    ∀ {w w' : World}, (∀ op ∈ ops, ∀ t, Steps R (op.exec env) t) →
      runOperations env ops w = some w' → R w w' := by
  induction ops with
  | nil =>
    intro w w' _ h
    exact Option.some.inj h ▸ refl_of R w
  | cons op ops ih =>
    intro w w' hR h
    obtain ⟨t, ht, h⟩ := Option.bind_eq_some_iff.mp h
    have hrest := ih (fun x hx => hR x (List.mem_cons_of_mem op hx)) h
    exact trans_of R (hR op List.mem_cons_self w t ht) hrest

/-- The same for a run from the start. -/
theorem exists_fresh_rel {R : World → World → Prop} [IsPreorder World R] {ops : List Operation}
    (hR : ∀ op ∈ ops, ∀ t, Steps R (op.exec env) t)
    (h : operateFromStart env ops = some w) : ∃ w₀, Fresh env w₀ ∧ R w₀ w := by
  unfold operateFromStart at h
  split at h
  · next w₀ hw₀ => exact ⟨w₀, fresh_of_start hw₀, runOperations_rel hR h⟩
  · cases h

end NogoChain
