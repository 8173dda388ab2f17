import NogoChain.Chain.Linked
import NogoChain.Chain.OrphanIndex

/-!
# The orphan pool over whole runs

The pool is kept in three maps: the blocks, the times at which they came, and the index of the
hashes by parent. Insertion, expiry, eviction, reconnection and removal change all three. The
clean-up after a reorganisation or a rollback does not: it drops blocks, builds the index anew,
and leaves the times of the dropped blocks where they are. A time without a block is never
removed again, and it is what a full pool then evicts in place of a block.

So the index is right in every state that is reached (`orphansIndexed_of_run`), and the times
are those of the blocks, with the pool within its limit, along every run in which no clean-up
drops a block (`orphanPool_consistent`).
-/

namespace NogoChain

open Prog

variable {env : Env}

/-! ## The invariant -/

/-- What is kept beside the index: the times are those of the blocks, and the pool is within its
limit. -/
structure Orphans.Timed (o : Orphans) : Prop where
  /-- every block has a time, and every time a block -/
  times : ∀ k, (o.timestamps.lookup k).isSome ↔ (o.pool.lookup k).isSome
  size : o.pool.entries.length ≤ maxOrphanPoolSize

/-- **The three maps agree**: blocks and times have the same keys, each hash is listed once,
under the parent of its block, and the pool is within its limit. -/
structure Orphans.Consistent (arrays : Slice.Heap Bytes) (o : Orphans) : Prop
    extends Orphans.Timed o, Orphans.Listed arrays o

variable {c c' : Chain} {k : Bytes} {height : UInt64}

namespace Chain

/-- The pool of a chain is consistent; a nil pool is. -/
def OrphansConsistent (c : Chain) : Prop := ∀ o, c.orphans = some o → o.Consistent c.arrays

/-- The same for times and size. -/
def OrphansTimed (c : Chain) : Prop := ∀ o, c.orphans = some o → o.Timed

theorem OrphansTimed.congr (h : c.OrphansTimed) (ho : c'.orphans = c.orphans) : c'.OrphansTimed :=
  fun o hc => h o (ho ▸ hc)

theorem OrphansTimed.removeOrphanLocked (h : c.OrphansTimed) (k : Bytes) :
    (c.removeOrphanLocked k).OrphansTimed := by
  unfold Chain.removeOrphanLocked
  cases ho : c.orphans with
  | none => exact h
  | some o =>
    dsimp only
    cases hb : o.pool.lookup k with
    | none => exact h
    | some b =>
      have hs := h o ho
      have htimed : ∀ byParent, Orphans.Timed
          { pool := o.pool.erase k, timestamps := o.timestamps.erase k, byParent := byParent } := by
        refine fun byParent => ⟨fun k' => ?_, ?_⟩
        · rw [GoMap.lookup_erase, GoMap.lookup_erase]
          split
          · rfl
          · exact hs.times k'
        · exact (Nat.le_of_lt (GoMap.length_erase_of_lookup hb)).trans hs.size
      -- the index is edited, or is left as it is
      intro o' ho'
      unfold Chain.removeOrphanIndexLocked at ho'
      dsimp only at ho'
      split at ho'
      · exact Option.some.inj ho' ▸ htimed _
      · split at ho' <;> exact Option.some.inj ho' ▸ htimed _

theorem OrphansTimed.putOrphan (h : c.OrphansTimed) (hnone : c.orphan? k = none)
    (hroom : ∀ o, c.orphans = some o → o.pool.entries.length < maxOrphanPoolSize) (b : Block)
    (now : Int) : (c.putOrphan env k b now).OrphansTimed := by
  cases ho : c.orphans with
  | none => rwa [Chain.putOrphan_of_none env ho]
  | some o =>
    unfold Chain.putOrphan
    rw [ho]
    rw [Chain.orphan?_eq ho] at hnone
    intro o' ho'
    cases ho'
    refine ⟨fun k' => ?_, ?_⟩
    · rw [GoMap.lookup_insert, GoMap.lookup_insert]
      split
      · exact iff_of_true rfl rfl
      · exact (h o ho).times k'
    · rw [GoMap.length_insert_of_lookup_none hnone]
      exact hroom o ho

theorem OrphansTimed.makeOrphanPool (h : c.OrphansTimed) : c.makeOrphanPool.OrphansTimed := by
  unfold Chain.makeOrphanPool
  cases ho : c.orphans with
  | some o => exact h
  | none =>
    intro o' ho'
    cases ho'
    exact ⟨fun _ => .rfl, Nat.zero_le _⟩

end Chain

/-! ## Cleaning up -/

/-- Whether the clean-up at a height retains every orphan of the pool. -/
def Chain.RetainsOrphans (c : Chain) (height : UInt64) : Prop :=
  ∀ k b, c.orphan? k = some b → c.retainsOrphan height b = true

theorem dropDisconnected_of_retains :
    ∀ {es : List ((_ : Bytes) × Block)}, (∀ e ∈ es, c.retainsOrphan height e.2 = true) →
      Chain.dropDisconnected height es c = c
  | [], _ => rfl
  | e :: es, h => by
    unfold Chain.dropDisconnected
    rw [if_pos (h e List.mem_cons_self)]
    exact dropDisconnected_of_retains fun x hx => h x (List.mem_cons_of_mem e hx)

variable {w w' : World} {b : Block}

/-- **A clean-up that retains every orphan leaves the pool alone.** -/
theorem cleanOrphanPoolAboveHeight_of_retains (hretains : w.chain.RetainsOrphans height)
    (h : (cleanOrphanPoolAboveHeight env height w).state? = some w') :
    w'.chain.orphans = w.chain.orphans := by
  unfold cleanOrphanPoolAboveHeight at h
  rw [chain_bind_apply] at h
  cases ho : w.chain.orphans with
  | none =>
    rw [ho] at h
    obtain rfl := Option.some.inj h
    exact ho
  | some o =>
    rw [ho] at h
    dsimp only at h
    split at h
    · obtain rfl := Option.some.inj h
      exact ho
    · obtain ⟨entries, t, ht, h⟩ := state?_bind_of_errs (noErr_ask _ w) h
      have hperm := ranged_perm ht
      obtain ⟨-, rfl⟩ := Outcome.ret.inj ht
      obtain ⟨_, t, ht, h⟩ := state?_bind_of_errs (noErr_update _ _) h
      obtain ⟨-, rfl⟩ := Outcome.ret.inj ht
      have hsame : Chain.dropDisconnected height entries w.chain.ticked = w.chain.ticked := by
        refine dropDisconnected_of_retains fun e he => hretains e.1 e.2 ?_
        rw [Chain.orphan?_eq ho]
        exact GoMap.mem_entries_iff.mp (hperm.mem_iff.mp he)
      rw [chain_bind_apply] at h
      dsimp only at h
      rw [show Chain.dropDisconnected height entries { w.chain with tick := w.chain.tick + 1 }
        = w.chain.ticked from hsame] at h
      rw [show w.chain.ticked.orphans = some o from ho] at h
      dsimp only at h
      rw [if_pos rfl] at h
      obtain rfl := Option.some.inj h
      exact ho

/-- **A step whose clean-up drops no orphan**: the chain as it stands when the pool is cleaned
up retains all of them. For a rollback, this is the chain that is cut and whose blocks are
entered anew, which must fit into the map of known blocks. -/
def CoreStep.KeepsOrphans (env : Env) : CoreStep → Prop
  | .extend _ _ => True
  | .reorganize before ancestor newBlocks =>
    let switched := before.switchedTo ancestor newBlocks
    ∀ tip, switched.tip? = some tip → (switched.dropForksAbove tip.height).RetainsOrphans tip.height
  | .rollback before height =>
    (before.unlinkAbove env height.toNat).relearned.blocksByHash.entries.length
        ≤ maxBlocksByHashSize
      ∧ (before.cutTo env height).RetainsOrphans height

instance (c : Chain) (height : UInt64) : Decidable (c.RetainsOrphans height) :=
  decidable_of_iff (∀ o ∈ c.orphans, ∀ e ∈ o.pool.entries, c.retainsOrphan height e.2 = true) <| by
    constructor
    · intro h k b hb
      obtain ⟨o, ho, hb⟩ := Option.bind_eq_some_iff.mp hb
      exact h o ho ⟨k, b⟩ (GoMap.mem_entries_iff.mpr hb)
    · intro h o ho e he
      exact h e.1 e.2 (by rw [Chain.orphan?_eq ho]; exact GoMap.mem_entries_iff.mp he)

instance (env : Env) : DecidablePred (CoreStep.KeepsOrphans env)
  | .extend _ _ => .isTrue trivial
  | .reorganize before ancestor newBlocks => inferInstanceAs
      (Decidable (∀ tip ∈ (before.switchedTo ancestor newBlocks).tip?, Chain.RetainsOrphans _ _))
  | .rollback _ _ => inferInstanceAs (Decidable (_ ∧ Chain.RetainsOrphans _ _))

/-! ## What a call does to the pool -/

/-- **The times stay those of the blocks** if the steps that are taken keep the blocks. -/
def KeepsPool (env : Env) (w w' : World) : Prop :=
  ∃ l, w'.steps = l ++ w.steps
    ∧ ((∀ s ∈ l, s.KeepsOrphans env) → w.chain.OrphansTimed → w'.chain.OrphansTimed)

/-- What `AddBlock` does to a pool that is keyed by hashes. -/
def Admitted (env : Env) (w w' : World) : Prop :=
  w.chain.OrphansKeyed → w'.chain.OrphansKeyed ∧ (w.chain.OrphansIndexed → w'.chain.OrphansIndexed)
    ∧ KeepsPool env w w'

/-- What reconnection does to it. -/
def Reconnected (env : Env) (w w' : World) : Prop :=
  w.chain.OrphansKeyed → Fades w w' ∧ KeepsPool env w w'

theorem KeepsPool.refl (w : World) : KeepsPool env w w := ⟨[], rfl, fun _ h => h⟩

theorem KeepsPool.trans {w'' : World} (h : KeepsPool env w w') (h' : KeepsPool env w' w'') :
    KeepsPool env w w'' := by
  obtain ⟨l, hl, hs⟩ := h
  obtain ⟨l', hl', hs'⟩ := h'
  refine ⟨l' ++ l, by rw [hl', hl, List.append_assoc], fun hsteps hw => ?_⟩
  exact hs' (fun s h => hsteps s (List.mem_append_left l h))
    (hs (fun s h => hsteps s (List.mem_append_right l' h)) hw)

instance : IsPreorder World (Admitted env) where
  refl w h := ⟨h, id, .refl w⟩
  trans _ _ _ h h' hkeyed := by
    obtain ⟨h1, h2, h3⟩ := h hkeyed
    obtain ⟨h1', h2', h3'⟩ := h' h1
    exact ⟨h1', fun hi => h2' (h2 hi), h3.trans h3'⟩

instance : IsPreorder World (Reconnected env) where
  refl w _ := ⟨refl_of Fades w, .refl w⟩
  trans _ _ _ h h' hkeyed := by
    obtain ⟨h1, h2⟩ := h hkeyed
    obtain ⟨h1', h2'⟩ := h' (h1.keyed hkeyed)
    exact ⟨trans_of Fades h1 h1', h2.trans h2'⟩

theorem Reconnected.admitted (h : Reconnected env w w') : Admitted env w w' :=
  fun hkeyed => ⟨(h hkeyed).1.keyed hkeyed, (h hkeyed).1.indexed, (h hkeyed).2⟩

/-- Whatever leaves the pool alone. -/
theorem Reconnected.of_pool {l : List CoreStep} (hl : w'.steps = l ++ w.steps)
    (ho : w'.chain.orphans = w.chain.orphans) (ha : w'.chain.arrays = w.chain.arrays) :
    Reconnected env w w' :=
  fun _ => ⟨.of_pool ho ha, l, hl, fun _ h => h.congr ho⟩

theorem SameStock.reconnected (h : SameStock w w') : Reconnected env w w' :=
  .of_pool (l := []) h.steps (congrArg Stock.orphans h.stock) (congrArg Stock.arrays h.stock)

/-- A clean-up, on a pool that some step has on record. -/
theorem reconnected_clean {t t' : World} {step : CoreStep}
    (hsteps : t.steps = step :: w.steps) (ho : t.chain.orphans = w.chain.orphans)
    (ha : t.chain.arrays = w.chain.arrays)
    (hretains : step.KeepsOrphans env → t.chain.RetainsOrphans height)
    (hclean : (cleanOrphanPoolAboveHeight env height t).state? = some t')
    (hend : SameStock t' w') : Reconnected env w w' := by
  have hfades : Fades w w' := trans_of Fades (.of_pool ho ha)
    (trans_of Fades (fades_cleanOrphanPoolAboveHeight height t t' hclean) hend.fades)
  refine fun _ => ⟨hfades, [step], ?_, fun hkeeps hw => ?_⟩
  · rw [hend.steps, ((aside_cleanOrphanPoolAboveHeight height t).steps t' hclean).steps, hsteps]
    rfl
  · have ho' := cleanOrphanPoolAboveHeight_of_retains
      (hretains (hkeeps step (List.mem_singleton.mpr rfl))) hclean
    exact hw.congr ((congrArg Stock.orphans hend.stock).trans (ho'.trans ho))

theorem Chain.RetainsOrphans.congr (h : c.RetainsOrphans height)
    (hstock : c'.stock = c.stock) : c'.RetainsOrphans height := by
  simp only [Chain.stock, Stock.mk.injEq] at hstock
  obtain ⟨hb, hk, hf, hh, ho, ha⟩ := hstock
  intro k b hkb
  rw [Chain.orphan?_congr ho] at hkb
  have hretains := h k b hkb
  simp only [Chain.retainsOrphan, Chain.isParentInCanonicalOrForkLocked,
    Chain.couldBePartOfValidChainLocked, Chain.orphanChildren?, Chain.orphan?, hb, hk, hf, ho, ha]
    at hretains ⊢
  exact hretains

/-- **A reorganisation.** -/
theorem reconnected_reorganizeChainLocked (ancestor newTip : Block) (w : World) :
    Steps (Reconnected env) (reorganizeChainLocked env ancestor newTip) w := by
  intro w' h
  rcases reshelves_reorganizeChainLocked ancestor newTip w w' h with hsame | ⟨visited, -, hswitch⟩
  · exact hsame.reconnected
  · cases hswitch with
    | stopped hsame =>
      exact .of_pool (l := [_]) hsame.steps (congrArg Stock.orphans hsame.stock)
        (congrArg Stock.arrays hsame.stock)
    | cleaned tip t t' htip ht hclean hend =>
      exact reconnected_clean ht.steps (congrArg Stock.orphans ht.stock)
        (congrArg Stock.arrays ht.stock) (fun hkeeps => (hkeeps tip htip).congr ht.stock)
        hclean hend

/-- **A rollback.** -/
theorem reconnected_rollbackToHeight (height : UInt64) (w : World) :
    Steps (Reconnected env) (rollbackToHeight env height) w := by
  refine steps_chain_bind ?_
  split
  · exact steps_throw _ w
  · split
    · exact steps_pure () w
    · intro w' h
      obtain ⟨t, t', hcut⟩ := exists_cutTo h
      have hindex := (knownOnly_initCanonicalIndexesLocked _).of_ret hcut.index
      refine reconnected_clean (t := ⟨t.chain.dropForkHeightsAbove height, t.steps⟩) hindex.steps
        (congrArg Stock.orphans hindex.stock) (congrArg Stock.arrays hindex.stock)
        (fun hkeeps => ?_) hcut.clean hcut.finish
      exact hkeeps.2.congr (hcut.stock hkeeps.1)

/-- Entering a fork block leaves the pool alone. -/
theorem Chain.pool_enterFork (c : Chain) (b : Block) :
    let c' := ((c.insertFork b).limitForksAt b.height).limitForksTotal
    c'.orphans = c.orphans ∧ c'.arrays = c.arrays := by
  have hdrop : ∀ (hs : List UInt64) (total : Nat) (c : Chain),
      (dropLowestForks hs total c).orphans = c.orphans
        ∧ (dropLowestForks hs total c).arrays = c.arrays := by
    intro hs
    induction hs with
    | nil => exact fun _ _ => ⟨rfl, rfl⟩
    | cons h hs ih =>
      intro total c
      unfold dropLowestForks
      split
      · exact ⟨rfl, rfl⟩
      · exact ih _ _
  have hat : ((c.insertFork b).limitForksAt b.height).orphans = c.orphans
      ∧ ((c.insertFork b).limitForksAt b.height).arrays = c.arrays := by
    unfold limitForksAt
    dsimp only
    split <;> exact ⟨rfl, rfl⟩
  rw [← hat.1, ← hat.2]
  unfold limitForksTotal
  dsimp only
  split
  · exact hdrop _ _ _
  · exact ⟨rfl, rfl⟩

theorem reconnected_appendToTip (b : Block) (w : World) :
    Steps (Reconnected env) (appendToTip env b) w := by
  intro w' h
  rw [appendToTip_apply] at h
  split at h
  · cases h
    exact .of_pool (l := [_]) rfl rfl rfl
  · split at h <;> obtain rfl := Option.some.inj h <;> exact .of_pool (l := [_]) rfl rfl rfl

theorem reconnected_of_cacheOnly {α : Type} {m : ChainM α}
    (h : Errless CacheOnly m w) : Steps (Reconnected env) m w :=
  steps_mono h.steps fun _ h => h.sameStock.reconnected

theorem reorgs_reconnected : Reorgs env (Reconnected env) (fun _ => True) (fun _ _ => True) where
  assume h := h trivial
  better w := reconnected_of_cacheOnly (errless_betterTip w)
  best _ _ := trivial
  weigh _ := reconnected_of_cacheOnly (errless_calculateCumulativeWorkLocked _ _)
  keep _ _ := trivial
  reorganize _ _ := reconnected_reorganizeChainLocked _ _ _

theorem reconnected_removeOrphanLocked (w : World) (k : Bytes) :
    Reconnected env w ⟨w.chain.removeOrphanLocked k, w.steps⟩ :=
  fun _ => ⟨fades_removeOrphanLocked w k, [], rfl, fun _ h => h.removeOrphanLocked k⟩

/-- Once an orphan has left the pool and none has come, there is room. -/
theorem length_pool_lt {o o' : Orphans}
    (ho : c.orphans = some o) (ho' : c'.orphans = some o') (hk : c.orphan? k = some b)
    (hnew : ∀ k', (c.removeOrphanLocked k).orphan? k' = none → c'.orphan? k' = none) :
    o'.pool.entries.length < o.pool.entries.length := by
  rw [Chain.orphan?_eq ho] at hk
  refine Nat.lt_of_le_of_lt (GoMap.length_le_of_lookup fun k' hk' => ?_)
    (GoMap.length_erase_of_lookup hk)
  have hthere := mt (hnew k') (by rw [Chain.orphan?_eq ho']; exact Option.isSome_iff_ne_none.mp hk')
  rw [Chain.orphan?_removeOrphanLocked, Chain.orphan?_eq ho, ← GoMap.lookup_erase] at hthere
  exact Option.isSome_iff_ne_none.mpr hthere

/-- **An orphan that is refused comes back** to a pool that has room for it and has it no
longer. -/
theorem reconnected_putBack {t : World} (now : Int) (hk : w.chain.orphan? k = some b)
    (h : Reconnected env ⟨w.chain.removeOrphanLocked k, w.steps⟩ t) :
    Reconnected env w ⟨t.chain.putOrphan env k b now, t.steps⟩ := by
  intro hkeyed
  obtain ⟨hfades, l, hl, htimed⟩ := h ((fades_removeOrphanLocked w k).keyed hkeyed)
  have hgone : t.chain.orphan? k = none := hfades.none (by
    rw [Chain.orphan?_removeOrphanLocked, if_pos rfl])
  refine ⟨hfades.putBack now hk, l, hl, fun hsteps hw => ?_⟩
  refine (htimed hsteps (hw.removeOrphanLocked k)).putOrphan hgone (fun o ho => ?_) b now
  obtain ⟨ow, how, -⟩ := Option.bind_eq_some_iff.mp hk
  exact Nat.lt_of_lt_of_le (length_pool_lt how ho hk fun _ => hfades.none) (hw ow how).size

theorem threads_reconnected : Threads env (fun b => b.hash ≠ []) (Reconnected env) where
  orphan ho h w' hw' hkeyed := h (hkeyed _ _ ho).2 (hkeyed _ _ ho).1 w' hw' hkeyed
  clerical h := h.sameStock.reconnected
  remove := reconnected_removeOrphanLocked
  putBack now hk _ _ h := reconnected_putBack now hk h
  learn _ _ := .of_pool (l := []) rfl rfl rfl
  enterFork w _ _ := .of_pool (l := []) rfl (w.chain.pool_enterFork _).1
    (w.chain.pool_enterFork _).2
  append _ _ := reconnected_appendToTip _ _
  compare w := reconnected_of_cacheOnly (errless_shouldReorgToHeaviestLocked w)
  heaviest := reorgs_reconnected.reorganizeToHeaviestLocked
  auto := reorgs_reconnected.autoReorgIfNeededLocked

/-! ## A new orphan -/

theorem oldestOrphan_mem {es : List ((_ : Bytes) × Int)} {e : (_ : Bytes) × Int}
    (h : Chain.oldestOrphan es = some e) : e ∈ es := by
  have hfold : ∀ (l : List ((_ : Bytes) × Int)) (x : (_ : Bytes) × Int),
      l.foldl (fun oldest e => if e.2 < oldest.2 then e else oldest) x ∈ x :: l := by
    intro l
    induction l with
    | nil => exact fun x => List.mem_cons_self
    | cons y l ih =>
      intro x
      rw [List.foldl_cons]
      rcases List.mem_cons.mp (ih (if y.2 < x.2 then y else x)) with heq | hmem
      · rw [heq]
        split
        · exact List.mem_cons_of_mem x List.mem_cons_self
        · exact List.mem_cons_self
      · exact List.mem_cons_of_mem x (List.mem_cons_of_mem y hmem)
  cases es with
  | nil => cases h
  | cons x l => exact Option.some.inj h ▸ hfold l x

/-- **A full pool has a block to evict**: the oldest time is that of a block. -/
theorem evictOldestOrphan_room (htimed : w.chain.OrphansTimed)
    (hkeyed : w.chain.OrphansKeyed) (h : (evictOldestOrphan env w).state? = some w') :
    ∀ o, w'.chain.orphans = some o → o.pool.entries.length < maxOrphanPoolSize := by
  intro o' ho'
  unfold evictOldestOrphan at h
  rw [chain_bind_apply] at h
  cases ho : w.chain.orphans with
  | none =>
    rw [ho] at h
    obtain rfl := Option.some.inj h
    exact nomatch ho.symm.trans ho'
  | some o =>
    rw [ho] at h
    dsimp only at h
    split at h
    · next hlt =>
      obtain rfl := Option.some.inj h
      obtain rfl := Option.some.inj (ho.symm.trans ho')
      exact hlt
    · next hfull =>
      have hs := htimed o ho
      obtain ⟨entries, t, ht, h⟩ := state?_bind_of_errs (noErr_ask _ w) h
      have hperm := ranged_perm ht
      obtain ⟨-, rfl⟩ := Outcome.ret.inj ht
      cases hold : Chain.oldestOrphan entries with
      | none =>
        have hnil : o.timestamps.entries = [] := by
          cases hentries : entries with
          | nil => exact List.Perm.nil_eq (hentries ▸ hperm) ▸ rfl
          | cons x l =>
            rw [hentries] at hold
            cases hold
        have hle : o.pool.entries.length ≤ o.timestamps.entries.length :=
          GoMap.length_le_of_lookup fun k hk => (hs.times k).mpr hk
        rw [hnil] at hle
        exact absurd (Nat.lt_of_le_of_lt hle (by decide : 0 < maxOrphanPoolSize)) hfull
      | some e =>
        rw [hold] at h
        dsimp only at h
        have hlookup : o.timestamps.lookup e.1 = some e.2 :=
          GoMap.mem_entries_iff.mp (hperm.mem_iff.mp (oldestOrphan_mem hold))
        obtain ⟨b, hb⟩ := Option.isSome_iff_exists.mp
          ((hs.times e.1).mp (Option.isSome_of_eq_some hlookup))
        have horphan : w.chain.orphan? e.1 = some b := by rw [Chain.orphan?_eq ho, hb]
        have hne : e.1 ≠ [] := fun hnil =>
          (hkeyed e.1 b horphan).2 ((hkeyed e.1 b horphan).1.trans hnil)
        rw [if_neg hne] at h
        obtain ⟨_, t, ht, h⟩ := state?_bind_of_errs (noErr_update _ _) h
        obtain ⟨-, rfl⟩ := Outcome.ret.inj ht
        obtain ⟨_, hret⟩ := exists_ret_of_errs (noErr_hexPrefix16 _ _ _) h
        obtain rfl := hexPrefix16_ret hret
        have hlt := length_pool_lt (c := w.chain.ticked) ho ho' horphan fun k' hk' => hk'
        exact Nat.lt_of_lt_of_le hlt hs.size

/-- **A new orphan is stored** in a pool that has room for it. -/
theorem admitted_storeOrphan (hb : b.hash ≠ []) (hnone : w.chain.orphan? b.hash = none) :
    Steps (Admitted env) (storeOrphan env b) w := by
  intro w' h hkeyed
  obtain ⟨_, t, ht, h⟩ := state?_bind_of_errs (noErr_update _ _) h
  obtain ⟨-, rfl⟩ := Outcome.ret.inj ht
  have hmade : Reconnected env w ⟨w.chain.makeOrphanPool, w.steps⟩ := fun _ =>
    ⟨fades_makeOrphanPool w, [], rfl, fun _ h => h.makeOrphanPool⟩
  have hdiscards : Discards (Reconnected env) := threads_reconnected.discards
  obtain ⟨_, t1, h1, h⟩ :=
    state?_bind_of_errs (errless_cleanupExpiredOrphansLocked hdiscards _).noErr h
  have hexpired := trans_of (Reconnected env) hmade
    ((errless_cleanupExpiredOrphansLocked hdiscards _).steps.of_ret h1)
  obtain ⟨_, t2, h2, h⟩ := state?_bind_of_errs (errless_evictOldestOrphan hdiscards _).noErr h
  have h2' : (evictOldestOrphan env t1).state? = some t2 := by rw [h2, Outcome.state?_ret]
  have hevicted := trans_of (Reconnected env) hexpired
    ((errless_evictOldestOrphan hdiscards t1).steps t2 h2')
  obtain ⟨now, t3, h3, h⟩ := state?_bind_of_errs (noErr_ask _ _) h
  obtain ⟨-, rfl⟩ := Outcome.ret.inj h3
  obtain rfl := Option.some.inj h
  obtain ⟨hfades1, l1, hl1, htimed1⟩ := hexpired hkeyed
  obtain ⟨hfades2, l2, hl2, htimed2⟩ := hevicted hkeyed
  have hsame : l1 = l2 := by
    have hsteps : t2.steps = t1.steps :=
      ((errless_evictOldestOrphan discards_aside t1).steps t2 h2').steps
    exact List.append_cancel_right (hl1.symm.trans (hsteps.symm.trans hl2))
  subst hsame
  have hgone : t2.chain.ticked.orphan? b.hash = none := hfades2.none hnone
  refine ⟨fun k b' hb' => ?_, fun hi => ?_, l1, hl2, fun hsteps hw => ?_⟩
  · cases hot : t2.chain.orphans with
    | none =>
      have hput := Chain.putOrphan_of_none env (c := t2.chain.ticked) hot b.hash b now
      exact hfades2.keyed hkeyed k b' (by rw [← hb']; exact (congrArg (·.orphan? k) hput).symm)
    | some ot =>
      have hput := Chain.orphan?_putOrphan env (c := t2.chain.ticked) hot b.hash b now k
      have hb'' := hput.symm.trans hb'
      split at hb''
      · next hk =>
        obtain rfl := Option.some.inj hb''
        exact ⟨hk.symm, hb⟩
      · exact hfades2.keyed hkeyed k b' hb''
  · exact Chain.OrphansIndexed.putOrphan (c := t2.chain.ticked) (hfades2.indexed hi) hgone b now
  · have hroom := evictOldestOrphan_room (htimed1 hsteps hw) (hfades1.keyed hkeyed) h2'
    exact Chain.OrphansTimed.putOrphan (c := t2.chain.ticked) (htimed2 hsteps hw) hgone hroom b now

theorem admits_admitted : Admits env (fun b => b.hash ≠ []) (Reconnected env) (Admitted env) where
  toThreads := threads_reconnected
  weaken h := h.admitted
  store := admitted_storeOrphan

/-! ## Runs -/

theorem admitted_exec (op : Operation) (w : World) : Steps (Admitted env) (op.exec env) w := by
  cases op with
  | cleanup =>
    exact admits_admitted.of_steps
      (errless_cleanupExpiredOrphansLocked threads_reconnected.discards w).steps
  | call c =>
    cases c with
    | addBlock b =>
      exact steps_bind_all (admits_addBlock admits_admitted
        (fun hvalid => (of_validateBlockConsensusLocked hvalid).2.1) w) fun _ t => steps_pure () t
    | rollbackToHeight height =>
      exact admits_admitted.of_steps (reconnected_rollbackToHeight height w)
    | reorganizeToKnownFork ancestor newTip =>
      exact admits_admitted.of_steps (reconnected_reorganizeChainLocked ancestor newTip w)

/-- What a run does to the pool. -/
theorem admitted_of_run {ops : List Operation} (h : operateFromStart env ops = some w) :
    w.chain.OrphansKeyed ∧ w.chain.OrphansIndexed
      ∧ ((∀ step ∈ w.steps, step.KeepsOrphans env) → w.chain.OrphansTimed) := by
  obtain ⟨w₀, hfresh, hrun⟩ := exists_fresh_rel (fun op _ t => admitted_exec op t) h
  have hnone : ∀ {o}, w₀.chain.orphans ≠ some o := fun ho => nomatch hfresh.orphans.symm.trans ho
  obtain ⟨hkeyed, hindexed, l, hl, hkeeps⟩ := hrun fun k b hb => by
    rw [Chain.orphan?, hfresh.orphans] at hb
    cases hb
  rw [hfresh.steps, List.append_nil] at hl
  exact ⟨hkeyed, hindexed fun o ho => (hnone ho).elim,
    fun hsteps => hkeeps (hl ▸ hsteps) fun o ho => (hnone ho).elim⟩

/-- **The index of the pool is right in every state of every run.** -/
theorem orphansIndexed_of_run {ops : List Operation}
    (h : operateFromStart env ops = some w) : w.chain.OrphansIndexed :=
  (admitted_of_run h).2.1

/-- **The maps of the orphan pool agree** in every state of a run whose reorganisations and
rollbacks keep every orphan in the pool: blocks, times and index have the same hashes, each is
listed once under its parent, and the pool is within its limit. -/
theorem orphanPool_consistent {ops : List Operation} {w : World}
    (h : operateFromStart env ops = some w)
    (hsteps : ∀ step ∈ w.steps, step.KeepsOrphans env) : w.chain.OrphansConsistent := by
  obtain ⟨-, hindexed, htimed⟩ := admitted_of_run h
  exact fun o ho => ⟨htimed hsteps o ho, (hindexed o ho).toListed⟩

/-- A block of height 3 whose parent is unknown waits in the pool while the chain grows past it;
then the chain is cut to height 3, and the clean-up loop ticks. -/
def overtakenOrphan : List Operation :=
  ([numberedBlock 9 8 3 10, numberedBlock 1 0 1 10, numberedBlock 2 1 2 10, numberedBlock 3 2 3 10,
    numberedBlock 4 3 4 10].map fun b => .call (.addBlock b))
    ++ [.call (.rollbackToHeight 3), .cleanup]

theorem orphansIndexed_of_run_overtakenOrphan :
    ∃ w, operateFromStart sampleEnv overtakenOrphan = some w ∧ w.chain.orphanCount = 1
      ∧ w.chain.OrphansIndexed :=
  exists_and_of (fun w => w.chain.orphanCount = 1) (by decide +kernel) fun _ hw hone =>
    ⟨hone, orphansIndexed_of_run hw⟩

/-- `orphanPool_consistent` at `overtakenOrphan`, whose orphan is still there at the end. -/
theorem orphanPool_consistent_overtakenOrphan :
    ∃ w, operateFromStart sampleEnv overtakenOrphan = some w
      ∧ (w.chain.orphan? (numberedBlock 9 8 3 10).hash).isSome ∧ w.chain.OrphansConsistent := by
  refine exists_and_of (fun w => (∀ step ∈ w.steps, step.KeepsOrphans sampleEnv)
      ∧ (w.chain.orphan? (numberedBlock 9 8 3 10).hash).isSome) (by decide +kernel) fun w hw h => ?_
  obtain ⟨hsteps, hthere⟩ := h
  exact ⟨hthere, orphanPool_consistent hw hsteps⟩

/-- **A time without a block.** An orphan of height 5 waits in the pool when the chain is cut to
the genesis block: the clean-up drops it and keeps its time. -/
theorem orphanPool_time_without_block :
    ∃ w o, operateFromStart sampleEnv [.call (.addBlock (numberedBlock 1 0 1 10)),
        .call (.addBlock (numberedBlock 5 4 5 10)), .call (.rollbackToHeight 0)] = some w
      ∧ w.chain.orphans = some o
      ∧ o.pool.lookup (numberedBlock 5 4 5 10).hash = none
      ∧ (o.timestamps.lookup (numberedBlock 5 4 5 10).hash).isSome
      ∧ ¬ w.chain.OrphansConsistent := by
  simp only [exists_and_left]
  refine exists_and_of (fun w => ∃ o, w.chain.orphans = some o
    ∧ o.pool.lookup (numberedBlock 5 4 5 10).hash = none
    ∧ (o.timestamps.lookup (numberedBlock 5 4 5 10).hash).isSome) (by decide +kernel)
      fun w _ h => ?_
  obtain ⟨o, ho, hgone, hleft⟩ := h
  refine ⟨o, ho, hgone, hleft, fun hconsistent => ?_⟩
  have hthere := ((hconsistent o ho).times _).mp hleft
  rw [hgone] at hthere
  cases hthere

end NogoChain
