import NogoChain.Chain.Stock
import NogoChain.Lib.SliceIndex

/-!
# The index of the orphan pool

The hashes of the orphans are listed by parent, in slices that are edited in place. The index is
right in every state that is reached: a hash is listed once, under the parent of its block, and
the lists of different parents share no array, so that what is done to one of them does not show
in another. Insertion and removal keep it so, and the clean-up after a change of the chain builds
it anew whenever it drops a block.

`Fades` is what reconnection, reorganisations and clean-ups do to the pool: blocks leave it, and
the index stays right.
-/

namespace NogoChain

variable {env : Env}

/-- **The index lists the pool.** -/
structure Orphans.Listed (arrays : Slice.Heap Bytes) (o : Orphans) : Prop where
  /-- a hash is listed under the parent of its block -/
  listed : ∀ parent k, k ∈ Slice.listed arrays o.byParent parent
    ↔ ∃ b, o.pool.lookup k = some b ∧ b.header.prevHash = parent
  once : ∀ parent, (Slice.listed arrays o.byParent parent).Nodup

/-- It does, and no two lists share an array. -/
structure Orphans.Indexed (arrays : Slice.Heap Bytes) (o : Orphans) : Prop
    extends Orphans.Listed arrays o where
  apart : Slice.Apart arrays o.byParent

variable {o : Orphans} {c : Chain} {w w' : World}

/-- Only lookups in the pool matter. -/
theorem Orphans.Indexed.of_lookup {arrays : Slice.Heap Bytes} {o' : Orphans}
    (h : o.Indexed arrays) (hindex : o'.byParent = o.byParent)
    (hpool : ∀ k, o'.pool.lookup k = o.pool.lookup k) : o'.Indexed arrays where
  listed parent k := by
    rw [hindex, hpool]
    exact h.listed parent k
  once := hindex ▸ h.once
  apart := hindex ▸ h.apart

variable {k : Bytes}

namespace Chain

/-- The pool of a chain is indexed; a nil pool is. -/
def OrphansIndexed (c : Chain) : Prop := ∀ o, c.orphans = some o → o.Indexed c.arrays

/-- Every block in the pool stands under its hash, which is not empty. -/
def OrphansKeyed (c : Chain) : Prop := ∀ k b, c.orphan? k = some b → b.hash = k ∧ b.hash ≠ []

theorem orphan?_eq (h : c.orphans = some o) (k : Bytes) : c.orphan? k = o.pool.lookup k := by
  rw [orphan?, h, Option.bind_some]

theorem OrphansIndexed.congr {c' : Chain} (h : c.OrphansIndexed) (ho : c'.orphans = c.orphans)
    (ha : c'.arrays = c.arrays) : c'.OrphansIndexed := by
  intro o hc
  rw [ha]
  exact h o (ho ▸ hc)

theorem orphan?_congr {c' : Chain} (ho : c'.orphans = c.orphans) (k : Bytes) :
    c'.orphan? k = c.orphan? k := by
  rw [orphan?, orphan?, ho]

end Chain

/-! ## Removing an orphan -/

theorem Chain.orphan?_removeOrphanIndexLocked (c : Chain) (hash parent k : Bytes) :
    (c.removeOrphanIndexLocked hash parent).orphan? k = c.orphan? k := by
  unfold removeOrphanIndexLocked
  split
  · rfl
  · next o ho =>
    split
    · rfl
    · split
      · rfl
      · rw [orphan?, orphan?, ho, Option.bind_some, Option.bind_some]

theorem Chain.orphan?_removeOrphanLocked (c : Chain) (k k' : Bytes) :
    (c.removeOrphanLocked k).orphan? k' = if k' = k then none else c.orphan? k' := by
  unfold removeOrphanLocked
  split
  · next ho => simp [orphan?, ho]
  · next o ho =>
    split
    · next hb =>
      split
      · next hk => rw [hk, orphan?_eq ho, hb]
      · rfl
    · rw [orphan?_removeOrphanIndexLocked, orphan?, Option.bind_some, GoMap.lookup_erase,
        orphan?_eq ho]

/-- The index loses a hash that it lists. -/
theorem Slice.Apart.exists_removeOrphanIndexLocked
    (ho : c.orphans = some o) (hapart : Slice.Apart c.arrays o.byParent) {hash parent : Bytes}
    (hmem : hash ∈ Slice.listed c.arrays o.byParent parent) :
    ∃ arrays byParent, c.removeOrphanIndexLocked hash parent
        = { c with arrays := arrays, orphans := some { o with byParent := byParent } }
      ∧ Slice.Apart arrays byParent
      ∧ ∀ q, Slice.listed arrays byParent q
        = if q = parent then (Slice.listed c.arrays o.byParent parent).erase hash
          else Slice.listed c.arrays o.byParent q := by
  cases hs : o.byParent.lookup parent with
  | none =>
    rw [Slice.listed_of_lookup_none hs] at hmem
    cases hmem
  | some s =>
    rw [Slice.listed_of_lookup hs] at hmem
    have hv := hapart.valid parent s hs
    cases hi : (s.toList c.arrays).findIdx? (· == hash) with
    | none =>
      rw [List.findIdx?_eq_none_iff] at hi
      exact absurd (hi hash hmem) (by simp)
    | some i =>
      have hlt : i < s.len := by
        have := (List.findIdx?_eq_some_iff_findIdx_eq.mp hi).1
        rwa [hv.length_toList] at this
      obtain ⟨happart, hlisted⟩ := hapart.removeAt hs hlt
      refine ⟨_, _, ?_, happart, fun q => ?_⟩
      · unfold Chain.removeOrphanIndexLocked
        rw [ho]
        dsimp only
        rw [hs]
        dsimp only
        rw [hi]
      · have herase : (s.toList c.arrays).erase hash = (s.toList c.arrays).eraseIdx i := by
          rw [List.erase_eq_eraseIdx, List.idxOf?, hi]
        rw [hlisted q, Slice.listed_of_lookup hs, herase]

theorem Chain.OrphansIndexed.removeOrphanLocked (h : c.OrphansIndexed) (k : Bytes) :
    (c.removeOrphanLocked k).OrphansIndexed := by
  unfold Chain.removeOrphanLocked
  split
  · exact h
  · next o ho =>
    split
    · exact h
    · next b hb =>
      have hs := h o ho
      have hmem : k ∈ Slice.listed c.arrays o.byParent b.header.prevHash :=
        (hs.listed _ k).mpr ⟨b, hb, rfl⟩
      let o' : Orphans := { o with pool := o.pool.erase k, timestamps := o.timestamps.erase k }
      obtain ⟨arrays, byParent, heq, hapart, hlisted⟩ :=
        Slice.Apart.exists_removeOrphanIndexLocked (c := { c with orphans := some o' })
          rfl hs.apart hmem
      rw [heq]
      intro o' ho'
      cases ho'
      refine { listed := fun q k' => ?_, once := fun q => ?_, apart := hapart }
      · -- the hash is gone from the list of its parent, and was in no other list
        rw [hlisted q, GoMap.lookup_erase]
        by_cases hk : k' = k
        · rw [if_pos hk]
          refine ⟨fun hm => ?_, fun ⟨_, h, _⟩ => nomatch h⟩
          rw [hk] at hm
          split at hm
          · exact absurd hm (hs.once _).not_mem_erase
          · next hq =>
            obtain ⟨b', hb', hparent⟩ := (hs.listed q k).mp hm
            obtain rfl : b = b' := Option.some.inj (hb.symm.trans hb')
            exact absurd hparent.symm hq
        · rw [if_neg hk, ← hs.listed q k']
          split
          · next hq => rw [List.mem_erase_of_ne hk, hq]
          · rfl
      · rw [hlisted q]
        split
        · exact (hs.once _).erase k
        · exact hs.once q

/-! ## Storing an orphan -/

theorem Chain.orphan?_putOrphan (env : Env) (ho : c.orphans = some o)
    (k : Bytes) (b : Block) (now : Int) (k' : Bytes) :
    (c.putOrphan env k b now).orphan? k' = if k' = k then some b else c.orphan? k' := by
  unfold putOrphan
  rw [ho]
  rw [orphan?, Option.bind_some, GoMap.lookup_insert, orphan?_eq ho]

/-- A nil pool stores nothing. -/
theorem Chain.putOrphan_of_none (env : Env) (ho : c.orphans = none) (k : Bytes)
    (b : Block) (now : Int) : c.putOrphan env k b now = c := by
  rw [putOrphan, ho]

theorem Chain.OrphansIndexed.putOrphan (h : c.OrphansIndexed)
    (hnone : c.orphan? k = none) (b : Block) (now : Int) :
    (c.putOrphan env k b now).OrphansIndexed := by
  cases ho : c.orphans with
  | none => rwa [Chain.putOrphan_of_none env ho]
  | some o =>
    unfold Chain.putOrphan
    rw [ho]
    have hs := h o ho
    rw [Chain.orphan?_eq ho] at hnone
    obtain ⟨hapart, hlisted⟩ := hs.apart.append env.grow b.header.prevHash k
    intro o' ho'
    cases ho'
    have hnew : ∀ q, k ∉ Slice.listed c.arrays o.byParent q := by
      intro q hm
      obtain ⟨b', hb', -⟩ := (hs.listed q k).mp hm
      rw [hnone] at hb'
      cases hb'
    refine { listed := fun q k' => ?_, once := fun q => ?_, apart := hapart }
    · rw [hlisted q, GoMap.lookup_insert]
      by_cases hk : k' = k
      · subst hk
        rw [if_pos rfl]
        split
        · next hq =>
          exact iff_of_true (List.mem_append_right _ (List.mem_singleton.mpr rfl)) ⟨b, rfl, hq.symm⟩
        · next hq =>
          refine iff_of_false (hnew q) ?_
          rintro ⟨b', hb', hparent⟩
          exact hq (by rw [← hparent, Option.some.inj hb'])
      · rw [if_neg hk, ← hs.listed q k']
        split
        · next hq => simp [hq, hk]
        · rfl
    · rw [hlisted q]
      split
      · exact List.nodup_append.mpr ⟨hs.once _, List.nodup_singleton k, fun x hx y hy =>
          fun e => hnew _ (List.mem_singleton.mp hy ▸ e ▸ hx)⟩
      · exact hs.once q

theorem Chain.OrphansIndexed.makeOrphanPool (h : c.OrphansIndexed) :
    c.makeOrphanPool.OrphansIndexed := by
  unfold Chain.makeOrphanPool
  cases ho : c.orphans with
  | some o => exact h
  | none =>
    intro o' ho'
    cases ho'
    exact { listed := fun _ _ => ⟨nofun, fun ⟨_, h, _⟩ => nomatch h⟩
            once := fun _ => List.nodup_nil
            apart := Slice.apart_empty _ }

/-! ## Cleaning up -/

/-- The clean-up drops blocks from the pool and leaves the index alone. -/
theorem Chain.exists_dropDisconnected (height : UInt64) :
    ∀ (es : List ((_ : Bytes) × Block)) {c : Chain} {o : Orphans}, c.orphans = some o →
      ∃ pool, (Chain.dropDisconnected height es c).orphans = some { o with pool := pool }
        ∧ (Chain.dropDisconnected height es c).arrays = c.arrays
        ∧ ∀ k b, pool.lookup k = some b → o.pool.lookup k = some b
  | [], c, o, ho => ⟨o.pool, ho, rfl, fun _ _ h => h⟩
  | e :: es, c, o, ho => by
    unfold dropDisconnected
    split
    · exact exists_dropDisconnected height es ho
    · have hdropped : ({ c with orphans := c.orphans.map fun o =>
          { o with pool := o.pool.erase e.1 } } : Chain).orphans
          = some { o with pool := o.pool.erase e.1 } := by
        rw [ho, Option.map_some]
      obtain ⟨pool, hpool, harrays, hsub⟩ := exists_dropDisconnected height es hdropped
      exact ⟨pool, hpool, harrays, fun k b hk => GoMap.lookup_of_erase (hsub k b hk)⟩

/-- A pool that is part of another and as large has the same blocks. -/
theorem lookup_eq_of_length {pool pool' : GoMap Bytes Block}
    (hsub : ∀ k b, pool'.lookup k = some b → pool.lookup k = some b)
    (hlength : pool'.entries.length = pool.entries.length) (k : Bytes) :
    pool'.lookup k = pool.lookup k := by
  cases hk : pool.lookup k with
  | none =>
    cases hk' : pool'.lookup k with
    | none => rfl
    | some b => exact nomatch hk.symm.trans (hsub k b hk')
  | some b =>
    cases hk' : pool'.lookup k with
    | some b' => rw [← hk, hsub k b' hk']
    | none =>
      have hle : pool'.entries.length ≤ (pool.erase k).entries.length := by
        refine GoMap.length_le_of_lookup fun k' hsome => ?_
        obtain ⟨b', hb'⟩ := Option.isSome_iff_exists.mp hsome
        have hne : k' ≠ k := fun e => nomatch (e ▸ hb').symm.trans hk'
        rw [GoMap.lookup_erase, if_neg hne, hsub k' b' hb']
        rfl
      have hlt := GoMap.length_erase_of_lookup hk
      omega

/-- **The index that is built anew lists the pool.** -/
theorem Chain.orphansIndexed_rebuild (ho : c.orphans = some o)
    {entries : List ((_ : Bytes) × Block)} (hperm : entries.Perm o.pool.entries) :
    (c.rebuildOrphanByParentIndexLocked env entries).OrphansIndexed := by
  unfold rebuildOrphanByParentIndexLocked
  rw [ho]
  intro o' ho'
  cases ho'
  obtain ⟨hapart, hlisted⟩ := Slice.Apart.foldl_append env.grow
    (fun e : (_ : Bytes) × Block => e.2.header.prevHash) (fun e => e.1) entries
    (Slice.apart_empty c.arrays)
  refine { listed := fun q k => ?_, once := fun q => ?_, apart := hapart }
  · have hmem := hlisted q
    rw [Slice.listed_empty, List.nil_append] at hmem
    rw [hmem, List.mem_map]
    constructor
    · rintro ⟨e, he, rfl⟩
      obtain ⟨he, hq⟩ := List.mem_filter.mp he
      exact ⟨e.2, GoMap.mem_entries_iff.mp (hperm.mem_iff.mp he), of_decide_eq_true hq⟩
    · rintro ⟨b, hb, hq⟩
      refine ⟨⟨k, b⟩, List.mem_filter.mpr
        ⟨hperm.mem_iff.mpr (GoMap.mem_entries_iff.mpr hb), ?_⟩, rfl⟩
      exact decide_eq_true hq
  · have hmem := hlisted q
    rw [hmem]
    have hkeys : (entries.map fun e => e.1).Nodup :=
      (hperm.map _).nodup_iff.mpr o.pool.nodupKeys
    exact hkeys.sublist (List.filter_sublist.map _)

/-! ## Fading -/

/-- **Blocks leave the pool, and none comes**; an index that is right stays right. -/
structure Fades (w w' : World) : Prop where
  /-- what is in the pool was there before -/
  pool : ∀ k b, w'.chain.orphan? k = some b → w.chain.orphan? k = some b
  /-- the index stays right -/
  indexed : w.chain.OrphansIndexed → w'.chain.OrphansIndexed

instance : IsPreorder World Fades where
  refl _ := ⟨fun _ _ h => h, id⟩
  trans _ _ _ h h' :=
    ⟨fun k b hb => h.pool k b (h'.pool k b hb), fun hi => h'.indexed (h.indexed hi)⟩

theorem Fades.keyed (h : Fades w w') (hk : w.chain.OrphansKeyed) : w'.chain.OrphansKeyed :=
  fun k b hb => hk k b (h.pool k b hb)

theorem Fades.none (h : Fades w w') (hk : w.chain.orphan? k = none) :
    w'.chain.orphan? k = none := by
  cases hb : w'.chain.orphan? k with
  | none => rfl
  | some b => exact nomatch hk.symm.trans (h.pool k b hb)

/-- Whatever leaves the pool alone. -/
theorem Fades.of_pool (ho : w'.chain.orphans = w.chain.orphans)
    (ha : w'.chain.arrays = w.chain.arrays) : Fades w w' :=
  ⟨fun k _ hb => (Chain.orphan?_congr ho k) ▸ hb, fun hi => hi.congr ho ha⟩

theorem SameStock.fades (h : SameStock w w') : Fades w w' :=
  .of_pool (congrArg Stock.orphans h.stock) (congrArg Stock.arrays h.stock)

theorem fades_removeOrphanLocked (w : World) (k : Bytes) :
    Fades w ⟨w.chain.removeOrphanLocked k, w.steps⟩ := by
  refine ⟨fun k' b hb => ?_, fun hi => hi.removeOrphanLocked k⟩
  rw [Chain.orphan?_removeOrphanLocked] at hb
  split at hb
  · cases hb
  · exact hb

/-- **An orphan that is refused comes back** to a pool that has it no longer. -/
theorem Fades.putBack {t : World} {b : Block} (now : Int) (hk : w.chain.orphan? k = some b)
    (h : Fades ⟨w.chain.removeOrphanLocked k, w.steps⟩ t) :
    Fades w ⟨t.chain.putOrphan env k b now, t.steps⟩ := by
  have hremoved := fades_removeOrphanLocked w k
  have hgone : t.chain.orphan? k = Option.none := h.none (by
    rw [Chain.orphan?_removeOrphanLocked, if_pos rfl])
  refine ⟨fun k' b' hb' => ?_, fun hi => (h.indexed (hremoved.indexed hi)).putOrphan hgone b now⟩
  cases hot : t.chain.orphans with
  | none =>
    rw [Chain.putOrphan_of_none env hot] at hb'
    exact hremoved.pool k' b' (h.pool k' b' hb')
  | some ot =>
    rw [Chain.orphan?_putOrphan env hot] at hb'
    split at hb'
    · next hkk => rw [hkk, hk, hb']
    · exact hremoved.pool k' b' (h.pool k' b' hb')

theorem fades_makeOrphanPool (w : World) : Fades w ⟨w.chain.makeOrphanPool, w.steps⟩ :=
  ⟨(Chain.shrinks_makeOrphanPool w.chain).orphans, fun hi => hi.makeOrphanPool⟩

/-- **The clean-up after a change of the chain**: the index is left alone if no block is dropped,
and built anew otherwise. -/
theorem fades_cleanOrphanPoolAboveHeight (height : UInt64) (w : World) :
    Prog.Steps Fades (cleanOrphanPoolAboveHeight env height) w := by
  intro w' h
  refine ⟨((aside_cleanOrphanPoolAboveHeight height w).steps w' h).shrinks.orphans, fun hi => ?_⟩
  unfold cleanOrphanPoolAboveHeight at h
  rw [chain_bind_apply] at h
  cases ho : w.chain.orphans with
  | none =>
    rw [ho] at h
    exact Option.some.inj h ▸ hi
  | some o =>
    rw [ho] at h
    dsimp only at h
    split at h
    · exact Option.some.inj h ▸ hi
    · obtain ⟨entries, t, ht, h⟩ := Prog.state?_bind_of_errs (noErr_ask _ w) h
      obtain ⟨-, rfl⟩ := Outcome.ret.inj ht
      obtain ⟨_, t, ht, h⟩ := Prog.state?_bind_of_errs (noErr_update _ _) h
      obtain ⟨-, rfl⟩ := Outcome.ret.inj ht
      obtain ⟨pool, hpool, harrays, hsub⟩ := Chain.exists_dropDisconnected height entries
        (c := w.chain.ticked) ho
      rw [chain_bind_apply] at h
      rw [show
        (Chain.dropDisconnected height entries { w.chain with tick := w.chain.tick + 1 }).orphans
        = _ from hpool] at h
      dsimp only at h
      split at h
      · next hlength =>
        obtain rfl := Option.some.inj h
        intro o' ho'
        obtain rfl := Option.some.inj (hpool.symm.trans ho')
        rw [show (Chain.dropDisconnected height entries
          { w.chain with tick := w.chain.tick + 1 }).arrays = w.chain.arrays from harrays]
        exact (hi o ho).of_lookup rfl (lookup_eq_of_length hsub hlength)
      · obtain ⟨entries', t, ht, h⟩ := Prog.state?_bind_of_errs (noErr_ask _ _) h
        have hperm := ranged_perm ht
        obtain ⟨-, rfl⟩ := Outcome.ret.inj ht
        obtain rfl := Option.some.inj h
        exact Chain.orphansIndexed_rebuild (c := Chain.ticked _) hpool hperm

end NogoChain
