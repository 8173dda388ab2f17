import NogoChain.Chain.Run

/-!
# What the maps hold

Every block in the canonical chain and in the maps has come in through a call, and every
map is keyed by what it says it is: the hash maps and the pool by the hash of the block, the
fork blocks by height. `Chain.Holds P` says so for an arbitrary property `P` of blocks; the
lemmas below say of each operation on the maps that it keeps it. Most operations only
remove, which is `Chain.Shrinks`.
-/

namespace NogoChain

variable {env : Env} {P : Block → Prop} {b : Block}

namespace Chain

/-- **Every block held satisfies `P`**, and every map is keyed as it should be. -/
structure Holds (P : Block → Prop) (c : Chain) : Prop where
  blocks : ∀ b ∈ c.blocks, P b
  known : ∀ h b, c.blocksByHash.lookup h = some b → P b ∧ b.hash = h
  forks : ∀ h l b, c.forkBlocks.lookup h = some l → b ∈ l → P b ∧ b.height = h
  forkHashes : ∀ h b, c.forkBlocksByHash.lookup h = some b → P b ∧ b.hash = h
  orphans : ∀ h b, c.orphan? h = some b → P b ∧ b.hash = h
  stamps : ∀ o h t, c.orphans = some o → o.timestamps.lookup h = some t → ∃ b, P b ∧ b.hash = h

/-- **What stands beside the canonical chain shrinks**: the fork blocks by hash, the pool and
the work cache. -/
structure Narrows (c c' : Chain) : Prop where
  forkHashes : ∀ h b, c'.forkBlocksByHash.lookup h = some b → c.forkBlocksByHash.lookup h = some b
  orphans : ∀ h b, c'.orphan? h = some b → c.orphan? h = some b
  cache : ∀ h n, c'.workCache.lookup h = some n → c.workCache.lookup h = some n

/-- **Nothing is added**: what `c'` holds, `c` holds. -/
structure Shrinks (c c' : Chain) : Prop extends Narrows c c' where
  blocks : ∀ b ∈ c'.blocks, b ∈ c.blocks
  known : ∀ h b, c'.blocksByHash.lookup h = some b → c.blocksByHash.lookup h = some b
  forks : ∀ h l b, c'.forkBlocks.lookup h = some l → b ∈ l →
    ∃ l', c.forkBlocks.lookup h = some l' ∧ b ∈ l'
  stamps : ∀ o' h t, c'.orphans = some o' → o'.timestamps.lookup h = some t →
    ∃ o, c.orphans = some o ∧ o.timestamps.lookup h = some t

theorem Shrinks.refl (c : Chain) : c.Shrinks c where
  blocks _ h := h
  known _ _ h := h
  forks _ l _ h hb := ⟨l, h, hb⟩
  forkHashes _ _ h := h
  orphans _ _ h := h
  stamps o _ _ h ht := ⟨o, h, ht⟩
  cache _ _ h := h

variable {c c' : Chain}

theorem Narrows.of_shrinks {c'' : Chain} (h : c.Narrows c') (hs : c'.Shrinks c'') :
    c.Narrows c'' where
  forkHashes k b hb := h.forkHashes k b (hs.forkHashes k b hb)
  orphans k b hb := h.orphans k b (hs.orphans k b hb)
  cache k n hn := h.cache k n (hs.cache k n hn)

theorem Shrinks.trans {c'' : Chain} (h : c.Shrinks c') (h' : c'.Shrinks c'') : c.Shrinks c'' where
  toNarrows := h.toNarrows.of_shrinks h'
  blocks b hb := h.blocks b (h'.blocks b hb)
  known k b hb := h.known k b (h'.known k b hb)
  forks k l b hl hb := by
    obtain ⟨l', hl', hb'⟩ := h'.forks k l b hl hb
    exact h.forks k l' b hl' hb'
  stamps o k t ho ht := by
    obtain ⟨o', ho', ht'⟩ := h'.stamps o k t ho ht
    exact h.stamps o' k t ho' ht'

theorem Holds.of_shrinks (h : c.Holds P) (hs : c.Shrinks c') : c'.Holds P where
  blocks b hb := h.blocks b (hs.blocks b hb)
  known k b hb := h.known k b (hs.known k b hb)
  forks k l b hl hb := by
    obtain ⟨l', hl', hb'⟩ := hs.forks k l b hl hb
    exact h.forks k l' b hl' hb'
  forkHashes k b hb := h.forkHashes k b (hs.forkHashes k b hb)
  orphans k b hb := h.orphans k b (hs.orphans k b hb)
  stamps o k t ho ht := by
    obtain ⟨o', ho', ht'⟩ := hs.stamps o k t ho ht
    exact h.stamps o' k t ho' ht'

theorem Holds.mono {Q : Block → Prop} (h : c.Holds P) (hPQ : ∀ b, P b → Q b) : c.Holds Q where
  blocks b hb := hPQ b (h.blocks b hb)
  known k b hb := ⟨hPQ b (h.known k b hb).1, (h.known k b hb).2⟩
  forks k l b hl hb := ⟨hPQ b (h.forks k l b hl hb).1, (h.forks k l b hl hb).2⟩
  forkHashes k b hb := ⟨hPQ b (h.forkHashes k b hb).1, (h.forkHashes k b hb).2⟩
  orphans k b hb := ⟨hPQ b (h.orphans k b hb).1, (h.orphans k b hb).2⟩
  stamps o k t ho ht := by
    obtain ⟨b, hb, hhash⟩ := h.stamps o k t ho ht
    exact ⟨b, hPQ b hb, hhash⟩

/-- Fork blocks looked up with a default. -/
theorem Holds.forksAt (h : c.Holds P) {height : UInt64}
    (hb : b ∈ c.forksAt height) : P b ∧ b.height = height := by
  obtain ⟨l, hl, hb⟩ := GoMap.exists_lookup_of_mem_getD hb
  exact h.forks height l b hl hb

/-- Every fork block, in the order of the map or in any other. -/
theorem Holds.mem_entries (h : c.Holds P) (hb : b ∈ c.forkBlocks.entries.flatMap (·.2)) : P b := by
  obtain ⟨⟨k, l⟩, hl, hb⟩ := List.mem_flatMap.mp hb
  exact (h.forks k l b (GoMap.mem_entries_iff.mp hl) hb).1

theorem Holds.knownParent (h : c.Holds P) {p : Block}
    (hp : c.knownParent? b = some p) : P p ∧ p.hash = b.header.prevHash := by
  unfold knownParent? at hp
  split at hp
  · next q hq =>
    cases hp
    exact h.known _ _ hq
  · have hmem := List.mem_of_find?_eq_some hp
    have hhash : p.hash = b.header.prevHash := by simpa using List.find?_some hp
    exact ⟨(h.forksAt hmem).1, hhash⟩

/-! ## Operations that add -/

theorem Holds.learn (h : c.Holds P) {bs : List Block} (hbs : ∀ b ∈ bs, P b) :
    (c.learn bs).Holds P :=
  { h with
    known := by
      intro k b hb
      rcases GoMap.lookup_of_foldl_insert (fun b : Block => b.hash) (fun b => b) hb with
        ⟨x, hx, hk, rfl⟩ | hb
      · exact ⟨hbs x hx, hk⟩
      · exact h.known k b hb }

/-- A block is entered under its hash. -/
theorem keyed_insert {m : GoMap Bytes Block} (hm : ∀ k x, m.lookup k = some x → P x ∧ x.hash = k)
    (hb : P b) (k : Bytes) (x : Block) (hx : (m.insert b.hash b).lookup k = some x) :
    P x ∧ x.hash = k := by
  rw [GoMap.lookup_insert] at hx
  split at hx
  · next hk => exact Option.some.inj hx ▸ ⟨hb, hk.symm⟩
  · exact hm k x hx

theorem Holds.insertFork (h : c.Holds P) (hb : P b) : (c.insertFork b).Holds P where
  blocks := h.blocks
  orphans := h.orphans
  stamps := h.stamps
  known := keyed_insert h.known hb
  forkHashes := keyed_insert h.forkHashes hb
  forks := by
    intro k l x hl hx
    simp only [Chain.insertFork, GoMap.lookup_insert] at hl
    split at hl
    · next hk =>
      cases hl
      rcases List.mem_append.mp hx with hx | hx
      · exact hk ▸ h.forksAt hx
      · exact List.mem_singleton.mp hx ▸ ⟨hb, hk.symm⟩
    · exact h.forks k l x hl hx

theorem Holds.putOrphan (h : c.Holds P) (hb : P b) (t : Int) :
    (c.putOrphan env b.hash b t).Holds P := by
  unfold Chain.putOrphan
  cases ho : c.orphans with
  | none => exact h
  | some o =>
    refine { h with orphans := ?_, stamps := ?_ }
    · refine keyed_insert (fun k x hx => h.orphans k x ?_) hb
      rwa [orphan?, ho]
    · rintro o' k t' ho' ht'
      cases ho'
      simp only [GoMap.lookup_insert] at ht'
      split at ht'
      · next hk => exact ⟨b, hb, hk.symm⟩
      · exact h.stamps o k t' ho ht'

/-! ## Operations that remove -/

/-- Two states that differ in nothing the maps hold, except that the work cache may have been
emptied. -/
theorem Shrinks.of_eq (hb : c'.blocks = c.blocks)
    (hk : c'.blocksByHash = c.blocksByHash) (hf : c'.forkBlocks = c.forkBlocks)
    (hh : c'.forkBlocksByHash = c.forkBlocksByHash) (ho : c'.orphans = c.orphans)
    (hw : c'.workCache = c.workCache ∨ c'.workCache = ∅) : c.Shrinks c' where
  blocks b h := hb ▸ h
  known k b h := hk ▸ h
  forks k l b h hbl := ⟨l, hf ▸ h, hbl⟩
  forkHashes k b h := hh ▸ h
  orphans k b h := by simpa [orphan?, ho] using h
  stamps o k t h ht := ⟨o, ho ▸ h, ht⟩
  cache k n h := by
    rcases hw with hw | hw
    · exact hw ▸ h
    · rw [hw] at h
      cases h

theorem shrinks_forget (c : Chain) (bs : List Block) : c.Shrinks (c.forget bs) :=
  { Shrinks.refl c with
    known := fun _ _ h => GoMap.lookup_of_foldl_erase (fun b : Block => b.hash) h
    forkHashes := fun _ _ h => GoMap.lookup_of_foldl_erase (fun b : Block => b.hash) h }

/-- Fewer fork blocks: whatever replaces the map of fork blocks has lists that are part of
the lists that were there. -/
theorem Shrinks.setForkBlocks (h : c.Shrinks c') {m : GoMap UInt64 (List Block)}
    (hm : ∀ k l b, m.lookup k = some l → b ∈ l → ∃ l', c.forkBlocks.lookup k = some l' ∧ b ∈ l') :
    c.Shrinks { c' with forkBlocks := m } :=
  { h with forks := hm }

theorem shrinks_limitForksAt (c : Chain) (height : UInt64) : c.Shrinks (c.limitForksAt height) := by
  unfold limitForksAt
  dsimp only
  split
  · refine (shrinks_forget c _).setForkBlocks fun k l b hl hb => ?_
    rw [GoMap.lookup_insert] at hl
    split at hl
    · next hk =>
      cases hl
      rw [hk]
      exact GoMap.exists_lookup_of_mem_getD (List.mem_of_mem_drop hb)
    · exact ⟨l, hl, hb⟩
  · exact .refl c

theorem shrinks_dropLowestForks :
    ∀ (hs : List UInt64) (total : Nat) (c : Chain), c.Shrinks (dropLowestForks hs total c)
  | [], _, c => .refl c
  | h :: hs, total, c => by
    unfold dropLowestForks
    split
    · exact .refl c
    · refine Shrinks.trans ?_ (shrinks_dropLowestForks hs _ _)
      exact (shrinks_forget c _).setForkBlocks fun k l b hl hb => ⟨l, GoMap.lookup_of_erase hl, hb⟩

theorem shrinks_limitForksTotal (c : Chain) : c.Shrinks c.limitForksTotal := by
  unfold limitForksTotal
  dsimp only
  split
  · exact shrinks_dropLowestForks _ _ _
  · exact .refl c

theorem shrinks_dropForksAbove (c : Chain) (height : UInt64) :
    c.Shrinks (c.dropForksAbove height) :=
  (shrinks_forget c _).setForkBlocks fun _ l _ hl hb =>
    ⟨l, GoMap.lookup_of_foldl_erase (fun e : (_ : UInt64) × List Block => e.1) hl, hb⟩

theorem shrinks_dropForkHeightsAbove (c : Chain) (height : UInt64) :
    c.Shrinks (c.dropForkHeightsAbove height) :=
  (Shrinks.refl c).setForkBlocks fun _ l _ hl hb =>
    ⟨l, GoMap.lookup_of_foldl_erase (fun h : UInt64 => h) hl, hb⟩

theorem shrinks_takeOff (c : Chain) (b : Block) : c.Shrinks (c.takeOff b) :=
  { Shrinks.refl c with
    blocks := fun _ h => List.mem_of_mem_dropLast h
    known := fun _ _ h => GoMap.lookup_of_erase h }

theorem shrinks_unlinkAbove (env : Env) (c : Chain) (height : Nat) :
    c.Shrinks (c.unlinkAbove env height) :=
  { Shrinks.refl c with
    blocks := fun _ h => List.mem_of_mem_take h
    known := fun _ _ h => GoMap.lookup_of_foldr_erase (fun e : Nat × Block => e.2.hash) h }

/-- An empty pool holds nothing. -/
theorem shrinks_makeOrphanPool (c : Chain) : c.Shrinks c.makeOrphanPool := by
  unfold makeOrphanPool
  cases ho : c.orphans with
  | some o => exact .refl c
  | none =>
    exact { Shrinks.refl c with
      orphans := fun _ _ h => nomatch h
      stamps := fun o' _ _ h ht => by
        rw [← Option.some.inj h] at ht
        cases ht }

/-- Fewer orphans: a pool and times that are part of those that were there. -/
theorem Shrinks.of_orphans {o o' : Orphans} {arrays : Slice.Heap Bytes} (ho : c.orphans = some o)
    (hp : ∀ k b, o'.pool.lookup k = some b → o.pool.lookup k = some b)
    (ht : ∀ k t, o'.timestamps.lookup k = some t → o.timestamps.lookup k = some t) :
    c.Shrinks { c with orphans := some o', arrays := arrays } :=
  { Shrinks.refl c with
    orphans := fun k b h => by
      rw [orphan?, ho]
      exact hp k b h
    stamps := fun o'' k t ho'' htk => by
      obtain rfl := Option.some.inj ho''
      exact ⟨o, ho, ht k t htk⟩ }

theorem shrinks_removeOrphanIndexLocked (c : Chain) (h p : Bytes) :
    c.Shrinks (c.removeOrphanIndexLocked h p) := by
  unfold removeOrphanIndexLocked
  split
  · exact .refl c
  · next o ho =>
    split
    · exact .refl c
    · split
      · exact .refl c
      · exact .of_orphans ho (fun _ _ h => h) (fun _ _ h => h)

theorem shrinks_removeOrphanLocked (c : Chain) (h : Bytes) :
    c.Shrinks (c.removeOrphanLocked h) := by
  unfold removeOrphanLocked
  split
  · exact .refl c
  · next o ho =>
    split
    · exact .refl c
    · refine Shrinks.trans ?_ (shrinks_removeOrphanIndexLocked _ _ _)
      exact .of_orphans ho (fun _ _ h => GoMap.lookup_of_erase h)
        (fun _ _ h => GoMap.lookup_of_erase h)

theorem shrinks_dropDisconnected (height : UInt64) :
    ∀ (entries : List ((_ : Bytes) × Block)) (c : Chain),
      c.Shrinks (dropDisconnected height entries c)
  | [], c => .refl c
  | e :: es, c => by
    refine Shrinks.trans ?_ (shrinks_dropDisconnected height es _)
    split
    · exact .refl c
    · cases ho : c.orphans with
      | none => exact .of_eq rfl rfl rfl rfl ho.symm (.inl rfl)
      | some o =>
        exact .of_orphans ho (fun _ _ h => GoMap.lookup_of_erase h) (fun _ _ h => h)

theorem shrinks_rebuildOrphanByParentIndexLocked (c : Chain)
    (entries : List ((_ : Bytes) × Block)) :
    c.Shrinks (c.rebuildOrphanByParentIndexLocked env entries) := by
  unfold rebuildOrphanByParentIndexLocked
  split
  · exact .refl c
  · next o ho =>
    exact .of_orphans ho (fun _ _ h => h) (fun _ _ h => h)

end Chain

end NogoChain
