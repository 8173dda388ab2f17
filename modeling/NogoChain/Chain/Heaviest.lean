import NogoChain.Chain.Weight

/-!
# The canonical work does not fall

`AddBlock` extends the tip, which adds work, or switches to the better tip, whose branch has at
least the canonical work. `Grows` says so of one call together with the invariants that the
next call needs: they are carried from change to change, as long as the steps on record keep
the chain linked.

While the call runs, blocks move between the pool and the fork blocks. The hashes outside the
canonical chain are among those that were there before and that of the new block, which bounds
the number of fork blocks at every comparison.
-/

namespace NogoChain

open Prog

variable {env : Env} {P : Block → Prop} {S : List Bytes} {c : Chain}

/-! ## The chain after a switch -/

theorem Chain.Linked.congr {c' : Chain} (h : c.Linked) (hblocks : c'.blocks = c.blocks) :
    c'.Linked := by
  refine ⟨?_, ?_⟩
  · rw [hblocks]
    exact h.links
  · rw [hblocks]
    exact h.root

variable {w w' : World} {ancestor b : Block}

/-- A reorganisation that is not refused leaves the work of the blocks it leaves. -/
theorem Switch.canonicalWork_eq {newBlocks : List Block} (h : Switch env w w' ancestor newBlocks)
    (hrefused : ¬ CoreStep.Refused env (.reorganize w.chain ancestor newBlocks)) :
    w'.chain.canonicalWork = calculateChainWorkLocked (w.chain.spliced ancestor newBlocks) := by
  obtain ⟨x, y, -, hreplayed⟩ := h.core
  unfold Replayed at hreplayed
  split at hreplayed
  · next e s hs => exact absurd (.inl ⟨e, s, hs⟩) hrefused
  · obtain ⟨store, hcore⟩ := hreplayed
    have hwork : w'.chain.canonicalWork = (totalWorkOf _ _).1 := congrArg Core.canonicalWork hcore
    rw [hwork, totalWorkOf_fst]

/-- If nothing is kept, the ancestor has the greatest height there is, and is the tip. -/
theorem Chain.Linked.tip_of_kept_nil (hl : c.Linked) (ha : ancestor ∈ c.blocks)
    (hindex : 0 ≤ goInt ancestor.height + 1) (hkept : c.kept ancestor = []) :
    c.tip? = some ancestor := by
  have hget := hl.getElem?_height ha
  have hlt := (List.getElem?_eq_some_iff.mp hget).1
  have hzero : (goInt ancestor.height + 1).toNat = 0 := by
    rcases List.take_eq_nil_iff.mp hkept with h | h
    · exact h
    · rw [h] at ha
      cases ha
  have hlen : c.blocks.length - 1 < c.blocks.length := by omega
  have h64 := c.blocks[c.blocks.length - 1].height.toNat_lt
  rw [hl.height_eq _ hlen] at h64
  rw [goInt_eq] at hindex hzero
  have hheight : ancestor.height.toNat = c.blocks.length - 1 := by
    split at hindex <;> omega
  rw [hheight] at hget
  rw [Chain.tip?, List.getLast?_eq_getElem?]
  exact hget

/-- **A reorganisation ends at the new tip**, or at a block with its hash. -/
theorem Branch.getLast?_spliced (hc : c.Holds P) (ht : blockTree.Honest P) (hl : c.Linked)
    {newTip : Block} {visited : List Block}
    (hbranch : Branch env c ancestor newTip visited) (hP : P newTip)
    (hmeets : c.Meets P ancestor newTip) (hindex : 0 ≤ goInt ancestor.height + 1)
    (hother : ∀ tip, c.tip? = some tip → tip.hash ≠ newTip.hash) :
    ∃ x, (c.spliced ancestor visited.dropLast.reverse).getLast? = some x
      ∧ x.hash = newTip.hash := by
  obtain ⟨l, rfl⟩ := hbranch.exists_cons
  rw [Chain.spliced_eq]
  cases l with
  | cons y l =>
    refine ⟨newTip, ?_, rfl⟩
    rw [List.dropLast_cons_cons, List.reverse_cons, ← List.append_assoc, List.getLast?_concat]
  | nil =>
    -- the new tip is no higher than the ancestor, so it is the ancestor
    have hhash : ancestor.hash = newTip.hash := by
      obtain ⟨ha, l, hdescends, x, hx, hxhash⟩ := hmeets
      rcases List.mem_cons.mp hx with rfl | hx
      · exact hxhash.symm
      · have hfall := hdescends.height_lt ht hx
        have hPx := hdescends.mem x (List.mem_cons_of_mem newTip hx)
        rw [(ht.hash_inj hPx (hc.blocks ancestor ha) hxhash).1] at hfall
        exact absurd (UInt64.lt_iff_toNat_lt.mpr hfall) (hbranch.stop newTip rfl)
    have hnil : ([newTip] : List Block).dropLast.reverse = [] := rfl
    rw [hnil, List.append_nil]
    cases hkept : (c.kept ancestor).getLast? with
    | none =>
      have htip := hl.tip_of_kept_nil hmeets.1 hindex (List.getLast?_eq_none_iff.mp hkept)
      exact absurd hhash (hother ancestor htip)
    | some x => exact ⟨x, rfl, by rw [hl.getLast?_kept hmeets.1 hkept, hhash]⟩

/-- **After a switch the canonical work is that of the branch.** -/
theorem Switch.canonicalWork_branch (hw : Weighable P) {newTip : Block}
    {visited : List Block} {n : Nat} (h : Switch env w w' ancestor visited.dropLast.reverse)
    (hrefused : ¬ CoreStep.Refused env (.reorganize w.chain ancestor visited.dropLast.reverse))
    (hbranch : Branch env w.chain ancestor newTip visited) (hP : P newTip)
    (hc : w.chain.Holds P) (hl : w.chain.Linked) (hmeets : w.chain.Meets P ancestor newTip)
    (hother : ∀ tip, w.chain.tip? = some tip → tip.hash ≠ newTip.hash)
    (hc' : w'.chain.Holds P) (hl' : w'.chain.Linked) (hn : BranchWork P newTip n) :
    w'.chain.canonicalWork = n := by
  obtain ⟨last, hlast, hhash⟩ := hbranch.getLast?_spliced hc hw.honest hl hP hmeets h.index hother
  rw [← h.blocks_eq] at hlast
  have hwork := branchWork_of_linked hc'.blocks hl'.links hl'.root hlast
  rw [h.canonicalWork_eq hrefused, ← h.blocks_eq]
  exact hwork.unique hw.honest hw.work hn hhash

/-- An extension adds the work of the block, also when the block is refused. -/
theorem Extension.canonicalWork_eq (h : Extension env w w' b) :
    w'.chain.canonicalWork = w.chain.canonicalWork + blockWork b := by
  have hcore := h.core
  split at hcore
  · exact congrArg Core.canonicalWork hcore
  · split at hcore
    · exact congrArg Core.canonicalWork hcore
    · exact congrArg Core.canonicalWork hcore

/-! ## The invariants of a call -/

/-- **The fork blocks and the orphans have their hashes in `S`.** -/
structure Chain.Offside (S : List Bytes) (c : Chain) : Prop where
  forks : ∀ h b, c.forkBlocksByHash.lookup h = some b → h ∈ S
  orphans : ∀ h b, c.orphan? h = some b → h ∈ S

theorem Chain.Offside.of_narrows {c' : Chain} (h : c.Offside S) (hn : c.Narrows c') :
    c'.Offside S where
  forks k b hb := h.forks k b (hn.forkHashes k b hb)
  orphans k b hb := h.orphans k b (hn.orphans k b hb)

/-- There are no more fork blocks than hashes. -/
theorem Chain.Offside.few (h : c.Offside S) (hS : S.length + 1 < 10000) :
    c.forkBlocksByHash.keys.length + 1 < 10000 := by
  have hsub : c.forkBlocksByHash.keys ⊆ S := by
    intro k hk
    obtain ⟨b, hb⟩ := GoMap.exists_lookup_of_mem_keys hk
    exact h.forks k b hb
  have hle := (List.subperm_of_subset (AList.keys_nodup _) hsub).length_le
  omega

/-- The steps on record keep the chain linked. -/
def Clean (env : Env) (P : Block → Prop) (w : World) : Prop :=
  ∀ step ∈ w.steps, CoreStep.KeepsLinks env P [] step

theorem Clean.of_suffix (h : Clean env P w') (hs : ∃ l, w'.steps = l ++ w.steps) :
    Clean env P w := by
  obtain ⟨l, hl⟩ := hs
  intro step hstep
  exact h step (by rw [hl]; exact List.mem_append_right l hstep)

/-- **What is carried through a call.** -/
structure Weighed (env : Env) (P : Block → Prop) (S : List Bytes) (w : World) : Prop where
  holds : w.chain.Holds P
  /-- the hashes outside the canonical chain -/
  offside : w.chain.Offside S
  /-- the canonical chain and the cache -/
  sound : Clean env P w → w.chain.Linked ∧ CacheRight P w.chain.workCache

theorem Weighed.chainSound (h : Weighed env P S w) (hS : S.length + 1 < 10000)
    (hclean : Clean env P w) : w.chain.Sound P :=
  ⟨⟨h.holds, (h.sound hclean).1, (h.sound hclean).2⟩, h.offside.few hS⟩

/-- **The canonical work does not fall**, from a state with the invariants, and they hold
again. -/
def Grows (env : Env) (P : Block → Prop) (S : List Bytes) (w w' : World) : Prop :=
  Weighed env P S w → Weighed env P S w' ∧ (∃ l, w'.steps = l ++ w.steps)
    ∧ (Clean env P w' → w.chain.canonicalWork ≤ w'.chain.canonicalWork)

instance : IsPreorder World (Grows env P S) where
  refl _ h := ⟨h, ⟨[], rfl⟩, fun _ => Nat.le_refl _⟩
  trans w w' w'' h h' hw := by
    obtain ⟨hw', ⟨l, hl⟩, hle⟩ := h hw
    obtain ⟨hw'', ⟨l', hl'⟩, hle'⟩ := h' hw'
    refine ⟨hw'', ⟨l' ++ l, by rw [hl', hl, List.append_assoc]⟩, fun hclean => ?_⟩
    exact Nat.le_trans (hle (hclean.of_suffix ⟨l', hl'⟩)) (hle' hclean)

/-- A change that leaves the core alone. -/
theorem Grows.of_core (hsteps : w'.steps = w.steps)
    (hcore : w'.chain.core = w.chain.core) (hholds : w.chain.Holds P → w'.chain.Holds P)
    (hoffside : w.chain.Offside S → w'.chain.Offside S)
    (hcache : Weighed env P S w → Clean env P w → CacheRight P w'.chain.workCache) :
    Grows env P S w w' := by
  intro hw
  have hclean : Clean env P w' → Clean env P w := fun h => h.of_suffix ⟨[], hsteps⟩
  refine ⟨⟨hholds hw.holds, hoffside hw.offside, fun h => ⟨?_, hcache hw (hclean h)⟩⟩, ⟨[], hsteps⟩,
    fun _ => ?_⟩
  · exact (hw.sound (hclean h)).1.congr (congrArg Core.blocks hcore)
  · exact Nat.le_of_eq (congrArg Core.canonicalWork hcore).symm

theorem Aside.grows (h : Aside w w') : Grows env P S w w' := by
  refine .of_core h.steps h.core (fun hw => hw.of_shrinks h.shrinks)
    (fun hw => hw.of_narrows h.shrinks.toNarrows) fun hw hclean k n hn => ?_
  exact (hw.sound hclean).2 k n (h.shrinks.cache k n hn)

section Call

variable (hP : Weighable P) (hS : S.length + 1 < 10000)
include hP hS

omit hP in
theorem Weighing.grows (h : Weighing P w w') : Grows env P S w w' := by
  have hcache : Weighed env P S w → Clean env P w → CacheRight P w'.chain.workCache :=
    fun hw hclean => h.cache (hw.chainSound hS hclean)
  have hholds := h.cacheOnly.holds (P := P)
  obtain ⟨m, n, rfl⟩ := h.cacheOnly
  exact .of_core rfl rfl hholds (fun hw => ⟨hw.forks, hw.orphans⟩) hcache

omit hP in
theorem grows_of_weighing {α : Type} {m : ChainM α} (h : Steps (Weighing P) m w) :
    Steps (Grows env P S) m w :=
  steps_mono h fun _ h => h.grows hS

omit hS in
/-- A move that narrows the maps and does not lower the work. -/
theorem Move.grows (hmove : Move env P (Chain.Aim []) w w') (hnarrows : w.chain.Narrows w'.chain)
    (hholds : w'.chain.Holds P) (hwork : Clean env P w' → w'.chain.Linked →
      w.chain.canonicalWork ≤ w'.chain.canonicalWork) : Grows env P S w w' := by
  intro hw
  have hsuffix := hmove.steps_suffix
  have hlinked : Clean env P w' → w'.chain.Linked := fun hclean =>
    hmove.linked hP.honest hw.holds hclean (hw.sound (hclean.of_suffix hsuffix)).1
  refine ⟨⟨hholds, hw.offside.of_narrows hnarrows, fun hclean => ⟨hlinked hclean, ?_⟩⟩, hsuffix,
    fun hclean => hwork hclean (hlinked hclean)⟩
  intro k n hn
  exact (hw.sound (hclean.of_suffix hsuffix)).2 k n (hnarrows.cache k n hn)

/-- What is known of the tip that a reorganisation goes to. -/
structure Heavy (env : Env) (P : Block → Prop) (S : List Bytes) (w : World) (b : Block) : Prop where
  weighed : Weighed env P S w
  /-- it is a fork block with a complete chain -/
  complete : w.chain.CompleteFork b
  /-- it is not the canonical tip, and its branch has at least the canonical work -/
  work : Clean env P w → (∀ tip, w.chain.tip? = some tip → tip.hash ≠ b.hash)
    ∧ ∃ n, BranchWork P b n ∧ w.chain.canonicalWork ≤ n

theorem heavy_of_betterTip {t : World} (hw : Weighed env P S w)
    (h : betterTip env w = .ret (some b) t) : Heavy env P S t b := by
  have hweighing := (weighing_betterTip hP w).of_ret h
  have hwork := fun hclean => betterTip_work hP (hw.chainSound hS hclean) h
  refine ⟨(hweighing.grows hS hw).1, betterTip_ret h, ?_⟩
  obtain ⟨m, n, rfl⟩ := hweighing.cacheOnly
  exact hwork

theorem weighing_of_heavy (h : Heavy env P S w b) :
    Steps (Grows env P S) (calculateCumulativeWorkLocked env b) w := by
  refine grows_of_weighing hS (weighing_calculateCumulativeWorkLocked hP fun hw => ?_)
  have hPb := hw.holds.mem_entries h.complete.1
  exact ⟨hPb, hw.traced hP hPb h.complete.2⟩

theorem Heavy.keep {t : World} {n : Nat} (h : Heavy env P S w b)
    (hn : calculateCumulativeWorkLocked env b w = .ret n t) : Heavy env P S t b := by
  have hgrows := (weighing_of_heavy hP hS h).of_ret hn
  have hcache := (errless_calculateCumulativeWorkLocked b w).steps.of_ret hn
  refine ⟨(hgrows h.weighed).1, hcache.completeFork h.complete, ?_⟩
  obtain ⟨m, n, rfl⟩ := hcache
  exact h.work

/-- **A reorganisation to the better tip does not lower the canonical work.** -/
theorem grows_reorganizeChainLocked (h : Heavy env P S w b)
    (ha : w.chain.CommonAncestor b ancestor) :
    Steps (Grows env P S) (reorganizeChainLocked env ancestor b) w := by
  intro w' hw' hw
  rcases reorganizes_reorganizeChainLocked (P := P) ancestor b w w' hw' with
    haside | ⟨visited, hbranch, hswitch, hnarrows, hholds⟩
  · exact haside.grows hw
  · have hPb : P b := hw.holds.mem_entries h.complete.1
    have hholds' := hholds hw.holds hPb
    have hmove : Move env P (Chain.Aim []) w w' :=
      .switch ancestor b visited hPb (.inl ⟨h.complete, ha⟩) hbranch hswitch
    refine hmove.grows hP hnarrows hholds' (fun hclean hlinked => ?_) hw
    have hkeeps := hclean _ (hswitch.steps ▸ List.mem_cons_self)
    have hbefore := hclean.of_suffix hmove.steps_suffix
    obtain ⟨hother, n, hn, hle⟩ := h.work hbefore
    have hl := (hw.sound hbefore).1
    have hmeets := Chain.Target.meets hw.holds hP.honest hl (hw.offside.few hS) hPb ⟨h.complete, ha⟩
    rw [hswitch.canonicalWork_branch hP hkeeps.1 hbranch hPb hw.holds hl hmeets hother hholds'
      hlinked hn]
    exact hle

theorem reorgs_grows : Reorgs env (Grows env P S) (Weighed env P S) (Heavy env P S) where
  assume h w' hw' hw := h hw w' hw' hw
  better w := grows_of_weighing hS (weighing_betterTip hP w)
  best hw h := heavy_of_betterTip hP hS hw h
  weigh h := weighing_of_heavy hP hS h
  keep h hn := h.keep hP hS hn
  reorganize h ha := grows_reorganizeChainLocked hP hS h ha

/-! ## AddBlock -/

omit hS in
/-- **A block that is put on the tip** adds its work. -/
theorem grows_appendToTip (hb : P b) (hattach : Attaches env w b) :
    Steps (Grows env P S) (appendToTip env b) w := by
  intro w' hw' hw
  obtain ⟨hext, hnarrows, hholds⟩ := extension_of_appendToTip (P := P) hw'
  have hmove : Move env P (Chain.Aim []) w w' := .extend b hb hattach hext
  refine hmove.grows hP hnarrows (hholds hw.holds hb) (fun _ _ => ?_) hw
  rw [hext.canonicalWork_eq]
  exact Nat.le_add_right _ _

theorem grows_shouldReorgToHeaviestLocked (w : World) :
    Steps (Grows env P S) (shouldReorgToHeaviestLocked env) w := by
  refine steps_chain_bind ?_
  split
  · exact steps_pure _ w
  · exact steps_bind_all (grows_of_weighing hS (weighing_betterTip hP w)) fun _ t =>
      steps_pure _ t

omit hP hS in
theorem Chain.Offside.insertFork (h : c.Offside S) (hb : b.hash ∈ S) :
    (c.insertFork b).Offside S where
  forks k x hx := by
    simp only [Chain.insertFork, GoMap.lookup_insert] at hx
    split at hx
    · next hk => exact hk ▸ hb
    · exact h.forks k x hx
  orphans := h.orphans

omit hP hS in
theorem Chain.Offside.putOrphan (h : c.Offside S) (hb : b.hash ∈ S) (t : Int) :
    (c.putOrphan env b.hash b t).Offside S := by
  unfold Chain.putOrphan
  cases ho : c.orphans with
  | none => exact h
  | some o =>
    refine ⟨h.forks, fun k x hx => ?_⟩
    simp only [Chain.orphan?, Option.bind_some, GoMap.lookup_insert] at hx
    split at hx
    · next hk => exact hk ▸ hb
    · exact h.orphans k x (by simpa [Chain.orphan?, ho] using hx)

omit hP hS in
theorem grows_enterFork (w : World) (hb : P b) (hhash : b.hash ∈ S) :
    Grows env P S w ⟨((w.chain.insertFork b).limitForksAt b.height).limitForksTotal, w.steps⟩ := by
  have hshrinks := (Chain.shrinks_limitForksAt (w.chain.insertFork b) b.height).trans
    (Chain.shrinks_limitForksTotal _)
  refine .of_core rfl (Chain.core_enterFork _ _) (fun h => (h.insertFork hb).of_shrinks hshrinks)
    (fun h => (h.insertFork hhash).of_narrows hshrinks.toNarrows) fun hw hclean k n hn => ?_
  exact (hw.sound hclean).2 k n (hshrinks.cache k n hn)

omit hP hS in
theorem grows_putOrphan (w : World) (now : Int) (hb : P b) (hhash : b.hash ∈ S) :
    Grows env P S w ⟨w.chain.putOrphan env b.hash b now, w.steps⟩ := by
  refine .of_core rfl (core_putOrphan _ _ _ _) (fun h => h.putOrphan hb now)
    (fun h => h.putOrphan hhash now) fun hw hclean => ?_
  have hcache : (w.chain.putOrphan env b.hash b now).workCache = w.chain.workCache := by
    unfold Chain.putOrphan
    split <;> rfl
  rw [hcache]
  exact (hw.sound hclean).2

/-- **`AddBlock` goes through `Grows`.** -/
theorem carries_grows : Carries env (fun b => P b ∧ b.hash ∈ S) (Grows env P S) where
  orphan ho h w' hw' hw := by
    obtain ⟨hPb, hhash⟩ := hw.holds.orphans _ _ ho
    exact h ⟨hPb, hhash ▸ hw.offside.orphans _ _ ho⟩ hhash w' hw' hw
  aside h := h.grows
  learn _ hb := .of_core rfl rfl (fun h => h.learn fun _ hx => List.mem_singleton.mp hx ▸ hb.1)
    (fun h => ⟨h.forks, h.orphans⟩) fun hw hclean => (hw.sound hclean).2
  enterFork w hb := grows_enterFork w hb.1 hb.2
  putOrphan w now hb := grows_putOrphan w now hb.1 hb.2
  append hb hattach := grows_appendToTip hP hb.1 hattach
  compare w := grows_shouldReorgToHeaviestLocked hP hS w
  heaviest := (reorgs_grows hP hS).reorganizeToHeaviestLocked
  auto := (reorgs_grows hP hS).autoReorgIfNeededLocked

end Call

/-- The hashes of the fork blocks and of the orphans. -/
def Chain.offsideHashes (c : Chain) : List Bytes :=
  c.forkBlocksByHash.keys ++ (c.orphans.map (·.pool.keys)).getD []

theorem Chain.offside_offsideHashes (c : Chain) (h : Bytes) : c.Offside (h :: c.offsideHashes) where
  forks k b hb :=
    List.mem_cons_of_mem h (List.mem_append_left _ (GoMap.mem_keys_of_lookup hb))
  orphans k b hb := by
    obtain ⟨o, ho, hb⟩ := Option.bind_eq_some_iff.mp hb
    rw [Chain.offsideHashes, ho]
    exact List.mem_cons_of_mem h (List.mem_append_right _ (GoMap.mem_keys_of_lookup hb))

section AddBlock

variable (hP : Weighable P) (hb : P b) (hfew : w.chain.offsideHashes.length + 2 < 10000)
  (h : (addBlock env b w).state? = some w')
include hP hb hfew h

theorem grows_addBlock : Grows env P (b.hash :: w.chain.offsideHashes) w w' := by
  have hS : (b.hash :: w.chain.offsideHashes).length + 1 < 10000 := by
    exact hfew
  exact carries_addBlock (carries_grows hP hS) (fun _ => ⟨hb, List.mem_cons_self⟩) w w' h

/-- **`AddBlock` does not lower the canonical work** of a linked chain of honest blocks, if the
block is honest, there are few blocks outside the canonical chain, and the steps that are taken
keep the chain linked. -/
theorem addBlock_work_le (hw : w.chain.Steady P) (hclean : Clean env P w') :
    w'.chain.Steady P ∧ w.chain.canonicalWork ≤ w'.chain.canonicalWork := by
  obtain ⟨hweighed, -, hle⟩ := grows_addBlock hP hb hfew h
    ⟨hw.holds, w.chain.offside_offsideHashes b.hash, fun _ => ⟨hw.linked, hw.cache⟩⟩
  exact ⟨⟨hweighed.holds, (hweighed.sound hclean).1, (hweighed.sound hclean).2⟩, hle hclean⟩

end AddBlock

end NogoChain
