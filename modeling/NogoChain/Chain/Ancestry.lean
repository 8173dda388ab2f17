import NogoChain.Chain.Linked

/-!
# The walks along parent links

Three loops of the chain go from a block to its parent until they find what they look for: the
one that adds work up, the one that looks for the common ancestor, and the one that collects a
branch. None of them counts its steps or notes where it has been; only the completeness check
does. Whether they end is thus a question about the blocks: on blocks whose heights are honest
every step goes down, and on a linked chain the fallback by height goes down too. Two fork
blocks that name each other as parent, at one height, keep all three going for ever.

For the common ancestor there is more to say. The walk visits one block at each height, so that
a canonical hash it meets is the highest one that can be met along parent links; but at a block
whose parent it does not know the source **guesses** that the branch left the canonical chain
two heights below, and returns a block that need not be an ancestor at all.
-/

namespace NogoChain

open Chain

variable {env : Env} {P : Block → Prop} {c : Chain}

/-! ## Where the steps lead -/

variable {b p : Block} {h : Bytes}

/-- The loop that adds work up goes to a block with the hash of the parent, or to the canonical
block one height below. -/
theorem Chain.workStep_next (h : c.workStep b = .next p) :
    c.forkBlocksByHash.lookup b.header.prevHash = some p
      ∨ c.blocksByHash.lookup b.header.prevHash = some p
      ∨ (b.height ≠ 0 ∧ c.blocks[(b.height - 1).toNat]? = some p) := by
  unfold workStep at h
  split at h
  · cases h
  · split at h
    · cases h
    · next hstop =>
      have hheight : b.height ≠ 0 := fun hzero => hstop (.inr hzero)
      split at h
      · next q hq => exact .inl (WalkStep.next.inj h ▸ hq)
      · cases hbelow : c.blocks[(b.height - 1).toNat]? with
        | none =>
          simp only [hbelow] at h
          split at h
          · next q hq =>
            split at h
            · exact .inr (.inl (WalkStep.next.inj h ▸ hq))
            · cases h
          · cases h
        | some block =>
          simp only [hbelow] at h
          split at h
          · next q hq =>
            split at h
            · exact .inr (.inl (WalkStep.next.inj h ▸ hq))
            · exact .inr (.inr ⟨hheight, congrArg some (WalkStep.next.inj h)⟩)
          · exact .inr (.inr ⟨hheight, congrArg some (WalkStep.next.inj h)⟩)

/-- The loop that collects a branch goes to the known parent. -/
theorem branchStep_next {refuse : Block → Block → Option BranchEnd} {height : UInt64}
    (h : branchStep refuse c height b = .next p) : c.knownParent? b = some p := by
  unfold branchStep at h
  split at h
  · split at h
    · cases h
    · next q hq =>
      split at h
      · cases h
      · exact WalkStep.next.inj h ▸ hq
  · cases h

/-! ## The walks end -/

/-- The blocks that the first two loops go to. -/
def Chain.walkBlocks (c : Chain) : List Block :=
  c.forkBlocksByHash.entries.map (·.2) ++ c.blocksByHash.entries.map (·.2) ++ c.blocks

/-- The blocks that the third loop goes to. -/
def Chain.branchBlocks (c : Chain) : List Block :=
  c.blocksByHash.entries.map (·.2) ++ c.forkBlocks.entries.flatMap (·.2)

theorem Chain.length_walkBlocks (c : Chain) : c.walkBlocks.length + 1 = c.walkBound := by
  simp [walkBlocks, walkBound, Nat.add_assoc]

theorem Chain.length_branchBlocks (c : Chain) : c.branchBlocks.length + 1 = c.branchBound := by
  simp [branchBlocks, branchBound]

theorem mem_values_of_lookup {m : GoMap Bytes Block}
    (hb : m.lookup h = some b) : b ∈ m.entries.map (·.2) :=
  List.mem_map.mpr ⟨⟨h, b⟩, GoMap.mem_entries_iff.mpr hb, rfl⟩

theorem Chain.mem_walkBlocks
    (hb : c.forkBlocksByHash.lookup h = some b ∨ c.blocksByHash.lookup h = some b) :
    b ∈ c.walkBlocks :=
  List.mem_append_left _ (List.mem_append.mpr (hb.imp mem_values_of_lookup mem_values_of_lookup))

theorem Chain.mem_branchBlocks (hp : c.knownParent? b = some p) : p ∈ c.branchBlocks := by
  unfold knownParent? at hp
  split at hp
  · next q hq => exact List.mem_append_left _ (Option.some.inj hp ▸ mem_values_of_lookup hq)
  · have hmem := List.mem_of_find?_eq_some hp
    refine List.mem_append_right _ (List.mem_flatMap.mpr ?_)
    obtain ⟨l, hl, hmem⟩ := GoMap.exists_lookup_of_mem_getD hmem
    exact ⟨⟨_, l⟩, GoMap.mem_entries_iff.mpr hl, hmem⟩

/-- **A walk that goes down ends**, within one step more than there are blocks to go to. -/
theorem walk_isSome_of_height_lt {β : Type} {step : Block → WalkStep Block β} {all : List Block}
    (hstep : ∀ b p, P b → step b = .next p → P p ∧ p ∈ all ∧ p.height.toNat < b.height.toNat)
    (hb : P b) : (walk step (all.length + 1) b).isSome :=
  walk_isSome (fun b => b.height.toNat) all hstep hb (Nat.lt_succ_of_le List.countP_le_length)

variable {t : Block}

section Ends

variable (hc : c.Holds P) (ht : blockTree.Honest P)
include hc ht

omit hc in
theorem height_lt_of_hash (hb : P b) (hp : P p ∧ p.hash = b.header.prevHash) :
    p.height.toNat < b.height.toNat := by
  have hsucc : b.height.toNat = p.height.toNat + 1 := ht.height_succ hp.1 hb hp.2.symm
  omega

/-- The loop of `calculateCumulativeWorkLocked` ends on a linked chain. -/
theorem Chain.Linked.workStep_ends (hl : c.Linked) (hb : P b) :
    (walk c.workStep c.walkBound b).isSome := by
  rw [← c.length_walkBlocks]
  refine walk_isSome_of_height_lt (fun b p hb hs => ?_) hb
  rcases workStep_next hs with hp | hp | ⟨hzero, hp⟩
  · have hparent := hc.forkHashes _ _ hp
    exact ⟨hparent.1, mem_walkBlocks (.inl hp), height_lt_of_hash ht hb hparent⟩
  · have hparent := hc.known _ _ hp
    exact ⟨hparent.1, mem_walkBlocks (.inr hp), height_lt_of_hash ht hb hparent⟩
  · -- the fallback by height
    obtain ⟨hlt, rfl⟩ := List.getElem?_eq_some_iff.mp hp
    have hmem : c.blocks[(b.height - 1).toNat] ∈ c.blocks := List.getElem_mem hlt
    have hle : (1 : UInt64) ≤ b.height := by
      exact Nat.pos_of_ne_zero fun h => hzero (UInt64.toNat.inj h)
    refine ⟨hc.blocks _ hmem, List.mem_append_right _ hmem, ?_⟩
    rw [hl.height_eq _ hlt, UInt64.toNat_sub_of_le _ _ hle]
    rw [UInt64.le_iff_toNat_le] at hle
    simp only [UInt64.toNat_one] at hle ⊢
    omega

/-- The loop of `findCommonAncestorLocked` ends. -/
theorem Chain.Holds.ancestorStep_ends (hb : P b) : (walk c.ancestorStep c.walkBound b).isSome := by
  rw [← c.length_walkBlocks]
  refine walk_isSome_of_height_lt (fun b p hb hs => ?_) hb
  have hparent := hc.ancestorStep hs
  exact ⟨hparent.1, mem_walkBlocks (ancestorStep_next hs), height_lt_of_hash ht hb hparent⟩

/-- The loops of `reorganizeChainLocked` end. -/
theorem Chain.Holds.branchStep_ends (refuse : Block → Block → Option BranchEnd) (height : UInt64)
    (hb : P b) : (walk (branchStep refuse c height) c.branchBound b).isSome := by
  rw [← c.length_branchBlocks]
  refine walk_isSome_of_height_lt (fun b p hb hs => ?_) hb
  have hparent := hc.knownParent (branchStep_next hs)
  exact ⟨hparent.1, mem_branchBlocks (branchStep_next hs), height_lt_of_hash ht hb hparent⟩

end Ends

/-- **The ancestry walks end**: after every run by honest blocks, from every honest block, and
within one step more than there are blocks to go to. For the loop that adds work up, which falls
back to heights, all steps of the run have to keep the chain linked. -/
theorem ancestry_walks_end (ht : blockTree.Honest P) (hgenesis : P (createGenesisBlock env))
    {calls : List Call} {w : World} (hcalls : ∀ call ∈ calls, call.Brings P)
    (h : runFromStart env calls = some w) {b : Block} (hb : P b) :
    ((∀ step ∈ w.steps, CoreStep.KeepsLinks env P calls step) →
        (walk w.chain.workStep w.chain.walkBound b).isSome)
      ∧ (walk w.chain.ancestorStep w.chain.walkBound b).isSome
      ∧ ∀ refuse ancestorHeight,
        (walk (branchStep refuse w.chain ancestorHeight) w.chain.branchBound b).isSome := by
  obtain ⟨hc, hl⟩ := holds_linked_of_run ht hgenesis hcalls h
  exact ⟨fun hsteps => (hl hsteps).workStep_ends hc ht hb,
    hc.ancestorStep_ends ht hb, fun refuse height => hc.branchStep_ends ht refuse height hb⟩

/-- `ancestry_walks_end` after the switch to a rival branch, from a block that is not stored. -/
theorem ancestry_walks_end_rivalBranch :
    ∃ w, runFromStart sampleEnv (rivalBranch.map .addBlock) = some w
      ∧ (walk w.chain.workStep w.chain.walkBound (numberedBlock 4 3 3 10)).isSome
      ∧ (walk w.chain.ancestorStep w.chain.walkBound (numberedBlock 4 3 3 10)).isSome := by
  refine Prog.exists_and_of (fun w => ∀ step ∈ w.steps, step.linksChecked sampleEnv = true)
    (by decide +kernel) fun w hw h => ?_
  have hhonest : blockTree.Honest
      (· ∈ createGenesisBlock sampleEnv :: numberedBlock 4 3 3 10 :: rivalBranch) :=
    honest_of_list (by decide +kernel)
  have hends := ancestry_walks_end hhonest List.mem_cons_self
    (brings_addBlocks fun b hb => List.mem_cons_of_mem _ (List.mem_cons_of_mem _ hb)) hw
    (List.mem_cons_of_mem _ List.mem_cons_self)
  exact ⟨hends.1 fun step hstep => CoreStep.keepsLinks_of_checked (by simp) (h step hstep),
    hends.2.1⟩

/-- **Two blocks that name each other.** They are taken in as fork blocks, and from then on none
of the three loops ends from either of them. -/
theorem cyclic_fork_never_ends :
    ∃ w, runFromStart sampleEnv [.addBlock (numberedBlock 1 0 1 10),
        .addBlock (numberedBlock 7 8 1 10), .addBlock (numberedBlock 8 7 1 10)] = some w
      ∧ ∀ n, walk w.chain.workStep n (numberedBlock 7 8 1 10) = none
        ∧ walk w.chain.ancestorStep n (numberedBlock 7 8 1 10) = none
        ∧ walk (branchStep (refuseSeal sampleEnv) w.chain 0) n (numberedBlock 7 8 1 10) = none := by
  refine Prog.exists_and_of (fun w =>
    ((w.chain.workStep (numberedBlock 7 8 1 10)).next? = some (numberedBlock 8 7 1 10)
      ∧ (w.chain.workStep (numberedBlock 8 7 1 10)).next? = some (numberedBlock 7 8 1 10))
      ∧ ((w.chain.ancestorStep (numberedBlock 7 8 1 10)).next? = some (numberedBlock 8 7 1 10)
      ∧ (w.chain.ancestorStep (numberedBlock 8 7 1 10)).next? = some (numberedBlock 7 8 1 10))
      ∧ (branchStep (refuseSeal sampleEnv) w.chain 0 (numberedBlock 7 8 1 10)).next?
        = some (numberedBlock 8 7 1 10)
      ∧ (branchStep (refuseSeal sampleEnv) w.chain 0 (numberedBlock 8 7 1 10)).next?
        = some (numberedBlock 7 8 1 10))
    (by decide +kernel) fun w hw h => ?_
  obtain ⟨hwork, hancestor, hbranch⟩ := h
  exact fun n => ⟨walk_eq_none_of_pair hwork n, walk_eq_none_of_pair hancestor n,
    walk_eq_none_of_pair hbranch n⟩

/-! ## The common ancestor -/

/-- Every block that the chain holds. -/
def Chain.storedBlocks (c : Chain) : List Block :=
  c.walkBlocks ++ c.forkBlocks.entries.flatMap (·.2)

/-- **Reached along parent links**, from `t` through stored blocks. -/
inductive Chain.Reached (c : Chain) (t : Block) : Block → Prop
  | start : c.Reached t t
  /-- a stored block with the hash of the parent -/
  | parent {b p : Block} (hb : c.Reached t b) (hp : p ∈ c.storedBlocks)
      (hhash : p.hash = b.header.prevHash) : c.Reached t p

/-- The hash is reached from `t`. -/
def Chain.ReachesHash (c : Chain) (t : Block) (h : Bytes) : Prop := ∃ x, c.Reached t x ∧ x.hash = h

theorem Chain.Holds.stored (hc : c.Holds P) (hb : b ∈ c.storedBlocks) : P b := by
  rcases List.mem_append.mp hb with hb | hb
  · rcases List.mem_append.mp hb with hb | hb
    · rcases List.mem_append.mp hb with hb | hb
      · obtain ⟨⟨h, x⟩, hx, rfl⟩ := List.mem_map.mp hb
        exact (hc.forkHashes h x (GoMap.mem_entries_iff.mp hx)).1
      · obtain ⟨⟨h, x⟩, hx, rfl⟩ := List.mem_map.mp hb
        exact (hc.known h x (GoMap.mem_entries_iff.mp hx)).1
    · exact hc.blocks b hb
  · exact hc.mem_entries hb

/-- The blocks that the walk visits are reached. -/
theorem Chain.reached_of_walk {n : Nat} {visited : List Block} {d : Except Fault (Option Nat)}
    (hc : c.Holds P) (hb : c.Reached t b) (h : walk c.ancestorStep n b = some (visited, d)) :
    ∀ x ∈ visited, c.Reached t x := by
  refine walk_forall (fun x p hx hs => ?_) hb h
  exact .parent hx (List.mem_append_left _ (mem_walkBlocks (ancestorStep_next hs)))
    (hc.ancestorStep hs).2

/-- What is reached descends from `t`. -/
theorem Chain.Reached.descends (hc : c.Holds P) (ht : P t) {x : Block} (h : c.Reached t x) :
    ∃ l, blockTree.Descends P (t :: l) ∧ (t :: l).getLast? = some x := by
  induction h with
  | start => exact ⟨[], ⟨fun b hb => List.mem_singleton.mp hb ▸ ht, .singleton t⟩, rfl⟩
  | @parent b p _ hp hhash ih =>
    obtain ⟨l, hl, hlast⟩ := ih
    refine ⟨l ++ [p], ⟨fun y hy => ?_, ?_⟩, ?_⟩
    · rw [← List.cons_append] at hy
      rcases List.mem_append.mp hy with hy | hy
      · exact hl.mem y hy
      · exact List.mem_singleton.mp hy ▸ hc.stored hp
    · refine List.isChain_append.mpr ⟨hl.links, .singleton p, fun y hy z hz => ?_⟩
      rw [hlast, Option.mem_some_iff] at hy
      rw [← Option.some.inj hz, ← hy]
      exact hhash
    · rw [← List.cons_append, List.getLast?_concat]

/-- On a linked chain the search from the top finds the highest. -/
theorem Chain.Linked.height_le_of_find? (hl : c.Linked) {p : Block → Bool} {a a' : Block}
    (h : c.blocks.reverse.find? p = some a) (ha' : a' ∈ c.blocks) (hp : p a' = true) :
    a'.height ≤ a.height := by
  obtain ⟨-, above, below, hsplit, hnot⟩ := List.find?_eq_some_iff_append.mp h
  have hblocks : c.blocks = below.reverse ++ a :: above.reverse := by
    rw [← List.reverse_reverse c.blocks, hsplit]
    simp
  have hup : c.blocks.Pairwise fun x y => x.height ≤ y.height := by
    refine List.pairwise_iff_getElem.mpr fun i j hi hj hij => ?_
    rw [UInt64.le_iff_toNat_le, hl.height_eq i hi, hl.height_eq j hj]
    omega
  rw [hblocks] at ha' hup
  rcases List.mem_append.mp ha' with hbelow | hrest
  · exact (List.pairwise_append.mp hup).2.2 a' hbelow a List.mem_cons_self
  · rcases List.mem_cons.mp hrest with rfl | habove
    · exact UInt64.le_refl _
    · have hfalse := hnot a' (List.mem_reverse.mp habove)
      rw [hp] at hfalse
      cases hfalse

section Ancestor

variable (hc : c.Holds P) (ht : blockTree.Honest P) (hl : c.Linked)
include hc ht hl

/-- **Common ancestor.** What is found for a complete fork tip is canonical, is reached from the
tip, and is the highest canonical block that is reached. -/
theorem Chain.CommonAncestor.highest {a : Block} (hPt : P t) (hreach : c.Reaches t)
    (h : c.CommonAncestor t a) :
    a ∈ c.blocks ∧ c.ReachesHash t a.hash
      ∧ ∀ a' ∈ c.blocks, c.ReachesHash t a'.hash → a'.height ≤ a.height := by
  obtain ⟨visited, d, hwalk, hfind⟩ := h
  obtain rfl := hreach.divergence hc ht hl hPt hwalk
  have hdescends := (hc.walk_descends hPt hwalk).1
  obtain ⟨l, rfl⟩ := walk_eq_cons hwalk
  have hnone : c.guessedAncestor none = [] := rfl
  rw [hnone, List.append_nil] at hfind
  have ha := List.mem_reverse.mp (List.mem_of_find?_eq_some hfind)
  have hmet : a.hash ∈ (t :: l).map (·.hash) := by simpa using List.find?_some hfind
  obtain ⟨x, hx, hxhash⟩ := List.mem_map.mp hmet
  have hxheight : x.height.toNat = a.height.toNat :=
    (ht.hash_inj (hdescends.mem x hx) (hc.blocks a ha) hxhash).1
  refine ⟨ha, ⟨x, reached_of_walk hc .start hwalk x hx, hxhash⟩, ?_⟩
  rintro a' ha' ⟨y, hy, hyhash⟩
  obtain ⟨l', hl', hlast⟩ := hy.descends hc hPt
  have hmem : y ∈ t :: l' := List.mem_of_getLast? hlast
  have hyheight : y.height.toNat = a'.height.toNat :=
    (ht.hash_inj (hl'.mem y hmem) (hc.blocks a' ha') hyhash).1
  by_contra hlow
  have hlt : a.height.toNat < a'.height.toNat := UInt64.lt_iff_toNat_lt.mp (UInt64.not_le.mp hlow)
  -- the walk has visited a block at the height of `a'`, and it has the hash of `a'`
  have htop : y.height.toNat ≤ t.height.toNat := by
    rcases List.mem_cons.mp hmem with rfl | htail
    · exact Nat.le_refl _
    · exact Nat.le_of_lt (hl'.height_lt ht htail)
  have hbelow : blockTree.height x ≤ y.height.toNat := by
    change x.height.toNat ≤ _
    omega
  obtain ⟨z, hz, hzheight⟩ := hdescends.exists_height ht hx hbelow htop
  have hzhash : z.hash = y.hash := hdescends.hash_eq ht hl' rfl hz hmem hzheight
  refine hlow (hl.height_le_of_find? hfind ha' ?_)
  exact decide_eq_true (List.mem_map.mpr ⟨z, hz, hzhash.trans hyhash⟩)

end Ancestor

/-- **The common ancestor is right** for complete fork tips, after every run by honest blocks all
of whose steps keep the chain linked: it is canonical, it is reached from the tip through stored
blocks, and no higher canonical block is. -/
theorem findCommonAncestorLocked_highest (ht : blockTree.Honest P)
    (hgenesis : P (createGenesisBlock env)) {calls : List Call} {w : World}
    (hcalls : ∀ call ∈ calls, call.Brings P) (h : runFromStart env calls = some w)
    (hsteps : ∀ step ∈ w.steps, CoreStep.KeepsLinks env P calls step) {t a : Block} {w' : World}
    (hPt : P t) (hsize : w.chain.forkBlocksByHash.keys.length + 1 < 10000)
    (hcomplete : w.chain.isForkChainCompleteLocked t = some true)
    (hfound : findCommonAncestorLocked t w = .ret a w') :
    a ∈ w.chain.blocks ∧ w.chain.ReachesHash t a.hash
      ∧ ∀ a' ∈ w.chain.blocks, w.chain.ReachesHash t a'.hash → a'.height ≤ a.height := by
  obtain ⟨hc, hl⟩ := holds_linked_of_run ht hgenesis hcalls h
  exact CommonAncestor.highest hc ht (hl hsteps) hPt (hc.reaches hsize hcomplete)
    (findCommonAncestorLocked_ret hfound).2

/-- The calls of two runs: four blocks one after another, and a light block of height 2 on the
first. -/
def lightFork : List Block :=
  [numberedBlock 1 0 1 10, numberedBlock 2 1 2 10, numberedBlock 3 2 3 10, numberedBlock 4 3 4 10,
    numberedBlock 9 1 2 5]

/-- `findCommonAncestorLocked_highest` at the light block, which left the chain at block 1. -/
theorem findCommonAncestorLocked_highest_lightFork :
    ∃ w w', runFromStart sampleEnv (lightFork.map .addBlock) = some w
      ∧ findCommonAncestorLocked (numberedBlock 9 1 2 5) w = .ret (numberedBlock 1 0 1 10) w'
      ∧ w.chain.ReachesHash (numberedBlock 9 1 2 5) (numberedBlock 1 0 1 10).hash := by
  obtain ⟨w, hw, hsteps, hsize, hcomplete, w', hfound, -⟩ :
      ∃ w, runFromStart sampleEnv (lightFork.map .addBlock) = some w
      ∧ (∀ step ∈ w.steps, step.linksChecked sampleEnv = true)
      ∧ w.chain.forkBlocksByHash.keys.length + 1 < 10000
      ∧ w.chain.isForkChainCompleteLocked (numberedBlock 9 1 2 5) = some true
      ∧ ∃ w', findCommonAncestorLocked (numberedBlock 9 1 2 5) w = .ret (numberedBlock 1 0 1 10) w'
        ∧ True := by
    decide +kernel
  have hhonest : blockTree.Honest (· ∈ createGenesisBlock sampleEnv :: lightFork) :=
    honest_of_list (by decide +kernel)
  have hhighest := findCommonAncestorLocked_highest hhonest List.mem_cons_self
    (brings_addBlocks fun b hb => List.mem_cons_of_mem _ hb) hw
    (fun step hstep => CoreStep.keepsLinks_of_checked (by simp) (hsteps step hstep))
    (by decide) hsize hcomplete hfound
  exact ⟨w, w', hw, hfound, hhighest.2.1⟩

/-- **A guessed ancestor.** A light block of height 3 that names the genesis block as its parent:
the block found is block 1, which is not an ancestor of it. -/
theorem guessed_ancestor_not_reached :
    ∃ w w', runFromStart sampleEnv [.addBlock (numberedBlock 1 0 1 10),
        .addBlock (numberedBlock 2 1 2 10), .addBlock (numberedBlock 3 2 3 10),
        .addBlock (numberedBlock 4 3 4 10), .addBlock (numberedBlock 9 0 3 5)] = some w
      ∧ numberedBlock 9 0 3 5 ∈ w.chain.forkBlocks.entries.flatMap (·.2)
      ∧ findCommonAncestorLocked (numberedBlock 9 0 3 5) w = .ret (numberedBlock 1 0 1 10) w'
      ∧ ¬ w.chain.ReachesHash (numberedBlock 9 0 3 5) (numberedBlock 1 0 1 10).hash := by
  simp only [exists_and_left]
  refine Prog.exists_and_of (fun w =>
    numberedBlock 9 0 3 5 ∈ w.chain.forkBlocks.entries.flatMap (·.2)
      ∧ ∃ w', findCommonAncestorLocked (numberedBlock 9 0 3 5) w = .ret (numberedBlock 1 0 1 10) w'
        ∧ ∀ p ∈ w.chain.storedBlocks, p.hash ≠ []
          ∧ (p.hash = List.replicate 32 0 → p.header.prevHash = [])) (by decide +kernel)
            fun w _ h => ?_
  obtain ⟨hmem, w', hfound, hstored⟩ := h
  refine ⟨hmem, w', hfound, ?_⟩
  -- from the light block only the genesis block is reached, which has no parent
  have hreached : ∀ x, w.chain.Reached (numberedBlock 9 0 3 5) x →
      x = numberedBlock 9 0 3 5 ∨ (x.hash = List.replicate 32 0 ∧ x.header.prevHash = []) := by
    intro x hx
    induction hx with
    | start => exact .inl rfl
    | @parent b p _ hp hhash ih =>
      rcases ih with rfl | ⟨-, hnil⟩
      · exact .inr ⟨hhash, (hstored p hp).2 hhash⟩
      · exact absurd (hhash.trans hnil) (hstored p hp).1
  rintro ⟨x, hx, hhash⟩
  rcases hreached x hx with rfl | ⟨hzero, -⟩
  · exact absurd hhash (by decide)
  · exact absurd (hzero.symm.trans hhash) (by decide)

end NogoChain
