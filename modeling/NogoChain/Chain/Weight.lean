import NogoChain.Chain.Ancestry

/-!
# AddBlock does not make the chain lighter

A reorganisation inside `AddBlock` goes to the tip with the most work, and the work of a tip is
computed along a walk of its own, through a cache. For honest blocks that walk, the walk to the
common ancestor and the walk that collects the branch meet the same hashes; so the work that
was compared is the work of the chain that results, and the canonical work does not fall.

The cache is right as long as work is computed for complete branches only, which takes that the
completeness check does not run out of steps: the fork blocks, the orphans and the new block
are fewer than 9999.
-/

namespace NogoChain

open Chain Prog

variable {env : Env} {P : Block → Prop} {c : Chain}

/-! ## Work of branches -/

/-- The work of a block. -/
def blockWork (b : Block) : Nat := workForDifficultyBits b.header.difficultyBits

/-- **Blocks whose branches have a weight**: they are honest, the hash determines the difficulty
bits, and no hash is empty. -/
structure Weighable (P : Block → Prop) : Prop where
  honest : blockTree.Honest P
  /-- the hash determines the difficulty bits -/
  bits : ∀ {a b}, P a → P b → a.hash = b.hash → a.header.difficultyBits = b.header.difficultyBits
  /-- every block has a hash -/
  hash_ne : ∀ {b}, P b → b.hash ≠ []

variable {b : Block} {l : List Block} {w t : World}

theorem Weighable.work (h : Weighable P) {a : Block} (ha : P a) (hb : P b)
    (hhash : blockTree.hash a = blockTree.hash b) : blockWork a = blockWork b := by
  unfold blockWork
  rw [h.bits ha hb hhash]

/-- A finite set of blocks is weighable if every two of its blocks agree. -/
theorem weighable_of_list (h : ∀ a ∈ l, ∀ b ∈ l,
      (b.header.prevHash = a.hash → b.height.toNat = a.height.toNat + 1)
        ∧ (a.hash = b.hash → a.height = b.height ∧ a.header.prevHash = b.header.prevHash))
    (hbits : ∀ a ∈ l, ∀ b ∈ l, a.hash = b.hash → a.header.difficultyBits = b.header.difficultyBits)
    (hhash : ∀ b ∈ l, b.hash ≠ []) : Weighable (· ∈ l) :=
  ⟨honest_of_list h, fun ha hb => hbits _ ha _ hb, fun hb => hhash _ hb⟩

/-- The branch of a block weighs so much. -/
abbrev BranchWork (P : Block → Prop) : Block → Nat → Prop := blockTree.Weighs P blockWork

theorem calculateChainWorkLocked_append_singleton (l : List Block) (b : Block) :
    calculateChainWorkLocked (l ++ [b]) = calculateChainWorkLocked l + blockWork b := by
  unfold calculateChainWorkLocked
  rw [List.map_append, List.sum_append]
  rfl

/-- The work of a linked list of blocks is that of the branch of its last. -/
theorem branchWork_of_linked (hP : ∀ b ∈ l, P b) (hlinks : l.IsChain IsParent)
    (hroot : ∀ b ∈ l.head?, b.height = 0) (hb : l.getLast? = some b) :
    BranchWork P b (calculateChainWorkLocked l) := by
  induction l using List.reverseRecOn generalizing b with
  | nil => cases hb
  | append_singleton l x ih =>
    rw [List.getLast?_concat] at hb
    cases hb
    rw [calculateChainWorkLocked_append_singleton]
    have hx : P x := hP x (List.mem_append_right l List.mem_cons_self)
    obtain ⟨hl, -, hjoin⟩ := List.isChain_append.mp hlinks
    cases hlast : l.getLast? with
    | none =>
      rw [List.getLast?_eq_none_iff.mp hlast] at hroot ⊢
      have hzero : x.height = 0 := hroot x rfl
      have hheight : blockTree.height x = 0 := congrArg UInt64.toNat hzero
      rw [show calculateChainWorkLocked [] = 0 from rfl, Nat.zero_add]
      exact .root hx hheight
    | some p =>
      have hne : l ≠ [] := fun hnil => by
        rw [hnil] at hlast
        cases hlast
      refine .child hx (hjoin p hlast x rfl).1.symm (ih ?_ hl ?_ hlast)
      · exact fun y hy => hP y (List.mem_append_left _ hy)
      · intro y hy
        refine hroot y ?_
        rw [List.head?_append_of_ne_nil _ hne]
        exact hy

/-- **A cache that is right**: it has the work of branches. -/
def CacheRight (P : Block → Prop) (cache : GoMap Bytes Nat) : Prop :=
  ∀ h n, cache.lookup h = some n → ∃ b, b.hash = h ∧ BranchWork P b n

theorem CacheRight.insert {cache : GoMap Bytes Nat} (h : CacheRight P cache) {n : Nat}
    (hb : BranchWork P b n) : CacheRight P (cache.insert b.hash n) := by
  intro k m hm
  rw [GoMap.lookup_insert] at hm
  split at hm
  · next hk =>
    cases hm
    exact ⟨b, hk.symm, hb⟩
  · exact h k m hm

/-! ## The walk that adds work up -/

/-- **A linked chain of blocks with `P`**, whose cache is right. -/
structure Chain.Steady (P : Block → Prop) (c : Chain) : Prop where
  holds : c.Holds P
  linked : c.Linked
  cache : CacheRight P c.workCache

theorem Fresh.steady (h : Fresh env w) (hP : P (createGenesisBlock env)) : w.chain.Steady P where
  holds := h.holds hP
  linked := h.linked
  cache k n hn := by
    rw [h.workCache] at hn
    cases hn

/-- **A chain on which work can be computed.** -/
structure Chain.Sound (P : Block → Prop) (c : Chain) : Prop extends Steady P c where
  /-- the completeness check does not run out of steps -/
  few : c.forkBlocksByHash.keys.length + 1 < 10000

/-- A known parent on the active chain is canonical. -/
theorem exists_canonical_of_active {h : Bytes} (hactive : c.isParentOnActiveChainLocked h = true) :
    (∃ q, c.blocksByHash.lookup h = some q) ∧ ∃ x ∈ c.blocks, x.hash = h := by
  unfold isParentOnActiveChainLocked at hactive
  split at hactive
  · cases hactive
  · next q hq =>
    split at hactive
    · cases hactive
    · next x hx =>
      refine ⟨⟨q, hq⟩, x, List.mem_of_getElem? hx, ?_⟩
      simpa using hactive

/-- The parent as the walk looks it up: among the fork blocks, among the known blocks below the
length of the chain, and at last the canonical block one height below, whatever its hash. -/
def Chain.workParent? (c : Chain) (b : Block) : Option Block :=
  match c.forkBlocksByHash.lookup b.header.prevHash with
  | some p => some p
  | none =>
    match c.blocksByHash.lookup b.header.prevHash with
    | some p => if p.height < c.length64 then some p else c.blocks[(b.height - 1).toNat]?
    | none => c.blocks[(b.height - 1).toNat]?

theorem Chain.workStep_eq (hcache : c.workCache.lookup b.hash = none)
    (hstop : ¬ (b.header.prevHash = [] ∨ b.height = 0)) :
    c.workStep b = match c.workParent? b with
      | some p => .next p
      | none => .done none := by
  unfold workStep workParent?
  rw [hcache]
  rw [if_neg hstop]
  cases c.forkBlocksByHash.lookup b.header.prevHash with
  | some p => rfl
  | none =>
    cases c.blocksByHash.lookup b.header.prevHash with
    | none =>
      cases c.blocks[(b.height - 1).toNat]? with
      | none => rfl
      | some p => rfl
    | some p =>
      dsimp only
      split
      · rfl
      · cases c.blocks[(b.height - 1).toNat]? with
        | none => rfl
        | some p => rfl

/-- **A branch that the walk can trace**: down to height 0, what is looked up for the parent has
the hash of the parent. -/
inductive Chain.Traced (c : Chain) : Block → Prop
  | root {b : Block} (h : b.height = 0) : c.Traced b
  /-- on the parent that is looked up -/
  | child {b p : Block} (hparent : c.workParent? b = some p) (hhash : p.hash = b.header.prevHash)
      (hp : c.Traced p) : c.Traced b

theorem Chain.Holds.workParent (hc : c.Holds P) {p : Block} (h : c.workParent? b = some p) :
    P p := by
  unfold workParent? at h
  split at h
  · next q hq => exact Option.some.inj h ▸ (hc.forkHashes _ _ hq).1
  · split at h
    · next q hq =>
      split at h
      · exact Option.some.inj h ▸ (hc.known _ _ hq).1
      · exact hc.blocks p (List.mem_of_getElem? h)
    · exact hc.blocks p (List.mem_of_getElem? h)

/-- The walk goes on only from a block that the cache does not have. -/
theorem Chain.uncached_of_next {p : Block} (h : c.workStep b = .next p) :
    c.workCache.lookup b.hash = none := by
  unfold workStep at h
  split at h
  · cases h
  · assumption

section Walk

variable (hw : Weighable P) (hc : c.Steady P) (hP : P b)
include hw hc hP

omit hw hP in
/-- **One step of the walk** goes to the parent, whose branch can be traced as well. -/
theorem Chain.Traced.workStep_next (hb : c.Traced b) {p : Block} (h : c.workStep b = .next p) :
    P p ∧ p.hash = b.header.prevHash ∧ c.Traced p := by
  have hcache := uncached_of_next h
  have hstop : ¬ (b.header.prevHash = [] ∨ b.height = 0) := by
    intro hstop
    rw [workStep, hcache] at h
    rw [if_pos hstop] at h
    cases h
  rw [workStep_eq hcache hstop] at h
  cases hb with
  | root hzero => exact absurd (.inr hzero) hstop
  | child hparent hhash hp =>
    rw [hparent] at h
    cases h
    exact ⟨hc.holds.workParent hparent, hhash, hp⟩

/-- **The walk ends** at height 0, or at a block whose work the cache has. -/
theorem Chain.Traced.workStep_done (hb : c.Traced b) {r : Option Nat} (h : c.workStep b = .done r) :
    (r = none ∧ b.height = 0) ∨ ∃ n, r = some n ∧ BranchWork P b n := by
  cases hcache : c.workCache.lookup b.hash with
  | some n =>
    rw [workStep, hcache] at h
    cases h
    obtain ⟨x, hhash, hx⟩ := hc.cache _ _ hcache
    exact .inr ⟨n, rfl, hx.of_hash hw.honest hw.work hP hhash⟩
  | none =>
    left
    have hroot : b.height = 0 → r = none ∧ b.height = 0 := by
      intro hzero
      rw [workStep, hcache] at h
      rw [if_pos (.inr hzero)] at h
      exact ⟨(WalkStep.done.inj h).symm, hzero⟩
    cases hb with
    | root hzero => exact hroot hzero
    | child hparent hhash hp =>
      by_cases hstop : b.header.prevHash = [] ∨ b.height = 0
      · rcases hstop with hnil | hzero
        · exact absurd (hhash.trans hnil) (hw.hash_ne (hc.holds.workParent hparent))
        · exact hroot hzero
      · rw [workStep_eq hcache hstop, hparent] at h
        cases h

/-- A child of a canonical block is put on a block with the hash of its parent. -/
theorem Chain.Steady.exists_workParent {x : Block} (hx : x ∈ c.blocks)
    (hhash : x.hash = b.header.prevHash) :
    ∃ p, c.workParent? b = some p ∧ P p ∧ p.hash = b.header.prevHash := by
  have hparent : IsParent x b :=
    ⟨hhash.symm, hw.honest.height_succ (hc.holds.blocks x hx) hP hhash.symm⟩
  have hget : c.blocks[(b.height - 1).toNat]? = some x := by
    rw [hparent.height_sub_one]
    exact hc.linked.getElem?_height hx
  unfold workParent?
  cases hfork : c.forkBlocksByHash.lookup b.header.prevHash with
  | some p => exact ⟨p, rfl, hc.holds.forkHashes _ _ hfork⟩
  | none =>
    cases hknown : c.blocksByHash.lookup b.header.prevHash with
    | none => exact ⟨x, hget, hc.holds.blocks x hx, hhash⟩
    | some p =>
      dsimp only
      split
      · exact ⟨p, rfl, hc.holds.known _ _ hknown⟩
      · exact ⟨x, hget, hc.holds.blocks x hx, hhash⟩

end Walk

section Traced

variable (hw : Weighable P) (hc : c.Steady P)
include hw hc

/-- From a canonical hash the branch can be traced. -/
theorem Chain.Steady.traced_of_canonical :
    ∀ (n : Nat) {b : Block}, b.height.toNat = n → P b → (∃ x ∈ c.blocks, x.hash = b.hash) →
      c.Traced b := by
  intro n
  induction n with
  | zero => exact fun hn _ _ => .root (UInt64.toNat.inj hn)
  | succ n ih =>
    rintro b hn hP ⟨x, hx, hhash⟩
    obtain ⟨hsame, hprev⟩ := hw.honest.hash_inj (hc.holds.blocks x hx) hP hhash
    have hheight : x.height.toNat = b.height.toNat := hsame
    rcases hc.linked.parent hx with hzero | ⟨y, hy, hparent⟩
    · rw [hzero, hn] at hheight
      cases hheight
    · have hyhash : y.hash = b.header.prevHash := hparent.1.symm.trans hprev
      obtain ⟨p, hp, hPp, hphash⟩ := hc.exists_workParent hw hP hy hyhash
      have hsucc : b.height.toNat = p.height.toNat + 1 :=
        hw.honest.height_succ hPp hP hphash.symm
      refine .child hp hphash (ih (by omega) hPp ⟨y, hy, ?_⟩)
      rw [hyhash, hphash]

/-- **A branch that reaches the canonical chain can be traced.** -/
theorem Chain.Reaches.traced (h : c.Reaches b) : P b → c.Traced b := by
  induction h with
  | ground hzero => exact fun _ => .root hzero
  | @active b hactive =>
    intro hP
    obtain ⟨-, x, hx, hhash⟩ := exists_canonical_of_active hactive
    obtain ⟨p, hp, hPp, hphash⟩ := hc.exists_workParent hw hP hx hhash
    exact .child hp hphash (hc.traced_of_canonical hw _ rfl hPp ⟨x, hx, hhash.trans hphash.symm⟩)
  | @fork b p hlookup _ ih =>
    intro hP
    obtain ⟨hPp, hhash⟩ := hc.holds.forkHashes _ _ hlookup
    refine .child ?_ hhash (ih hPp)
    unfold workParent?
    rw [hlookup]

end Traced

/-- The path of a walk on which something comes before. -/
theorem workPath_cons (r : Option Nat) (b : Block) (hl : l ≠ []) :
    (if r.isSome then (b :: l).dropLast else b :: l) = b :: if r.isSome then l.dropLast else l := by
  rw [List.dropLast_cons_of_ne_nil hl]
  split <;> rfl

/-- **The walk computes the work of the branch**, and what it enters in the cache is right. -/
theorem Chain.Steady.accumulateWork (hw : Weighable P) (hc : c.Steady P) :
    ∀ {n : Nat} {b : Block} {visited : List Block} {r : Option Nat} {cache : GoMap Bytes Nat}, P b →
      c.Traced b → walk c.workStep n b = some (visited, r) → CacheRight P cache →
      let path := if r.isSome then visited.dropLast else visited
      BranchWork P b (accumulateWork path (r.getD 0) cache).1
        ∧ CacheRight P (accumulateWork path (r.getD 0) cache).2
  | 0, _, _, _, _, _, _, h, _ => nomatch h
  | n + 1, b, visited, r, cache, hP, hb, h, hcache => by
    rcases walk_succ_eq_some.mp h with ⟨hs, rfl⟩ | ⟨p, l, hs, hwalk, rfl⟩
    · rcases hb.workStep_done hw hc hP hs with ⟨rfl, hzero⟩ | ⟨n, rfl, hn⟩
      · have hroot : BranchWork P b (0 + blockWork b) := by
          rw [Nat.zero_add]
          exact .root hP (congrArg UInt64.toNat hzero)
        exact ⟨hroot, hcache.insert hroot⟩
      · exact ⟨hn, hcache⟩
    · obtain ⟨hPp, hhash, hp⟩ := hb.workStep_next hc hs
      obtain ⟨hwork, hright⟩ := hc.accumulateWork hw hPp hp hwalk hcache
      have hchild := hwork.child (t := blockTree) hP hhash
      rw [workPath_cons r b (walk_ne_nil hwalk)]
      exact ⟨hchild, hright.insert hchild⟩

/-! ## Programs that compute work -/

/-- **Only work is computed**: nothing but the cache changes, and it stays right. -/
structure Weighing (P : Block → Prop) (w w' : World) : Prop where
  /-- the cache and the counter -/
  cacheOnly : CacheOnly w w'
  cache : w.chain.Sound P → CacheRight P w'.chain.workCache

theorem Weighing.sound {w' : World} (h : Weighing P w w') (hw : w.chain.Sound P) :
    w'.chain.Sound P := by
  have hright := h.cache hw
  obtain ⟨m, n, rfl⟩ := h.cacheOnly
  exact ⟨⟨h.cacheOnly.holds hw.holds, ⟨hw.linked.links, hw.linked.root⟩, hright⟩, hw.few⟩

instance : IsPreorder World (Weighing P) where
  refl _ := ⟨refl _, fun hw => hw.cache⟩
  trans _ _ _ h h' := ⟨trans_of CacheOnly h.cacheOnly h'.cacheOnly, fun hw => h'.cache (h.sound hw)⟩

theorem weighing_ask {α : Type} (answer : Nat → α) (w : World) :
    Steps (Weighing P) (ask answer) w :=
  steps_of_ret (t := { w with chain := w.chain.ticked }) rfl ⟨⟨_, _, rfl⟩, fun hw => hw.cache⟩

/-- A cache that is right stays right. -/
def KeepsCacheRight (P : Block → Prop) (w w' : World) : Prop :=
  CacheRight P w.chain.workCache → CacheRight P w'.chain.workCache

instance : IsPreorder World (KeepsCacheRight P) where
  refl _ h := h
  trans _ _ _ h h' hw := h' (h hw)

theorem keepsCacheRight_enforceWorkCacheSize (w : World) :
    Steps (KeepsCacheRight P) (enforceWorkCacheSize env) w := by
  refine steps_chain_bind ?_
  split
  · exact steps_pure () w
  · refine steps_bind_all (steps_of_ret (t := { w with chain := w.chain.ticked }) rfl id)
      fun keys t => ?_
    refine steps_update fun ht h n hn => ?_
    exact ht h n (GoMap.lookup_of_foldl_erase (fun k : Bytes => k) hn)

theorem exists_enforceWorkCacheSize (w : World) : ∃ t, enforceWorkCacheSize env w = .ret () t := by
  unfold enforceWorkCacheSize
  rw [chain_bind_apply, Prog.ite_apply]
  split
  · exact ⟨w, rfl⟩
  · exact ⟨_, rfl⟩

/-- **`calculateCumulativeWorkLocked` returns the work of the branch**, and leaves the cache
right. -/
theorem calculateCumulativeWorkLocked_ret (hP : Weighable P) {n : Nat}
    (hw : w.chain.Steady P) (hPb : P b) (hb : w.chain.Traced b)
    (h : calculateCumulativeWorkLocked env b w = .ret n t) :
    BranchWork P b n ∧ CacheRight P t.chain.workCache := by
  unfold calculateCumulativeWorkLocked at h
  rw [chain_bind_apply] at h
  cases hcached : w.chain.workCache.lookup b.hash with
  | some cached =>
    rw [hcached] at h
    obtain ⟨rfl, rfl⟩ := Outcome.ret.inj h
    obtain ⟨x, hhash, hx⟩ := hw.cache _ _ hcached
    exact ⟨hx.of_hash hP.honest hP.work hPb hhash, hw.cache⟩
  | none =>
    rw [hcached] at h
    obtain ⟨⟨visited, cached⟩, w1, hwalk, h⟩ := bind_eq_ret.mp h
    obtain ⟨rfl, hwalk⟩ := unboundedWalk_eq_ret hwalk
    obtain ⟨hwork, hright⟩ := hw.accumulateWork hP hPb hb hwalk hw.cache
    obtain ⟨_, w2, hupdate, h⟩ := bind_eq_ret.mp h
    obtain ⟨_, w3, henforce, h⟩ := bind_eq_ret.mp h
    obtain ⟨rfl, rfl⟩ := Outcome.ret.inj h
    refine ⟨hwork, (keepsCacheRight_enforceWorkCacheSize w2).of_ret henforce ?_⟩
    obtain ⟨-, rfl⟩ := Outcome.ret.inj hupdate
    exact hright

theorem weighing_calculateCumulativeWorkLocked (hP : Weighable P)
    (hb : w.chain.Sound P → P b ∧ w.chain.Traced b) :
    Steps (Weighing P) (calculateCumulativeWorkLocked env b) w := by
  intro t ht
  refine ⟨(errless_calculateCumulativeWorkLocked b w).steps t ht, fun hw => ?_⟩
  obtain ⟨hPb, htraced⟩ := hb hw
  obtain ⟨n, hn⟩ := exists_ret_of_errs (errless_calculateCumulativeWorkLocked b w).noErr ht
  exact (calculateCumulativeWorkLocked_ret hP hw.toSteady hPb htraced hn).2

/-! ## Comparing tips -/

theorem Chain.Sound.traced (hw : Weighable P) (hc : c.Sound P) (hb : P b)
    (h : c.isForkChainCompleteLocked b = some true) : c.Traced b :=
  (hc.holds.reaches hc.few h).traced hw hc.toSteady hb

/-- What is known of the fork blocks may be used. -/
theorem weighing_of_sound {α : Type} {m : ChainM α} (h : Steps CacheOnly m w)
    (hw : w.chain.Sound P → Steps (Weighing P) m w) : Steps (Weighing P) m w :=
  fun w' hw' => ⟨h w' hw', fun hsound => (hw hsound w' hw').cache hsound⟩

section Compare

variable (hP : Weighable P)
include hP

theorem weighing_considerForkBlock (height : UInt64) (parents : List Bytes) (best : Candidate)
    (hPb : P b) (w : World) :
    Steps (Weighing P) (considerForkBlock env height parents best b) w := by
  unfold considerForkBlock
  split
  · exact steps_pure _ w
  · split
    · exact steps_pure _ w
    · refine steps_bind (errless_forkChainComplete b w).steps fun complete t ht => ?_
      obtain ⟨rfl, hcomplete⟩ := forkChainComplete_ret ht
      cases complete with
      | false => exact steps_pure _ t
      | true =>
        refine steps_bind_all ?_ fun _ t => steps_pure _ t
        exact weighing_calculateCumulativeWorkLocked hP fun hc =>
          ⟨hPb, hc.traced hP hPb hcomplete⟩

/-- The candidate after one fork block is the one before, or has the work of its branch, which
is no less. -/
theorem considerForkBlock_work {height : UInt64} {parents : List Bytes}
    {best best' : Candidate} (hw : w.chain.Sound P) (hPb : P b)
    (h : considerForkBlock env height parents best b w = .ret best' t) :
    best' = best ∨ (BranchWork P best'.tip best'.work ∧ best.work ≤ best'.work) := by
  rcases considerForkBlock_ret h with rfl | ⟨hc, hbetter, work, rfl, hwork⟩
  · exact .inl rfl
  · refine .inr ⟨(calculateCumulativeWorkLocked_ret hP hw.toSteady hPb
      (hw.traced hP hPb hc) hwork).1, ?_⟩
    rcases of_decide_eq_true hbetter with hmore | ⟨hsame, -⟩
    · exact Nat.le_of_lt hmore
    · exact Nat.le_of_eq hsame.symm

theorem weighing_considerForkBlocks (height : UInt64) (parents : List Bytes) {bs : List Block}
    (hbs : ∀ b ∈ bs, P b) : ∀ (best : Candidate) (w : World),
      Steps (Weighing P) (considerForkBlocks env height parents best bs) w := by
  induction bs with
  | nil => exact fun best w => steps_pure best w
  | cons b bs ih =>
    intro best w
    refine steps_bind_all ?_ fun best t => ih (fun x hx => hbs x (List.mem_cons_of_mem b hx)) best t
    exact weighing_considerForkBlock hP height parents best (hbs b List.mem_cons_self) w

theorem considerForkBlocks_work {height : UInt64} {parents : List Bytes} :
    ∀ {bs : List Block} {best best' : Candidate} {w t : World}, w.chain.Sound P → (∀ b ∈ bs, P b) →
      considerForkBlocks env height parents best bs w = .ret best' t →
      best' = best ∨ (BranchWork P best'.tip best'.work ∧ best.work ≤ best'.work)
  | [], _, _, _, _, _, _, h => .inl (Outcome.ret.inj h).1.symm
  | b :: bs, best, best', w, t, hw, hbs, h => by
    obtain ⟨best1, w1, h1, h⟩ := bind_eq_ret.mp h
    have hb := hbs b List.mem_cons_self
    have hw1 : w1.chain.Sound P :=
      ((weighing_considerForkBlock hP height parents best hb w).of_ret h1).sound hw
    have hfirst := considerForkBlock_work hP hw hb h1
    rcases considerForkBlocks_work hw1 (fun x hx => hbs x (List.mem_cons_of_mem b hx)) h with
      rfl | ⟨hwork, hle⟩
    · exact hfirst
    · refine .inr ⟨hwork, ?_⟩
      rcases hfirst with rfl | ⟨-, hle1⟩
      · exact hle
      · exact Nat.le_trans hle1 hle

theorem weighing_findBestChainTipLocked (w : World) :
    Steps (Weighing P) (findBestChainTipLocked env) w := by
  refine weighing_of_sound (errless_findBestChainTipLocked w).steps fun hw => steps_chain_bind ?_
  split
  · exact steps_pure _ w
  · refine steps_bind (weighing_ask _ w) fun entries t ht => ?_
    refine steps_bind_all ?_ fun best t => steps_pure _ t
    refine weighing_considerForkBlocks hP _ _ (fun b hb => ?_) _ t
    exact hw.holds.mem_entries ((ranged_perm ht).flatMap_right _ |>.mem_iff.mp hb)

theorem weighing_betterTip (w : World) : Steps (Weighing P) (betterTip env) w := by
  refine steps_bind_all (weighing_findBestChainTipLocked hP w) fun best t => ?_
  cases best with
  | none => exact steps_pure _ t
  | some best => exact steps_chain_bind (steps_pure _ t)

/-- The best tip is the canonical tip, or its branch has at least the canonical work. -/
theorem findBestChainTipLocked_work {best : Block} (hw : w.chain.Sound P)
    (h : findBestChainTipLocked env w = .ret (some best) t) :
    w.chain.tip? = some best ∨ ∃ n, BranchWork P best n ∧ w.chain.canonicalWork ≤ n := by
  obtain ⟨tip, entries, found, w1, _, _, htip, hentries, hfound, rfl⟩ := exists_considered h
  have hw1 : w1.chain.Sound P :=
    ((weighing_ask _ w).of_ret hentries).sound hw
  have hforks : ∀ b ∈ entries.flatMap (·.2), P b := fun b hb =>
    hw.holds.mem_entries ((ranged_perm hentries).flatMap_right _ |>.mem_iff.mp hb)
  rcases considerForkBlocks_work hP hw1 hforks hfound with rfl | ⟨hwork, hle⟩
  · exact .inl htip
  · exact .inr ⟨found.work, hwork, hle⟩

/-- **The better tip** has another hash than the canonical one, and its branch has at least the
canonical work. -/
theorem betterTip_work {best : Block} (hw : w.chain.Sound P)
    (h : betterTip env w = .ret (some best) t) :
    (∀ tip, w.chain.tip? = some tip → tip.hash ≠ best.hash)
      ∧ ∃ n, BranchWork P best n ∧ w.chain.canonicalWork ≤ n := by
  obtain ⟨⟨w1, hfound⟩, hother⟩ := betterTip_ne h
  exact ⟨hother, (findBestChainTipLocked_work hP hw hfound).resolve_left
    fun hcanonical => hother best hcanonical rfl⟩

end Compare

end NogoChain
