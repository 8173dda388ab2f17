import NogoChain.Chain.Heaviest

/-!
# Cumulative work, whatever was cached before

`calculateCumulativeWorkLocked` enters what it has computed in a cache, also what it has computed
along a branch with a gap: at a block whose parent it does not find it goes on with the canonical
block one height below, or stops. The sum stays in the cache when the parent arrives later.

The cache is right as long as every call was made for a block whose ancestry was there and could
be *found*: among the fork blocks, on the canonical chain, or among the known blocks below the
length of the chain. `AddBlock` makes its own calls for complete fork chains only, and these are
such blocks.
-/

namespace NogoChain

open Chain Prog

variable {env : Env} {P : Block → Prop} {c : Chain}

/-! ## Calls -/

/-- The calls that enter work in the cache. -/
inductive WorkCall where
  | addBlock (block : Block)
  | calculateCumulativeWork (block : Block)

/-- The program of a call. -/
def WorkCall.exec (env : Env) : WorkCall → ChainM Unit
  | .addBlock block => do
    let _ ← NogoChain.addBlock env block
  | .calculateCumulativeWork block => do
    let _ ← calculateCumulativeWorkLocked env block

/-- The state after a sequence of calls, unless one of them faults. -/
def runWorkCalls (env : Env) : List WorkCall → World → Option World
  | [], w => some w
  | call :: calls, w => (call.exec env w).state?.bind (runWorkCalls env calls)

/-! ## Ancestry -/

/-- **The ancestry of a block**, from the block down to one with the hash of the first canonical
block; all but the block itself are stored. -/
structure Chain.Ancestry (c : Chain) (b : Block) (l : List Block) : Prop where
  /-- it starts with the block -/
  head : l.head? = some b
  /-- each is followed by its parent -/
  links : l.IsChain fun x p => p.hash = x.header.prevHash
  /-- the ancestors are stored -/
  stored : ∀ x ∈ l.tail, x ∈ c.storedBlocks
  /-- it ends at the genesis block -/
  root : ∃ g ∈ c.blocks.head?, ∃ x ∈ l.getLast?, x.hash = g.hash

/-- **A stored block that the walk finds** by its hash: a fork block, a canonical block, or a known
block below the length of the chain. -/
def Chain.Findable (c : Chain) (x : Block) : Prop :=
  (c.forkBlocksByHash.lookup x.hash).isSome ∨ x ∈ c.blocks
    ∨ ((c.blocksByHash.lookup x.hash).isSome ∧ x.height < c.length64)

/-- The sum of the difficulty bits of the blocks. -/
def totalBits (l : List Block) : Nat := (l.map fun x => x.header.difficultyBits.toNat).sum

variable {b : Block} {l : List Block} {w : World}

theorem Chain.Ancestry.exists_cons (h : c.Ancestry b l) : ∃ l', l = b :: l' := by
  cases l with
  | nil => cases h.head
  | cons x l' => exact ⟨l', by rw [Option.some.inj h.head]⟩

theorem Chain.Ancestry.tail {p : Block} (h : c.Ancestry b (b :: p :: l)) :
    c.Ancestry p (p :: l) where
  head := rfl
  links := h.links.tail
  stored x hx := h.stored x (List.mem_cons_of_mem p hx)
  root := by
    obtain ⟨g, hg, x, hx, hhash⟩ := h.root
    exact ⟨g, hg, x, hx, hhash⟩

section Ancestry

variable (hw : Weighable P) (hc : c.Steady P)
include hw hc

/-- A block with the hash of the genesis block has height 0. -/
theorem Chain.Ancestry.height_eq_zero (hb : P b) (h : c.Ancestry b [b]) : b.height = 0 := by
  obtain ⟨g, hg, x, hx, hhash⟩ := h.root
  cases hx
  have hsame := (hw.honest.hash_inj hb (hc.holds.blocks g (List.mem_of_mem_head? hg)) hhash).1
  exact (UInt64.toNat.inj hsame).trans (hc.linked.root g hg)

/-- The work of the branch is the sum of the bits of the ancestry. -/
theorem Chain.Ancestry.branchWork :
    ∀ {b : Block}, P b → c.Ancestry b l → BranchWork P b (totalBits l) := by
  induction l with
  | nil => exact fun _ h => nomatch h.head
  | cons x l ih =>
    intro b hb h
    obtain ⟨l', hl'⟩ := h.exists_cons
    cases hl'
    cases l with
    | nil => exact .root hb (congrArg UInt64.toNat (h.height_eq_zero hw hc hb))
    | cons p l =>
      have hp : P p := hc.holds.stored (h.stored p List.mem_cons_self)
      have hsum : totalBits (x :: p :: l) = totalBits (p :: l) + blockWork x :=
        Nat.add_comm _ _
      rw [hsum]
      exact .child hb (List.isChain_cons_cons.mp h.links).1 (ih hp h.tail)

omit hc in
/-- Whether a branch can be traced depends on the hash only. -/
theorem Chain.Traced.of_hash {q : Block} (h : c.Traced b) (hb : P b) (hq : P q)
    (hhash : b.hash = q.hash) : c.Traced q := by
  obtain ⟨hsame, hprev⟩ := hw.honest.hash_inj hb hq hhash
  have hheight : b.height = q.height := UInt64.toNat.inj hsame
  have hprev : b.header.prevHash = q.header.prevHash := hprev
  cases h with
  | root hzero => exact .root (hheight ▸ hzero)
  | child hparent hphash hp =>
    refine .child ?_ (hphash.trans hprev) hp
    rw [← hparent]
    unfold workParent?
    rw [hheight, hprev]

/-- A child of a block that is found is put on a block with the hash of its parent. -/
theorem Chain.Findable.exists_workParent {p : Block} (h : c.Findable p) (hb : P b) (hp : P p)
    (hhash : p.hash = b.header.prevHash) :
    ∃ q, c.workParent? b = some q ∧ P q ∧ q.hash = b.header.prevHash := by
  rcases h with hfork | hcanonical | ⟨hknown, hlow⟩
  · obtain ⟨q, hq⟩ := Option.isSome_iff_exists.mp hfork
    rw [hhash] at hq
    refine ⟨q, ?_, hc.holds.forkHashes _ _ hq⟩
    unfold workParent?
    rw [hq]
  · exact hc.exists_workParent hw hb hcanonical hhash
  · obtain ⟨q, hq⟩ := Option.isSome_iff_exists.mp hknown
    obtain ⟨hPq, hqhash⟩ := hc.holds.known _ _ hq
    have hheight : q.height = p.height := UInt64.toNat.inj (hw.honest.hash_inj hPq hp hqhash).1
    rw [hhash] at hq
    cases hfork : c.forkBlocksByHash.lookup b.header.prevHash with
    | some r =>
      refine ⟨r, ?_, hc.holds.forkHashes _ _ hfork⟩
      unfold workParent?
      rw [hfork]
    | none =>
      refine ⟨q, ?_, hc.holds.known _ _ hq⟩
      unfold workParent?
      rw [hfork, hq]
      dsimp only
      rw [if_pos (hheight ▸ hlow)]

/-- **An ancestry that is found can be traced.** -/
theorem Chain.Ancestry.traced :
    ∀ {b : Block}, P b → c.Ancestry b l → (∀ x ∈ l.tail, c.Findable x) → c.Traced b := by
  induction l with
  | nil => exact fun _ h => nomatch h.head
  | cons x l ih =>
    intro b hb h hfind
    obtain ⟨l', hl'⟩ := h.exists_cons
    cases hl'
    cases l with
    | nil => exact .root (h.height_eq_zero hw hc hb)
    | cons p l =>
      have hp : P p := hc.holds.stored (h.stored p List.mem_cons_self)
      have hhash : p.hash = x.header.prevHash := (List.isChain_cons_cons.mp h.links).1
      have htraced := ih hp h.tail fun y hy => hfind y (List.mem_cons_of_mem p hy)
      obtain ⟨q, hq, hPq, hqhash⟩ :=
        (hfind p List.mem_cons_self).exists_workParent hw hc hb hp hhash
      exact .child hq hqhash (htraced.of_hash hw hp hPq (hhash.trans hqhash.symm))

end Ancestry

/-! ## The call returns -/

/-- `calculateCumulativeWorkLocked` returns, on a linked chain of honest blocks. -/
theorem exists_calculateCumulativeWorkLocked (hw : Weighable P) (hc : w.chain.Steady P) (hb : P b) :
    ∃ n t, calculateCumulativeWorkLocked env b w = .ret n t := by
  unfold calculateCumulativeWorkLocked
  rw [chain_bind_apply]
  cases hcached : w.chain.workCache.lookup b.hash with
  | some n => exact ⟨n, w, rfl⟩
  | none =>
    obtain ⟨⟨visited, r⟩, hwalk⟩ :=
      Option.isSome_iff_exists.mp (hc.linked.workStep_ends hc.holds hw.honest hb)
    have hret : unboundedWalk w.chain.workStep w.chain.walkBound b w = .ret (visited, r) w := by
      unfold unboundedWalk
      rw [hwalk]
      rfl
    dsimp only
    rw [bind_apply, hret]
    obtain ⟨t, ht⟩ : ∃ t, enforceWorkCacheSize env
        { w with chain := { w.chain with workCache := _ } } = .ret () t :=
      exists_enforceWorkCacheSize _
    exact ⟨_, t, bind_eq_ret.mpr ⟨(), _, rfl, bind_eq_ret.mpr ⟨(), t, ht, rfl⟩⟩⟩

/-! ## Runs -/

/-- **The condition on a call**, in the state before it. A block that is added is honest, and the
blocks outside the canonical chain are few; a block whose work is computed is honest, and its
ancestry is there and is found. -/
def WorkCall.Careful (P : Block → Prop) (c : Chain) : WorkCall → Prop
  | .addBlock b => P b ∧ c.offsideHashes.length + 2 < 10000
  | .calculateCumulativeWork b => P b ∧ ∃ l, c.Ancestry b l ∧ ∀ x ∈ l.tail, c.Findable x

/-- Every call of a run meets the condition. -/
def CarefulCalls (env : Env) (P : Block → Prop) : List WorkCall → World → Prop
  | [], _ => True
  | call :: calls, w => call.Careful P w.chain
    ∧ ∀ w', (call.exec env w).state? = some w' → CarefulCalls env P calls w'

/-- **What lasts through the calls**: what is held, and the chain and the cache as long as the
steps on record keep the chain linked. -/
structure Lasting (env : Env) (P : Block → Prop) (w : World) : Prop where
  holds : w.chain.Holds P
  /-- the canonical chain and the cache -/
  sound : Clean env P w → w.chain.Linked ∧ CacheRight P w.chain.workCache

theorem Lasting.steady (h : Lasting env P w) (hclean : Clean env P w) : w.chain.Steady P :=
  ⟨h.holds, (h.sound hclean).1, (h.sound hclean).2⟩

/-- **One call.** -/
theorem Lasting.exec (hP : Weighable P) {call : WorkCall} {w' : World} (hw : Lasting env P w)
    (hcall : call.Careful P w.chain) (h : (call.exec env w).state? = some w') :
    Lasting env P w' := by
  cases call with
  | addBlock b =>
    obtain ⟨hb, hfew⟩ := hcall
    have hstate : (addBlock env b w).state? = some w' :=
      (state?_bind_pure (addBlock env b) () w).symm.trans h
    obtain ⟨hweighed, -, -⟩ := grows_addBlock hP hb hfew hstate
      ⟨hw.holds, w.chain.offside_offsideHashes b.hash, hw.sound⟩
    exact ⟨hweighed.holds, hweighed.sound⟩
  | calculateCumulativeWork b =>
    obtain ⟨hb, l, hl, hfind⟩ := hcall
    have hstate : (calculateCumulativeWorkLocked env b w).state? = some w' :=
      (state?_bind_pure (calculateCumulativeWorkLocked env b) () w).symm.trans h
    have hcache := (errless_calculateCumulativeWorkLocked b w).steps w' hstate
    obtain ⟨n, hn⟩ := exists_ret_of_errs (errless_calculateCumulativeWorkLocked b w).noErr hstate
    have hright : Clean env P w → CacheRight P w'.chain.workCache := fun hclean =>
      (calculateCumulativeWorkLocked_ret hP (hw.steady hclean) hb
        (hl.traced hP (hw.steady hclean) hb hfind) hn).2
    have hholds := hcache.holds hw.holds
    obtain ⟨m, k, rfl⟩ := hcache
    exact ⟨hholds, fun hclean => ⟨(hw.sound hclean).1.congr rfl, hright hclean⟩⟩

/-- **A sequence of calls.** -/
theorem Lasting.run (hP : Weighable P) {calls : List WorkCall} {w' : World}
    (hw : Lasting env P w) (hcalls : CarefulCalls env P calls w)
    (h : runWorkCalls env calls w = some w') : Lasting env P w' := by
  induction calls generalizing w with
  | nil => exact Option.some.inj h ▸ hw
  | cons call calls ih =>
    obtain ⟨w1, h1, h2⟩ := Option.bind_eq_some_iff.mp h
    exact ih (hw.exec hP hcalls.1 h1) (hcalls.2 w1 h1) h2

/-- **Cumulative work is right whatever was cached.** After every sequence of `AddBlock` and
`CalculateCumulativeWork` calls that meet the condition, on a fresh chain, and for every honest
block whose ancestry is stored and found, `calculateCumulativeWorkLocked` returns the sum of the
difficulty bits of that ancestry. -/
theorem cumulativeWork_eq_totalBits (hP : Weighable P) (hgenesis : P (createGenesisBlock env))
    {calls : List WorkCall} {w₀ w : World} (hstart : runFromStart env [] = some w₀)
    (hcalls : CarefulCalls env P calls w₀) (h : runWorkCalls env calls w₀ = some w)
    (hclean : Clean env P w) {b : Block} {l : List Block} (hb : P b) (hl : w.chain.Ancestry b l)
    (hfind : ∀ x ∈ l.tail, w.chain.Findable x) :
    ∃ t, calculateCumulativeWorkLocked env b w = .ret (totalBits l) t := by
  have hfresh := (fresh_of_run_nil hstart).steady hgenesis
  have hlasting := Lasting.run hP ⟨hfresh.holds, fun _ => ⟨hfresh.linked, hfresh.cache⟩⟩ hcalls h
  have hsteady := hlasting.steady hclean
  obtain ⟨n, t, hret⟩ : ∃ n t, calculateCumulativeWorkLocked env b w = .ret n t :=
    exists_calculateCumulativeWorkLocked hP hsteady hb
  have hwork := (calculateCumulativeWorkLocked_ret hP hsteady hb
    (hl.traced hP hsteady hb hfind) hret).1
  have hn : n = totalBits l :=
    hwork.unique hP.honest hP.work (hl.branchWork hP hsteady hb) rfl
  exact ⟨t, hn ▸ hret⟩

/-! ## Two runs -/

instance (c : Chain) (b : Block) (l : List Block) : Decidable (c.Ancestry b l) :=
  decidable_of_iff (l.head? = some b ∧ (l.IsChain fun x p => p.hash = x.header.prevHash)
      ∧ (∀ x ∈ l.tail, x ∈ c.storedBlocks)
      ∧ ∃ g ∈ c.blocks.head?, ∃ x ∈ l.getLast?, x.hash = g.hash)
    ⟨fun ⟨h, l, s, r⟩ => ⟨h, l, s, r⟩, fun ⟨h, l, s, r⟩ => ⟨h, l, s, r⟩⟩

instance (c : Chain) : DecidablePred c.Findable :=
  fun _ => inferInstanceAs (Decidable (_ ∨ _ ∨ _))

/-- The condition on a call as a check, for blocks of a list and the ancestry of the block. -/
def WorkCall.careful (bs : List Block) (c : Chain) (l : List Block) : WorkCall → Bool
  | .addBlock b => b ∈ bs ∧ c.offsideHashes.length + 2 < 10000
  | .calculateCumulativeWork b => b ∈ bs ∧ c.Ancestry b l ∧ ∀ x ∈ l.tail, c.Findable x

/-- The condition on a sequence of calls as a check. -/
def carefulChecked (env : Env) (bs : List Block) : List (WorkCall × List Block) → World → Bool
  | [], _ => true
  | call :: calls, w =>
    call.1.careful bs w.chain call.2
      && match (call.1.exec env w).state? with
        | none => true
        | some w' => carefulChecked env bs calls w'

theorem carefulCalls_of_checked {bs : List Block} {calls : List (WorkCall × List Block)}
    (h : carefulChecked env bs calls w = true) :
    CarefulCalls env (· ∈ bs) (calls.map (·.1)) w := by
  induction calls generalizing w with
  | nil => exact trivial
  | cons call calls ih =>
    rw [carefulChecked, Bool.and_eq_true] at h
    refine ⟨?_, fun w' hw' => ih ?_⟩
    · have hfirst := h.1
      obtain ⟨call, l⟩ := call
      cases call with
      | addBlock b =>
        obtain ⟨hb, hfew⟩ := of_decide_eq_true hfirst
        exact ⟨hb, hfew⟩
      | calculateCumulativeWork b =>
        obtain ⟨hb, hl, hfind⟩ := of_decide_eq_true hfirst
        exact ⟨hb, l, hl, hfind⟩
    · have hrest := h.2
      rw [hw'] at hrest
      exact hrest

/-- A block, a light rival whose work is asked for, and a child of the rival. -/
def weighedCalls : List (WorkCall × List Block) :=
  [(.addBlock (numberedBlock 1 0 1 10), []), (.addBlock (numberedBlock 2 0 1 4), []),
    (.calculateCumulativeWork (numberedBlock 2 0 1 4),
      [numberedBlock 2 0 1 4, createGenesisBlock sampleEnv]),
    (.addBlock (numberedBlock 3 2 2 5), [])]

/-- `cumulativeWork_eq_totalBits` at the child of the rival, whose work was asked for before. -/
theorem cumulativeWork_eq_totalBits_weighedCalls :
    ∃ w₀ w t, runFromStart sampleEnv [] = some w₀
      ∧ runWorkCalls sampleEnv (weighedCalls.map (·.1)) w₀ = some w
      ∧ calculateCumulativeWorkLocked sampleEnv (numberedBlock 3 2 2 5) w
        = .ret (totalBits [numberedBlock 3 2 2 5, numberedBlock 2 0 1 4,
          createGenesisBlock sampleEnv])
          t := by
  let bs := createGenesisBlock sampleEnv :: numberedBlock 3 2 2 5 :: numberedBlock 2 0 1 4
    :: [numberedBlock 1 0 1 10]
  obtain ⟨w₀, hw₀, hcareful, w, hw, hsteps, hl, hfind⟩ :
      ∃ w₀, runFromStart sampleEnv [] = some w₀
      ∧ carefulChecked sampleEnv bs weighedCalls w₀
      ∧ ∃ w, runWorkCalls sampleEnv (weighedCalls.map (·.1)) w₀ = some w
        ∧ (∀ step ∈ w.steps, step.linksChecked sampleEnv = true)
        ∧ w.chain.Ancestry (numberedBlock 3 2 2 5)
          [numberedBlock 3 2 2 5, numberedBlock 2 0 1 4, createGenesisBlock sampleEnv]
        ∧ ∀ x ∈ [numberedBlock 2 0 1 4, createGenesisBlock sampleEnv], w.chain.Findable x := by
    decide +kernel
  have hP : Weighable (· ∈ bs) :=
    weighable_of_list (by decide +kernel) (by decide +kernel) (by decide +kernel)
  obtain ⟨t, ht⟩ := cumulativeWork_eq_totalBits hP List.mem_cons_self hw₀
    (carefulCalls_of_checked hcareful) hw
    (fun step hstep => CoreStep.keepsLinks_of_checked (fun _ _ => nofun)
      (hsteps step hstep)) (List.mem_cons_of_mem _ List.mem_cons_self) hl hfind
  exact ⟨w₀, w, t, hw₀, hw, ht⟩

/-- **A sum that was cached too early.** The work of block 3 is asked for before its parent is
there. Once the parent has joined the canonical chain, the ancestry of block 3 is stored, and its
work is still that of block 3 alone. -/
theorem cumulativeWork_cached_too_early :
    ∃ w₀ w t, runFromStart sampleEnv [] = some w₀
      ∧ runWorkCalls sampleEnv [.addBlock (numberedBlock 1 0 1 10),
          .calculateCumulativeWork (numberedBlock 3 2 3 10), .addBlock (numberedBlock 2 1 2 10)] w₀
        = some w
      ∧ w.chain.Ancestry (numberedBlock 3 2 3 10) [numberedBlock 3 2 3 10, numberedBlock 2 1 2 10,
          numberedBlock 1 0 1 10, createGenesisBlock sampleEnv]
      ∧ calculateCumulativeWorkLocked sampleEnv (numberedBlock 3 2 3 10) w = .ret 10 t
      ∧ 30 ≤ totalBits [numberedBlock 3 2 3 10, numberedBlock 2 1 2 10, numberedBlock 1 0 1 10,
          createGenesisBlock sampleEnv] := by
  simp only [exists_and_left]
  decide +kernel

end NogoChain
