import NogoChain.Chain.Effects

/-!
# Calls as sequences of moves

A reorganisation that gets as far as switching the chain records its step and then replays
the state; `Switch` says what it can leave behind. With the extension of the tip
(`Extension`) and the rollback (`Cut`) these are the moves of a call, and the rest of the
file shows that a call is a sequence of moves, with what is known about the block or the
branch at each of them.
-/

namespace NogoChain

open Prog

variable {env : Env} {P : Block → Prop}

/-! ## Switching to another branch -/

/-- The work of a list of blocks added up and written to their `TotalWork`, on top of
earlier texts. -/
def totalWorkOf (blocks : List Block) (texts : GoMap Nat Bytes) : Nat × GoMap Nat Bytes :=
  blocks.foldl (fun (r : Nat × GoMap Nat Bytes) b =>
    let sum := r.1 + workForDifficultyBits b.header.difficultyBits
    (sum, r.2.insert b.ptr (Json.decimal sum))) (0, texts)

/-- The sum that is written last is the work of the blocks. -/
theorem totalWorkOf_fst (blocks : List Block) (texts : GoMap Nat Bytes) :
    (totalWorkOf blocks texts).1 = calculateChainWorkLocked blocks := by
  have hfold : ∀ (bs : List Block) (r : Nat × GoMap Nat Bytes),
      (bs.foldl (fun (r : Nat × GoMap Nat Bytes) b =>
        let sum := r.1 + workForDifficultyBits b.header.difficultyBits
        (sum, r.2.insert b.ptr (Json.decimal sum))) r).1
      = r.1 + calculateChainWorkLocked bs := by
    intro bs
    induction bs with
    | nil => exact fun r => (Nat.add_zero r.1).symm
    | cons b bs ih =>
      intro r
      rw [List.foldl_cons, ih]
      simp only [calculateChainWorkLocked, List.map_cons, List.sum_cons]
      omega
  rw [totalWorkOf, hfold, Nat.zero_add]

/-- The view of a block under given texts. -/
def viewWith (texts : GoMap Nat Bytes) (b : Block) : Block :=
  match texts.lookup b.ptr with
  | none => b
  | some text => { b with totalWork := text }

theorem Chain.view_eq (c : Chain) : c.view = viewWith c.totalWork := rfl

/-- **What a replay of the state leaves behind**, with `old` the core before it, `r` the work
and the texts after it and `x` the indexes after it. If the replay fails, the state of the
blocks before the failure, and everything else as it was. If it succeeds, the replayed
state; the store is not looked at. -/
def Replayed (env : Env) (old : Core) (r : Nat × GoMap Nat Bytes) (x : Indexes) (new : Core) :
    Prop :=
  match replayBlocks env (old.blocks.map (viewWith old.totalWork)) ∅ with
  | .err _ s => new = { old with state := s }
  | .ret () s => ∃ store, new = ⟨old.blocks, s, r.1, r.2, store, x⟩

/-- The canonical blocks after a reorganisation: those up to the height of the ancestor, and
the new ones. -/
def Chain.spliced (c : Chain) (ancestor : Block) (newBlocks : List Block) : List Block :=
  c.blocks.take (goInt ancestor.height + 1).toNat ++ newBlocks

variable {c : Chain} {m : ChainM Unit} {x : Block} {refuse : Block → Block → Option BranchEnd}
  {height : UInt64} {visited : List Block}

theorem Chain.spliced_of_index {ancestor : Block} {k : Nat}
    (hk : goInt ancestor.height + 1 = k) (newBlocks : List Block) :
    c.spliced ancestor newBlocks = c.blocks.take k ++ newBlocks := by
  rw [Chain.spliced, hk]
  rfl

/-- The ancestor of a reorganisation is the tip of the canonical chain. -/
def Chain.AtTip (c : Chain) (ancestor : Block) : Prop :=
  goInt ancestor.height = c.blocks.length - 1 ∧ ∃ tip, c.tip? = some tip ∧ ancestor.hash = tip.hash

instance (c : Chain) (ancestor : Block) : Decidable (c.AtTip ancestor) :=
  decidable_of_iff (goInt ancestor.height = c.blocks.length - 1
    ∧ c.tip?.any (ancestor.hash == ·.hash)) <| by
    unfold Chain.AtTip
    cases c.tip? <;> simp

/-- The chain with blocks appended at the tip. -/
def Chain.lengthen (env : Env) (c : Chain) (bs : List Block) : Chain :=
  ({ c with blocks := c.blocks ++ bs, workCache := ∅ }.learn bs).indexAppended env
    c.blocks.length bs

/-- The indexes while a reorganisation replays the state, and after it: blocks that are
appended to the tip are entered at once, those of another branch when the indexes are built
anew after the replay. -/
def Chain.Reindexes (env : Env) (c : Chain) (ancestor : Block) (newBlocks : List Block)
    (during after : Indexes) : Prop :=
  (c.AtTip ancestor ∧ during = (c.lengthen env newBlocks).indexes ∧ after = during)
    ∨ (during = c.indexes ∧ after = Indexes.reindexAll env (c.spliced ancestor newBlocks))

/-- The reorganisation step from `w` to `w'`. -/
structure Switch (env : Env) (w w' : World) (ancestor : Block) (newBlocks : List Block) : Prop where
  /-- the index where the new blocks go is in range -/
  index : 0 ≤ goInt ancestor.height + 1
  steps : w'.steps = .reorganize w.chain ancestor newBlocks :: w.steps
  /-- what stands above the ancestor is replaced -/
  core : let blocks := w.chain.spliced ancestor newBlocks
    ∃ x y, w.chain.Reindexes env ancestor newBlocks x y
      ∧ Replayed env { w.chain.core with blocks := blocks, indexes := x }
          (totalWorkOf blocks w.chain.totalWork) y w'.chain.core

/-- The rollback step from `w` to `w'`. -/
structure Cut (env : Env) (w w' : World) (height : UInt64) : Prop where
  /-- there is something to cut -/
  lt : height.toNat + 1 < w.chain.blocks.length
  steps : w'.steps = .rollback w.chain height :: w.steps
  /-- what stands above the height is removed -/
  core : let blocks := w.chain.blocks.take (height.toNat + 1)
    let work := calculateChainWorkLocked blocks
    let indexes := Indexes.reindexAll env blocks
    Replayed env { w.chain.core with blocks := blocks, canonicalWork := work, indexes := indexes }
      (work, w.chain.totalWork) indexes w'.chain.core

variable {α β : Type} {w w' : World} {ancestor newTip : Block}

theorem wrapping_apply (format : String) (args : List FmtArg) (m : ChainM α) (w : World) :
    wrapping format args m w = match m w with
      | .ret a s => .ret a s
      | .err e s => .err (.wrap format args e) s
      | .fault x => .fault x := by
  unfold wrapping
  simp only [bind_apply, Prog.attempt]
  cases m w <;> rfl

theorem wrapping_eq_ret {format : String} {args : List FmtArg} {m : ChainM α} {a : α} :
    wrapping format args m w = .ret a w' ↔ m w = .ret a w' := by
  rw [wrapping_apply]
  cases m w <;> simp

/-- Only the store of the core may change; no step is recorded and the maps shrink. -/
structure Stores (w w' : World) : Prop where
  steps : w'.steps = w.steps
  shrinks : w.chain.Shrinks w'.chain
  core : ∃ store, w'.chain.core = { w.chain.core with store := store }

theorem Stores.aside {w'' : World} (h : Stores w w') (h' : Aside w' w'') : Stores w w'' where
  steps := h'.steps.trans h.steps
  shrinks := h.shrinks.trans h'.shrinks
  core := by
    rw [h'.core]
    exact h.core

theorem stores_rewriteCanonical (w : World) : Steps Stores (rewriteCanonical env) w := by
  intro w' h
  rw [rewriteCanonical_apply, storeWrite_apply] at h
  split at h <;> cases h <;> exact ⟨rfl, .of_eq rfl rfl rfl rfl rfl (.inl rfl), _, rfl⟩

/-- A program that rewrites the store and then does other things on the side. -/
theorem stores_bind {m : ChainM α} {f : α → ChainM β}
    (hm : Steps Stores m w) (hf : ∀ a t, Steps Aside (f a) t) : Steps Stores (m >>= f) w := by
  intro w' h
  rw [bind_apply] at h
  split at h
  · next a t hmw =>
    exact (hm.of_ret hmw).aside (hf a t w' h)
  · next hmw =>
    exact hm w' (by rw [hmw]; exact h)
  · cases h

theorem stores_wrapping {format : String} {args : List FmtArg}
    (hm : Steps Stores m w) : Steps Stores (wrapping format args m) w := by
  refine stores_bind (steps_attempt hm) fun r t => ?_
  cases r with
  | ok a => exact steps_pure a t
  | error e => exact steps_throw _ t

/-- What reorganisation and rollback do once the blocks are in place: the state is replayed,
and `m` writes the chain to the store, with the work and the texts of `r`. -/
theorem replayed_of_stores {msg : String} (h : ((do
      wrapping msg [] (recomputeStateLocked env)
      m : ChainM Unit) w).state? = some w')
    (r : Nat × GoMap Nat Bytes) (x : Indexes)
    (hm : ∀ s t, (m (w.withState s)).state? = some t → ∃ t0 : World, Stores t0 t
      ∧ t0.steps = w.steps ∧ (w.withState s).chain.Shrinks t0.chain
      ∧ t0.chain.core = ⟨w.chain.blocks, s, r.1, r.2, w.chain.store, x⟩) :
    w'.steps = w.steps ∧ w.chain.Shrinks w'.chain
      ∧ Replayed env w.chain.core r x w'.chain.core := by
  have hreplay := recomputeStateLocked_apply env w
  have hdef : w.chain.replay env = replayBlocks env
      (w.chain.core.blocks.map (viewWith w.chain.core.totalWork)) ∅ := rfl
  have hshrinks : ∀ s, w.chain.Shrinks (w.withState s).chain := fun s =>
    .of_eq rfl rfl rfl rfl rfl (.inl rfl)
  unfold Replayed
  rw [hdef] at hreplay
  rw [bind_apply, wrapping_apply] at h
  generalize replayBlocks env (w.chain.core.blocks.map (viewWith w.chain.core.totalWork)) ∅ = out
    at hreplay
  cases out with
  | fault x => exact x.elim
  | err e s =>
    obtain ⟨e', he'⟩ := hreplay
    rw [he', Outcome.state?_err, Option.some.injEq] at h
    subst h
    exact ⟨rfl, hshrinks s, rfl⟩
  | ret a s =>
    rw [hreplay] at h
    obtain ⟨t0, hstores, hsteps, hshrinks0, hcore0⟩ := hm s w' h
    obtain ⟨store, hcore⟩ := hstores.core
    refine ⟨hstores.steps.trans hsteps,
      ((hshrinks s).trans hshrinks0).trans hstores.shrinks, store, ?_⟩
    rw [hcore, hcore0]
    rfl

/-- The same for a program that first runs `finish` on the chain. -/
theorem replayed_of_finish {msg : String} {finish : Chain → Chain} (h : ((do
      wrapping msg [] (recomputeStateLocked env)
      update finish
      m : ChainM Unit) w).state? = some w')
    (r : Nat × GoMap Nat Bytes) (x : Indexes)
    (hfinish : ∀ s, (finish (w.withState s).chain).core
      = ⟨w.chain.blocks, s, r.1, r.2, w.chain.store, x⟩)
    (hshrinks : ∀ s, (w.withState s).chain.Shrinks (finish (w.withState s).chain))
    (hm : ∀ t, Steps Stores m t) :
    w'.steps = w.steps ∧ w.chain.Shrinks w'.chain ∧ Replayed env w.chain.core r x w'.chain.core :=
  replayed_of_stores h r x fun s t ht =>
    ⟨⟨finish (w.withState s).chain, w.steps⟩, hm _ t ht, rfl, hshrinks s, hfinish s⟩

/-- The chain with the blocks from an index on replaced. -/
def Chain.splice (c : Chain) (k : Nat) (bs : List Block) : Chain :=
  { c with blocks := c.blocks.take k ++ bs }.learn bs

theorem Chain.narrows_splice (c : Chain) (k : Nat) (bs : List Block) : c.Narrows (c.splice k bs) :=
  ⟨fun _ _ h => h, fun _ _ h => h, fun _ _ h => h⟩

theorem Chain.narrows_lengthen (env : Env) (c : Chain) (bs : List Block) :
    c.Narrows (c.lengthen env bs) :=
  ⟨fun _ _ h => h, fun _ _ h => h, fun _ _ h => nomatch h⟩

theorem Chain.Holds.splice (h : c.Holds P) {bs : List Block} (hbs : ∀ b ∈ bs, P b)
    (k : Nat) : (c.splice k bs).Holds P := by
  have hspliced : { c with blocks := c.blocks.take k ++ bs }.Holds P :=
    { h with
      blocks := fun b hb => by
        rcases List.mem_append.mp hb with hb | hb
        · exact h.blocks b (List.mem_of_mem_take hb)
        · exact hbs b hb }
  exact hspliced.learn hbs

/-- **A branch that is switched to** goes through `Switch`, and brings in no other blocks. -/
theorem switch_of_switchBranch {newBlocks : List Block}
    (h : (switchBranch env ancestor newTip newBlocks w).state? = some w') :
    Switch env w w' ancestor newBlocks ∧ w.chain.Narrows w'.chain
      ∧ (w.chain.Holds P → (∀ b ∈ newBlocks, P b) → w'.chain.Holds P) := by
  unfold switchBranch at h
  generalize hk : goInt ancestor.height + 1 = i at h
  cases i with
  | negSucc k => cases h
  | ofNat k =>
    have hreplayed := replayed_of_finish
      (w := ⟨w.chain.splice k newBlocks, .reorganize w.chain ancestor newBlocks :: w.steps⟩) h
      (totalWorkOf (w.chain.blocks.take k ++ newBlocks) w.chain.totalWork)
      (Indexes.reindexAll env (w.chain.blocks.take k ++ newBlocks)) (fun _ => rfl)
      (fun _ => .of_eq rfl rfl rfl rfl rfl (.inr rfl))
    obtain ⟨hsteps, hshrinks, hcore⟩ := hreplayed fun t => by
      refine stores_bind (stores_wrapping (stores_rewriteCanonical t)) fun _ t => ?_
      refine steps_chain_bind ?_
      split
      · exact steps_crash _ t
      · refine steps_bind_all (steps_update (.of_chain rfl (Chain.shrinks_dropForksAbove _ _)))
          fun _ t => ?_
        refine steps_bind_all (aside_cleanOrphanPoolAboveHeight _ t).steps fun _ t => ?_
        exact steps_update (.of_chain rfl (.of_eq rfl rfl rfl rfl rfl (.inl rfl)))
    have hspliced := Chain.spliced_of_index (c := w.chain) hk newBlocks
    refine ⟨⟨?_, hsteps, ?_⟩, (w.chain.narrows_splice k newBlocks).of_shrinks hshrinks,
      fun hP hnew => (hP.splice hnew k).of_shrinks hshrinks⟩
    · rw [hk]
      exact Int.natCast_nonneg k
    · rw [hspliced]
      exact ⟨_, _, .inr ⟨rfl, by rw [hspliced]⟩, hcore⟩

theorem Chain.AtTip.spliced (h : c.AtTip ancestor) (newBlocks : List Block) :
    0 ≤ goInt ancestor.height + 1 ∧ c.spliced ancestor newBlocks = c.blocks ++ newBlocks := by
  have hk : goInt ancestor.height + 1 = c.blocks.length := by
    rw [h.1]
    omega
  refine ⟨by omega, ?_⟩
  rw [Chain.spliced, hk, Int.toNat_natCast, List.take_length]

theorem Chain.Holds.lengthen (h : c.Holds P) {bs : List Block} (hbs : ∀ b ∈ bs, P b) :
    (c.lengthen env bs).Holds P := by
  have hspliced := h.splice hbs c.blocks.length
  unfold Chain.splice at hspliced
  rw [List.take_length] at hspliced
  exact hspliced.of_shrinks (.of_eq rfl rfl rfl rfl rfl (.inr rfl))

/-- **A branch that is appended to the tip** goes through `Switch` too. -/
theorem switch_of_appendBranch {newBlocks : List Block} (htip : w.chain.AtTip ancestor)
    (h : (appendBranch env ancestor newTip newBlocks w).state? = some w') :
    Switch env w w' ancestor newBlocks ∧ w.chain.Narrows w'.chain
      ∧ (w.chain.Holds P → (∀ b ∈ newBlocks, P b) → w'.chain.Holds P) := by
  have hreplayed := replayed_of_finish
    (w := ⟨w.chain.lengthen env newBlocks, .reorganize w.chain ancestor newBlocks :: w.steps⟩) h
    (totalWorkOf (w.chain.blocks ++ newBlocks) w.chain.totalWork)
    (w.chain.lengthen env newBlocks).indexes (fun _ => rfl)
    (fun _ => .of_eq rfl rfl rfl rfl rfl (.inl rfl))
  obtain ⟨hsteps, hshrinks, hcore⟩ := hreplayed fun t => stores_wrapping (stores_rewriteCanonical t)
  obtain ⟨hindex, hspliced⟩ := htip.spliced newBlocks
  refine ⟨⟨hindex, hsteps, ?_⟩, (w.chain.narrows_lengthen env newBlocks).of_shrinks hshrinks,
    fun hP hnew => (hP.lengthen hnew).of_shrinks hshrinks⟩
  rw [hspliced]
  exact ⟨_, _, .inl ⟨htip, rfl, rfl⟩, hcore⟩

/-! ## The branch -/

/-- **The blocks a reorganisation collects**, from the new tip down to the first one that is
no higher than the ancestor. Unless the ancestor is the tip, each has passed the seal check
on the next. -/
structure Branch (env : Env) (c : Chain) (ancestor newTip : Block)
    (visited : List Block) : Prop where
  /-- it starts at the new tip -/
  head : visited.head? = some newTip
  /-- each block is followed by its parent -/
  parents : visited.IsChain fun x y => c.knownParent? x = some y
  /-- all but the last are higher than the ancestor -/
  above : ∀ x ∈ visited.dropLast, ancestor.height < x.height
  /-- the last is not -/
  stop : ∀ x, visited.getLast? = some x → ¬ ancestor.height < x.height
  seals : c.AtTip ancestor
    ∨ visited.IsChain fun x y => verifyBlockPoWSeal env.cr env.powFake x (some y) = .ok ()

theorem refuseSeal_eq_none {y : Block} (h : refuseSeal env x y = none) :
    verifyBlockPoWSeal env.cr env.powFake x (some y) = .ok () := by
  unfold refuseSeal at h
  split at h
  · cases h
  · cases h
  · next hv =>
    unfold sealVerdict at hv
    split at hv
    · split at hv
      · cases hv
      · exact Except.ok.inj hv
    · exact Except.ok.inj hv

/-- One step of the collection goes to the parent of a block above the ancestor. -/
theorem branchStep_eq_next {y : Block} (h : branchStep refuse c height x = .next y) :
    height < x.height ∧ c.knownParent? x = some y ∧ refuse x y = none := by
  unfold branchStep at h
  split at h
  · next hx =>
    split at h
    · cases h
    · next p hp =>
      split at h
      · cases h
      · next hr =>
        cases h
        exact ⟨hx, hp, hr⟩
  · cases h

theorem branchStep_eq_reached (hrefuse : ∀ x y, refuse x y ≠ some .reached)
    (h : branchStep refuse c height x = .done .reached) : ¬ height < x.height := by
  unfold branchStep at h
  split at h
  · split at h
    · cases h
    · split at h
      · next e he => exact absurd (WalkStep.done.inj h ▸ he) (hrefuse _ _)
      · cases h
  · next hx => exact hx

/-- What the collection has visited when it reaches the height of the ancestor. -/
theorem walk_branchStep (hrefuse : ∀ x y, refuse x y ≠ some .reached) :
    ∀ {n : Nat} {start : Block} {visited : List Block},
      walk (branchStep refuse c height) n start = some (visited, .reached) →
      visited.head? = some start
        ∧ visited.IsChain (fun x y => c.knownParent? x = some y ∧ refuse x y = none)
        ∧ (∀ x ∈ visited.dropLast, height < x.height)
        ∧ ∀ x, visited.getLast? = some x → ¬ height < x.height
  | 0, _, _, h => nomatch h
  | n + 1, start, visited, h => by
    rcases walk_succ_eq_some.mp h with ⟨hs, rfl⟩ | ⟨y, l, hs, hw, rfl⟩
    · refine ⟨rfl, .singleton _, nofun, fun x hx => ?_⟩
      obtain rfl : start = x := by simpa using hx
      exact branchStep_eq_reached hrefuse hs
    · obtain ⟨hhead, hchain, habove, hstop⟩ := walk_branchStep hrefuse hw
      obtain ⟨hx, hp, hr⟩ := branchStep_eq_next hs
      obtain ⟨l', rfl⟩ : ∃ l', l = y :: l' := by
        cases l with
        | nil => cases hhead
        | cons z l' => exact ⟨l', by rw [List.head?_cons, Option.some.injEq] at hhead; rw [hhead]⟩
      refine ⟨rfl, hchain.cons_cons ⟨hp, hr⟩, fun x hxm => ?_, fun x hxl => ?_⟩
      · rcases List.mem_cons.mp hxm with rfl | hxm
        · exact hx
        · exact habove x hxm
      · exact hstop x hxl

/-- A branch that is visited downwards, turned round: the links of its blocks, and that of
the lowest to the block the walk ended at. -/
theorem isChain_dropLast_reverse {S : Block → Block → Prop} (h : visited.IsChain S) :
    visited.dropLast.reverse.IsChain (fun p b => S b p)
      ∧ ∀ b ∈ visited.dropLast.reverse.head?, ∀ x ∈ visited.getLast?, S b x := by
  rcases List.eq_nil_or_concat' visited with rfl | ⟨l, x, rfl⟩
  · exact ⟨.nil, nofun⟩
  · obtain ⟨hl, -, hlast⟩ := List.isChain_append.mp h
    rw [List.dropLast_concat, List.head?_reverse]
    refine ⟨List.isChain_reverse.mpr hl, fun b hb y hy => ?_⟩
    obtain rfl : x = y := by simpa using hy
    exact hlast b hb x rfl

theorem exists_getLast?_of_head? {visited : List Block} {b : Block}
    (h : b ∈ visited.dropLast.reverse.head?) : ∃ x, visited.getLast? = some x := by
  rcases List.eq_nil_or_concat' visited with rfl | ⟨l, x, rfl⟩
  · cases h
  · exact ⟨x, List.getLast?_concat⟩

theorem unboundedWalk_eq_ret {step : Block → WalkStep Block β} {bound : Nat}
    {start : Block} {t : World} {r : List Block × β}
    (h : unboundedWalk step bound start w = .ret r t) : t = w ∧ walk step bound start = some r := by
  unfold unboundedWalk at h
  cases hr : walk step bound start with
  | none =>
    rw [hr] at h
    cases h
  | some r' =>
    rw [hr] at h
    obtain ⟨rfl, rfl⟩ := Outcome.ret.inj (h : Outcome.ret r' w = .ret r t)
    exact ⟨rfl, rfl⟩

/-! ## Moves -/

/-- Where a block is put on the tip: its parent is the tip, and its height is the next index
or one more than the height of the tip; or its height is one more than the next index,
whatever its parent; or there is no tip and its height is 0. -/
def Attach (c : Chain) (b : Block) : Prop :=
  (∃ tip, c.tip? = some tip ∧ b.header.prevHash = tip.hash
      ∧ (b.height = c.length64 ∨ b.height = tip.height + 1))
    ∨ b.height = c.length64 + 1 ∨ (c.tip? = none ∧ b.height = c.length64)

/-- The extension step from `w` to `w'`: the block is refused by the store, or stored and
refused by the state, or stored and applied. -/
structure Extension (env : Env) (w w' : World) (b : Block) : Prop where
  steps : w'.steps = .extend w.chain b :: w.steps
  /-- the three ends -/
  core : let on := (w.chain.putOn env b).core
    match w.chain.appended env b with
    | .error _ => w'.chain.core = { on with blocks := w.chain.blocks }
    | .ok store =>
      match w.chain.applied env b with
      | .ret () s => w'.chain.core = { on with state := s, store := store }
      | .err _ s => w'.chain.core = { on with blocks := w.chain.blocks, state := s, store := store }

/-- A reorganisation that is refused after the chain was switched: by the state or by the
store. -/
def CoreStep.Refused (env : Env) : CoreStep → Prop
  | .reorganize before ancestor newBlocks =>
    let blocks := before.spliced ancestor newBlocks
    (∃ e s, replayBlocks env (blocks.map before.view) ∅ = .err e s)
      ∨ (∃ e, before.store.rewriteCanonical
          (blocks.map (viewWith (totalWorkOf blocks before.totalWork).2)) = .error e)
      ∨ env.storeOk before.tick = false
  | _ => False

/-- **A move**: the core stays as it is, or one of its three steps is taken, by a block or a
branch that is allowed. `P` is what is known of every block in the chain object and `T` of
an ancestor and a new tip when a reorganisation is asked for. -/
inductive Move (env : Env) (P : Block → Prop) (T : Chain → Block → Block → Prop)
    (w w' : World) : Prop
  /-- nothing happens to the core -/
  | still (hsteps : w'.steps = w.steps) (hcore : w'.chain.core = w.chain.core)
  /-- a block is put on the tip; after a refused reorganisation the tip may be another one than
  the one its parent was compared with -/
  | extend (b : Block) (hP : P b)
      (hattach : Attach w.chain b ∨ ∃ step ∈ w.steps, CoreStep.Refused env step)
      (h : Extension env w w' b)
  /-- a branch is switched to -/
  | switch (ancestor newTip : Block) (visited : List Block) (hP : P newTip)
      (hT : T w.chain ancestor newTip) (hbranch : Branch env w.chain ancestor newTip visited)
      (h : Switch env w w' ancestor visited.dropLast.reverse)
  /-- the chain is cut -/
  | cut (height : UInt64) (h : Cut env w w' height)

/-- **A sequence of moves**, from a chain object all of whose blocks satisfy `P`. -/
def Evolves (env : Env) (P : Block → Prop) (T : Chain → Block → Block → Prop) (w w' : World) :
    Prop :=
  w.chain.Holds P → w'.chain.Holds P
    ∧ Relation.ReflTransGen (fun w w' => w.chain.Holds P ∧ Move env P T w w') w w'

variable {T : Chain → Block → Block → Prop}

instance : IsPreorder World (Evolves env P T) where
  refl _ hP := ⟨hP, .refl⟩
  trans _ _ _ h h' hP := by
    obtain ⟨hP1, hr1⟩ := h hP
    obtain ⟨hP2, hr2⟩ := h' hP1
    exact ⟨hP2, hr1.trans hr2⟩

theorem Evolves.of_move (h : w.chain.Holds P → w'.chain.Holds P ∧ Move env P T w w') :
    Evolves env P T w w' :=
  fun hP => ⟨(h hP).1, .single ⟨hP, (h hP).2⟩⟩

theorem Aside.evolves (h : Aside w w') : Evolves env P T w w' :=
  .of_move fun hP => ⟨hP.of_shrinks h.shrinks, .still h.steps h.core⟩

theorem evolves_of_cacheOnly {m : ChainM α} (h : Errless CacheOnly m w) :
    Steps (Evolves env P T) m w :=
  steps_mono h.steps fun _ h => .of_move fun hP => ⟨h.holds hP, by
    obtain ⟨m, n, rfl⟩ := h
    exact .still rfl rfl⟩

/-! ## Reorganisations as moves -/

theorem Branch.holds (h : Branch env c ancestor newTip visited) (hc : c.Holds P) (htip : P newTip) :
    ∀ b ∈ visited, P b := by
  have haux : ∀ (l : List Block) (x : Block), P x →
      (x :: l).IsChain (fun x y => c.knownParent? x = some y) → ∀ b ∈ x :: l, P b := by
    intro l
    induction l with
    | nil =>
      intro x hx _ b hb
      exact List.mem_singleton.mp hb ▸ hx
    | cons y l ih =>
      intro x hx hchain b hb
      rw [List.isChain_cons_cons] at hchain
      rcases List.mem_cons.mp hb with rfl | hb
      · exact hx
      · exact ih y (hc.knownParent hchain.1).1 hchain.2 b hb
  obtain ⟨l, rfl⟩ : ∃ l, visited = newTip :: l := by
    cases visited with
    | nil => cases h.head
    | cons x l => exact ⟨l, by rw [Option.some.inj h.head]⟩
  exact haux l newTip htip h.parents

/-- The blocks of a branch above the ancestor, from the lowest on. -/
theorem Branch.newBlocks_holds
    (h : Branch env c ancestor newTip visited) (hc : c.Holds P) (htip : P newTip) :
    ∀ b ∈ visited.dropLast.reverse, P b := fun b hb =>
  h.holds hc htip b (List.mem_of_mem_dropLast (List.mem_reverse.mp hb))

/-- **What a reorganisation comes to**: a request for a parent at most, or the branch of the new
tip is collected, and is appended to the tip or switched to. -/
def Undertakes (env : Env) (ancestor newTip : Block) (w w' : World) : Prop :=
  RequestsOnly w w' ∨ ∃ visited, Branch env w.chain ancestor newTip visited
    ∧ (w.chain.AtTip ancestor
        ∧ (appendBranch env ancestor newTip visited.dropLast.reverse w).state? = some w'
      ∨ (switchBranch env ancestor newTip visited.dropLast.reverse w).state? = some w')

/-- What a reorganisation comes to that does not get to its branch. -/
def GivesUp (m : ChainM Unit) (w : World) : Prop :=
  (∀ t, m w ≠ .ret () t) ∧ Steps RequestsOnly m w

theorem givesUp_throw (e : GoError) (w : World) : GivesUp (Prog.throw e) w :=
  ⟨nofun, steps_throw e w⟩

theorem missingParent_ne_ret (b : Block) (w t : World) : missingParent env b w ≠ .ret () t := by
  intro h
  unfold missingParent at h
  rw [chain_bind_apply, Prog.ite_apply] at h
  split at h
  · obtain ⟨_, t1, -, h⟩ := bind_eq_ret.mp h
    obtain ⟨_, t2, -, h⟩ := bind_eq_ret.mp h
    cases h
  · cases h

/-- The loop of a reorganisation visits these blocks on its way to the height of the ancestor. -/
def Chain.Follows (c : Chain) (refuse : Block → Block → Option BranchEnd) (ancestor newTip : Block)
    (visited : List Block) : Prop :=
  walk (branchStep refuse c ancestor.height) c.branchBound newTip = some (visited, .reached)

/-- **The loop of a reorganisation** gets to the height of the ancestor, or gives up. -/
theorem follows_or_givesUp
    {k : List Block × BranchEnd → ChainM Unit} (hk : ∀ r, r.2 ≠ .reached → GivesUp (k r) w) :
    let m := unboundedWalk (branchStep refuse w.chain ancestor.height) w.chain.branchBound newTip
      >>= k
    (∃ visited, w.chain.Follows refuse ancestor newTip visited ∧ m w = k (visited, .reached) w)
      ∨ (∀ visited, ¬ w.chain.Follows refuse ancestor newTip visited) ∧ GivesUp m w := by
  unfold GivesUp Steps Chain.Follows
  simp only [bind_apply, unboundedWalk]
  cases walk (branchStep refuse w.chain ancestor.height) w.chain.branchBound newTip with
  | none => exact .inr ⟨nofun, nofun, nofun⟩
  | some r =>
    obtain ⟨visited, stop⟩ := r
    by_cases hstop : stop = .reached
    · subst hstop
      exact .inl ⟨visited, rfl, rfl⟩
    · refine .inr ⟨fun visited' h => hstop ?_, hk _ hstop⟩
      exact (Prod.mk.inj (Option.some.inj h)).2

/-- **The branch is collected and appended**, or the extension gives up. -/
theorem extendFromTip_cases (ancestor newTip : Block) (w : World) :
    (∃ visited, w.chain.Follows (fun _ _ => none) ancestor newTip visited
        ∧ extendFromTip env ancestor newTip w
          = appendBranch env ancestor newTip visited.dropLast.reverse w)
      ∨ (∀ visited, ¬ w.chain.Follows (fun _ _ => none) ancestor newTip visited)
        ∧ GivesUp (extendFromTip env ancestor newTip) w := by
  refine follows_or_givesUp fun r hr => ?_
  obtain ⟨visited, stop⟩ := r
  cases stop with
  | reached => exact absurd rfl hr
  | missing | badSeal _ | faulted _ => exact givesUp_throw _ w

/-- **The branch is collected and switched to**, or the reorganisation gives up. -/
theorem adoptBranch_cases (ancestor newTip : Block) (w : World) :
    (∃ visited, w.chain.Follows (refuseSeal env) ancestor newTip visited
        ∧ adoptBranch env ancestor newTip w
          = switchBranch env ancestor newTip visited.dropLast.reverse w)
      ∨ (∀ visited, ¬ w.chain.Follows (refuseSeal env) ancestor newTip visited)
        ∧ GivesUp (adoptBranch env ancestor newTip) w := by
  refine follows_or_givesUp fun r hr => ?_
  obtain ⟨visited, stop⟩ := r
  cases stop with
  | reached => exact absurd rfl hr
  | missing => exact ⟨missingParent_ne_ret _ w, requests_missingParent _ w⟩
  | faulted f => exact ⟨nofun, nofun⟩
  | badSeal e =>
    refine ⟨fun t h => ?_, ?_⟩
    · obtain ⟨_, t1, -, h⟩ := bind_eq_ret.mp h
      cases h
    · exact steps_hexPrefix16_bind (steps_throw _ w)

theorem refuseNone_ne_reached (_ _ : Block) : (none : Option BranchEnd) ≠ some .reached := nofun

theorem refuseSeal_ne_reached (x y : Block) : refuseSeal env x y ≠ some .reached := by
  unfold refuseSeal
  split <;> exact nofun

theorem Chain.Follows.branch_of_atTip (htip : c.AtTip ancestor)
    (h : c.Follows (fun _ _ => none) ancestor newTip visited) :
    Branch env c ancestor newTip visited := by
  obtain ⟨hhead, hchain, habove, hstop⟩ := walk_branchStep refuseNone_ne_reached h
  exact ⟨hhead, hchain.imp fun _ _ h => h.1, habove, hstop, .inl htip⟩

theorem Chain.Follows.branch (h : c.Follows (refuseSeal env) ancestor newTip visited) :
    Branch env c ancestor newTip visited := by
  obtain ⟨hhead, hchain, habove, hstop⟩ := walk_branchStep refuseSeal_ne_reached h
  exact ⟨hhead, hchain.imp fun _ _ h => h.1, habove, hstop,
    .inr (hchain.imp fun _ _ h => refuseSeal_eq_none h.2)⟩

/-- **What a reorganisation is**: an extension of the tip, a switch of the branch, or nothing but
requests. -/
theorem reorganizeChainLocked_cases (ancestor newTip : Block) (w : World) :
    (∃ visited, Branch env w.chain ancestor newTip visited
        ∧ goInt ancestor.height < w.chain.blocks.length
        ∧ (w.chain.AtTip ancestor ∧ reorganizeChainLocked env ancestor newTip w
            = appendBranch env ancestor newTip visited.dropLast.reverse w
          ∨ ¬ w.chain.AtTip ancestor ∧ reorganizeChainLocked env ancestor newTip w
            = switchBranch env ancestor newTip visited.dropLast.reverse w))
      ∨ GivesUp (reorganizeChainLocked env ancestor newTip) w := by
  unfold GivesUp Steps reorganizeChainLocked
  rw [chain_bind_apply]
  cases htip : w.chain.tip? with
  | none => exact .inr (givesUp_throw _ w)
  | some tip =>
    dsimp only
    split
    · exact .inr (givesUp_throw _ w)
    · next hmax =>
      have hlt : goInt ancestor.height < w.chain.blocks.length := by omega
      split
      · next hat =>
        have hattip : w.chain.AtTip ancestor := ⟨hat.1, tip, htip, hat.2⟩
        rcases extendFromTip_cases ancestor newTip w with ⟨visited, hfollows, heq⟩ | ⟨-, hgives⟩
        · exact .inl ⟨visited, hfollows.branch_of_atTip hattip, hlt, .inl ⟨hattip, heq⟩⟩
        · exact .inr hgives
      · next hat =>
        have hnot : ¬ w.chain.AtTip ancestor := by
          rintro ⟨hheight, tip', htip', hhash⟩
          obtain rfl := Option.some.inj (htip.symm.trans htip')
          exact hat ⟨hheight, hhash⟩
        rcases adoptBranch_cases ancestor newTip w with ⟨visited, hfollows, heq⟩ | ⟨-, hgives⟩
        · exact .inl ⟨visited, hfollows.branch, hlt, .inr ⟨hnot, heq⟩⟩
        · exact .inr hgives

theorem undertakes_reorganizeChainLocked (ancestor newTip : Block) (w : World) :
    Steps (Undertakes env ancestor newTip) (reorganizeChainLocked env ancestor newTip) w := by
  intro w' h
  rcases reorganizeChainLocked_cases ancestor newTip w with
    ⟨visited, hbranch, -, ⟨htip, heq⟩ | ⟨-, heq⟩⟩ | ⟨-, hrequests⟩
  · exact .inr ⟨visited, hbranch, .inl ⟨htip, heq ▸ h⟩⟩
  · exact .inr ⟨visited, hbranch, .inr (heq ▸ h)⟩
  · exact .inl (hrequests w' h)

/-- **What a reorganisation does**: nothing to the core, or it switches to the branch of the
new tip. -/
def Reorganizes (env : Env) (P : Block → Prop) (ancestor newTip : Block) (w w' : World) : Prop :=
  Aside w w' ∨ ∃ visited, Branch env w.chain ancestor newTip visited
    ∧ Switch env w w' ancestor visited.dropLast.reverse ∧ w.chain.Narrows w'.chain
    ∧ (w.chain.Holds P → P newTip → w'.chain.Holds P)

/-- **A reorganisation switches to the branch of the new tip**, or leaves the core alone. -/
theorem reorganizes_reorganizeChainLocked (ancestor newTip : Block) (w : World) :
    Steps (Reorganizes env P ancestor newTip) (reorganizeChainLocked env ancestor newTip) w := by
  intro w' h
  rcases undertakes_reorganizeChainLocked ancestor newTip w w' h with
    hrequests | ⟨visited, hbranch, hend⟩
  · exact .inl hrequests.aside
  · have hswitch : Switch env w w' ancestor visited.dropLast.reverse ∧ w.chain.Narrows w'.chain
        ∧ (w.chain.Holds P → (∀ b ∈ visited.dropLast.reverse, P b) → w'.chain.Holds P) := by
      rcases hend with ⟨htip, happend⟩ | hswitch
      · exact switch_of_appendBranch htip happend
      · exact switch_of_switchBranch hswitch
    obtain ⟨hswitch, hnarrows, hholds⟩ := hswitch
    exact .inr ⟨visited, hbranch, hswitch, hnarrows,
      fun hc hP => hholds hc (hbranch.newBlocks_holds hc hP)⟩

/-- **A reorganisation is a move**, at most one and to the branch of the new tip. -/
theorem evolves_reorganizeChainLocked (hP : P newTip) (hT : T w.chain ancestor newTip) :
    Steps (Evolves env P T) (reorganizeChainLocked env ancestor newTip) w := by
  intro w' h
  rcases reorganizes_reorganizeChainLocked (P := P) ancestor newTip w w' h with
    haside | ⟨visited, hbranch, hswitch, -, hholds⟩
  · exact haside.evolves
  · exact .of_move fun hc => ⟨hholds hc hP, .switch ancestor newTip visited hP hT hbranch hswitch⟩

end NogoChain
