import NogoChain.Chain.Moves

/-!
# What an error leaves behind

The loop of `tryProcessOrphansLocked` compares orphans with a tip that it read before it
tried others. An attempt that returns an error has left the canonical blocks as they were,
with one exception: a reorganisation that the state or the store refused after the chain
was switched. So in the absence of refused reorganisations the tip is still the one that
was read.
-/

namespace NogoChain

open Chain Prog

variable {env : Env}

/-- **The canonical blocks stay**, or a refused reorganisation is on record. -/
structure Sticks (env : Env) (w w' : World) : Prop where
  /-- steps are only added -/
  steps : ∃ l, w'.steps = l ++ w.steps
  blocks : w'.chain.blocks = w.chain.blocks ∨ ∃ step ∈ w'.steps, CoreStep.Refused env step

instance : IsPreorder World (Sticks env) where
  refl _ := ⟨⟨[], rfl⟩, .inl rfl⟩
  trans w w' w'' h h' := by
    obtain ⟨l, hl⟩ := h.steps
    obtain ⟨l', hl'⟩ := h'.steps
    refine ⟨⟨l' ++ l, by rw [hl', hl, List.append_assoc]⟩, ?_⟩
    rcases h'.blocks with hb' | hr'
    · rcases h.blocks with hb | ⟨step, hstep, hr⟩
      · exact .inl (hb'.trans hb)
      · exact .inr ⟨step, by rw [hl']; exact List.mem_append_right l' hstep, hr⟩
    · exact .inr hr'

variable {w w' : World} {α : Type} {e : GoError} {ancestor newTip : Block}
  {descend : Bytes → ChainM Unit}

theorem Aside.sticks (h : Aside w w') : Sticks env w w' :=
  ⟨⟨[], h.steps⟩, .inl (congrArg Core.blocks h.core)⟩

theorem CacheOnly.sticks (h : CacheOnly w w') : Sticks env w w' := by
  obtain ⟨m, n, rfl⟩ := h
  exact ⟨⟨[], rfl⟩, .inl rfl⟩

theorem NoErr.sticks {m : ChainM α} (h : NoErr m w) : Errs (Sticks env) m w :=
  h.mono fun _ => False.elim

theorem errs_wrapping {R : World → World → Prop} {format : String} {args : List FmtArg}
    {m : ChainM α} (h : Errs R m w) : Errs R (wrapping format args m) w := by
  intro e w' hw'
  rw [wrapping_apply] at hw'
  split at hw'
  · cases hw'
  · next e' s hm =>
    obtain ⟨_, rfl⟩ := Outcome.err.inj hw'
    exact h e' s hm
  · cases hw'

/-! ## Programs without errors -/

theorem errs_chain_bind {R : World → World → Prop} {f : Chain → ChainM α}
    (h : Errs R (f w.chain) w) : Errs R (chain >>= f) w := h

variable {m : ChainM Unit}

theorem noErr_when {b : Bool} (h : NoErr m w) : NoErr (Prog.when b m) w := by
  cases b with
  | false => exact errs_pure () w
  | true => exact h

theorem noErr_andAlso {b : Bool} {m : ChainM Bool} (h : NoErr m w) :
    NoErr (Prog.andAlso b m) w := by
  cases b with
  | false => exact errs_pure false w
  | true => exact h

theorem noErr_autoReorgIfNeededLocked (w : World) : NoErr (autoReorgIfNeededLocked env) w := by
  refine errs_bind_all (errless_betterTip w).noErr fun best t => ?_
  cases best with
  | none => exact errs_pure () t
  | some best =>
    refine errs_bind_all (noErr_hexPrefix16 _ _ t) fun _ t => ?_
    refine errs_bind_all (errless_calculateCumulativeWorkLocked _ t).noErr fun _ t => ?_
    refine errs_chain_bind ?_
    refine errs_bind_all (noErr_hexPrefix16 _ _ t) fun _ t => ?_
    refine errs_bind_all (errs_attempt _ t) fun r t => ?_
    cases r with
    | error e => exact errs_pure () t
    | ok ancestor =>
      exact errs_bind_all (errs_attempt _ t) fun _ t => errs_pure () t

theorem noErr_debouncedAutoReorgLocked (w : World) : NoErr (debouncedAutoReorgLocked env) w := by
  refine errs_chain_bind ?_
  refine errs_bind_all (noErr_ask _ w) fun now t => ?_
  split
  · exact errs_pure () t
  · refine errs_bind_all (noErr_ask _ t) fun now t => ?_
    exact errs_bind_all (noErr_update _ t) fun _ t => noErr_autoReorgIfNeededLocked t

/-! ## Reorganisations that return an error -/

/-- The canonical chain can be written to the store. -/
def Chain.Writable (env : Env) (c : Chain) : Prop :=
  env.storeOk c.tick = true ∧ (c.store.rewriteCanonical (c.blocks.map c.view)).isOk = true

theorem exists_rewriteCanonical_err_iff : (∃ e, rewriteCanonical env w = .err e w')
      ↔ ¬ w.chain.Writable env ∧ w' = ⟨w.chain.ticked, w.steps⟩ := by
  rw [rewriteCanonical_apply, storeWrite_apply]
  cases hw : w.chain.written env _ with
  | error e =>
    have hrefused : ¬ w.chain.Writable env := exists_written_error_iff.mp ⟨e, hw⟩
    constructor
    · rintro ⟨e', h⟩
      exact ⟨hrefused, (Outcome.err.inj h).2.symm⟩
    · rintro ⟨-, rfl⟩
      exact ⟨e, rfl⟩
  | ok store =>
    obtain ⟨hok, hstore⟩ := written_eq_ok.mp hw
    have hwritable : w.chain.Writable env := ⟨hok, by rw [hstore]; rfl⟩
    simp [hwritable]

theorem exists_wrapping_err_iff (format : String) (args : List FmtArg) (m : ChainM α)
    (w w' : World) : (∃ e, wrapping format args m w = .err e w') ↔ ∃ e, m w = .err e w' := by
  rw [wrapping_apply]
  cases m w with
  | ret a t | fault x => exact ⟨fun ⟨_, h⟩ => (nomatch h), fun ⟨_, h⟩ => (nomatch h)⟩
  | err e t =>
    constructor
    · rintro ⟨e', h⟩
      exact ⟨e, by rw [(Outcome.err.inj h).2]⟩
    · rintro ⟨e', h⟩
      exact ⟨_, by rw [(Outcome.err.inj h).2]⟩

/-- **The errors of a replay that is then written**: the state up to the block that fails, or the
finished chain that could not be written. -/
theorem exists_replay_err_iff {msg : String} {finish : Chain → Chain}
    (hm : ∀ t t', (∃ e, m t = .err e t') ↔ ∃ e, rewriteCanonical env t = .err e t') :
    (∃ e, (do
        wrapping msg [] (recomputeStateLocked env)
        update finish
        m : ChainM Unit) w = .err e w')
      ↔ match w.chain.replay env with
        | .err _ s => w' = w.withState s
        | .ret () s => ¬ (finish (w.withState s).chain).Writable env
            ∧ w' = ⟨(finish (w.withState s).chain).ticked, w.steps⟩ := by
  have hreplay := recomputeStateLocked_apply env w
  cases hout : w.chain.replay env with
  | fault x => exact x.elim
  | err e s =>
    rw [hout] at hreplay
    obtain ⟨e', he'⟩ := hreplay
    rw [bind_apply, wrapping_apply, he']
    constructor
    · rintro ⟨e'', h⟩
      exact (Outcome.err.inj h).2.symm
    · rintro rfl
      exact ⟨_, rfl⟩
  | ret a s =>
    rw [hout] at hreplay
    rw [bind_apply, wrapping_apply, hreplay]
    refine Iff.trans (hm ⟨finish (w.withState s).chain, w.steps⟩ w') ?_
    exact exists_rewriteCanonical_err_iff

/-- Replaying and storing the blocks in place ends with an error only if the replay or the
write is refused. -/
theorem refused_of_err {msg : String} {finish : Chain → Chain}
    (hm : ∀ t t', (∃ e, m t = .err e t') ↔ ∃ e, rewriteCanonical env t = .err e t')
    (h : (do
      wrapping msg [] (recomputeStateLocked env)
      update finish
      m : ChainM Unit) w = .err e w')
    (r : Nat × GoMap Nat Bytes) (x : Indexes)
    (hfinish : ∀ s, (finish (w.withState s).chain).core
      = ⟨w.chain.blocks, s, r.1, r.2, w.chain.store, x⟩)
    (htick : ∀ s, (finish (w.withState s).chain).tick = w.chain.tick) :
    (∃ e s, w.chain.replay env = .err e s)
      ∨ (∃ e, w.chain.store.rewriteCanonical (w.chain.blocks.map (viewWith r.2)) = .error e)
      ∨ env.storeOk w.chain.tick = false := by
  have herr := (exists_replay_err_iff hm).mp ⟨e, h⟩
  cases hout : w.chain.replay env with
  | fault x => exact x.elim
  | err e s => exact .inl ⟨e, s, rfl⟩
  | ret a s =>
    rw [hout] at herr
    have hb : (finish (w.withState s).chain).blocks = w.chain.blocks :=
      congrArg Core.blocks (hfinish s)
    have ht : (finish (w.withState s).chain).totalWork = r.2 :=
      congrArg Core.totalWork (hfinish s)
    have hs : (finish (w.withState s).chain).store = w.chain.store :=
      congrArg Core.store (hfinish s)
    have hrefused := refused_of_not_written herr.1
    rw [hb, hs, view_eq, ht, htick] at hrefused
    exact .inr hrefused

/-- What follows the write of the store without errors of its own changes nothing about where an
error leaves the chain. -/
theorem exists_stored_err_iff {format : String} {args : List FmtArg}
    {f : Unit → ChainM α} (hf : ∀ a t, NoErr (f a) t) (w w' : World) :
    (∃ e, (wrapping format args (rewriteCanonical env) >>= f) w = .err e w')
      ↔ ∃ e, rewriteCanonical env w = .err e w' :=
  (exists_congr fun _ => bind_eq_err_iff hf).trans (exists_wrapping_err_iff _ _ _ _ _)

/-- An error of `switchBranch` comes from a refusal. -/
theorem refused_of_switchBranch {newBlocks : List Block}
    (h : switchBranch env ancestor newTip newBlocks w = .err e w') :
    CoreStep.Refused env (.reorganize w.chain ancestor newBlocks) := by
  unfold switchBranch at h
  generalize hk : goInt ancestor.height + 1 = i at h
  cases i with
  | negSucc k => cases h
  | ofNat k =>
    simp only [CoreStep.Refused, spliced_of_index hk]
    refine refused_of_err
      (w := ⟨w.chain.splice k newBlocks, .reorganize w.chain ancestor newBlocks :: w.steps⟩)
      (exists_stored_err_iff fun _ t => ?_) h
      (totalWorkOf (w.chain.blocks.take k ++ newBlocks) w.chain.totalWork)
      (Indexes.reindexAll env (w.chain.blocks.take k ++ newBlocks)) (fun _ => rfl) (fun _ => rfl)
    refine errs_chain_bind ?_
    split
    · exact errs_crash _ t
    · refine errs_bind_all (noErr_update _ t) fun _ t => ?_
      exact errs_bind_all (aside_cleanOrphanPoolAboveHeight _ t).noErr fun _ t => noErr_update _ t

/-- An error of `appendBranch` comes from a refusal. -/
theorem refused_of_appendBranch {newBlocks : List Block} (htip : w.chain.AtTip ancestor)
    (h : appendBranch env ancestor newTip newBlocks w = .err e w') :
    CoreStep.Refused env (.reorganize w.chain ancestor newBlocks) := by
  simp only [CoreStep.Refused, (htip.spliced newBlocks).2]
  exact refused_of_err
    (w := ⟨w.chain.lengthen env newBlocks, .reorganize w.chain ancestor newBlocks :: w.steps⟩)
    (exists_wrapping_err_iff _ _ _) h
    (totalWorkOf (w.chain.blocks ++ newBlocks) w.chain.totalWork)
    (w.chain.lengthen env newBlocks).indexes (fun _ => rfl) (fun _ => rfl)

theorem Sticks.of_refused {step : CoreStep} (hsteps : w'.steps = step :: w.steps)
    (h : CoreStep.Refused env step) : Sticks env w w' :=
  ⟨⟨[step], hsteps⟩, .inr ⟨step, by rw [hsteps]; exact List.mem_cons_self, h⟩⟩

theorem errs_reorganizeChainLocked (ancestor newTip : Block) (w : World) :
    Errs (Sticks env) (reorganizeChainLocked env ancestor newTip) w := by
  rcases reorganizeChainLocked_cases ancestor newTip w with
    ⟨visited, -, -, ⟨htip, heq⟩ | ⟨-, heq⟩⟩ | ⟨-, hrequests⟩
  · intro e w' h
    rw [heq] at h
    have hstate := (congrArg Outcome.state? h).trans (Outcome.state?_err _ _)
    have hswitch := (switch_of_appendBranch (P := fun _ => True) htip hstate).1
    exact .of_refused hswitch.steps (refused_of_appendBranch htip h)
  · intro e w' h
    rw [heq] at h
    have hstate := (congrArg Outcome.state? h).trans (Outcome.state?_err _ _)
    have hswitch := (switch_of_switchBranch (P := fun _ => True) hstate).1
    exact .of_refused hswitch.steps (refused_of_switchBranch h)
  · exact hrequests.errs.mono fun _ h => h.aside.sticks

theorem errs_reorganizeToHeaviestLocked (w : World) :
    Errs (Sticks env) (reorganizeToHeaviestLocked env) w := by
  refine errs_chain_bind ?_
  split
  · exact errs_pure () w
  · refine errs_bind (steps_mono (errless_betterTip w).steps fun _ h => h.sticks) fun best t _ => ?_
    cases best with
    | none => exact errs_pure () t
    | some best =>
      refine errs_bind (steps_mono (errless_calculateCumulativeWorkLocked best t).steps
        fun _ h => h.sticks) fun _ t _ => ?_
      exact errs_bind (steps_wrapping (steps_findCommonAncestorLocked best t)) fun _ t _ =>
        errs_reorganizeChainLocked _ _ t

/-! ## Insertions that return an error -/

theorem errs_appendToTip (b : Block) (w : World) : Errs (Sticks env) (appendToTip env b) w := by
  intro e w' h
  rw [appendToTip_apply] at h
  refine ⟨⟨[.extend w.chain b], ?_⟩, .inl ?_⟩
  all_goals
    split at h
    · obtain ⟨_, rfl⟩ := Outcome.err.inj h
      simp [takeOff, ticked, putOn]
    · split at h
      · cases h
      · obtain ⟨_, rfl⟩ := Outcome.err.inj h
        simp [takeOff, World.withState, withStore, putOn]

/-- The errors of `addCanonicalBlockLocked` are those of its first half. -/
theorem addCanonicalBlockLocked_eq_err (hdescend : ∀ h t, NoErr (descend h) t) {b : Block} :
    addCanonicalBlockLocked env descend b w = .err e w' ↔ appendToTip env b w = .err e w' := by
  refine bind_eq_err_iff fun _ t => ?_
  refine errs_bind_all (noErr_hexPrefix16 _ _ t) fun _ t => ?_
  refine errs_bind_all (noErr_update _ t) fun _ t => ?_
  refine errs_bind_all (hdescend _ t) fun _ t => ?_
  exact errs_bind_all (noErr_autoReorgIfNeededLocked t) fun _ t => errs_pure _ t

theorem errs_addCanonicalBlockLocked
    (hdescend : ∀ h t, NoErr (descend h) t) (b : Block) (w : World) :
    Errs (Sticks env) (addCanonicalBlockLocked env descend b) w := fun e w' h =>
  errs_appendToTip b w e w' ((addCanonicalBlockLocked_eq_err hdescend).mp h)

theorem noErr_addDuplicateFork (hdescend : ∀ h t, NoErr (descend h) t) (b : Block) (w : World) :
    NoErr (addDuplicateFork env descend b) w := by
  refine errs_bind_all (noErr_hexPrefix16 _ _ w) fun _ t => ?_
  refine errs_chain_bind ?_
  refine errs_bind_all (noErr_when (requests_requestForkParent b t).noErr) fun _ t => ?_
  refine errs_bind_all (errless_forkChainComplete (R := CacheOnly) b t).noErr fun complete t => ?_
  refine errs_bind_all (noErr_andAlso (errless_shouldReorgToHeaviestLocked t).noErr)
    fun heavier t => ?_
  refine errs_bind_all (noErr_when ?_) fun _ t => ?_
  · exact errs_bind_all (errs_attempt _ t) fun _ t => errs_pure _ t
  · refine errs_bind_all (hdescend _ t) fun _ t => ?_
    exact errs_bind_all (noErr_debouncedAutoReorgLocked t) fun _ t => errs_pure _ t

theorem Chain.core_limitForksAt (c : Chain) (height : UInt64) :
    (c.limitForksAt height).core = c.core := by
  unfold limitForksAt
  dsimp only
  split <;> rfl

theorem Chain.core_dropLowestForks :
    ∀ (hs : List UInt64) (total : Nat) (c : Chain), (dropLowestForks hs total c).core = c.core
  | [], _, _ => rfl
  | h :: hs, total, c => by
    unfold dropLowestForks
    split
    · rfl
    · exact (core_dropLowestForks hs _ _).trans rfl

theorem Chain.core_limitForksTotal (c : Chain) : c.limitForksTotal.core = c.core := by
  unfold limitForksTotal
  dsimp only
  split
  · exact core_dropLowestForks _ _ _
  · rfl

/-- Entering a fork block leaves the core alone. -/
theorem Chain.core_enterFork (c : Chain) (b : Block) :
    ((c.insertFork b).limitForksAt b.height).limitForksTotal.core = c.core :=
  (core_limitForksTotal _).trans (core_limitForksAt _ _)

theorem errs_addNewFork (hdescend : ∀ h t, NoErr (descend h) t) (b : Block) (w : World) :
    Errs (Sticks env) (addNewFork env descend b) w := by
  have henter : Steps (Sticks env)
      (update fun c => ((c.insertFork b).limitForksAt b.height).limitForksTotal) w :=
    steps_update ⟨⟨[], rfl⟩, .inl (congrArg Core.blocks (core_enterFork _ _))⟩
  refine errs_bind henter fun _ t _ => ?_
  refine errs_bind (steps_logCanonicalAt _ t) fun _ t _ => ?_
  refine errs_bind (steps_hexPrefix16 _ _ t) fun _ t _ => ?_
  refine errs_chain_bind ?_
  refine errs_bind (steps_when fun _ =>
    steps_mono (steps_requestForkParent b t) fun _ h => h.sticks) fun _ t _ => ?_
  refine errs_bind (steps_andAlso fun _ => (errless_forkChainComplete b t).steps)
    fun complete t _ => ?_
  refine errs_bind (steps_andAlso fun _ =>
    steps_mono (errless_shouldReorgToHeaviestLocked t).steps fun _ h => h.sticks)
      fun heavier t _ => ?_
  split
  · exact errs_bind_all (errs_wrapping (errs_reorganizeToHeaviestLocked t)) fun _ t =>
      errs_pure _ t
  · refine NoErr.sticks (errs_bind_all (hdescend _ t) fun _ t => ?_)
    exact errs_bind_all (noErr_debouncedAutoReorgLocked t) fun _ t => errs_pure _ t

theorem errs_addForkBlockLocked (hdescend : ∀ h t, NoErr (descend h) t) (b : Block) (w : World) :
    Errs (Sticks env) (addForkBlockLocked env descend b) w := by
  refine errs_bind (steps_checkForkSeal b w) fun _ t _ => ?_
  refine errs_chain_bind ?_
  split
  · exact (noErr_addDuplicateFork hdescend b t).sticks
  · exact errs_addNewFork hdescend b t

/-! ## Cascades return no error -/

theorem noErr_processOrphanDescendantsWith {cascade : Slice → Nat → ChainM (Nat × Nat)}
    (hcascade : ∀ orphans total t, NoErr (cascade orphans total) t) (parentHash : Bytes)
    (w : World) :
    NoErr (processOrphanDescendantsWith cascade parentHash) w := by
  refine errs_chain_bind ?_
  split
  · exact errs_pure () w
  · split
    · exact errs_pure () w
    · exact errs_bind_all (hcascade _ _ w) fun _ t => noErr_when (noErr_hexPrefix16 _ _ t)

theorem noErr_cascadeLoop {cascade : Slice → Nat → ChainM (Nat × Nat)}
    (hcascade : ∀ orphans total t, NoErr (cascade orphans total) t) (orphanHashes : Slice) :
    ∀ (left i connected total : Nat) (w : World),
      NoErr (cascadeLoop env cascade orphanHashes left i connected total) w := by
  intro left
  induction left with
  | zero => exact fun i connected total w => errs_pure _ w
  | succ left ih =>
    intro i connected total w
    unfold cascadeLoop
    split
    · exact errs_pure _ w
    · refine errs_chain_bind ?_
      dsimp only
      split
      · exact ih _ _ _ w
      · refine errs_bind_all (noErr_update _ w) fun _ t => ?_
        refine errs_bind_all (errs_attempt _ t) fun added t => ?_
        split
        · exact errs_bind_all (noErr_hexPrefix16 _ _ t) fun _ t => ih _ _ _ t
        · refine errs_chain_bind ?_
          split
          · exact ih _ _ _ t
          · split
            · exact ih _ _ _ t
            · exact errs_bind_all (hcascade _ _ t) fun r t => ih _ _ _ t
        · refine errs_bind_all (noErr_hexPrefix16 _ _ t) fun _ t => ?_
          refine errs_bind_all (noErr_ask _ t) fun _ t => ?_
          exact errs_bind_all (noErr_update _ t) fun _ t => ih _ _ _ t

theorem noErr_cascade : ∀ (depth : Nat) (orphans : Slice) (total : Nat) (w : World),
    NoErr (cascade env depth orphans total) w
  | 0, _, _, w => errs_crash _ w
  | depth + 1, orphans, _, w => noErr_cascadeLoop (noErr_cascade depth) orphans _ _ _ _ w

theorem noErr_processOrphanDescendantsLocked (parentHash : Bytes) (w : World) :
    NoErr (processOrphanDescendantsLocked env parentHash) w :=
  errs_chain_bind (noErr_processOrphanDescendantsWith (noErr_cascade _) parentHash w)

end NogoChain
