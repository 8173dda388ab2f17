import NogoChain.Chain.Heaviest
import NogoChain.Network.SyncLoop

/-!
# Synchronisation and the canonical work

Everything that a synchronisation does to the chain it does through `AddBlock` and, where a
first header does not name the local tip, through `RollbackToHeight`. The rollback comes before
any replacement block has been seen, and every later error leaves the chain cut; so the work can
fall. As long as no round rolls back, and honest blocks are added, it does not.

The programs of the sync loop are traversed once, for an arbitrary relation that the three
places where something happens go through (`SyncCarries`).
-/

namespace NogoChain

open Prog

variable {env : Env} {a : SyncAnswers} {P : Block → Prop}

/-! ## Traversal -/

/-- Nothing but the counter changes. -/
def Idle (s s' : SyncState) : Prop :=
  ∃ n, s' = { s with world := { s.world with chain := { s.world.chain with tick := n } } }

instance : IsPreorder SyncState Idle where
  refl _ := ⟨_, rfl⟩
  trans := by
    rintro s _ _ ⟨n, rfl⟩ ⟨n', rfl⟩
    exact ⟨n', rfl⟩

theorem idle_ask {α : Type} (answer : Nat → α) (s : SyncState) :
    Steps Idle (onChain (ask answer)) s :=
  steps_of_ret (m := onChain (ask answer)) (a := answer s.world.chain.tick) rfl ⟨_, rfl⟩

variable {s s' : SyncState}

theorem steps_onChain_chain {α : Type} {R : SyncState → SyncState → Prop}
    {f : Chain → SyncLoopM α} (h : Steps R (f s.world.chain) s) :
    Steps R (onChain chain >>= f) s := h

/-- **A relation that a synchronisation goes through.** -/
structure SyncCarries (env : Env) (a : SyncAnswers) (R : SyncState → SyncState → Prop) : Prop where
  /-- answers are asked for -/
  idle : ∀ {s s' : SyncState}, Idle s s' → R s s'
  add : ∀ (b : Block) (s : SyncState), Steps R (addBlockRecorded env b) s
  /-- headers are compared with the tip -/
  accept : ∀ (headers : List BlockHeader) (s : SyncState), Steps R
    (acceptHeaders env a s.world.chain.tip? s.world.chain.tipHeight headers) s

section Traversal

variable {R : SyncState → SyncState → Prop} [IsPreorder SyncState R]

theorem steps_checkContext (hidle : ∀ {s s' : SyncState}, Idle s s' → R s s') (s : SyncState) :
    Steps R (checkContext a) s := by
  refine steps_bind_all (steps_mono (idle_ask _ s) fun _ => hidle) fun done t => ?_
  split
  · exact steps_throw _ t
  · exact steps_pure () t

theorem idle_fetchHeadersWithRetry (fromHeight count : UInt64) (s : SyncState) :
    Steps Idle (fetchHeadersWithRetry env a fromHeight count) s := by
  refine steps_bind_all (idle_ask _ s) fun answer t => ?_
  cases answer with
  | error e => exact steps_throw e t
  | ok headers =>
    refine steps_bind_all (steps_when fun _ => ?_) fun _ t => steps_pure _ t
    refine steps_forEach (fun h _ t => ?_) t
    split
    · exact steps_throw _ t
    · refine steps_bind_all (idle_ask _ t) fun now t => ?_
      split
      · exact steps_throw _ t
      · exact steps_pure () t

variable (hR : SyncCarries env a R)
include hR

omit [IsPreorder SyncState R] in
theorem SyncCarries.ask {α : Type} (answer : Nat → α) (s : SyncState) :
    Steps R (onChain (NogoChain.ask answer)) s :=
  steps_mono (idle_ask answer s) fun _ => hR.idle

theorem carries_processOrphansOf : ∀ (orphans : List Block) (addedAny : Bool) (s : SyncState),
    Steps R (processOrphansOf env a orphans addedAny) s
  | [], _, s => steps_pure _ s
  | orphan :: rest, addedAny, s => by
    refine steps_bind_all (hR.ask _ s) fun valid t => ?_
    cases valid with
    | error e => exact carries_processOrphansOf rest addedAny t
    | ok _ =>
      refine steps_bind_all (hR.ask _ t) fun shouldPool t => ?_
      refine steps_bind_all (steps_andAlso fun _ => ?_) fun refused t => ?_
      · refine steps_bind_all (hR.ask _ t) fun submitted t => ?_
        cases submitted with
        | error e | ok _ => exact steps_pure _ t
      · split
        · exact carries_processOrphansOf rest true t
        · refine steps_bind_all (steps_attempt (hR.add orphan t)) fun added t => ?_
          split
          · exact carries_processOrphansOf rest addedAny t
          · exact carries_processOrphansOf rest addedAny t
          · exact steps_pure _ t

theorem carries_processOrphansLoop : ∀ (iterations : Nat) (localTip : Block) (s : SyncState),
    Steps R (processOrphansLoop env a iterations localTip) s
  | 0, _, s => steps_pure () s
  | iterations + 1, localTip, s => by
    refine steps_bind_all (hR.ask _ s) fun orphans t => ?_
    refine steps_bind_all (carries_processOrphansOf hR orphans false t) fun r t => ?_
    obtain ⟨addedAny, accepted⟩ := r
    dsimp only
    split
    · refine steps_onChain_chain ?_
      split
      · exact steps_crash _ t
      · exact carries_processOrphansLoop iterations _ t
    · split
      · exact carries_processOrphansLoop iterations localTip t
      · exact steps_pure () t

theorem carries_processOrphans (s : SyncState) : Steps R (processOrphans env a) s := by
  refine steps_onChain_chain ?_
  split
  · exact steps_pure () s
  · exact carries_processOrphansLoop hR 100 _ s

theorem carries_validateWithParent (b : Block) (s : SyncState) :
    Steps R (validateWithParent a b) s := by
  refine steps_onChain_chain ?_
  split
  · split
    · exact steps_pure () s
    · refine steps_bind_all (hR.ask _ s) fun valid t => ?_
      cases valid with
      | error e => exact steps_throw _ t
      | ok _ => exact steps_pure () t
  · exact steps_pure () s

theorem carries_addNewBlockToChain (b : Block) (s : SyncState) :
    Steps R (addNewBlockToChain env a b) s := by
  refine steps_bind_all (steps_attempt (hR.add b s)) fun added t => ?_
  cases added with
  | error e => exact steps_throw _ t
  | ok accepted =>
    refine steps_onChain_chain ?_
    split
    · split
      · exact steps_throw _ t
      · exact carries_processOrphans hR t
    · exact carries_processOrphans hR t

theorem carries_handleNewBlock (b : Block) (s : SyncState) :
    Steps R (handleNewBlock env a b) s := by
  refine steps_bind_all (hR.ask _ s) fun valid t => ?_
  cases valid with
  | error e =>
    dsimp only
    split <;> exact steps_throw _ t
  | ok _ =>
    refine steps_bind_all (carries_validateWithParent hR b t) fun _ t => ?_
    refine steps_bind_all (hR.ask _ t) fun shouldPool t => ?_
    refine steps_bind_all (steps_andAlso fun _ => ?_) fun pooled t => ?_
    · refine steps_bind_all (hR.ask _ t) fun submitted t => ?_
      cases submitted with
      | error e | ok _ => exact steps_pure _ t
    · split
      · exact steps_pure () t
      · exact carries_addNewBlockToChain hR b t

theorem carries_fetchBatch (batchStart batchEnd : UInt64) :
    ∀ (attempts : Nat) (fetchErr : GoError) (s : SyncState),
      Steps R (fetchBatch a batchStart batchEnd attempts fetchErr) s
  | 0, _, s => steps_throw _ s
  | attempts + 1, _, s => by
    refine steps_bind_all (steps_checkContext hR.idle s) fun _ t => ?_
    refine steps_bind_all (hR.ask _ t) fun blocks t => ?_
    cases blocks with
    | error e => exact carries_fetchBatch batchStart batchEnd attempts e t
    | ok blocks => exact steps_pure blocks t

theorem carries_storeBlocks : ∀ (blocks : List Block) (totalStored : Nat) (s : SyncState),
    Steps R (storeBlocks env a blocks totalStored) s
  | [], _, s => steps_pure _ s
  | b :: blocks, totalStored, s => by
    refine steps_bind_all (steps_attempt (carries_handleNewBlock hR b s)) fun r t => ?_
    cases r with
    | error e => exact carries_storeBlocks blocks totalStored t
    | ok _ => exact carries_storeBlocks blocks (totalStored + 1) t

theorem carries_downloadBatches :
    ∀ (fuel : Nat) (batchStart stop : UInt64) (totalStored : Nat) (s : SyncState),
      Steps R (downloadBatches env a fuel batchStart stop totalStored) s
  | 0, _, _, _, s => steps_crash _ s
  | fuel + 1, batchStart, stop, totalStored, s => by
    unfold downloadBatches
    split
    · refine steps_bind_all (steps_checkContext hR.idle s) fun _ t => ?_
      refine steps_bind_all (carries_fetchBatch hR _ _ _ _ t) fun blocks t => ?_
      refine steps_bind_all (carries_storeBlocks hR blocks totalStored t) fun totalStored t => ?_
      exact carries_downloadBatches fuel _ stop totalStored t
    · exact steps_pure _ s

theorem carries_batchDownloadBlocks (fuel : Nat) (startHeight count : UInt64) (s : SyncState) :
    Steps R (batchDownloadBlocks env a fuel startHeight count) s := by
  refine steps_bind_all (carries_downloadBatches hR fuel _ _ _ s) fun totalStored t => ?_
  split
  · exact steps_throw _ t
  · exact steps_pure () t

/-- **One round goes through `R`.** The tip is read before the headers are fetched, which does
not change it. -/
theorem carries_syncRound (fuel : Nat) (s : SyncState) : Steps R (syncRound env a fuel) s := by
  refine steps_bind_all (steps_checkContext hR.idle s) fun _ s => ?_
  refine steps_bind_all (hR.ask _ s) fun info s => ?_
  cases info with
  | error e => exact steps_throw _ s
  | ok info =>
    refine steps_onChain_chain ?_
    split
    · exact steps_pure _ s
    · have hfetch : ∀ fromHeight count, Steps Idle
          (Prog.attempt (fetchHeadersWithRetry env a fromHeight count)) s := fun fromHeight count =>
        steps_attempt (idle_fetchHeadersWithRetry fromHeight count s)
      refine steps_bind (steps_mono (hfetch _ _) fun _ => hR.idle) fun headers t ht => ?_
      have htip : s.world.chain.tip? = t.world.chain.tip? := by
        obtain ⟨n, rfl⟩ := (hfetch _ _).of_ret ht
        rfl
      have hheight : s.world.chain.tipHeight = t.world.chain.tipHeight := by
        unfold Chain.tipHeight
        rw [htip]
      cases headers with
      | error e => exact steps_throw _ t
      | ok headers =>
        rw [htip, hheight]
        refine steps_bind_all (hR.accept headers t) fun syncStartHeight t => ?_
        split
        · exact steps_pure _ t
        · refine steps_bind_all
            (steps_attempt (carries_batchDownloadBlocks hR fuel _ _ t)) fun r t => ?_
          cases r with
          | ok _ => exact steps_pure _ t
          | error e =>
            dsimp only
            split
            · exact steps_pure _ t
            · exact steps_throw _ t

/-- **A synchronisation goes through `R`.** -/
theorem carries_syncRounds (fuel : Nat) : ∀ (rounds : Nat) (s : SyncState),
    Steps R (syncRounds env a fuel rounds) s
  | 0, s => steps_crash _ s
  | rounds + 1, s => by
    refine steps_bind_all (carries_syncRound hR fuel s) fun again t => ?_
    split
    · exact carries_syncRounds fuel rounds t
    · exact steps_pure () t

end Traversal

/-! ## Rounds without a rollback -/

/-- The peer has the local chain: whenever it is asked for the block of a height, it answers with
the hash of the local one. -/
def SyncAnswers.Serves (a : SyncAnswers) (c : Chain) : Prop :=
  ∀ (n : Nat) (height : UInt64) (b : Block), c.blocks[height.toNat]? = some b →
    ∃ b', a.blockByHeight n height = .ok b' ∧ b.hash = b'.hash

/-- **The headers join the local chain**: the first names the local tip, or the peer has the
local chain. -/
def SyncRound.Joins (a : SyncAnswers) (round : SyncRound) : Prop :=
  ∀ first ∈ round.headers.head?, ∀ tip ∈ round.chain.tip?, first.prevHash = tip.hash
    ∨ (round.chain.blocks.length < 2 ^ 64 ∧ a.Serves round.chain)

/-- Where the search looks next. -/
theorem toNat_mid {low high : UInt64} (h : low < high) :
    (low + (high - low) / 2 + 1).toNat = low.toNat + (high.toNat - low.toNat) / 2 + 1 := by
  have hlt := UInt64.lt_iff_toNat_lt.mp h
  have h64 := high.toNat_lt
  have hsub : (high - low).toNat = high.toNat - low.toNat :=
    UInt64.toNat_sub_of_le _ _ (UInt64.le_of_lt h)
  have htwo : (2 : UInt64).toNat = 2 := rfl
  have hone : (1 : UInt64).toNat = 1 := rfl
  rw [UInt64.toNat_add, UInt64.toNat_add, UInt64.toNat_div, hsub, htwo, hone]
  omega

theorem idle_peerAgrees (mid : UInt64) (s : SyncState) : Steps Idle (peerAgrees a mid) s := by
  refine steps_onChain_chain ?_
  split
  · exact steps_pure _ s
  · refine steps_bind_all (idle_ask _ s) fun answer t => ?_
    cases answer with
    | error e | ok peerBlock => exact steps_pure _ t

theorem peerAgrees_of_serves {mid : UInt64} (h : a.Serves s.world.chain)
    (hmid : mid.toNat < s.world.chain.blocks.length) :
    ∃ t, Idle s t ∧ peerAgrees a mid s = .ret true t := by
  have hget := List.getElem?_eq_getElem hmid
  obtain ⟨b', hb', hhash⟩ := h s.world.chain.tick mid _ hget
  refine ⟨_, ⟨s.world.chain.tick + 1, rfl⟩, ?_⟩
  have hchain : onChain chain s = .ret s.world.chain s := rfl
  have hanswer : onChain (ask fun n => a.blockByHeight n mid) s
      = .ret (a.blockByHeight s.world.chain.tick mid) { s with world := { s.world with
            chain := { s.world.chain with tick := s.world.chain.tick + 1 } } } := rfl
  unfold peerAgrees
  rw [bind_of_ret hchain]
  rw [hget]
  dsimp only
  rw [bind_apply, hanswer, hb']
  dsimp only
  rw [hhash, beq_self_eq_true]
  rfl

/-- **Against a peer that has the local chain, the search goes to its upper bound.** -/
theorem commonAncestorLoop_of_serves :
    ∀ {n : Nat} {low high : UInt64} {s : SyncState}, a.Serves s.world.chain →
      high.toNat < s.world.chain.blocks.length → low.toNat ≤ high.toNat →
      high.toNat ≤ low.toNat + n →
      ∃ t, Idle s t ∧ commonAncestorLoop a n low high s = .ret high t
  | 0, low, high, s, _, _, hle, hn => by
    have hsame : low = high := UInt64.toNat.inj (Nat.le_antisymm hle hn)
    exact ⟨s, refl s, by rw [hsame]; rfl⟩
  | n + 1, low, high, s, hserves, hhigh, hle, hn => by
    unfold commonAncestorLoop
    by_cases hlt : low < high
    · have hmid := toNat_mid hlt
      have hnat := UInt64.lt_iff_toNat_lt.mp hlt
      rw [if_pos hlt]
      generalize low + (high - low) / 2 + 1 = mid at hmid
      have hin : mid.toNat < s.world.chain.blocks.length := by omega
      obtain ⟨t, ⟨k, rfl⟩, hagrees⟩ := peerAgrees_of_serves hserves hin
      rw [bind_apply, hagrees]
      -- the search goes on above, from a state with the same chain
      let s1 := { s with world := { s.world with chain := { s.world.chain with tick := k } } }
      have hnext : ∃ t, Idle s1 t ∧ commonAncestorLoop a n mid high s1 = .ret high t :=
        commonAncestorLoop_of_serves hserves hhigh (by omega) (by omega)
      obtain ⟨t, ht, hloop⟩ := hnext
      exact ⟨t, trans_of Idle ⟨k, rfl⟩ ht, hloop⟩
    · have hsame : low = high :=
        UInt64.toNat.inj (Nat.le_antisymm hle
          (Nat.le_of_not_lt (mt UInt64.lt_iff_toNat_lt.mpr hlt)))
      rw [if_neg hlt, hsame]
      exact ⟨s, refl s, rfl⟩

theorem findCommonAncestorHeight_of_serves {tip : Block}
    (hl : s.world.chain.Linked) (htip : s.world.chain.tip? = some tip)
    (hlength : s.world.chain.blocks.length < 2 ^ 64) (hserves : a.Serves s.world.chain) :
    ∃ t, Idle s t ∧ findCommonAncestorHeight a (tip.height + 1) s = .ret tip.height t := by
  have hheight := hl.tip_height htip
  have happly : findCommonAncestorHeight a (tip.height + 1) s
      = findCommonAncestorBinary a tip.height (tip.height + 1) s := by
    have hchain : onChain chain s = .ret s.world.chain s := rfl
    unfold findCommonAncestorHeight
    rw [bind_of_ret hchain]
    rw [htip]
  have hsucc : (tip.height + 1).toNat = tip.height.toNat + 1 := by
    have hone : (1 : UInt64).toNat = 1 := rfl
    rw [UInt64.toNat_add, hone]
    omega
  rw [happly, findCommonAncestorBinary]
  by_cases hzero : tip.height = 0
  · rw [if_pos (.inl hzero), hzero]
    exact ⟨s, refl s, rfl⟩
  · have htarget : tip.height + 1 ≠ 0 := fun h => by
      rw [h] at hsucc
      exact absurd hsucc (Nat.zero_ne_add_one _)
    have hhigh : ¬ tip.height + 1 < tip.height := fun h => by
      have := UInt64.lt_iff_toNat_lt.mp h
      omega
    rw [if_neg (not_or.mpr ⟨hzero, htarget⟩), if_neg hhigh]
    exact commonAncestorLoop_of_serves hserves (by omega) (Nat.zero_le _) (Nat.le_add_left _ _)

/-- **Headers that join the local chain do not roll it back.** -/
theorem joinFirstHeader_of_joins {first : BlockHeader} {rest : List BlockHeader}
    (hl : s.world.chain.Linked) (h : SyncRound.Joins a ⟨s.world.chain, first :: rest⟩) :
    ∃ r t, Idle s t
      ∧ joinFirstHeader env a s.world.chain.tip? s.world.chain.tipHeight first s = .ret r t := by
  cases htip : s.world.chain.tip? with
  | none => exact ⟨_, s, refl s, rfl⟩
  | some tip =>
    have hheight : s.world.chain.tipHeight = tip.height := by
      unfold Chain.tipHeight
      rw [htip]
      rfl
    unfold joinFirstHeader
    dsimp only
    by_cases hprev : first.prevHash = tip.hash
    · rw [if_pos hprev]
      exact ⟨_, s, refl s, rfl⟩
    · obtain ⟨hlength, hserves⟩ := (h first rfl tip htip).resolve_left hprev
      obtain ⟨t, ht, hfound⟩ := findCommonAncestorHeight_of_serves hl htip hlength hserves
      rw [if_neg hprev, hheight, bind_apply, hfound]
      dsimp only
      rw [if_neg (UInt64.lt_irrefl _)]
      exact ⟨_, t, ht, rfl⟩

/-! ## The work -/

/-- What happened before is still on record. -/
structure SyncState.Extends (s s' : SyncState) : Prop where
  /-- the steps of the chain -/
  steps : s.world.steps <:+ s'.world.steps
  rounds : s.rounds <:+ s'.rounds
  /-- the calls of `AddBlock` -/
  adds : s.adds <:+ s'.adds

theorem SyncState.Extends.refl (s : SyncState) : s.Extends s :=
  ⟨List.suffix_rfl, List.suffix_rfl, List.suffix_rfl⟩

theorem SyncState.Extends.trans {s'' : SyncState} (h : s.Extends s') (h' : s'.Extends s'') :
    s.Extends s'' :=
  ⟨h.steps.trans h'.steps, h.rounds.trans h'.rounds, h.adds.trans h'.adds⟩

/-- **What is asked of a synchronisation**: in every round the headers join the local chain, every
block that is added is honest and finds few blocks outside the canonical chain, and the steps of
the chain keep it linked. -/
structure SyncState.Fair (env : Env) (a : SyncAnswers) (P : Block → Prop)
    (s : SyncState) : Prop where
  rounds : ∀ round ∈ s.rounds, round.Joins a
  /-- the calls of `AddBlock` -/
  adds : ∀ call ∈ s.adds, P call.2 ∧ call.1.offsideHashes.length + 2 < 10000
  /-- the steps of the chain -/
  steps : Clean env P s.world

theorem SyncState.Fair.of_extends (h : s'.Fair env a P) (hs : s.Extends s') : s.Fair env a P where
  rounds round hr := h.rounds round (hs.rounds.mem hr)
  adds call hc := h.adds call (hs.adds.mem hc)
  steps step hstep := h.steps step (hs.steps.mem hstep)

/-- **The work lasts**, if everything on record at the end is as asked. -/
def Lasts (env : Env) (a : SyncAnswers) (P : Block → Prop) (s s' : SyncState) : Prop :=
  s.world.chain.Holds (fun _ => True) → s'.world.chain.Holds (fun _ => True) ∧ s.Extends s'
    ∧ (s'.Fair env a P → s.world.chain.Steady P →
        s'.world.chain.Steady P ∧ s.world.chain.canonicalWork ≤ s'.world.chain.canonicalWork)

instance : IsPreorder SyncState (Lasts env a P) where
  refl s h := ⟨h, .refl s, fun _ hs => ⟨hs, Nat.le_refl _⟩⟩
  trans s s' s'' h h' hs := by
    obtain ⟨hs', hext, hwork⟩ := h hs
    obtain ⟨hs'', hext', hwork'⟩ := h' hs'
    refine ⟨hs'', hext.trans hext', fun hfair hsteady => ?_⟩
    obtain ⟨hsteady', hle⟩ := hwork (hfair.of_extends hext') hsteady
    obtain ⟨hsteady'', hle'⟩ := hwork' hfair hsteady'
    exact ⟨hsteady'', Nat.le_trans hle hle'⟩

theorem Idle.lasts (h : Idle s s') : Lasts env a P s s' := by
  obtain ⟨n, rfl⟩ := h
  intro hs
  refine ⟨hs.of_shrinks (.of_eq rfl rfl rfl rfl rfl (.inl rfl)),
    ⟨List.suffix_rfl, List.suffix_rfl, List.suffix_rfl⟩,
    fun _ hsteady => ⟨⟨?_, ?_, hsteady.cache⟩, Nat.le_refl _⟩⟩
  · exact hsteady.holds.of_shrinks (.of_eq rfl rfl rfl rfl rfl (.inl rfl))
  · exact hsteady.linked.congr rfl

/-- Moves keep the record. -/
theorem Evolves.suffix {T : Chain → Block → Block → Prop} {w w' : World} (h : Evolves env P T w w')
    (hw : w.chain.Holds P) : w'.chain.Holds P ∧ w.steps <:+ w'.steps := by
  obtain ⟨hw', hmoves⟩ := h hw
  refine ⟨hw', ?_⟩
  clear h hw'
  induction hmoves with
  | refl => exact List.suffix_rfl
  | tail _ hmove ih =>
    obtain ⟨l, hl⟩ := hmove.2.steps_suffix
    exact ih.trans ⟨l, hl.symm⟩

/-- **Adding a block.** -/
theorem lasts_addBlockRecorded (hP : Weighable P) (b : Block) (s : SyncState) :
    Steps (Lasts env a P) (addBlockRecorded env b) s := by
  refine steps_bind (steps_modify ?_) fun _ t ht => ?_
  · exact fun hs => ⟨hs, ⟨List.suffix_rfl, List.suffix_rfl, List.suffix_cons _ _⟩,
      fun _ h => ⟨h, Nat.le_refl _⟩⟩
  · cases ht
    refine steps_within steps_self fun w' h hs => ?_
    have hevolves : Evolves env (fun _ => True) (fun _ _ _ => True) s.world w' :=
      evolves_addBlock (fun _ _ _ _ => trivial) (fun _ => trivial) s.world w' h
    obtain ⟨hs', hsuffix⟩ := hevolves.suffix hs
    refine ⟨hs', ⟨hsuffix, List.suffix_rfl, List.suffix_rfl⟩, fun hfair hsteady => ?_⟩
    obtain ⟨hb, hfew⟩ := hfair.adds _ List.mem_cons_self
    exact addBlock_work_le hP hb hfew h hsteady hfair.steps

/-- What is recorded stays on record, whatever is done to the chain. -/
def Recorded (s s' : SyncState) : Prop :=
  s.world.chain.Holds (fun _ => True) → s'.world.chain.Holds (fun _ => True) ∧ s.Extends s'

instance : IsPreorder SyncState Recorded where
  refl s h := ⟨h, .refl s⟩
  trans _ _ _ h h' hs := ⟨(h' (h hs).1).1, (h hs).2.trans (h' (h hs).1).2⟩

theorem Idle.recorded (h : Idle s s') : Recorded s s' := by
  obtain ⟨n, rfl⟩ := h
  exact fun hs => ⟨hs.of_shrinks (.of_eq rfl rfl rfl rfl rfl (.inl rfl)),
    ⟨List.suffix_rfl, List.suffix_rfl, List.suffix_rfl⟩⟩

theorem idle_commonAncestorLoop : ∀ (n : Nat) (low high : UInt64) (s : SyncState),
    Steps Idle (commonAncestorLoop a n low high) s
  | 0, low, _, s => steps_pure low s
  | n + 1, low, high, s => by
    unfold commonAncestorLoop
    split
    · refine steps_bind_all (idle_peerAgrees _ s) fun agrees t => ?_
      split
      · exact idle_commonAncestorLoop n _ high t
      · exact idle_commonAncestorLoop n low _ t
    · exact steps_pure low s

theorem idle_findCommonAncestorHeight (targetHeight : UInt64) (s : SyncState) :
    Steps Idle (findCommonAncestorHeight a targetHeight) s := by
  refine steps_onChain_chain ?_
  split
  · exact steps_pure _ s
  · unfold findCommonAncestorBinary
    split
    · exact steps_pure _ s
    · exact idle_commonAncestorLoop _ _ _ s

theorem recorded_joinFirstHeader (localTip : Option Block) (currentHeight : UInt64)
    (first : BlockHeader) (s : SyncState) :
    Steps Recorded (joinFirstHeader env a localTip currentHeight first) s := by
  unfold joinFirstHeader
  split
  · exact steps_pure _ s
  · split
    · exact steps_pure _ s
    · refine steps_bind_all (steps_mono (idle_findCommonAncestorHeight _ s)
        fun _ => Idle.recorded) fun syncStartHeight t => ?_
      split
      · refine steps_bind_all (steps_attempt (steps_within steps_self
          fun w' h ht => ?_)) fun r t => ?_
        · have hevolves : Evolves env (fun _ => True) (fun _ _ _ => True) t.world w' :=
            evolves_rollbackToHeight syncStartHeight t.world w' h
          obtain ⟨hw', hsuffix⟩ := hevolves.suffix ht
          exact ⟨hw', ⟨hsuffix, List.suffix_rfl, List.suffix_rfl⟩⟩
        · cases r with
          | error e => exact steps_throw _ t
          | ok _ => exact steps_pure _ t
      · exact steps_pure _ t

/-- **Comparing the first header with the tip**, in a round that is on record: if the round joins
the local chain, nothing is rolled back. -/
theorem lasts_joinFirstHeader {first : BlockHeader} {rest : List BlockHeader}
    (hround : ⟨s.world.chain, first :: rest⟩ ∈ s.rounds) :
    Steps (Lasts env a P)
      (joinFirstHeader env a s.world.chain.tip? s.world.chain.tipHeight first) s := by
  intro s' h hs
  obtain ⟨hholds, hext⟩ := recorded_joinFirstHeader _ _ _ _ s' h hs
  refine ⟨hholds, hext, fun hfair hsteady => ?_⟩
  have hjoin : ∃ r t, Idle s t
      ∧ joinFirstHeader env a s.world.chain.tip? s.world.chain.tipHeight first s = .ret r t :=
    joinFirstHeader_of_joins hsteady.linked (hfair.rounds _ (hext.rounds.mem hround))
  obtain ⟨r, t, hidle, hret⟩ := hjoin
  rw [hret, Outcome.state?_ret, Option.some.injEq] at h
  rw [← h] at hfair ⊢
  exact (hidle.lasts hs).2.2 hfair hsteady

theorem lasts_acceptHeaders (headers : List BlockHeader) (s : SyncState) :
    Steps (Lasts env a P)
      (acceptHeaders env a s.world.chain.tip? s.world.chain.tipHeight headers) s := by
  refine steps_bind (steps_modify ?_) fun _ t ht => ?_
  · exact fun hs => ⟨hs, ⟨List.suffix_rfl, List.suffix_cons _ _, List.suffix_rfl⟩,
      fun _ h => ⟨h, Nat.le_refl _⟩⟩
  · cases ht
    cases headers with
    | nil => exact steps_pure _ _
    | cons first rest =>
      let t : SyncState := { s with rounds := ⟨s.world.chain, first :: rest⟩ :: s.rounds }
      have hjoin : Steps (Lasts env a P)
          (joinFirstHeader env a t.world.chain.tip? t.world.chain.tipHeight first) t :=
        lasts_joinFirstHeader List.mem_cons_self
      refine steps_bind_all hjoin fun r t => ?_
      obtain ⟨currentHeight, syncStartHeight⟩ := r
      dsimp only
      split
      · exact steps_pure _ t
      · exact steps_throw _ t

theorem syncCarries_lasts (hP : Weighable P) : SyncCarries env a (Lasts env a P) where
  idle h := h.lasts
  add := lasts_addBlockRecorded hP
  accept := lasts_acceptHeaders

/-- **A synchronisation does not make the chain lighter**, whatever the peer answers and however
it ends, if it begins on a linked chain of honest blocks, the headers of every round join the
local chain, honest blocks are added while there are few outside the canonical chain, and the
steps of the chain keep it linked. -/
theorem syncWithPeer_work_le (hP : Weighable P) {c : Chain} (hc : c.Steady P) {fuel : Nat}
    {s : SyncState} (h : (syncWithPeer env a fuel (SyncState.start c)).state? = some s)
    (hfair : s.Fair env a P) : c.canonicalWork ≤ s.world.chain.canonicalWork := by
  have hlasts := carries_syncRounds (syncCarries_lasts hP) fuel fuel (SyncState.start c) s h
  have hholds : c.Holds (fun _ => True) := hc.holds.mono fun _ _ => trivial
  obtain ⟨-, -, hwork⟩ := hlasts hholds
  exact (hwork hfair hc).2

/-! ## Two synchronisations -/

/-- A peer that is reached without a retry executor, behind a validator that accepts everything and
without candidates or orphans. It announces a height, and answers every request in the same way. -/
def plainPeer (height : UInt64) (headers : List BlockHeader)
    (blocks : Except GoError (List Block)) :
    SyncAnswers where
  peer := []
  maxHeadersFetch := 0
  retryExec := false
  done _ := false
  ctxErr := .new "context canceled"
  chainInfo _ := .ok ⟨height, [], none⟩
  headers _ _ _ := .ok headers
  blockByHeight _ _ := .error (.new "no such block")
  blocksByHeightRange _ _ _ := blocks
  validateBlockFast _ _ := .ok ()
  validateBlock _ _ _ := .ok ()
  shouldPool _ _ := false
  submitCandidate _ _ := .ok ()
  orphansByParent _ _ := []
  mentionsFork _ := false

/-- A peer with one block more than the fresh chain. -/
def aheadPeer : SyncAnswers :=
  plainPeer 1 [(numberedBlock 1 0 1 10).header] (.ok [numberedBlock 1 0 1 10])

/-- The decidable part of what is asked of a synchronisation. -/
def SyncState.fairChecked (env : Env) (l : List Block) (s : SyncState) : Bool :=
  (s.rounds.all fun round => round.headers.head?.all fun first =>
      round.chain.tip?.all fun tip => first.prevHash = tip.hash)
    ∧ (s.adds.all fun call => call.2 ∈ l ∧ call.1.offsideHashes.length + 2 < 10000)
    ∧ s.world.steps.all fun step => step.linksChecked env

theorem SyncState.fair_of_checked {l : List Block} (h : s.fairChecked env l = true) :
    s.Fair env a (· ∈ l) := by
  obtain ⟨hrounds, hadds, hsteps⟩ := of_decide_eq_true h
  refine ⟨fun round hr first hfirst tip htip => .inl ?_, fun call hc => ?_, fun step hs => ?_⟩
  · have hround := List.all_eq_true.mp hrounds round hr
    rw [Option.mem_def.mp hfirst, Option.mem_def.mp htip] at hround
    exact of_decide_eq_true hround
  · exact of_decide_eq_true (List.all_eq_true.mp hadds call hc)
  · exact CoreStep.keepsLinks_of_checked (fun _ _ => List.not_mem_nil)
      (List.all_eq_true.mp hsteps step hs)

/-- The fresh chain is synchronised with a peer that has one block more. -/
theorem syncWithPeer_work_le_ahead :
    ∃ w s, runFromStart sampleEnv [] = some w
      ∧ (syncWithPeer sampleEnv aheadPeer 3 (SyncState.start w.chain)).state? = some s
      ∧ s.world.chain.blocks.length = 2 ∧ w.chain.canonicalWork ≤ s.world.chain.canonicalWork := by
  let l := [createGenesisBlock sampleEnv, numberedBlock 1 0 1 10]
  obtain ⟨w, hw, s, hs, hlength, hfair⟩ : ∃ w, runFromStart sampleEnv [] = some w
      ∧ ∃ s, (syncWithPeer sampleEnv aheadPeer 3 (SyncState.start w.chain)).state? = some s
        ∧ s.world.chain.blocks.length = 2 ∧ s.fairChecked sampleEnv l := by
    decide +kernel
  have hweighable : Weighable (· ∈ l) :=
    weighable_of_list (by decide +kernel) (by decide +kernel) (by decide +kernel)
  have hfresh : Fresh sampleEnv w := fresh_of_run_nil hw
  exact ⟨w, s, hw, hs, hlength, syncWithPeer_work_le hweighable
    (hfresh.steady List.mem_cons_self) hs (SyncState.fair_of_checked hfair)⟩

/-- A peer that announces a great height, sends a header that names an unknown parent, and answers
no request for a block. -/
def luringPeer : SyncAnswers :=
  plainPeer 5 [(numberedBlock 9 8 2 10).header] (.error (.new "timeout"))

/-- **A header that forks off costs the local chain its blocks.** The search finds no common block,
the chain is rolled back to the genesis block, and the download fails. -/
theorem luringPeer_rolls_back :
    ∃ w s, runFromStart sampleEnv [.addBlock (numberedBlock 1 0 1 10)] = some w
      ∧ (syncWithPeer sampleEnv luringPeer 2 (SyncState.start w.chain)).state? = some s
      ∧ s.world.chain.blocks = [createGenesisBlock sampleEnv]
      ∧ s.world.chain.canonicalWork < w.chain.canonicalWork := by
  simp only [exists_and_left]
  decide +kernel

end NogoChain
