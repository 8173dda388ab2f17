import NogoChain.Chain.Atomic

/-!
# A block on the tip

`AddBlock` of a block on the tip comes down to three questions: do the consensus checks pass,
does the store append the block, and does `applyBlockToState` apply it. If they all say yes the
block is on the tip when the call turns to the orphans that wait for it and to the forks
(`accepts_iff`). Where there are none of either, it stays there (`Chain.Quiet.of_addBlock`).
-/

namespace NogoChain

open Prog

variable {env : Env} {w t : World} {b : Block}

/-- **`AddBlock` accepts the block**: it is on the tip, stored and applied, when the call turns to
the orphans that wait for it and to the forks. What follows returns `true`. -/
def Accepts (env : Env) (b : Block) (w t : World) : Prop :=
  t.chain.blocks = w.chain.blocks ++ [b]
    ∧ addBlock env b w = descendFrom env (processOrphanDescendantsLocked env) b .onTip t

/-- What follows returns no error. -/
theorem noErr_descendFrom_onTip (b : Block) (t : World) :
    NoErr (descendFrom env (processOrphanDescendantsLocked env) b .onTip) t :=
  errs_bind_all (noErr_processOrphanDescendantsLocked _ t) fun _ t =>
    errs_bind_all (noErr_autoReorgIfNeededLocked t) fun _ t => errs_pure _ t

/-- The chain after a block was put on the tip. -/
structure PutOnTip (w : World) (b : Block) (t : World) : Prop where
  blocks : t.chain.blocks = w.chain.blocks ++ [b]
  blocksByHash : t.chain.blocksByHash = w.chain.blocksByHash
  forkBlocks : t.chain.forkBlocks = w.chain.forkBlocks
  orphans : t.chain.orphans = w.chain.orphans
  arrays : t.chain.arrays = w.chain.arrays

theorem canonicalHead_ret {standing : Standing} (h : canonicalHead env b w = .ret standing t) :
    standing = .onTip ∧ PutOnTip w b t := by
  obtain ⟨t1, h1, h⟩ := bind_unit_eq_ret.mp h
  obtain ⟨t2, h2, h⟩ := bind_unit_eq_ret.mp h
  obtain rfl := hexPrefix16_ret h2
  obtain ⟨t3, h3, h⟩ := bind_unit_eq_ret.mp h
  cases h3
  cases h
  rw [appendToTip_apply] at h1
  split at h1
  · cases h1
  · split at h1
    · cases h1
      exact ⟨rfl, rfl, rfl, rfl, rfl, rfl⟩
    · cases h1

/-- A block that the store and the state take is put on the tip. -/
theorem exists_canonicalHead (hhash : 8 ≤ b.hash.length)
    (h : ¬ ∃ e w', appendToTip env b w = .err e w') :
    ∃ t, canonicalHead env b w = .ret .onTip t := by
  unfold canonicalHead
  rw [bind_apply]
  rw [appendToTip_apply] at h ⊢
  unfold hexPrefix16
  rw [if_neg (Nat.not_lt.mpr hhash)]
  cases happended : w.chain.appended env b with
  | error e =>
    rw [happended] at h
    exact absurd ⟨_, _, rfl⟩ h
  | ok store =>
    cases happlied : w.chain.applied env b with
    | err e s =>
      rw [happended, happlied] at h
      exact absurd ⟨_, _, rfl⟩ h
    | fault x => exact x.elim
    | ret u s => exact ⟨_, rfl⟩

/-- **A block on the tip is accepted** exactly if it passes the consensus checks and the chain
takes it. -/
theorem accepts_iff {tip : Block} (hheight : b.height = w.chain.length64)
    (htip : w.chain.tip? = some tip) (hprev : b.header.prevHash = tip.hash)
    (hhash : 8 ≤ b.hash.length) :
    (∃ t, Accepts env b w t)
      ↔ validateBlockConsensusLocked env b = .ok () ∧ w.chain.Takes env b := by
  cases hvalid : validateBlockConsensusLocked env b with
  | error e =>
    refine iff_of_false ?_ fun h => by cases h.1
    rintro ⟨t, -, hadd⟩
    obtain ⟨orphans, arrays, hclean⟩ : ∃ o a, cleanupExpiredOrphansLocked env w
      = .ret () ⟨w.chain.expired o a, w.steps⟩ := exists_cleanupExpiredOrphansLocked w
    unfold addBlock at hadd
    rw [bind_apply, hclean] at hadd
    rw [hvalid] at hadd
    exact noErr_descendFrom_onTip b t _ _ hadd.symm
  | ok u =>
    rw [and_iff_right rfl]
    obtain ⟨orphans, arrays, known, -, hadd⟩ := addBlock_at_tip hheight htip hprev hvalid
    rw [if_neg fun h => Nat.not_lt.mpr hhash h.2] at hadd
    have htakes : (∃ e w', appendToTip env b (w.atTip orphans arrays known) = .err e w')
        ↔ ¬ w.chain.Takes env b := exists_appendToTip_err_iff
    constructor
    · rintro ⟨t, -, ht⟩
      by_contra hrefused
      obtain ⟨e, w', h⟩ := htakes.mpr hrefused
      refine noErr_descendFrom_onTip b t e w' (ht.symm.trans (hadd.trans ?_))
      exact (addCanonicalBlockLocked_eq_err noErr_processOrphanDescendantsLocked).mpr h
    · intro h
      obtain ⟨t, ht⟩ := exists_canonicalHead hhash fun herr => htakes.mp herr h
      refine ⟨t, (canonicalHead_ret ht).2.blocks, ?_⟩
      rw [hadd, addCanonicalBlockLocked_eq, bind_apply, ht]

/-! ## Quiet chains -/

/-- No fork blocks, and an orphan pool that is nil or empty. -/
structure Chain.Quiet (c : Chain) : Prop where
  forks : c.forkBlocks.entries = []
  orphans : ∀ o, c.orphans = some o → o.timestamps.entries = [] ∧ o.byParent.entries = []

theorem cleanupExpiredOrphansLocked_of_quiet (h : w.chain.Quiet) :
    cleanupExpiredOrphansLocked env w = .ret () w := by
  unfold cleanupExpiredOrphansLocked
  rw [chain_bind_apply]
  cases horphans : w.chain.orphans with
  | none => rfl
  | some o =>
    dsimp only
    rw [if_pos (h.orphans o horphans).1]
    rfl

theorem Chain.Quiet.orphanChildren?_eq_none {c : Chain} (h : c.Quiet) (hash : Bytes) :
    c.orphanChildren? hash = none := by
  unfold Chain.orphanChildren?
  cases horphans : c.orphans with
  | none => rfl
  | some o =>
    refine GoMap.lookup_eq_none_of_keys_eq_nil ?_ hash
    unfold AList.keys
    rw [(h.orphans o horphans).2]
    rfl

theorem processOrphanDescendantsLocked_of_quiet (h : w.chain.Quiet) (hash : Bytes) :
    processOrphanDescendantsLocked env hash w = .ret () w := by
  unfold processOrphanDescendantsLocked processOrphanDescendantsWith
  rw [chain_bind_apply]
  rw [chain_bind_apply]
  rw [h.orphanChildren?_eq_none]
  rfl

/-- Without fork blocks the tip is the best tip. -/
theorem autoReorgIfNeededLocked_of_quiet (h : w.chain.Quiet) {tip : Block}
    (htip : w.chain.tip? = some tip) :
    autoReorgIfNeededLocked env w = .ret () { w with chain := w.chain.ticked } := by
  have hnil : env.order w.chain.tick w.chain.forkBlocks.entries = [] := by
    rw [h.forks]
    exact (env.order_perm _ _).eq_nil
  have hranged : ranged env w.chain.forkBlocks.entries w
      = .ret [] { w with chain := w.chain.ticked } := by
    rw [← hnil]
    rfl
  have hbest : findBestChainTipLocked env w
      = .ret (some tip) { w with chain := w.chain.ticked } := by
    unfold findBestChainTipLocked
    rw [chain_bind_apply]
    rw [htip]
    dsimp only
    rw [bind_apply, hranged]
    rfl
  have hbetter : betterTip env w = .ret none { w with chain := w.chain.ticked } := by
    unfold betterTip
    rw [bind_apply, hbest]
    dsimp only
    rw [chain_bind_apply]
    have hsame : w.chain.ticked.tip?.any (·.hash == tip.hash) = true := by
      change w.chain.tip?.any (·.hash == tip.hash) = true
      rw [htip]
      exact beq_self_eq_true _
    rw [hsame]
    rfl
  unfold autoReorgIfNeededLocked
  rw [bind_apply, hbetter]
  rfl

/-- **A block on the tip of a quiet chain** is refused, or the chain ends with it and is quiet. -/
theorem Chain.Quiet.of_addBlock (h : w.chain.Quiet) {tip : Block} {added : Bool}
    (hheight : b.height = w.chain.length64) (htip : w.chain.tip? = some tip)
    (hprev : b.header.prevHash = tip.hash) (hadd : addBlock env b w = .ret added t) :
    t.chain.Quiet ∧ t.chain.blocks = w.chain.blocks ++ [b] := by
  cases hvalid : validateBlockConsensusLocked env b with
  | error e =>
    unfold addBlock at hadd
    rw [bind_apply, cleanupExpiredOrphansLocked_of_quiet h] at hadd
    rw [hvalid] at hadd
    cases hadd
  | ok u =>
    obtain ⟨orphans, arrays, known, hclean, hat⟩ := addBlock_at_tip hheight htip hprev hvalid
    rw [cleanupExpiredOrphansLocked_of_quiet h] at hclean
    have horphans : w.chain.orphans = orphans :=
      congrArg (fun w : World => w.chain.orphans) (Outcome.ret.inj hclean).2
    rw [hat] at hadd
    split at hadd
    · cases hadd
    rw [addCanonicalBlockLocked_eq] at hadd
    obtain ⟨standing, v, hhead, hadd⟩ := bind_eq_ret.mp hadd
    obtain ⟨rfl, hput⟩ := canonicalHead_ret hhead
    have hquiet : v.chain.Quiet := by
      refine ⟨hput.forkBlocks ▸ h.forks, fun o ho => h.orphans o ?_⟩
      rw [horphans, ← ho, hput.orphans]
      rfl
    have htip' : v.chain.tip? = some b := by
      unfold Chain.tip?
      rw [hput.blocks]
      exact List.getLast?_concat
    obtain ⟨v', hcascade, hadd⟩ := bind_unit_eq_ret.mp hadd
    rw [processOrphanDescendantsLocked_of_quiet hquiet] at hcascade
    cases hcascade
    obtain ⟨v'', hauto, hadd⟩ := bind_unit_eq_ret.mp hadd
    rw [autoReorgIfNeededLocked_of_quiet hquiet htip'] at hauto
    cases hauto
    cases hadd
    exact ⟨⟨hquiet.forks, hquiet.orphans⟩, hput.blocks⟩

end NogoChain
