import NogoChain.Chain.Reachable

/-!
# The account map is the replay of the chain

Tip extension updates the account map in place, reorganisation and rollback replay it. The
map is the fold of `applyBlockToState` over the canonical blocks as long as no block is
refused halfway through: a refused block at the tip leaves its first writes behind, and a
refused branch leaves the whole branch in the chain. The remaining source of trouble is the
size limit, which looks at the JSON text of a block with its current `TotalWork`, a field
that the chain rewrites.
-/

namespace NogoChain

open Prog

variable (env : Env)

/-! ## validateStateLocked -/

/-- One round of the loop of `validateStateLocked` over the blocks. -/
def reapply (c : Chain) (block : Block) : LedgerM Unit := do
  match ← Prog.attempt (applyIn env (c.view block)) with
  | .ok () => pure ()
  | .error e =>
    Prog.throw (.wrap "block %d state application failed: %w" [.num block.height.toNat] e)

/-- The loop, on an empty map. -/
def recomputedState (c : Chain) : Outcome Ledger GoError Empty Unit :=
  Prog.forEach c.blocks (reapply env c) ∅

/-- The loop of `validateStateLocked` over the accounts of the chain, in the order of
`addresses`. -/
def compareAccounts (recomputed current : Ledger) : List Bytes → Except GoError Unit
  | [] => .ok ()
  | address :: addresses =>
    match recomputed.lookup address with
    | none => .error (.errorf "address %s missing in recomputed state" [.str address])
    | some expected =>
      let acct := current.account address
      if acct.balance ≠ expected.balance then
        .error (.errorf "balance mismatch for %s: expected %d, got %d"
          [.str address, .num expected.balance.toNat, .num acct.balance.toNat])
      else if acct.nonce ≠ expected.nonce then
        .error (.errorf "nonce mismatch for %s: expected %d, got %d"
          [.str address, .num expected.nonce.toNat, .num acct.nonce.toNat])
      else compareAccounts recomputed current addresses

/-- `validateStateLocked`; the map of accounts is ranged over in the order of `addresses`. -/
def validateStateLocked (c : Chain) (addresses : List Bytes) : Except GoError Unit :=
  match recomputedState env c with
  | .err e _ => .error e
  | .ret () recomputed =>
    if recomputed.entries.card ≠ c.state.entries.card then
      .error (.errorf "state size mismatch: recomputed %d, current %d"
        [.num recomputed.entries.card, .num c.state.entries.card])
    else compareAccounts recomputed c.state addresses

variable {env} {s : Ledger} {b : Block} {w : World}

/-- The map compares equal to itself, in any order. -/
theorem compareAccounts_self {addresses : List Bytes}
    (h : ∀ a ∈ addresses, a ∈ s) : compareAccounts s s addresses = .ok () := by
  induction addresses with
  | nil => rfl
  | cons a addresses ih =>
    obtain ⟨acct, hacct⟩ := Finmap.mem_iff.mp (h a List.mem_cons_self)
    have haccount : s.account a = acct := by
      unfold Ledger.account
      rw [hacct]
      rfl
    simp only [compareAccounts, hacct, haccount, ne_eq, not_true_eq_false, ↓reduceIte]
    exact ih fun x hx => h x (List.mem_cons_of_mem a hx)

/-- The loop returns what the replay returns. -/
theorem recomputedState_of_replay {c : Chain} (h : c.replay env = .ret () s) :
    recomputedState env c = .ret () s := by
  have hloop : ∀ (bs : List Block) (s0 : Ledger),
      replayBlocks env (bs.map c.view) s0 = .ret () s →
      Prog.forEach bs (reapply env c) s0 = .ret () s := by
    intro bs
    induction bs with
    | nil => exact fun s0 h0 => h0
    | cons b bs ih =>
      intro s0 h0
      obtain ⟨s1, h1, h2⟩ := bind_unit_eq_ret.mp h0
      simp only [Prog.forEach, reapply, bind_apply, Prog.attempt, h1]
      exact ih s1 h2
  exact hloop c.blocks ∅ h

/-- **A map that is the replay passes `validateStateLocked`.** -/
theorem validateStateLocked_of_replay {c : Chain} (h : c.replay env = .ret () c.state)
    {addresses : List Bytes} (haddresses : ∀ a ∈ addresses, a ∈ c.state) :
    validateStateLocked env c addresses = .ok () := by
  unfold validateStateLocked
  rw [recomputedState_of_replay h]
  simp only [ne_eq, not_true_eq_false, ↓reduceIte]
  exact compareAccounts_self haddresses

/-! ## The size limit -/

/-- The block is within the size limit, with the `TotalWork` it has. -/
def Fits (env : Env) (b : Block) : Prop :=
  ¬ (env.consensus.maxBlockSize > 0 ∧ blockSizeForConsensus b > env.consensus.maxBlockSize.toNat)

instance (b : Block) : Decidable (Fits env b) := inferInstanceAs (Decidable (¬ (_ ∧ _)))

/-- A block that is applied is within the limit. -/
theorem fits_of_applyIn {s' : Ledger} (h : applyIn env b s = .ret () s') : Fits env b := by
  intro hsize
  unfold applyIn applyBlockToState at h
  rw [if_pos hsize] at h
  cases h

/-- Two blocks that differ in `TotalWork` only. -/
def SameButWork (b b' : Block) : Prop := { b with totalWork := [] } = { b' with totalWork := [] }

/-- Within the limit, `TotalWork` does not matter to the state. -/
theorem applyIn_congr {b' : Block} (h : SameButWork b b') (hb : Fits env b) (hb' : Fits env b') :
    applyIn env b = applyIn env b' := by
  unfold applyIn applyBlockToState applyReward
  rw [if_neg hb, if_neg hb']
  obtain ⟨ptr, hash, height, header, transactions, coinbaseTx, minerAddress, totalWork⟩ := b
  obtain ⟨ptr', hash', height', header', transactions', coinbaseTx', minerAddress', work'⟩ := b'
  obtain ⟨-, -, rfl, -, rfl, -, rfl, -⟩ := Block.mk.inj h
  rfl

theorem sameButWork_viewWith (texts texts' : GoMap Nat Bytes) (b : Block) :
    SameButWork (viewWith texts b) (viewWith texts' b) := by
  have hview : ∀ t : GoMap Nat Bytes, { viewWith t b with totalWork := [] }
    = { b with totalWork := [] } := by
    intro t
    unfold viewWith
    split <;> rfl
  exact (hview texts).trans (hview texts').symm

/-- The replay under other texts, if all blocks stay within the limit. -/
theorem replayBlocks_viewWith {texts texts' : GoMap Nat Bytes} :
    ∀ {bs : List Block} {s0 : Ledger}, (∀ b ∈ bs, Fits env (viewWith texts' b)) →
      replayBlocks env (bs.map (viewWith texts)) s0 = .ret () s →
      replayBlocks env (bs.map (viewWith texts')) s0 = .ret () s
  | [], _, _, h => h
  | b :: bs, s0, hfits, h => by
    obtain ⟨s1, h1, h2⟩ := bind_unit_eq_ret.mp h
    have hcongr := applyIn_congr (sameButWork_viewWith texts texts' b) (fits_of_applyIn h1)
      (hfits b List.mem_cons_self)
    refine bind_unit_eq_ret.mpr ⟨s1, hcongr ▸ h1, ?_⟩
    exact replayBlocks_viewWith (fun x hx => hfits x (List.mem_cons_of_mem b hx)) h2

/-! ## The invariant -/

theorem replayBlocks_append {xs ys : List Block} {s0 : Ledger} :
    replayBlocks env (xs ++ ys) s0 = .ret () s
      ↔ ∃ s1, replayBlocks env xs s0 = .ret () s1 ∧ replayBlocks env ys s1 = .ret () s := by
  induction xs generalizing s0 with
  | nil => simp [replayBlocks, Prog.forEach]
  | cons b xs ih =>
    simp only [replayBlocks, List.cons_append, Prog.forEach, bind_unit_eq_ret] at ih ⊢
    constructor
    · rintro ⟨s1, h1, h⟩
      obtain ⟨s2, h2, h3⟩ := ih.mp h
      exact ⟨s2, ⟨s1, h1, h2⟩, h3⟩
    · rintro ⟨s2, ⟨s1, h1, h2⟩, h3⟩
      exact ⟨s1, h1, ih.mpr ⟨s2, h2, h3⟩⟩

theorem replayBlocks_singleton {s0 : Ledger} :
    replayBlocks env [b] s0 = .ret () s ↔ applyIn env b s0 = .ret () s := by
  simp [replayBlocks, Prog.forEach, bind_unit_eq_ret]

/-- Blocks that are replayed are within the limit. -/
theorem fits_of_replayBlocks :
    ∀ {bs : List Block} {s0 : Ledger}, replayBlocks env bs s0 = .ret () s → ∀ b ∈ bs, Fits env b
  | b :: bs, s0, h, x, hx => by
    obtain ⟨s1, h1, h2⟩ := bind_unit_eq_ret.mp h
    rcases List.mem_cons.mp hx with rfl | hx
    · exact fits_of_applyIn h1
    · exact fits_of_replayBlocks h2 x hx

/-- **The condition under which a step keeps the account map in line with the chain.** An
extension: the state takes the block, or refuses it before it has written anything, and no
canonical block outgrows the size limit with its new `TotalWork`. A reorganisation: the new
chain can be replayed, and no block of it outgrows the limit. A rollback: nothing. -/
def CoreStep.KeepsState (env : Env) : CoreStep → Prop
  | .extend before b =>
    ((before.applied env b).error?.isSome → (before.applied env b).state? = some before.state)
      ∧ ∀ x ∈ before.blocks, Fits env ((before.putOn env b).view x)
  | .reorganize before ancestor newBlocks =>
    let blocks := before.spliced ancestor newBlocks
    (replayBlocks env (blocks.map before.view) ∅).value? = some ()
      ∧ ∀ x ∈ blocks, Fits env (viewWith (totalWorkOf blocks before.totalWork).2 x)
  | .rollback _ _ => True

instance (step : CoreStep) : Decidable (step.KeepsState env) :=
  match step with
  | .extend _ _ => inferInstanceAs (Decidable ((_ → _) ∧ ∀ x ∈ _, _))
  | .reorganize _ _ _ => inferInstanceAs (Decidable (_ ∧ ∀ x ∈ _, _))
  | .rollback _ _ => inferInstanceAs (Decidable True)

/-- The account map is the replay. -/
def Core.Replays (env : Env) (c : Core) : Prop :=
  replayBlocks env (c.blocks.map (viewWith c.totalWork)) ∅ = .ret () c.state

/-- A replay in place brings the map in line, if it succeeds and the blocks stay within the
limit. -/
theorem Replayed.replays {old new : Core} {r : Nat × GoMap Nat Bytes} {x : Indexes}
    (h : Replayed env old r x new)
    (hok : ∃ s, replayBlocks env (old.blocks.map (viewWith old.totalWork)) ∅ = .ret () s)
    (hfits : ∀ x ∈ old.blocks, Fits env (viewWith r.2 x)) : new.Replays env := by
  obtain ⟨s, hs⟩ := hok
  unfold Replayed at h
  rw [hs] at h
  obtain ⟨store, rfl⟩ := h
  exact replayBlocks_viewWith hfits hs

theorem Extension.replays {w' : World} (h : Extension env w w' b)
    (hw : w.chain.core.Replays env) (hstep : CoreStep.KeepsState env (.extend w.chain b)) :
    w'.chain.core.Replays env := by
  obtain ⟨hrefused, hfits⟩ := hstep
  -- the blocks below, with the text of the new one in place
  have hbelow : replayBlocks env
      (w.chain.blocks.map (viewWith (w.chain.putOn env b).totalWork)) ∅ = .ret () w.chain.state :=
    replayBlocks_viewWith hfits hw
  have hcore := h.core
  split at hcore
  · rw [hcore]
    exact hbelow
  · cases happlied : w.chain.applied env b with
    | fault x => exact x.elim
    | err e s =>
      rw [happlied] at hcore hrefused
      rw [hcore, Option.some.inj (hrefused rfl)]
      exact hbelow
    | ret a s =>
      rw [happlied] at hcore
      rw [hcore]
      change replayBlocks env ((w.chain.blocks ++ [b]).map
        (viewWith (w.chain.putOn env b).totalWork)) ∅ = .ret () s
      rw [List.map_append, replayBlocks_append]
      exact ⟨w.chain.state, hbelow, replayBlocks_singleton.mpr happlied⟩

/-- **One move keeps the map in line with the chain.** -/
theorem Move.replays {P : Block → Prop} {T : Chain → Block → Block → Prop} {w' : World}
    (h : Move env P T w w') (hclean : ∀ step ∈ w'.steps, CoreStep.KeepsState env step)
    (hw : w.chain.core.Replays env) : w'.chain.core.Replays env := by
  cases h with
  | still hsteps hcore => exact hcore ▸ hw
  | extend b hP hattach h =>
    exact h.replays hw (hclean _ (h.steps ▸ List.mem_cons_self))
  | switch ancestor newTip visited hP hT hbranch h =>
    have hstep := hclean (.reorganize w.chain ancestor visited.dropLast.reverse)
      (h.steps ▸ List.mem_cons_self)
    obtain ⟨_, _, -, hreplayed⟩ := h.core
    exact hreplayed.replays (Outcome.value?_eq_some hstep.1) hstep.2
  | cut height h =>
    -- a part of a chain that can be replayed can be replayed, under the same texts
    have hsplit : replayBlocks env ((w.chain.blocks.take (height.toNat + 1)
        ++ w.chain.blocks.drop (height.toNat + 1)).map (viewWith w.chain.totalWork)) ∅
        = .ret () w.chain.state := by
      rw [List.take_append_drop]
      exact hw
    rw [List.map_append, replayBlocks_append] at hsplit
    obtain ⟨s, hs, -⟩ := hsplit
    exact h.core.replays ⟨s, hs⟩ fun x hx =>
      fits_of_replayBlocks hs _ (List.mem_map_of_mem hx)

/-- The genesis block as it stands in the fresh chain. -/
def genesisInChain (env : Env) : Block :=
  viewWith (totalWorkOf [createGenesisBlock env] ∅).2 (createGenesisBlock env)

theorem Fresh.replays (h : Fresh env w) (hgenesis : Fits env (genesisInChain env)) :
    w.chain.core.Replays env := by
  change replayBlocks env (w.chain.blocks.map (viewWith w.chain.totalWork)) ∅ = _
  rw [h.blocks, h.totalWork]
  have hstate : replayBlocks env ([createGenesisBlock env].map (viewWith ∅)) ∅
      = .ret () w.chain.state := h.state
  refine replayBlocks_viewWith (fun b hb => ?_) hstate
  rw [List.mem_singleton.mp hb]
  exact hgenesis

/-- **The account map is the replay of the canonical chain** at the end of every run all of
whose steps meet `KeepsState`, calls that returned errors included; and so
`validateStateLocked` accepts it, whatever the order in which it ranges over the map. -/
theorem state_eq_replay {calls : List Call} {w : World} (hgenesis : Fits env (genesisInChain env))
    (h : runFromStart env calls = some w)
    (hsteps : ∀ step ∈ w.steps, CoreStep.KeepsState env step) :
    w.chain.replay env = .ret () w.chain.state
      ∧ ∀ addresses : List Bytes, (∀ a ∈ addresses, a ∈ w.chain.state) →
        validateStateLocked env w.chain addresses = .ok () := by
  have hreplays : w.chain.core.Replays env :=
    run_invariant_any (I := fun w => w.chain.core.Replays env) (fun w hw => hw.replays hgenesis)
      (fun w w' _ hclean hw hmove => hmove.replays hclean hw) h hsteps
  exact ⟨hreplays, fun addresses haddresses => validateStateLocked_of_replay hreplays haddresses⟩

/-- Two rival blocks on the genesis block; the second is heavier. -/
def rivalBlocks : Block × Block :=
  (sampleBlock (List.replicate 32 1) (List.replicate 32 0) 1 10 [],
    { sampleBlock (List.replicate 32 2) (List.replicate 32 0) 1 20 [] with ptr := 2 })

/-- An extension, a reorganisation and a rollback that meet the condition. -/
theorem state_eq_replay_rivalBlocks :
    ∃ w, runFromStart sampleEnv [.addBlock rivalBlocks.1, .addBlock rivalBlocks.2,
        .rollbackToHeight 0] = some w
      ∧ w.steps.length = 3 ∧ w.chain.replay sampleEnv = .ret () w.chain.state := by
  exact exists_and_of (fun w => w.steps.length = 3
      ∧ ∀ step ∈ w.steps, CoreStep.KeepsState sampleEnv step) (by decide +kernel)
    fun w hw h => ⟨h.1, (state_eq_replay (by decide +kernel) hw h.2).1⟩

/-- A block at the tip that is refused at its second transaction, after the genesis share and
the coinbase have been credited. -/
def halfAppliedBlock : Block :=
  sampleBlock (List.replicate 32 1) (List.replicate 32 0) 1 10
    [{ coinbaseTo (zeroAddress 1) 5 with type := .transfer }]

/-- **A refused block stays in the account map**: the chain is the genesis block, and the
miner of the refused block has its reward. -/
theorem refused_block_stays_in_state :
    ∃ w, runFromStart sampleEnv [.addBlock halfAppliedBlock] = some w
      ∧ w.chain.replay sampleEnv ≠ .ret () w.chain.state := by
  refine exists_and_of (fun w => (w.chain.state.account (zeroAddress 1)).balance = 792000000
      ∧ (w.chain.replay sampleEnv).state?.map (fun s => (s.account (zeroAddress 1)).balance)
        = some 0)
    (by decide +kernel) fun w hw h => ?_
  obtain ⟨hmap, hreplay⟩ := h
  refine fun heq => ?_
  rw [heq, Outcome.state?_ret, Option.map_some, hmap] at hreplay
  exact absurd hreplay (by decide)

end NogoChain
