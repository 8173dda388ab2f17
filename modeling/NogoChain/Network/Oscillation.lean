import NogoChain.Chain.Weight

/-!
# The guard against oscillation

`detectOscillation` is asked before a reorganisation, and its comment says that a chain with more
work is always let through. It reads no work. It compares the height of the block with the heights
of the last ten tips that were switched to, and once it has found that the heights come back, it
turns every block away for 30 seconds.

Where all blocks have one difficulty, more work is more height. If the node is only ever asked to
switch to more work, no height then comes back, and the guard is never in the way
(`guard_lets_heavier_through`).
-/

namespace NogoChain

/-- The part of `ForkResolver` that the guard uses. Of a `ReorgRecord` it reads the height of
the new tip. -/
structure ForkResolver where
  /-- new tips of the recorded reorganisations, the latest last -/
  recentReorgs : List UInt64 := []
  oscillationProtected : Bool := false
  /-- in nanoseconds -/
  oscillationProtectedUntil : Int := 0
deriving DecidableEq

namespace ForkResolver

def recordReorgForOscillation (fr : ForkResolver) (newTip : UInt64) : ForkResolver :=
  let recentReorgs := fr.recentReorgs ++ [newTip]
  { fr with recentReorgs := if recentReorgs.length > 10 then recentReorgs.drop 1 else recentReorgs }

def activateOscillationProtection (fr : ForkResolver) (now : Int) : ForkResolver :=
  { fr with oscillationProtected := true, oscillationProtectedUntil := now + 30 * 1000000000 }

/-- `detectOscillation`; `now` are the times at which it looks at the clock. -/
def detectOscillation (fr : ForkResolver) (now : Nat → Int) (newTipHeight : UInt64) :
    Bool × ForkResolver :=
  if fr.oscillationProtected ∧ now 0 < fr.oscillationProtectedUntil then (true, fr)
  else
    let fr := if fr.oscillationProtected ∧ now 1 > fr.oscillationProtectedUntil then
      { fr with oscillationProtected := false } else fr
    if fr.recentReorgs.length < 2 then (false, fr)
    else if fr.recentReorgs.count newTipHeight ≥ 2 then
      (true, fr.activateOscillationProtection (now 2))
    else if fr.recentReorgs.length ≥ 3 ∧ fr.recentReorgs.reverse[1]? = some newTipHeight
        ∧ fr.recentReorgs.reverse[0]? ≠ some newTipHeight then
      (true, fr.activateOscillationProtection (now 2))
    else (false, fr)

variable {fr : ForkResolver}

theorem mem_recentReorgs_record {newTip height : UInt64}
    (h : height ∈ (fr.recordReorgForOscillation newTip).recentReorgs) :
    height ∈ fr.recentReorgs ∨ height = newTip := by
  unfold recordReorgForOscillation at h
  dsimp only at h
  split at h
  · simpa using List.mem_of_mem_drop h
  · simpa using h

/-- **A height that is not among the recorded ones** passes a guard that is not on alert. -/
theorem detectOscillation_of_notMem (hcalm : fr.oscillationProtected = false) {height : UInt64}
    (hheight : height ∉ fr.recentReorgs) (now : Nat → Int) :
    fr.detectOscillation now height = (false, fr) := by
  have hback : fr.recentReorgs.reverse[1]? ≠ some height := fun h =>
    hheight (List.mem_reverse.mp (List.mem_of_getElem? h))
  simp [detectOscillation, hcalm, List.count_eq_zero.mpr hheight, hback]

end ForkResolver

/-! ## Histories -/

/-- What happens to a node and its resolver. -/
inductive ResolverEvent where
  /-- a reorganisation to this tip is completed, and recorded -/
  | reorganised (newTip : Block)
  /-- the chain is extended to this tip, which is not recorded -/
  | extended (newTip : Block)
  /-- the guard is asked about a block -/
  | asked (now : Nat → Int) (newBlock : Block)

/-- The block of an event. -/
def ResolverEvent.block : ResolverEvent → Block
  | .reorganised newTip => newTip
  | .extended newTip => newTip
  | .asked _ newBlock => newBlock

/-- The resolver after an event. -/
def ForkResolver.after (fr : ForkResolver) : ResolverEvent → ForkResolver
  | .reorganised newTip => fr.recordReorgForOscillation newTip.height
  | .extended _ => fr
  | .asked now newBlock => (fr.detectOscillation now newBlock.height).2

section Work

variable (work : Block → Nat)

/-- The canonical work after an event. -/
def canonicalAfter (canonical : Nat) : ResolverEvent → Nat
  | .reorganised newTip => work newTip
  | .extended newTip => work newTip
  | .asked _ _ => canonical

/-- **Only to more work**: each block of the history has more work than the canonical chain had
then. -/
def Rising : Nat → List ResolverEvent → Prop
  | _, [] => True
  | canonical, event :: events =>
    canonical < work event.block ∧ Rising (canonicalAfter work canonical event) events

/-- The guard is not on alert, and the recorded heights are those of tips with no more work than
the canonical chain. -/
structure ForkResolver.Calm (P : Block → Prop) (canonical : Nat) (fr : ForkResolver) : Prop where
  calm : fr.oscillationProtected = false
  tips : ∀ h ∈ fr.recentReorgs, ∃ tip, P tip ∧ tip.height = h ∧ work tip ≤ canonical

variable {work} {P : Block → Prop} {canonical : Nat} {fr : ForkResolver}

/-- A block with more work, which is higher then, passes. -/
theorem ForkResolver.Calm.detectOscillation (h : fr.Calm work P canonical)
    (hhigher : ∀ b b', P b → P b' → work b < work b' → b.height < b'.height) {b : Block}
    (hblock : P b) (hheavier : canonical < work b) (now : Nat → Int) :
    fr.detectOscillation now b.height = (false, fr) := by
  refine detectOscillation_of_notMem h.calm (fun hmem => ?_) now
  obtain ⟨tip, htip, hheight, hle⟩ := h.tips _ hmem
  have hlt := hhigher tip b htip hblock (Nat.lt_of_le_of_lt hle hheavier)
  rw [hheight] at hlt
  exact UInt64.lt_irrefl _ hlt

/-- **One event** keeps the guard calm. -/
theorem ForkResolver.Calm.after (h : fr.Calm work P canonical)
    (hhigher : ∀ b b', P b → P b' → work b < work b' → b.height < b'.height) {event : ResolverEvent}
    (hblock : P event.block) (hheavier : canonical < work event.block) :
    (fr.after event).Calm work P (canonicalAfter work canonical event) := by
  have htips : ∀ newTip, canonical < work newTip → ∀ h ∈ fr.recentReorgs,
      ∃ tip, P tip ∧ tip.height = h ∧ work tip ≤ work newTip := by
    intro newTip hlt height hmem
    obtain ⟨tip, htip, hheight, hle⟩ := h.tips height hmem
    exact ⟨tip, htip, hheight, Nat.le_of_lt (Nat.lt_of_le_of_lt hle hlt)⟩
  cases event with
  | extended newTip => exact ⟨h.calm, htips newTip hheavier⟩
  | asked now newBlock =>
    rw [ForkResolver.after, h.detectOscillation (b := newBlock) hhigher hblock hheavier]
    exact h
  | reorganised newTip =>
    refine ⟨h.calm, fun height hmem => ?_⟩
    rcases mem_recentReorgs_record hmem with hold | rfl
    · exact htips newTip hheavier height hold
    · exact ⟨newTip, hblock, rfl, Nat.le_refl _⟩

end Work

/-- The work of a branch of blocks of one difficulty. -/
theorem BranchWork.eq_mul {P : Block → Prop} (ht : blockTree.Honest P) {bits : UInt32}
    (hbits : ∀ b, P b → b.header.difficultyBits = bits) {b : Block} {n : Nat}
    (h : BranchWork P b n) : n = (b.height.toNat + 1) * bits.toNat := by
  have hwork : ∀ {b}, P b → blockWork b = bits.toNat := fun hb => by
    rw [blockWork, hbits _ hb]
    rfl
  induction h with
  | @root b hb hheight =>
    rw [hwork hb, show b.height.toNat = 0 from hheight, Nat.zero_add, Nat.one_mul]
  | @child b p n hb hlink hp ih =>
    rw [ih, hwork hb, show b.height.toNat = p.height.toNat + 1 from ht.height_succ hp.mem hb
      hlink.symm, Nat.succ_mul (p.height.toNat + 1)]

/-- **A heavier chain passes the guard** after every history of a node that was only asked to
switch to more work, if all blocks have one difficulty. -/
theorem guard_lets_heavier_through {P : Block → Prop} (ht : blockTree.Honest P) (bits : UInt32)
    (hbits : ∀ b, P b → b.header.difficultyBits = bits) (work : Block → Nat)
    (hwork : ∀ b, P b → BranchWork P b (work b)) (start : Nat) (events : List ResolverEvent)
    (hblocks : ∀ event ∈ events, P event.block) (hrising : Rising work start events)
    (now : Nat → Int) (block : Block) (hblock : P block)
    (hheavier : events.foldl (canonicalAfter work) start < work block) :
    ((events.foldl ForkResolver.after {}).detectOscillation now block.height).1 = false := by
  have hhigher : ∀ b b', P b → P b' → work b < work b' → b.height < b'.height := by
    intro b b' hb hb' hlt
    rw [(hwork b hb).eq_mul ht hbits, (hwork b' hb').eq_mul ht hbits] at hlt
    exact UInt64.lt_iff_toNat_lt.mpr (Nat.lt_of_succ_lt_succ (Nat.lt_of_mul_lt_mul_right hlt))
  have hcalm : ForkResolver.Calm work P start {} := ⟨rfl, fun _ h => absurd h List.not_mem_nil⟩
  generalize ({} : ForkResolver) = fr at hcalm
  -- along the history, from any calm state
  induction events generalizing fr start with
  | nil => rw [List.foldl_nil, hcalm.detectOscillation hhigher hblock hheavier]
  | cons event events ih =>
    obtain ⟨hevent, hevents⟩ := List.forall_mem_cons.mp hblocks
    exact ih _ hevents hrising.2 hheavier _ (hcalm.after hhigher hevent hrising.1)

/-- Blocks 1 and 2, and a branch of three blocks on block 1, all of the difficulty of the genesis
block. -/
def evenBlocks : List Block :=
  [numberedBlock 1 0 1 10, numberedBlock 2 1 2 10, numberedBlock 3 1 2 10, numberedBlock 4 3 3 10,
    numberedBlock 5 4 4 10]

/-- The chain is extended by blocks 1 and 2 and switched to block 4; block 5 passes. -/
theorem guard_lets_heavier_through_evenBlocks :
    (([ResolverEvent.extended (numberedBlock 1 0 1 10), .extended (numberedBlock 2 1 2 10),
        .asked (fun _ => 0) (numberedBlock 4 3 3 10), .reorganised (numberedBlock 4 3 3 10)].foldl
      ForkResolver.after {}).detectOscillation (fun _ => 0) 4).1 = false := by
  have hhonest : blockTree.Honest (· ∈ createGenesisBlock sampleEnv :: evenBlocks) :=
    honest_of_list (by decide +kernel)
  refine guard_lets_heavier_through hhonest 10 (by decide +kernel)
    (fun b => (b.height.toNat + 1) * 10) (fun b hb => ?_) 10 _ (by simp [evenBlocks,
      ResolverEvent.block]) (by simp only [Rising]; decide +kernel) _ (numberedBlock 5 4 4 10)
    (by simp [evenBlocks]) (by decide +kernel)
  -- the branches, from the genesis block up
  have h₀ : BranchWork (· ∈ createGenesisBlock sampleEnv :: evenBlocks)
      (createGenesisBlock sampleEnv) 10 := .root (by simp) rfl
  have h₁ : BranchWork _ (numberedBlock 1 0 1 10) 20 := .child (by simp [evenBlocks]) rfl h₀
  have h₂ : BranchWork _ (numberedBlock 2 1 2 10) 30 := .child (by simp [evenBlocks]) rfl h₁
  have h₃ : BranchWork _ (numberedBlock 3 1 2 10) 30 := .child (by simp [evenBlocks]) rfl h₁
  have h₄ : BranchWork _ (numberedBlock 4 3 3 10) 40 := .child (by simp [evenBlocks]) rfl h₃
  have h₅ : BranchWork _ (numberedBlock 5 4 4 10) 50 := .child (by simp [evenBlocks]) rfl h₄
  simp only [evenBlocks, List.mem_cons, List.not_mem_nil, or_false] at hb
  rcases hb with rfl | rfl | rfl | rfl | rfl | rfl
  exacts [h₀, h₁, h₂, h₃, h₄, h₅]

/-! ## A heavier block that is turned away -/

/-- The chain and the resolver after calls. As in `executeReorg`, a reorganisation is recorded once
it is completed. -/
def runRecorded (env : Env) : List Call → World × ForkResolver → Option (World × ForkResolver)
  | [], s => some s
  | call :: calls, s =>
    (call.exec env s.1).state?.bind fun w => runRecorded env calls (w,
      match call, (call.exec env s.1).value? with
      | .reorganizeToKnownFork _ newTip, some () => s.2.recordReorgForOscillation newTip.height
      | _, _ => s.2)

/-- **A heavier block that is turned away.** The chain was switched from block 1 to its rival 2 and
back, both at height 1. Block 4 at the same height has more work than the chain. -/
theorem guard_turns_heavier_away :
    ∃ s work, (start sampleEnv BoltStore.empty 0).state?.bind (fun w => runRecorded sampleEnv
          [.addBlock (numberedBlock 1 0 1 30), .addBlock (numberedBlock 2 0 1 20),
            .reorganizeToKnownFork (createGenesisBlock sampleEnv) (numberedBlock 2 0 1 20),
            .reorganizeToKnownFork (createGenesisBlock sampleEnv) (numberedBlock 1 0 1 30)] (w, {}))
        = some s
      ∧ (calculateCumulativeWorkLocked sampleEnv (numberedBlock 4 0 1 40) s.1).value? = some work
      ∧ s.1.chain.canonicalWork < work
      ∧ (s.2.detectOscillation (fun _ => 0) (numberedBlock 4 0 1 40).height).1 = true := by
  simp only [exists_and_left]
  decide +kernel

end NogoChain
