import NogoChain.Chain.Linked
import NogoChain.Chain.Stock

/-!
# The event that reports a reorganisation

Once the chain has been switched, `reorganizeChainLocked` publishes an event with two lists: the
blocks that were reverted and the new ones. The first is taken from the canonical chain before the
switch and is right. The second is taken from the list in which the branch was collected. That
list has the ancestor at its end, and the loop that is to leave the ancestor out leaves out the
first element: the lowest new block is missing and the ancestor is reported as new.

So the second list is right only when there is nothing to list. An extension of the tip – the
ancestor is the tip itself – publishes nothing.
-/

namespace NogoChain

open Prog

variable {env : Env}

/-- A block as the event lists it. -/
def Block.listing (b : Block) : Bytes × UInt64 := (b.hash, b.height)

/-- The canonical blocks above a height, as the event is to list them. -/
def Chain.listAbove (c : Chain) (height : UInt64) : List (Bytes × UInt64) :=
  (c.blocks.drop (height.toNat + 1)).map Block.listing

/-! ## What is published along the way -/

/-- Nothing is published, and the canonical chain stays. -/
structure Hushed (w w' : World) : Prop where
  published : w'.chain.published = w.chain.published
  blocks : w'.chain.blocks = w.chain.blocks
  bestTipHash : w'.chain.bestTipHash = w.chain.bestTipHash

instance : IsPreorder World Hushed where
  refl _ := ⟨rfl, rfl, rfl⟩
  trans _ _ _ h h' := ⟨h'.published.trans h.published, h'.blocks.trans h.blocks,
    h'.bestTipHash.trans h.bestTipHash⟩

theorem hushed_recomputeStateLocked (w : World) : Steps Hushed (recomputeStateLocked env) w :=
  steps_recomputeStateLocked fun _ => ⟨rfl, rfl, rfl⟩

theorem hushed_rewriteCanonical (w : World) : Steps Hushed (rewriteCanonical env) w :=
  steps_rewriteCanonical ⟨rfl, rfl, rfl⟩ fun _ => ⟨rfl, rfl, rfl⟩

theorem hushed_cleanOrphanPoolAboveHeight (height : UInt64) (w : World) :
    Steps Hushed (cleanOrphanPoolAboveHeight env height) w :=
  steps_cleanOrphanPool (fun _ _ _ _ => ⟨rfl, rfl, rfl⟩) height w

/-! ## The event -/

/-- **What a switch publishes**: the reverted blocks, and the new ones without the first and with
the ancestor at the end. -/
theorem switchBranch_published {w w' : World} {ancestor newTip : Block} {newBlocks : List Block}
    (h : switchBranch env ancestor newTip newBlocks w = .ret () w') :
    ∃ (k : Nat) (tip : Block), goInt ancestor.height + 1 = k
      ∧ w'.chain.blocks = w.chain.blocks.take k ++ newBlocks ∧ w'.chain.tip? = some tip
      ∧ w'.chain.published = .chainReorg ((w.chain.blocks.drop k).map Block.listing)
          ((newBlocks ++ [ancestor]).tail.map Block.listing) newTip.hash tip.height ancestor.height
        :: w.chain.published := by
  unfold switchBranch at h
  generalize hk : goInt ancestor.height + 1 = i at h
  cases i with
  | negSucc k => cases h
  | ofNat k =>
    dsimp only at h
    rw [chain_bind_apply] at h
    obtain ⟨_, w1, h1, h⟩ := bind_eq_ret.mp h
    cases h1
    obtain ⟨_, w2, h2, h⟩ := bind_eq_ret.mp h
    cases h2
    obtain ⟨_, w3, h3, h⟩ := bind_eq_ret.mp h
    have hushed3 := Steps.of_ret (steps_wrapping (hushed_recomputeStateLocked _)) h3
    obtain ⟨_, w4, h4, h⟩ := bind_eq_ret.mp h
    cases h4
    obtain ⟨_, w5, h5, h⟩ := bind_eq_ret.mp h
    have hushed5 := Steps.of_ret (steps_wrapping (hushed_rewriteCanonical _)) h5
    rw [chain_bind_apply] at h
    cases htip : w5.chain.tip? with
    | none =>
      rw [htip] at h
      cases h
    | some tip =>
      rw [htip] at h
      obtain ⟨_, w6, h6, h⟩ := bind_eq_ret.mp h
      cases h6
      obtain ⟨_, w7, h7, h⟩ := bind_eq_ret.mp h
      have hushed7 := Steps.of_ret (hushed_cleanOrphanPoolAboveHeight _ _) h7
      cases h
      have hblocks : w7.chain.blocks = w.chain.blocks.take k ++ newBlocks :=
        hushed7.blocks.trans (hushed5.blocks.trans hushed3.blocks)
      have htip7 : w7.chain.tip? = some tip := (congrArg List.getLast? hushed7.blocks).trans htip
      have hbest : w7.chain.bestTipHash = newTip.hash :=
        hushed7.bestTipHash.trans hushed5.bestTipHash
      have hpublished : w7.chain.published = w.chain.published :=
        hushed7.published.trans (hushed5.published.trans hushed3.published)
      refine ⟨k, tip, rfl, hblocks, htip7, ?_⟩
      dsimp only
      rw [hbest, hpublished]
      rfl

/-- **An extension publishes nothing.** -/
theorem appendBranch_published {w w' : World} {ancestor newTip : Block} {newBlocks : List Block}
    (h : appendBranch env ancestor newTip newBlocks w = .ret () w') :
    w'.chain.published = w.chain.published := by
  obtain ⟨_, w1, h1, h⟩ := bind_eq_ret.mp h
  cases h1
  obtain ⟨_, w2, h2, h⟩ := bind_eq_ret.mp h
  cases h2
  obtain ⟨_, w3, h3, h⟩ := bind_eq_ret.mp h
  have hushed3 := Steps.of_ret (steps_wrapping (hushed_recomputeStateLocked _)) h3
  obtain ⟨_, w4, h4, h⟩ := bind_eq_ret.mp h
  cases h4
  have hushed5 := Steps.of_ret (steps_wrapping (hushed_rewriteCanonical _)) h
  exact hushed5.published.trans hushed3.published

/-! ## When the event is complete -/

/-- **The event is complete**: it lists the blocks above the ancestor that were canonical before
and those that are canonical now. -/
def Event.Complete (before after : Chain) (ancestorHeight : UInt64) : Event → Prop
  | .chainReorg reverted newBlocks _ _ _ =>
    reverted = before.listAbove ancestorHeight ∧ newBlocks = after.listAbove ancestorHeight
  | .newBlock _ _ _ _ _ => False

/-- The blocks that the event lists as reverted. -/
def Event.reverted : Event → List (Bytes × UInt64)
  | .chainReorg reverted _ _ _ _ => reverted
  | .newBlock _ _ _ _ _ => []

section Branch

variable {c : Chain} {ancestor newTip : Block} {visited : List Block}
  (h : Branch env c ancestor newTip visited)
include h

/-- The index at which the chain is cut is the one above the ancestor, unless nothing is left. -/
theorem Branch.removeStart_eq {k : Nat} (hk : goInt ancestor.height + 1 = k)
    (hleft : k = 0 → visited.dropLast.reverse ≠ []) : k = ancestor.height.toNat + 1 := by
  cases k with
  | succ k =>
    rw [toNat_of_goInt (n := k) (by rw [Int.ofNat_eq_natCast]; omega)]
  | zero =>
    -- at the highest number there is, no block is higher
    have hmax : ancestor.height.toNat = 2 ^ 64 - 1 := by
      have hlt := ancestor.height.toNat_lt
      rw [goInt_eq] at hk
      split at hk <;> omega
    obtain ⟨x, hx⟩ := List.exists_mem_of_ne_nil _ (hleft rfl)
    have habove := h.above x (List.mem_reverse.mp hx)
    rw [UInt64.lt_iff_toNat_lt, hmax] at habove
    have hlt := x.height.toNat_lt
    omega

/-- A new tip that is no higher than the ancestor brings nothing. -/
theorem Branch.newBlocks_eq_nil_iff :
    visited.dropLast.reverse = [] ↔ newTip.height ≤ ancestor.height := by
  obtain ⟨l, rfl⟩ := h.exists_cons
  rw [List.reverse_eq_nil_iff]
  cases l with
  | nil => exact iff_of_true rfl (UInt64.not_lt.mp (h.stop newTip rfl))
  | cons y l =>
    refine iff_of_false (List.cons_ne_nil _ _) (UInt64.not_le.mpr (h.above newTip ?_))
    exact List.mem_cons_self

/-- **The list without its first and with the ancestor at its end** is the list of the new blocks
only if there is none. -/
theorem Branch.listing_eq_iff : (visited.dropLast.reverse ++ [ancestor]).tail.map Block.listing
        = visited.dropLast.reverse.map Block.listing
      ↔ newTip.height ≤ ancestor.height := by
  rw [← h.newBlocks_eq_nil_iff]
  refine ⟨fun heq => not_not.mp fun hne => ?_, fun hnil => by rw [hnil]; rfl⟩
  -- the last of the one list is the ancestor, that of the other is higher
  have htail : (visited.dropLast.reverse ++ [ancestor]).tail
      = visited.dropLast.reverse.tail ++ [ancestor] := List.tail_append_of_ne_nil hne
  have hlast := congrArg List.getLast? heq
  rw [htail, List.map_append, List.map_singleton, List.getLast?_concat, List.getLast?_map] at hlast
  obtain ⟨x, hx, hlisting⟩ := Option.map_eq_some_iff.mp hlast.symm
  have hmem : x ∈ visited.dropLast := List.mem_reverse.mp (List.mem_of_getLast? hx)
  have hheight : x.height = ancestor.height := congrArg Prod.snd hlisting
  have habove := h.above x hmem
  rw [hheight] at habove
  exact UInt64.lt_irrefl _ habove

end Branch

/-- **When the event of a reorganisation is complete.** Every reorganisation that succeeds and is
not an extension of the tip publishes one event. The reverted blocks in it are right. The event as
a whole is complete if and only if the new tip is no higher than the ancestor, that is, if no block
was adopted. An extension of the tip publishes nothing. -/
theorem reorgEvent_complete_iff {w w' : World} {ancestor newTip : Block}
    (h : reorganizeChainLocked env ancestor newTip w = .ret () w') :
    (w.chain.AtTip ancestor → w'.chain.published = w.chain.published)
      ∧ (¬ w.chain.AtTip ancestor → ∃ event, w'.chain.published = event :: w.chain.published
        ∧ event.reverted = w.chain.listAbove ancestor.height
        ∧ (event.Complete w.chain w'.chain ancestor.height ↔ newTip.height ≤ ancestor.height)) := by
  rcases reorganizeChainLocked_cases ancestor newTip w with
    ⟨visited, hbranch, hrange, ⟨htip, heq⟩ | ⟨htip, heq⟩⟩ | ⟨hnot, -⟩
  · exact ⟨fun _ => appendBranch_published (heq ▸ h), fun hnot => absurd htip hnot⟩
  · refine ⟨fun hat => absurd hat htip, fun _ => ?_⟩
    obtain ⟨k, tip, hk, hblocks, htip', hpublished⟩ := switchBranch_published (heq.symm.trans h)
    have hk' := hbranch.removeStart_eq hk fun hzero => by
      rw [Chain.tip?, hblocks, hzero, List.take_zero, List.nil_append] at htip'
      intro hnil
      cases (hnil ▸ htip' : ([] : List Block).getLast? = some tip)
    subst hk'
    have hlength : (w.chain.blocks.take (ancestor.height.toNat + 1)).length
        = ancestor.height.toNat + 1 := List.length_take_of_le (by omega)
    have hnew : w'.chain.listAbove ancestor.height
        = visited.dropLast.reverse.map Block.listing := by
      unfold Chain.listAbove
      rw [hblocks, List.drop_left' hlength]
    refine ⟨_, hpublished, rfl, ?_⟩
    rw [Event.Complete, hnew, ← hbranch.listing_eq_iff]
    exact and_iff_right rfl
  · exact absurd h (hnot w')

/-- A block, and a lighter branch of two blocks. -/
def lighterBranch : List Block :=
  [numberedBlock 1 0 1 90, numberedBlock 2 0 1 40, numberedBlock 3 2 2 40]

/-- A reorganisation to the genesis block itself: one block is reverted and none adopted, and the
event says so. -/
theorem reorgEvent_complete_genesis :
    ∃ w w' event, runFromStart sampleEnv (lighterBranch.map .addBlock) = some w
      ∧ reorganizeChainLocked sampleEnv (createGenesisBlock sampleEnv)
          (createGenesisBlock sampleEnv) w = .ret () w'
      ∧ w'.chain.published = event :: w.chain.published
      ∧ event.Complete w.chain w'.chain 0 := by
  obtain ⟨w, hw, hbelow, w', hret, -⟩ :
      ∃ w, runFromStart sampleEnv (lighterBranch.map .addBlock) = some w
        ∧ ¬ w.chain.AtTip (createGenesisBlock sampleEnv)
        ∧ ∃ w', reorganizeChainLocked sampleEnv (createGenesisBlock sampleEnv)
          (createGenesisBlock sampleEnv) w = .ret () w' ∧ True := by
    decide +kernel
  obtain ⟨event, hevent, -, hiff⟩ := (reorgEvent_complete_iff hret).2 hbelow
  exact ⟨w, w', event, hw, hret, hevent, hiff.mpr (UInt64.le_refl _)⟩

/-- **The lowest new block is missing and the ancestor is listed.** The chain is switched from
block 1 to the branch of blocks 2 and 3; the event lists block 3 and the genesis block. -/
theorem reorgEvent_lists_ancestor :
    ∃ w w', runFromStart sampleEnv (lighterBranch.map .addBlock) = some w
      ∧ reorganizeChainLocked sampleEnv (createGenesisBlock sampleEnv) (numberedBlock 3 2 2 40) w
        = .ret () w'
      ∧ w'.chain.blocks.map (·.hash)
        = [List.replicate 32 0, List.replicate 32 2, List.replicate 32 3]
      ∧ w'.chain.published.head? = some (.chainReorg [(List.replicate 32 1, 1)]
          [(List.replicate 32 3, 2), (List.replicate 32 0, 0)] (List.replicate 32 3) 2 0) := by
  simp only [exists_and_left]
  decide +kernel

end NogoChain
