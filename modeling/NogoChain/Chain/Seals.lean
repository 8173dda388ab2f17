import NogoChain.Chain.Reachable

/-!
# Seals of the canonical chain

Fork blocks are checked against their parents, when they are stored and when a branch is
switched to. A block that is put on the tip is not checked, nor are the blocks of a branch
that starts at the tip, and no path compares the hash a block states with that of its
header. So the canonical chain is sealed to the extent that blocks arrive sealed there.
-/

namespace NogoChain

variable {env : Env}

/-- **A block is sealed on its parent**: the seal check accepts it, and the hash it states is
the Keccak hash of the header that the check builds. -/
def Sealed (env : Env) (parent b : Block) : Prop :=
  verifyBlockPoWSeal env.cr env.powFake b (some parent) = .ok ()
    ∧ sealHash env.cr b parent = .ok b.hash

instance (parent b : Block) : Decidable (Sealed env parent b) :=
  inferInstanceAs (Decidable (_ ∧ _))

/-- **The condition under which a step keeps the chain sealed.** An extension: the block is
sealed on the tip. A reorganisation: the first new block names the block it is put on, each
new block states the hash of its header, and if the ancestor is the tip, the seals are
right. A rollback: nothing. -/
def CoreStep.KeepsSeals (env : Env) : CoreStep → Prop
  | .extend before b => ∀ tip ∈ before.tip?, Sealed env tip b
  | .reorganize before ancestor newBlocks =>
    let base := (before.kept ancestor).getLast?
    (∀ p ∈ base, ∀ b ∈ newBlocks.head?, b.header.prevHash = p.hash)
      ∧ (base.toList ++ newBlocks).IsChain (fun p b => sealHash env.cr b p = .ok b.hash)
      ∧ (before.AtTip ancestor → (base.toList ++ newBlocks).IsChain fun p b =>
        verifyBlockPoWSeal env.cr env.powFake b (some p) = .ok ())
  | .rollback _ _ => True

/-- The seals along a branch that is switched to, the block it is put on included. -/
theorem Branch.verified {P : Block → Prop} {c : Chain} {ancestor newTip : Block}
    {visited : List Block} (h : Branch env c ancestor newTip visited) (hc : c.Holds P)
    (hbase : ∀ p ∈ (c.kept ancestor).getLast?, ∀ b ∈ visited.dropLast.reverse.head?,
      b.header.prevHash = p.hash)
    (htip : c.AtTip ancestor →
      ((c.kept ancestor).getLast?.toList ++ visited.dropLast.reverse).IsChain
      fun p b => verifyBlockPoWSeal env.cr env.powFake b (some p) = .ok ()) :
    ((c.kept ancestor).getLast?.toList ++ visited.dropLast.reverse).IsChain
      fun p b => verifyBlockPoWSeal env.cr env.powFake b (some p) = .ok () := by
  rcases h.seals with hat | hseals
  · exact htip hat
  · obtain ⟨hnew, hfirst⟩ := isChain_dropLast_reverse hseals
    obtain ⟨-, hparent⟩ := isChain_dropLast_reverse h.parents
    refine List.isChain_append.mpr ⟨?_, hnew, fun p hp b hb => ?_⟩
    · cases (c.kept ancestor).getLast? with
      | none => exact .nil
      | some p => exact .singleton p
    · -- the check looks at the hash of the parent only, which is the one the block names
      have hp' : p ∈ (c.kept ancestor).getLast? :=
        Option.mem_toList.mp (List.mem_of_getLast? hp)
      obtain ⟨x, hx⟩ := exists_getLast?_of_head? hb
      have hhash : x.hash = p.hash :=
        (hc.knownParent (hparent b hb x hx)).2.trans (hbase p hp' b hb)
      rw [← verifyBlockPoWSeal_congr env.cr env.powFake b hhash]
      exact hfirst b hb x hx

/-- **One move keeps the chain sealed.** -/
theorem Move.sealed {P : Block → Prop} {T : Chain → Block → Block → Prop} {w w' : World}
    (h : Move env P T w w') (hP : w.chain.Holds P)
    (hclean : ∀ step ∈ w'.steps, CoreStep.KeepsSeals env step)
    (hw : w.chain.blocks.IsChain (Sealed env)) : w'.chain.blocks.IsChain (Sealed env) := by
  refine h.isChain hw ?_ ?_
  · intro b _ _ _ _ hsteps tip htip
    exact hclean (.extend w.chain b) (by rw [hsteps]; exact List.mem_cons_self) tip htip
  · intro ancestor newTip visited _ _ hbranch hsteps
    obtain ⟨hbase, hhashes, htip⟩ := hclean (.reorganize w.chain ancestor visited.dropLast.reverse)
      (by rw [hsteps]; exact List.mem_cons_self)
    have hverified := hbranch.verified hP hbase htip
    have hsealed : ((w.chain.kept ancestor).getLast?.toList ++ visited.dropLast.reverse).IsChain
        (Sealed env) := List.isChain_iff_getElem.mpr fun i hi =>
      ⟨List.isChain_iff_getElem.mp hverified i hi, List.isChain_iff_getElem.mp hhashes i hi⟩
    obtain ⟨-, hnew, hjoin⟩ := List.isChain_append.mp hsealed
    refine ⟨hnew, fun p hp b hb => hjoin p ?_ b hb⟩
    simp [Option.mem_def.mp hp]

/-- **Every canonical block is sealed on the one before it** at the end of every run all of
whose steps meet `KeepsSeals`. -/
theorem canonical_sealed {calls : List Call} {w : World} (h : runFromStart env calls = some w)
    (hsteps : ∀ step ∈ w.steps, CoreStep.KeepsSeals env step) (i : Nat)
    (hi : i + 1 < w.chain.blocks.length) :
    Sealed env (w.chain.blocks.get ⟨i, Nat.lt_of_succ_lt hi⟩) w.chain.blocks[i + 1] := by
  have hchain : w.chain.blocks.IsChain (Sealed env) := by
    refine run_invariant_any (I := fun w => w.chain.blocks.IsChain (Sealed env)) (fun w hw => ?_)
      (fun w w' hP hclean hw hmove => hmove.sealed hP hclean hw) h hsteps
    rw [hw.blocks]
    exact .singleton _
  exact List.isChain_iff_getElem.mp hchain i hi

instance (step : CoreStep) : Decidable (step.KeepsSeals env) :=
  match step with
  | .extend _ _ => inferInstanceAs (Decidable (∀ tip ∈ _, _))
  | .reorganize _ _ _ => inferInstanceAs (Decidable ((∀ p ∈ _, ∀ b ∈ _, _) ∧ _ ∧ (_ → _)))
  | .rollback _ _ => inferInstanceAs (Decidable True)

/-- The concrete node with a digest that tells headers apart: a checksum. -/
def checksumEnv : Env :=
  { sampleEnv with cr := { Crypto.constant with
      keccak256 := fun x =>
        List.replicate 31 0 ++ [x.foldl (fun sum byte => 31 * sum + byte) 7]
      keccak256_length := fun x => by simp } }

/-- A block of the default configuration with the hash of its header. -/
def sealedBlock (env : Env) (parent : Block) (ptr : Nat) (bits : UInt32) : Block :=
  let unsealed := { sampleBlock [] parent.hash (parent.height + 1) bits [] with ptr := ptr }
  match sealHash env.cr unsealed parent with
  | .error _ => unsealed
  | .ok hash => { unsealed with hash := hash }

/-- A block on the genesis block, a heavier rival, and a child of the rival: two extensions
and a reorganisation that meet the condition. -/
def sealedCalls : List Call :=
  let genesis := createGenesisBlock checksumEnv
  let rival := sealedBlock checksumEnv genesis 2 15
  [.addBlock (sealedBlock checksumEnv genesis 1 10), .addBlock rival,
    .addBlock (sealedBlock checksumEnv rival 3 10)]

theorem canonical_sealed_sealedCalls :
    ∃ w, runFromStart checksumEnv sealedCalls = some w ∧ w.steps.length = 3
      ∧ ∃ h : 2 < w.chain.blocks.length,
        Sealed checksumEnv w.chain.blocks[1] w.chain.blocks[2] := by
  refine Prog.exists_and_of (fun w => (w.steps.length = 3 ∧ 2 < w.chain.blocks.length)
    ∧ ∀ step ∈ w.steps, CoreStep.KeepsSeals checksumEnv step) (by decide +kernel) fun w hw h => ?_
  obtain ⟨⟨hsteps, hlength⟩, hclean⟩ := h
  exact ⟨hsteps, hlength, canonical_sealed hw hclean 1 hlength⟩

/-- The concrete node with seals that never meet a target. -/
def unsealedEnv : Env :=
  { sampleEnv with cr := { Crypto.constant with computePoW := fun _ _ => 2 ^ 256 } }

/-- **A block without a seal is put on the tip**, with a hash that is not that of its
header. -/
theorem unsealed_block_on_tip :
    ∃ w, runFromStart unsealedEnv
        [.addBlock (sampleBlock (List.replicate 32 1) (List.replicate 32 0) 1 10 [])] = some w
      ∧ ∃ h : 1 < w.chain.blocks.length,
        verifyBlockPoWSeal unsealedEnv.cr unsealedEnv.powFake w.chain.blocks[1]
            (some w.chain.blocks[0]) ≠ .ok ()
          ∧ sealHash unsealedEnv.cr w.chain.blocks[1] w.chain.blocks[0]
            ≠ .ok w.chain.blocks[1].hash := by
  decide +kernel

end NogoChain
