import NogoChain.Core.Merkle
import NogoChain.Core.Seal
import NogoChain.Lib.LevelTree

/-!
# Merkle proofs

`ComputeMerkleRoot`, `BuildMerkleProof` and `MerkleTree.build` each go up the levels by
themselves: the first keeps nothing on the way, the second the sibling of one node on each
level, the third all levels, from which `GetProof` takes the siblings later. On a list that
passes the checks the three agree, and `VerifyMerkleProof` climbs back to the same root
(`merkleProof_complete`).

An index that is out of range would be a panic. It is `none` below, and it never happens.
-/

namespace NogoChain

variable (cr : Crypto)

/-! ## The constructions -/

structure MerkleProof where
  leaf : Bytes
  /-- its position -/
  index : Int
  /-- the sibling on each level, from below -/
  branch : List Bytes
  /-- whether it is the left one -/
  siblingLeft : List Bool
  root : Bytes
deriving DecidableEq, Repr

/-- The sibling of a node and whether it is the left one, as `BuildMerkleProof` and `GetProof`
find it. -/
def sibling (level : List Bytes) (idx : Nat) : Option (Bytes × Bool) :=
  if idx % 2 = 0 then
    if idx + 1 < level.length then level[idx + 1]?.map (·, false) else level[idx]?.map (·, false)
  else level[idx - 1]?.map (·, true)

/-- The loop of `BuildMerkleProof`, for at most so many levels: the siblings and the last
level. -/
def proofLoop : Nat → List Bytes → Nat → Option (List (Bytes × Bool) × List Bytes)
  | 0, level, _ => some ([], level)
  | n + 1, level, idx =>
    if level.length > 1 then do
      let (sib, sibIsLeft) ← sibling level idx
      let (steps, last) ← proofLoop n (nextLevel cr level) (idx / 2)
      some ((copy32 sib, sibIsLeft) :: steps, last)
    else some ([], level)

/-- The root that is copied from the last level, if that has a node. -/
def rootBytes (last : List Bytes) : Bytes := last.head?.elim [] copy32

def buildMerkleProof (leaves : List Bytes) (index : Int) : Except GoError (Option MerkleProof) :=
  if leaves = [] then .error (.new "empty leaves")
  else if index < 0 ∨ index ≥ leaves.length then .error (.new "index out of range")
  else if leaves.all (·.length == 32) then
    .ok do
      let leaf ← leaves[index.toNat]?
      let (steps, last) ← proofLoop cr leaves.length (leaves.map (hashLeaf cr)) index.toNat
      some ⟨copy32 leaf, index, steps.map (·.1), steps.map (·.2), rootBytes last⟩
  else .error (.new "leaf must be 32 bytes")

/-- The loop of `VerifyMerkleProof`. -/
def verifyLoop : Bytes → List (Bytes × Bool) → Except GoError Bytes
  | current, [] => .ok current
  | current, (sib, siblingLeft) :: steps =>
    if sib.length ≠ 32 then .error (.new "branch item must be 32 bytes")
    else verifyLoop (if siblingLeft then hashNode cr sib current else hashNode cr current sib) steps

def verifyMerkleProof (leaf : Bytes) (index : Int) (branch : List Bytes) (siblingLeft : List Bool)
    (expectedRoot : Bytes) : Except GoError Bool :=
  if leaf.length ≠ 32 then .error (.new "leaf must be 32 bytes")
  else if expectedRoot.length ≠ 32 then .error (.new "expected root must be 32 bytes")
  else if branch.length ≠ siblingLeft.length then .error (.new "branch/side length mismatch")
  else if index < 0 then .error (.new "index must be >= 0")
  else do
    let current ← verifyLoop cr (hashLeaf cr leaf) (branch.zip siblingLeft)
    return current == expectedRoot

/-- `MerkleTree`, when it has been built. -/
structure MerkleTree where
  leaves : List Bytes
  /-- all levels, from below -/
  levels : List (List Bytes)
  root : Bytes
deriving DecidableEq, Repr

/-- The levels of `MerkleTree.build`, at most so many above the first. -/
def buildLevels : Nat → List Bytes → List (List Bytes)
  | 0, level => [level]
  | n + 1, level =>
    if level.length > 1 then level :: buildLevels n (nextLevel cr level) else [level]

def newMerkleTree (leaves : List Bytes) : Except GoError MerkleTree :=
  if leaves = [] then .error (.new "empty leaves")
  else if leaves.all (·.length == 32) then
    let levels := buildLevels cr leaves.length (leaves.map (hashLeaf cr))
    .ok ⟨leaves.map copy32, levels, rootBytes (levels.getLastD [])⟩
  else .error (.new "leaf must be 32 bytes")

/-- The loop of `GetProof`, over the levels but the last. -/
def branchLoop : List (List Bytes) → Nat → Option (List (Bytes × Bool))
  | [], _ => some []
  | level :: levels, idx => do
    let (sib, sibIsLeft) ← sibling level idx
    let steps ← branchLoop levels (idx / 2)
    some ((copy32 sib, sibIsLeft) :: steps)

def MerkleTree.getRoot (t : MerkleTree) : Bytes := copy32 t.root

def MerkleTree.getProof (t : MerkleTree) (index : Int) : Except GoError (Option MerkleProof) :=
  if index < 0 ∨ index ≥ t.leaves.length then .error (.new "index out of range")
  else .ok do
    let leaf ← t.leaves[index.toNat]?
    let steps ← branchLoop t.levels.dropLast index.toNat
    some ⟨copy32 leaf, index, steps.map (·.1), steps.map (·.2), copy32 t.root⟩

/-! ## As trees built level by level -/

open LevelTree

variable {cr}

theorem copy32_of_length {b : Bytes} (h : b.length = 32) : copy32 b = b := by
  rw [copy32, List.take_append_of_le_length h.ge, List.take_of_length_le h.le]

theorem nextLevel_eq_up (level : List Bytes) : nextLevel cr level = up (hashNode cr) level := by
  fun_induction nextLevel cr level with
  | case1 => rfl
  | case2 x => rfl
  | case3 x y rest ih => rw [up, ih]

variable {level : List Bytes}

theorem rootOf_eq_root (d : Bytes) {n : Nat} (hpos : 0 < level.length)
    (hle : level.length ≤ n + 1) : rootOf cr n level = root (hashNode cr) d n level := by
  refine level_induction (hashNode cr)
    (P := fun n level => rootOf cr n level = root (hashNode cr) d n level) ?_ ?_ n level hpos hle
  · intro n x
    simp [rootOf, root]
  · intro n level htwo ih
    have hstep : rootOf cr (n + 1) level = rootOf cr n (nextLevel cr level) := by
      rw [rootOf]
      · rintro rfl
        simp at htwo
      · rintro x rfl
        simp at htwo
    rw [root_succ htwo, hstep, nextLevel_eq_up, ih]

theorem sibling_of_lt {idx : Nat} (h : idx < level.length) :
    ∃ s, level[siblingIndex level.length idx]? = some s
      ∧ sibling level idx = some (s, idx % 2 == 1) := by
  have hlt : siblingIndex level.length idx < level.length := by
    unfold siblingIndex
    split <;> omega
  refine ⟨level[siblingIndex level.length idx], List.getElem?_eq_getElem hlt, ?_⟩
  rw [sibling]
  split
  · next heven =>
    split
    · next hnext =>
      have hindex : siblingIndex level.length idx = idx + 1 := by
        rw [siblingIndex, if_pos heven]
        omega
      simp [hindex, hnext, heven]
    · next hlast =>
      have hindex : siblingIndex level.length idx = idx := by
        rw [siblingIndex, if_pos heven]
        omega
      simp [hindex, h, heven]
  · next hodd =>
    have hindex : siblingIndex level.length idx = idx - 1 := if_neg hodd
    have hone : idx % 2 = 1 := by omega
    simp [hindex, show idx - 1 < level.length by omega, hone]

/-- **What the loop of `BuildMerkleProof` finds**: siblings of 32 bytes that lead from the
node to the root. -/
theorem proofLoop_spec {n : Nat} (hpos : 0 < level.length)
    (hle : level.length ≤ n + 1) (h32 : ∀ x ∈ level, x.length = 32) {idx : Nat} {x : Bytes}
    (hx : level[idx]? = some x) :
    ∃ steps, proofLoop cr n level idx = some (steps, [rootOf cr n level])
      ∧ (∀ step ∈ steps, step.1.length = 32)
      ∧ climb (hashNode cr) x steps = rootOf cr n level := by
  rw [rootOf_eq_root [] hpos hle]
  refine level_induction (hashNode cr) (P := fun n level => (∀ x ∈ level, x.length = 32) →
    ∀ idx x, level[idx]? = some x → ∃ steps,
      proofLoop cr n level idx = some (steps, [root (hashNode cr) [] n level])
        ∧ (∀ step ∈ steps, step.1.length = 32)
        ∧ climb (hashNode cr) x steps = root (hashNode cr) [] n level)
    ?_ ?_ n level hpos hle h32 idx x hx
  · intro n y _ idx x hx
    obtain ⟨hidx, rfl⟩ := List.getElem?_eq_some_iff.mp hx
    refine ⟨[], ?_, nofun, ?_⟩
    · cases n <;> simp [proofLoop, root]
    · obtain rfl : idx = 0 := by simpa using hidx
      simp [climb, root]
  · intro n level htwo ih h32 idx x hx
    obtain ⟨hidx, -⟩ := List.getElem?_eq_some_iff.mp hx
    obtain ⟨s, hs, hsibling⟩ := sibling_of_lt hidx
    obtain ⟨steps, hloop, hsteps, hclimb⟩ := ih
      (fun y hy => nextLevel_mem_length y (by rwa [nextLevel_eq_up])) (idx / 2) _
      (getElem?_up_half hx hs)
    have hs32 : s.length = 32 := h32 s (List.mem_of_getElem? hs)
    refine ⟨(s, idx % 2 == 1) :: steps, ?_, ?_, ?_⟩
    · rw [proofLoop, if_pos (show level.length > 1 from htwo), hsibling, nextLevel_eq_up,
        root_succ htwo]
      simp [hloop, copy32_of_length hs32]
    · intro step hstep
      rcases List.mem_cons.mp hstep with rfl | hstep
      · exact hs32
      · exact hsteps step hstep
    · rw [root_succ htwo, ← hclimb]
      rfl

theorem buildLevels_ne_nil (cr : Crypto) (n : Nat) (level : List Bytes) :
    buildLevels cr n level ≠ [] := by
  cases n with
  | zero => exact List.cons_ne_nil _ _
  | succ n =>
    rw [buildLevels]
    split <;> exact List.cons_ne_nil _ _

/-- The levels that are kept give the siblings that were found on the way. -/
theorem proofLoop_eq_branchLoop (n : Nat) (level : List Bytes) (idx : Nat) :
    proofLoop cr n level idx = (branchLoop (buildLevels cr n level).dropLast idx).map
      fun steps => (steps, (buildLevels cr n level).getLastD []) := by
  induction n generalizing level idx with
  | zero => rfl
  | succ n ih =>
    rw [proofLoop, buildLevels]
    split
    · obtain ⟨first, rest, hlevels⟩ := List.exists_cons_of_ne_nil
        (buildLevels_ne_nil cr n (nextLevel cr level))
      rw [hlevels, List.dropLast_cons_cons, branchLoop]
      cases sibling level idx with
      | none => rfl
      | some step =>
        simp only [ih, hlevels, Option.bind_eq_bind, Option.bind_some, List.getLastD_cons]
        cases branchLoop (first :: rest).dropLast (idx / 2) <;> rfl
    · rfl

/-- The loop of the verifier climbs. -/
theorem verifyLoop_eq_ok {current result : Bytes} {steps : List (Bytes × Bool)} :
    verifyLoop cr current steps = .ok result
      ↔ (∀ step ∈ steps, step.1.length = 32) ∧ climb (hashNode cr) current steps = result := by
  induction steps generalizing current with
  | nil => simp [verifyLoop, climb]
  | cons step steps ih =>
    obtain ⟨sib, left⟩ := step
    rw [verifyLoop]
    split
    · next h => exact iff_of_false (by simp) fun hall => h (hall.1 _ List.mem_cons_self)
    · next h =>
      rw [ih, List.forall_mem_cons, and_iff_right (not_not.mp h)]
      rfl

/-- **What the verifier accepts.** -/
theorem verifyMerkleProof_eq_true {leaf root : Bytes} {index : Int} {branch : List Bytes}
    {siblingLeft : List Bool} :
    verifyMerkleProof cr leaf index branch siblingLeft root = .ok true
      ↔ leaf.length = 32 ∧ root.length = 32 ∧ branch.length = siblingLeft.length ∧ 0 ≤ index
        ∧ (∀ step ∈ branch.zip siblingLeft, step.1.length = 32)
        ∧ climb (hashNode cr) (hashLeaf cr leaf) (branch.zip siblingLeft) = root := by
  unfold verifyMerkleProof
  split
  · next h => exact iff_of_false nofun fun hall => h hall.1
  · next hleaf =>
    split
    · next h => exact iff_of_false nofun fun hall => h hall.2.1
    · next hroot =>
      split
      · next h => exact iff_of_false nofun fun hall => h hall.2.2.1
      · next hlength =>
        split
        · next h => exact iff_of_false nofun fun hall => absurd hall.2.2.2.1 (not_le.mpr h)
        · next hindex =>
          rw [and_iff_right (not_not.mp hleaf), and_iff_right (not_not.mp hroot),
            and_iff_right (not_not.mp hlength), and_iff_right (not_lt.mp hindex),
            ← verifyLoop_eq_ok]
          cases verifyLoop cr (hashLeaf cr leaf) (branch.zip siblingLeft) with
          | error e => exact iff_of_false nofun nofun
          | ok current =>
            show Except.ok (current == root) = Except.ok true ↔ _
            simp

/-! ## Completeness -/

theorem merkleRoot_of_lengths (cr : Crypto) {leaves : List Bytes} (hne : leaves ≠ [])
    (h32 : ∀ leaf ∈ leaves, leaf.length = 32) :
    merkleRoot cr leaves = .ok (rootOf cr leaves.length (leaves.map (hashLeaf cr))) := by
  rw [merkleRoot, if_neg hne,
    if_pos (List.all_eq_true.mpr fun leaf h => beq_iff_eq.mpr (h32 leaf h))]

/-- **Merkle proofs are complete.** For leaves of 32 bytes and an index in range
`BuildMerkleProof` succeeds with the root of the list, the verifier accepts the leaf with the
proof, and the tree over the same leaves has the same root and gives the same proof. -/
theorem merkleProof_complete (cr : Crypto) (leaves : List Bytes) (index : Int) (hne : leaves ≠ [])
    (h32 : ∀ leaf ∈ leaves, leaf.length = 32) (hlow : 0 ≤ index) (hhigh : index < leaves.length) :
    ∃ proof leaf, leaves[index.toNat]? = some leaf
      ∧ buildMerkleProof cr leaves index = .ok (some proof)
      ∧ proof.leaf = leaf ∧ proof.index = index
      ∧ merkleRoot cr leaves = .ok proof.root
      ∧ verifyMerkleProof cr leaf index proof.branch proof.siblingLeft proof.root = .ok true
      ∧ ∃ tree, newMerkleTree cr leaves = .ok tree ∧ tree.getRoot = proof.root
        ∧ tree.getProof index = .ok (some proof) := by
  have hidx : index.toNat < leaves.length := by omega
  have hrange : ¬ (index < 0 ∨ index ≥ leaves.length) := by omega
  have hall : leaves.all (·.length == 32) = true :=
    List.all_eq_true.mpr fun leaf h => beq_iff_eq.mpr (h32 leaf h)
  have hleaf32 : leaves[index.toNat].length = 32 := h32 _ (List.getElem_mem hidx)
  have hroot := merkleRoot_of_lengths cr hne h32
  have hroot32 := merkleRoot_length hroot
  have hcopy : leaves.map copy32 = leaves := by
    rw [← List.map_id leaves, List.map_map]
    exact List.map_congr_left fun leaf h => copy32_of_length (h32 leaf h)
  have hlevel32 : ∀ x ∈ leaves.map (hashLeaf cr), x.length = 32 := by
    intro x hx
    obtain ⟨leaf, -, rfl⟩ := List.mem_map.mp hx
    exact cr.sha256_length _
  have hlevel : (leaves.map (hashLeaf cr))[index.toNat]?
      = some (hashLeaf cr leaves[index.toNat]) := by
    simp [hidx]
  obtain ⟨steps, hloop, hsteps, hclimb⟩ := proofLoop_spec (n := leaves.length)
    (by simpa using List.length_pos_iff.mpr hne) (by simp) hlevel32 hlevel
  obtain ⟨hbranch, hlast⟩ : branchLoop
      (buildLevels cr leaves.length (leaves.map (hashLeaf cr))).dropLast index.toNat = some steps
        ∧ (buildLevels cr leaves.length (leaves.map (hashLeaf cr))).getLastD []
          = [rootOf cr leaves.length (leaves.map (hashLeaf cr))] := by
    rw [proofLoop_eq_branchLoop, Option.map_eq_some_iff] at hloop
    obtain ⟨_, hbranch, heq⟩ := hloop
    obtain ⟨rfl, hlast⟩ := Prod.mk.inj heq
    exact ⟨hbranch, hlast⟩
  have hzip : (steps.map (·.1)).zip (steps.map (·.2)) = steps := by
    rw [List.zip_map']
    exact List.map_id steps
  refine ⟨⟨leaves[index.toNat], index, steps.map (·.1), steps.map (·.2),
    rootOf cr leaves.length (leaves.map (hashLeaf cr))⟩, leaves[index.toNat],
    List.getElem?_eq_getElem hidx, ?_, rfl, rfl, hroot, ?_, ?_⟩
  · rw [buildMerkleProof, if_neg hne, if_neg hrange, if_pos hall,
      List.getElem?_eq_getElem hidx, hloop]
    simp [rootBytes, copy32_of_length hleaf32, copy32_of_length hroot32]
  · refine verifyMerkleProof_eq_true.mpr ⟨hleaf32, hroot32, by simp, hlow, ?_, ?_⟩
    · rwa [hzip]
    · rwa [hzip]
  · refine ⟨⟨leaves.map copy32, buildLevels cr leaves.length (leaves.map (hashLeaf cr)),
      rootOf cr leaves.length (leaves.map (hashLeaf cr))⟩, ?_, ?_, ?_⟩
    · rw [newMerkleTree, if_neg hne, if_pos hall]
      dsimp only
      rw [hlast]
      simp [rootBytes, copy32_of_length hroot32]
    · exact copy32_of_length hroot32
    · rw [MerkleTree.getProof, hcopy, if_neg hrange, List.getElem?_eq_getElem hidx, hbranch]
      simp [copy32_of_length hleaf32, copy32_of_length hroot32]

/-- A leaf of 32 equal bytes. -/
def evenLeaf (b : UInt8) : Bytes := List.replicate 32 b

/-- The last of three leaves, which has no neighbour. -/
theorem merkleProof_complete_three :
    ∃ proof leaf, [evenLeaf 1, evenLeaf 2, evenLeaf 3][(2 : Int).toNat]? = some leaf
      ∧ buildMerkleProof Crypto.constant [evenLeaf 1, evenLeaf 2, evenLeaf 3] 2 = .ok (some proof)
      ∧ proof.leaf = leaf ∧ proof.index = 2
      ∧ merkleRoot Crypto.constant [evenLeaf 1, evenLeaf 2, evenLeaf 3] = .ok proof.root
      ∧ verifyMerkleProof Crypto.constant leaf 2 proof.branch proof.siblingLeft proof.root
        = .ok true
      ∧ ∃ tree, newMerkleTree Crypto.constant [evenLeaf 1, evenLeaf 2, evenLeaf 3] = .ok tree
        ∧ tree.getRoot = proof.root ∧ tree.getProof 2 = .ok (some proof) :=
  merkleProof_complete Crypto.constant [evenLeaf 1, evenLeaf 2, evenLeaf 3] 2 (by decide)
    (by decide)
    (by decide) (by decide)

end NogoChain
