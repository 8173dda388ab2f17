import NogoChain.Core.MerkleProof

/-!
# What a Merkle root binds

Collisions are excluded among the strings that are really hashed, and nowhere else: no function
into 32 bytes is injective on all strings. Then an accepted proof has come up through the tree
over the leaves, to the position that its *sides* name; the index, which `VerifyMerkleProof`
only compares with 0, says nothing. And the root determines the leaves up to the node that a
level of odd length pairs with itself.
-/

namespace NogoChain

open LevelTree

variable (cr : Crypto)

/-! ## The strings that are hashed -/

/-- For one level. -/
def levelInputs : List Bytes → List Bytes
  | [] => []
  | [x] => [1 :: x ++ x]
  | x :: y :: rest => (1 :: x ++ y) :: levelInputs rest

/-- For the levels above a level, at most so many. -/
def treeInputs : Nat → List Bytes → List Bytes
  | 0, _ => []
  | n + 1, level =>
    if level.length > 1 then levelInputs level ++ treeInputs n (nextLevel cr level) else []

/-- For `ComputeMerkleRoot`. -/
def rootInputs (leaves : List Bytes) : List Bytes :=
  leaves.map (0 :: ·) ++ treeInputs cr leaves.length (leaves.map (hashLeaf cr))

/-- For the loop of `VerifyMerkleProof`. -/
def climbInputs : Bytes → List (Bytes × Bool) → List Bytes
  | _, [] => []
  | current, step :: steps =>
    (if step.2 then 1 :: step.1 ++ current else 1 :: current ++ step.1)
      :: climbInputs (combine (hashNode cr) current step) steps

/-- For `VerifyMerkleProof`. -/
def proofInputs (leaf : Bytes) (branch : List Bytes) (siblingLeft : List Bool) : List Bytes :=
  (0 :: leaf) :: climbInputs cr (hashLeaf cr leaf) (branch.zip siblingLeft)

/-- **No two of the strings collide.** -/
def NoCollision (inputs : List Bytes) : Prop :=
  ∀ x ∈ inputs, ∀ y ∈ inputs, cr.sha256 x = cr.sha256 y → x = y

instance (inputs : List Bytes) : Decidable (NoCollision cr inputs) := List.decidableBAll _ _

variable {cr} {leaves : List Bytes}

section Collisions

variable {S : List Bytes}

/-- A pair of hashes that is hashed. -/
def HashesPair (S : List Bytes) (a b : Bytes) : Prop :=
  a.length = 32 ∧ b.length = 32 ∧ 1 :: a ++ b ∈ S

theorem NoCollision.collisionFree (h : NoCollision cr S) :
    CollisionFree (hashLeaf cr) (hashNode cr) (fun x => 0 :: x ∈ S) (HashesPair S) where
  leaf_inj hx hy heq := (List.cons.inj (h _ hx _ hy heq)).2
  node_inj := by
    intro a b c d hab hcd heq
    have hstrings := (List.cons.inj (h _ hab.2.2 _ hcd.2.2 heq)).2
    exact List.append_inj hstrings (hab.1.trans hcd.1.symm)
  leaf_ne_node hx hab heq :=
    absurd (List.cons.inj (h _ hx _ hab.2.2 heq)).1 (by decide)

/-- The hash of the tree over the leaves is the root. -/
theorem digest_treeOf (hne : leaves ≠ []) : (treeOf [] leaves).digest (hashLeaf cr) (hashNode cr)
      = rootOf cr leaves.length (leaves.map (hashLeaf cr)) := by
  have hpos : 0 < leaves.length := List.length_pos_iff.mpr hne
  rw [rootOf_eq_root (hashLeaf cr []) (by simpa using hpos) (by simp), treeOf,
    map_root (f := PairTree.digest (hashLeaf cr) (hashNode cr)) fun _ _ => rfl, List.map_map]
  rfl

theorem digest_length (t : PairTree Bytes) :
    (t.digest (hashLeaf cr) (hashNode cr)).length = 32 := by
  cases t with
  | leaf x | node left right => exact cr.sha256_length _

/-- What is hashed for a level hashes the trees of the next. -/
theorem hashed_up {level : List (PairTree Bytes)}
    (h : ∀ t ∈ level, t.Hashed (hashLeaf cr) (hashNode cr) (fun x => 0 :: x ∈ S) (HashesPair S))
    (hS : levelInputs (level.map (PairTree.digest (hashLeaf cr) (hashNode cr))) ⊆ S) :
    ∀ t ∈ up PairTree.node level,
      t.Hashed (hashLeaf cr) (hashNode cr) (fun x => 0 :: x ∈ S) (HashesPair S) := by
  fun_induction up PairTree.node level with
  | case1 => simp
  | case2 x =>
    have hx := h x List.mem_cons_self
    rw [List.forall_mem_singleton]
    exact .node hx hx ⟨digest_length x, digest_length x, hS List.mem_cons_self⟩
  | case3 x y rest ih =>
    obtain ⟨hx, h⟩ := List.forall_mem_cons.mp h
    obtain ⟨hy, h⟩ := List.forall_mem_cons.mp h
    refine List.forall_mem_cons.mpr ⟨.node hx hy ⟨digest_length x, digest_length y, ?_⟩, ?_⟩
    · exact hS List.mem_cons_self
    · exact ih h fun z hz => hS (List.mem_cons_of_mem _ hz)

/-- What is hashed for the root hashes the tree. -/
theorem hashed_treeOf (hne : leaves ≠ []) (hS : rootInputs cr leaves ⊆ S) :
    (treeOf [] leaves).Hashed (hashLeaf cr) (hashNode cr) (fun x => 0 :: x ∈ S) (HashesPair S) := by
  have hpos : 0 < leaves.length := List.length_pos_iff.mpr hne
  obtain ⟨hleaves, htree⟩ := List.append_subset.mp hS
  refine level_induction PairTree.node (P := fun n level =>
    (∀ t ∈ level, t.Hashed (hashLeaf cr) (hashNode cr) (fun x => 0 :: x ∈ S) (HashesPair S)) →
    treeInputs cr n (level.map (PairTree.digest (hashLeaf cr) (hashNode cr))) ⊆ S →
    (root PairTree.node (.leaf []) n level).Hashed (hashLeaf cr) (hashNode cr) (fun x => 0 :: x ∈ S)
      (HashesPair S)) ?_ ?_ leaves.length (leaves.map PairTree.leaf) (by simpa using hpos)
        (by simp) ?_ ?_
  · intro n x h _
    simpa [root] using h x List.mem_cons_self
  · intro n level htwo ih h htree
    have hnode : ∀ s t, (PairTree.node s t).digest (hashLeaf cr) (hashNode cr)
        = hashNode cr (s.digest (hashLeaf cr) (hashNode cr))
          (t.digest (hashLeaf cr) (hashNode cr)) :=
      fun _ _ => rfl
    rw [treeInputs, if_pos (by rwa [List.length_map]), nextLevel_eq_up, ← map_up hnode] at htree
    obtain ⟨hlevel, hrest⟩ := List.append_subset.mp htree
    rw [root_succ htwo]
    exact ih (hashed_up h hlevel) hrest
  · intro t ht
    obtain ⟨x, hx, rfl⟩ := List.mem_map.mp ht
    exact .leaf (hleaves (List.mem_map_of_mem hx))
  · rwa [List.map_map]

theorem climbs_of_inputs {current : Bytes} {steps : List (Bytes × Bool)}
    (hlength : current.length = 32) (h32 : ∀ step ∈ steps, step.1.length = 32)
    (hS : climbInputs cr current steps ⊆ S) :
    Climbs (hashNode cr) (HashesPair S) current steps := by
  induction steps generalizing current with
  | nil => trivial
  | cons step steps ih =>
    obtain ⟨sib, left⟩ := step
    obtain ⟨hsib, hsteps⟩ := List.forall_mem_cons.mp h32
    obtain ⟨hfirst, hrest⟩ := List.cons_subset.mp hS
    cases left with
    | false => exact ⟨⟨hlength, hsib, hfirst⟩, ih (cr.sha256_length _) hsteps hrest⟩
    | true => exact ⟨⟨hsib, hlength, hfirst⟩, ih (cr.sha256_length _) hsteps hrest⟩

end Collisions

/-! ## Proofs -/

theorem merkleRoot_eq_ok {root : Bytes} (h : merkleRoot cr leaves = .ok root) :
    leaves ≠ [] ∧ root = rootOf cr leaves.length (leaves.map (hashLeaf cr)) := by
  unfold merkleRoot at h
  split_ifs at h with hnil
  exact ⟨hnil, (Except.ok.inj h).symm⟩

/-- **An accepted proof is one for the position that its sides name.** -/
theorem leaf_of_verified {branch : List Bytes} {root leaf : Bytes} {index : Int}
    {siblingLeft : List Bool} (hroot : merkleRoot cr leaves = .ok root)
    (hfree : NoCollision cr (rootInputs cr leaves ++ proofInputs cr leaf branch siblingLeft))
    (haccepted : verifyMerkleProof cr leaf index branch siblingLeft root = .ok true) :
    leaves[position leaves.length siblingLeft]? = some leaf := by
  obtain ⟨hne, rfl⟩ := merkleRoot_eq_ok hroot
  obtain ⟨-, -, hsides, -, h32, hclimb⟩ := verifyMerkleProof_eq_true.mp haccepted
  have hpos : 0 < leaves.length := List.length_pos_iff.mpr hne
  have hmap : (branch.zip siblingLeft).map Prod.snd = siblingLeft :=
    List.map_snd_zip hsides.ge
  rw [← digest_treeOf hne] at hclimb
  have hdescend := descend_of_climb hfree.collisionFree (List.mem_append_right _ List.mem_cons_self)
    (climbs_of_inputs (cr.sha256_length _) h32 fun x hx =>
      List.mem_append_right _ (List.mem_cons_of_mem _ hx))
    (hashed_treeOf hne (List.subset_append_left _ _)) hclimb
  rw [hmap] at hdescend
  have hdepth := (perfect_treeOf hpos).length_of_descend hdescend
  rw [descend_treeOf hpos (by rwa [List.length_reverse] at hdepth),
    Option.map_eq_some_iff] at hdescend
  obtain ⟨x, hx, heq⟩ := hdescend
  rwa [← PairTree.leaf.inj heq]

/-- **When an accepted proof is sound for its index**: exactly if the leaf there is the one at
the position that the sides name. -/
theorem verified_index_sound_iff (cr : Crypto) (leaves : List Bytes) (root leaf : Bytes)
    (index : Int)
    (branch : List Bytes) (siblingLeft : List Bool) (hroot : merkleRoot cr leaves = .ok root)
    (hfree : NoCollision cr (rootInputs cr leaves ++ proofInputs cr leaf branch siblingLeft))
    (haccepted : verifyMerkleProof cr leaf index branch siblingLeft root = .ok true) :
    (0 ≤ index ∧ index < leaves.length ∧ leaves[index.toNat]? = some leaf)
      ↔ leaves[index.toNat]? = leaves[position leaves.length siblingLeft]? := by
  have hindex := (verifyMerkleProof_eq_true.mp haccepted).2.2.2.1
  rw [leaf_of_verified hroot hfree haccepted, and_iff_right hindex, and_iff_right_iff_imp]
  intro hleaf
  obtain ⟨hlt, -⟩ := List.getElem?_eq_some_iff.mp hleaf
  omega

/-- Digests that are the value of the string in base 257, modulo a number of 256 bits. -/
def Crypto.polynomial : Crypto :=
  { Crypto.constant with
    sha256 := fun x => bigEndian 32
      (x.foldl (fun h b => (h * 257 + b.toNat + 1) % (2 ^ 256 - 189)) 0)
    sha256_length := fun _ => bigEndian_length _ _ }

/-- The proof of the second of three leaves, with its index. -/
theorem verified_index_sound_iff_second : (0 ≤ (1 : Int) ∧ (1 : Int) < 3
        ∧ [evenLeaf 1, evenLeaf 2, evenLeaf 3][(1 : Int).toNat]? = some (evenLeaf 2)) :=
  (verified_index_sound_iff Crypto.polynomial [evenLeaf 1, evenLeaf 2, evenLeaf 3]
    ((merkleRoot Crypto.polynomial [evenLeaf 1, evenLeaf 2, evenLeaf 3]).toOption.getD [])
    (evenLeaf 2) 1
    [hashLeaf .polynomial (evenLeaf 1), hashNode .polynomial (hashLeaf .polynomial (evenLeaf 3))
      (hashLeaf .polynomial (evenLeaf 3))] [true, false]
    (by decide +kernel) (by decide +kernel) (by decide +kernel)).mpr (by decide)

/-- **The index is not looked at**: the proof of the first of two leaves is accepted with the
index of the second, and with one that is out of range. -/
theorem wrong_index_accepted :
    let leaves := [evenLeaf 1, evenLeaf 2]
    let branch := [hashLeaf Crypto.polynomial (evenLeaf 2)]
    let root := hashNode Crypto.polynomial (hashLeaf .polynomial (evenLeaf 1))
      (hashLeaf .polynomial (evenLeaf 2))
    merkleRoot Crypto.polynomial leaves = .ok root
      ∧ NoCollision Crypto.polynomial (rootInputs Crypto.polynomial leaves
        ++ proofInputs Crypto.polynomial (evenLeaf 1) branch [false])
      ∧ verifyMerkleProof Crypto.polynomial (evenLeaf 1) 1 branch [false] root = .ok true
      ∧ leaves[1]? ≠ some (evenLeaf 1)
      ∧ verifyMerkleProof Crypto.polynomial (evenLeaf 1) 7 branch [false] root = .ok true
      ∧ leaves[7]? = none := by
  decide +kernel

/-! ## Roots -/

/-- **The root determines the leaves** of lists of one length, and of lists without
repetitions. -/
theorem merkleRoot_determines_leaves (cr : Crypto) (l l' : List Bytes) (root : Bytes)
    (hroot : merkleRoot cr l = .ok root) (hroot' : merkleRoot cr l' = .ok root)
    (hfree : NoCollision cr (rootInputs cr l ++ rootInputs cr l'))
    (h : l.length = l'.length ∨ (l.Nodup ∧ l'.Nodup)) : l = l' := by
  obtain ⟨hne, rfl⟩ := merkleRoot_eq_ok hroot
  obtain ⟨hne', heq⟩ := merkleRoot_eq_ok hroot'
  have htree : treeOf [] l = treeOf [] l' := by
    refine digest_inj hfree.collisionFree (hashed_treeOf hne (List.subset_append_left _ _))
      (hashed_treeOf hne' (List.subset_append_right _ _)) ?_
    rw [digest_treeOf hne, digest_treeOf hne', heq]
  have hpos : 0 < l.length := List.length_pos_iff.mpr hne
  rcases h with hlength | ⟨hnodup, hnodup'⟩
  · exact eq_of_treeOf_eq_of_length hpos hlength htree
  · exact eq_of_treeOf_eq_of_nodup hpos (List.length_pos_iff.mpr hne') hnodup hnodup' htree

/-- One list of three leaves, twice. -/
theorem merkleRoot_determines_leaves_three :
    [evenLeaf 1, evenLeaf 2, evenLeaf 3] = [evenLeaf 1, evenLeaf 2, evenLeaf 3] :=
  merkleRoot_determines_leaves Crypto.polynomial [evenLeaf 1, evenLeaf 2, evenLeaf 3]
    [evenLeaf 1, evenLeaf 2, evenLeaf 3]
    ((merkleRoot Crypto.polynomial [evenLeaf 1, evenLeaf 2, evenLeaf 3]).toOption.getD [])
    (by decide +kernel) (by decide +kernel) (by decide +kernel) (.inl rfl)

/-- **A leaf can be doubled under the same root.** -/
theorem doubled_leaf_same_root :
    let l := [evenLeaf 1, evenLeaf 2, evenLeaf 3]
    let l' := [evenLeaf 1, evenLeaf 2, evenLeaf 3, evenLeaf 3]
    NoCollision Crypto.polynomial (rootInputs Crypto.polynomial l
      ++ rootInputs Crypto.polynomial l')
      ∧ merkleRoot Crypto.polynomial l = merkleRoot Crypto.polynomial l'
      ∧ (merkleRoot Crypto.polynomial l).toOption ≠ none ∧ l ≠ l' := by
  decide +kernel

end NogoChain
