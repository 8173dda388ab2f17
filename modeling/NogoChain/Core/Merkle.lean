import NogoChain.Core.Encoding
import NogoChain.Lib.Prog

/-!
# Merkle roots

Leaves and inner nodes are hashed with different prefixes; a level of odd length pairs its
last node with itself.
-/

namespace NogoChain

variable (cr : Crypto)

def hashLeaf (leaf : Bytes) : Bytes := cr.sha256 (0 :: leaf)

def hashNode (left right : Bytes) : Bytes := cr.sha256 (1 :: left ++ right)

/-- One level up. -/
def nextLevel : List Bytes → List Bytes
  | [] => []
  | [x] => [hashNode cr x x]
  | x :: y :: rest => hashNode cr x y :: nextLevel rest

/-- The loop of `ComputeMerkleRoot`, for at most so many levels. -/
def rootOf : Nat → List Bytes → Bytes
  | _, [] => []
  | _, [x] => x
  | 0, x :: _ => x
  | n + 1, level => rootOf n (nextLevel cr level)

def merkleRoot (leaves : List Bytes) : Except GoError Bytes :=
  if leaves = [] then .error (.new "empty leaves")
  else if leaves.all (·.length == 32) then .ok (rootOf cr leaves.length (leaves.map (hashLeaf cr)))
  else .error (.new "leaf must be 32 bytes")

/-- `MerkleRootV2ForConsensus`: the root of the signing hashes of a block's transactions. -/
def Block.merkleRootV2ForConsensus (p : ConsensusParams) (b : Block) : Except GoError Bytes := do
  let leaves ← b.transactions.mapM fun tx => txSigningHashForConsensus cr tx p b.height
  merkleRoot cr leaves

variable {cr} {p : ConsensusParams}

theorem nextLevel_mem_length : ∀ {level : List Bytes}, ∀ x ∈ nextLevel cr level, x.length = 32
  | [], _, h => nomatch h
  | [y], x, h => by
    rw [nextLevel, List.mem_singleton] at h
    exact h ▸ cr.sha256_length _
  | y :: z :: rest, x, h => by
    rw [nextLevel, List.mem_cons] at h
    rcases h with rfl | h
    · exact cr.sha256_length _
    · exact nextLevel_mem_length x h

/-- A root has the length of a hash. -/
theorem rootOf_length : ∀ (n : Nat) {level : List Bytes}, level ≠ [] →
    (∀ x ∈ level, x.length = 32) → (rootOf cr n level).length = 32
  | _, [], hne, _ => absurd rfl hne
  | n, [x], _, h => by
    rw [rootOf]
    exact h x List.mem_cons_self
  | 0, x :: y :: rest, _, h => by
    rw [rootOf]
    · exact h x List.mem_cons_self
    · exact nofun
  | n + 1, x :: y :: rest, _, _ => by
    exact rootOf_length n (List.cons_ne_nil _ _) nextLevel_mem_length

theorem merkleRoot_length {leaves : List Bytes} {root : Bytes}
    (h : merkleRoot cr leaves = .ok root) : root.length = 32 := by
  unfold merkleRoot at h
  split at h
  · cases h
  · next hne =>
    split at h
    · rw [← Except.ok.inj h]
      refine rootOf_length _ (fun hnil => hne (List.map_eq_nil_iff.mp hnil)) ?_
      intro x hx
      obtain ⟨leaf, -, rfl⟩ := List.mem_map.mp hx
      exact cr.sha256_length _
    · cases h

theorem signingHash_length {height : UInt64} {tx : Transaction} {h : Bytes}
    (hhash : txSigningHashForConsensus cr tx p height = .ok h) : h.length = 32 := by
  unfold txSigningHashForConsensus at hhash
  split at hhash
  · unfold txSigningHashBinaryV1 at hhash
    split at hhash
    · cases hhash
    · exact Except.ok.inj hhash ▸ cr.sha256_length _
  · obtain ⟨text, rfl⟩ := exists_of_signingHashLegacyJSON cr hhash
    exact cr.sha256_length text

/-- **The signing hashes of some transactions have a root**: their number and lengths are
what `MerkleRoot` asks for. -/
theorem exists_merkleRoot {height : UInt64} {txs : List Transaction}
    (hne : txs ≠ []) {leaves : List Bytes}
    (h : txs.mapM (fun tx => txSigningHashForConsensus cr tx p height) = .ok leaves) :
    ∃ root, merkleRoot cr leaves = .ok root := by
  have hleaves : leaves ≠ [] := by
    rintro rfl
    exact hne (List.forall₂_nil_right_iff.mp (Except.mapM_eq_ok.mp h))
  have hlengths : leaves.all (·.length == 32) = true := by
    rw [List.all_eq_true]
    exact Except.forall_mem_of_mapM (fun _ _ hhash => beq_iff_eq.mpr (signingHash_length hhash)) h
  rw [merkleRoot, if_neg hleaves, if_pos hlengths]
  exact ⟨_, rfl⟩

end NogoChain
