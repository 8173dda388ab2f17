import NogoChain.Core.Types
import NogoChain.Lib.LevelTree

/-!
# The proofs of the light client

`NewSPVMerkleTree` goes up the levels and keeps the last of them, which is the root alone.
`GetProof` looks for the transaction among these nodes: it does not find it, unless its id is the
root. Then the proof is empty, and that is refused by `VerifyMerkleProof`. So no proof that the
light client gives verifies (`spvProof_refused`).
-/

namespace NogoChain.Vm

open LevelTree

section Source

variable (cr : Crypto)

def hashPair (a b : Bytes) : Bytes := Hex.encodeToString (cr.sha256 (a ++ b))

/-- The levels of `NewSPVMerkleTree`, for at most so many rounds of its loop. -/
def lastLevel : Nat → List Bytes → List Bytes
  | 0, nodes => nodes
  | n + 1, nodes => if nodes.length > 1 then lastLevel n (up (hashPair cr) nodes) else nodes

structure SPVMerkleTree where
  nodes : List Bytes

-- a round leaves fewer nodes, so that there are no more rounds than nodes
def newSPVMerkleTree (txHashes : List Bytes) : SPVMerkleTree :=
  ⟨lastLevel cr txHashes.length txHashes⟩

def SPVMerkleTree.getRoot (mt : SPVMerkleTree) : Bytes := mt.nodes.headD []

/-- The siblings that `GetProof` collects, for at most so many rounds of its loop. -/
def siblings : Nat → List Bytes → Nat → List Bytes
  | 0, _, _ => []
  | n + 1, level, targetIdx =>
    if level.length > 1 then
      let even := if level.length % 2 ≠ 0 then level ++ level.getLast?.toList else level
      even[targetIdx ^^^ 1]?.toList ++ siblings n (up (hashPair cr) level) (targetIdx / 2)
    else []

def SPVMerkleTree.getProof (mt : SPVMerkleTree) (txHash : Bytes) : Except GoError (List Bytes) :=
  match mt.nodes.findIdx? (· == txHash) with
  | none => .error (.new "transaction not found in merkle tree")
  | some idx => .ok (siblings cr mt.nodes.length mt.nodes idx)

def verifyMerkleProof (proof : List Bytes) (txHash merkleRoot : Bytes) : Bool :=
  proof.length ≠ 0 && proof.foldl (hashPair cr) txHash == merkleRoot

end Source

variable {cr : Crypto}

/-- **One node is left in the end**, or there was none. -/
theorem length_lastLevel (n : Nat) (nodes : List Bytes) (h : nodes.length ≤ n + 1) :
    (lastLevel cr n nodes).length ≤ 1 := by
  induction n generalizing nodes with
  | zero => exact h
  | succ n ih =>
    unfold lastLevel
    split
    · refine ih _ ?_
      rw [length_up]
      omega
    · omega

/-- With one node there is no sibling. -/
theorem siblings_of_length_le {level : List Bytes} (h : level.length ≤ 1) (n idx : Nat) :
    siblings cr n level idx = [] := by
  cases n with
  | zero => rfl
  | succ n => rw [siblings, if_neg (by omega)]

/-- **No proof of the light client verifies**, whatever the list and the transaction. -/
theorem spvProof_refused (cr : Crypto) (txHashes : List Bytes) (txHash : Bytes) :
    ¬∃ proof, (newSPVMerkleTree cr txHashes).getProof cr txHash = .ok proof
      ∧ verifyMerkleProof cr proof txHash (newSPVMerkleTree cr txHashes).getRoot = true := by
  rintro ⟨proof, hproof, hverify⟩
  have hone := @length_lastLevel cr txHashes.length txHashes (Nat.le_succ _)
  unfold SPVMerkleTree.getProof at hproof
  split at hproof
  · cases hproof
  · cases hproof
    rw [newSPVMerkleTree, siblings_of_length_le hone] at hverify
    cases hverify

/-- The first of two transactions is not found in their tree. -/
theorem spvProof_not_found :
    (newSPVMerkleTree Crypto.constant [[1], [2]]).getProof Crypto.constant [1]
      = .error (.new "transaction not found in merkle tree") := by
  decide

end NogoChain.Vm
