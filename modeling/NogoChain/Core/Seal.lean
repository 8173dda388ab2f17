import NogoChain.Core.Ledger

/-!
# The proof-of-work seal

`verifyBlockPoWSeal` rebuilds the header the miner worked on from a block and its parent,
hashes it with Keccak-256 and compares the matrix function of that hash with the target of
the difficulty. The block's own `Hash` field takes no part in it.
-/

namespace NogoChain

variable (cr : Crypto)

/-- `copy(dst[:], src)` into a zeroed array of 32 bytes. -/
def copy32 (src : Bytes) : Bytes := (src ++ List.replicate 32 0).take 32

/-- The bytes of a `big.Int` that holds a 64-bit magnitude: big-endian, no leading zeros. -/
def bigBytes (n : Nat) : Bytes := (bigEndian 8 n).dropWhile (· == 0)

/-- The magnitude of `int64(height)`. -/
def int64Magnitude (height : UInt64) : Nat :=
  if height.toNat < 2 ^ 63 then height.toNat else 2 ^ 64 - height.toNat

/-- `rlpEncode` of the header `verifyBlockPoWSeal` builds: parent hash, coinbase address,
state root, transaction root, number, gas limit, time, nonce, difficulty. -/
def sealHeaderBytes (block : Block) (parentHash : Bytes) (coinbase : Bytes) : Bytes :=
  copy32 parentHash ++ coinbase
    ++ (if block.header.stateRoot.length = 32 then block.header.stateRoot
        else List.replicate 32 0)
    ++ copy32 (sliceBytes block.header.merkleRoot)
    ++ bigBytes (int64Magnitude block.height)
    ++ List.replicate 8 0
    ++ bigEndian 8 block.header.timestampUnix.toUInt64.toNat
    ++ copy32 (littleEndian 8 block.header.nonce.toNat)
    ++ bigBytes block.header.difficultyBits.toNat

/-- The Keccak seal hash of a block on a parent. -/
def sealHash (block parent : Block) : Except GoError Bytes :=
  match stringToAddress block.minerAddress with
  | .error e => .error (.wrap "invalid miner address for PoW seal: %w" [] e)
  | .ok coinbase => .ok (cr.keccak256 (sealHeaderBytes block parent.hash coinbase))

/-- What `verifyBlockPoWSeal` does before it computes the target: it fails, it is content
(`none`), or it goes on to compare (`some blockHash`). In fake mode nothing is compared. -/
def sealToCheck (powFake : Bool) (block : Block) (parent : Option Block) :
    Except GoError (Option (Bytes × Bytes)) :=
  if block.hash = [] then .error (.new "invalid block for POW verification")
  else if block.height = 0 then .ok none
  else
    match parent with
    | none => .error (.new "parent block is nil for POW verification")
    | some parent =>
      match sealHash cr block parent with
      | .error e => .error e
      | .ok blockHash => .ok (if powFake then none else some (blockHash, copy32 parent.hash))

/-- `difficultyToTarget`. The division panics for difficulty 0, which the callers deal
with. -/
def difficultyToTarget (difficulty : UInt32) : Nat := (2 ^ 256 - 1) / difficulty.toNat

def verifyBlockPoWSeal (powFake : Bool) (block : Block) (parent : Option Block) :
    Except GoError Unit :=
  match sealToCheck cr powFake block parent with
  | .error e => .error e
  | .ok none => .ok ()
  | .ok (some (blockHash, seed)) =>
    if cr.computePoW blockHash seed ≤ difficultyToTarget block.header.difficultyBits then .ok ()
    else .error (.wrap "NogoPow seal verification failed for block %d: %w"
      [.num block.height.toNat] (.new "invalid seal"))

/-- The seal check looks at nothing of the parent but its hash. -/
theorem verifyBlockPoWSeal_congr (powFake : Bool) (block : Block) {p q : Block}
    (h : p.hash = q.hash) :
    verifyBlockPoWSeal cr powFake block (some p)
      = verifyBlockPoWSeal cr powFake block (some q) := by
  simp only [verifyBlockPoWSeal, sealToCheck, sealHash, h]

/-! ## What the seal binds

Height and difficulty are written without a length. But the last 24 bytes of a nonce are zeros, so
the difficulty is found at the end, whatever its length; and what is left is the height. -/

/-- **The seal binds the header**: below height `2 ^ 63`, the bytes that are hashed agree only if
parents, miners, roots, heights, times, nonces and difficulties do. -/
theorem sealHeaderBytes_inj {b b' : Block} {p p' c c' : Bytes} (hc : c.length = c'.length)
    (hheight : b.height.toNat < 2 ^ 63) (hheight' : b'.height.toNat < 2 ^ 63)
    (h : sealHeaderBytes b p c = sealHeaderBytes b' p' c') :
    copy32 p = copy32 p' ∧ c = c'
      ∧ (b.header.stateRoot.length = 32 → b'.header.stateRoot.length = 32 →
        b.header.stateRoot = b'.header.stateRoot)
      ∧ copy32 (sliceBytes b.header.merkleRoot) = copy32 (sliceBytes b'.header.merkleRoot)
      ∧ b.height = b'.height ∧ b.header.timestampUnix = b'.header.timestampUnix
      ∧ b.header.nonce = b'.header.nonce ∧ b.header.difficultyBits = b'.header.difficultyBits := by
  have h32 : ∀ bs, (copy32 bs).length = 32 := fun bs => by simp [copy32]
  have hroot : ∀ b : Block, (if b.header.stateRoot.length = 32 then b.header.stateRoot
      else List.replicate 32 0).length = 32 := fun b => by split <;> simp_all
  have hshort : ∀ n, (bigBytes n).length ≤ 24 := fun n =>
    (List.dropWhile_sublist _).length_le.trans (by simp)
  have hvalue : ∀ {n}, n < 2 ^ 64 → ofBigEndian (bigBytes n) = n := fun hn =>
    (ofBigEndian_dropWhile _).trans (ofBigEndian_bigEndian 8 hn)
  have hcopy : ∀ n, copy32 (littleEndian 8 n) = littleEndian 8 n ++ List.replicate 24 0 := by
    simp [copy32, List.take_append]
  have hbits : ∀ bits : UInt32, bits.toNat < 2 ^ 64 := fun bits => bits.toNat_lt.trans (by decide)
  unfold sealHeaderBytes at h
  rw [hcopy, hcopy, ← List.append_assoc, ← List.append_assoc] at h
  have hdifficulty := congrArg (fun l => ofBigEndian l % 256 ^ 24) h
  rw [ofBigEndian_mod_of_gap _ (hshort _), ofBigEndian_mod_of_gap _ (hshort _), hvalue (hbits _),
    hvalue (hbits _)] at hdifficulty
  rw [hdifficulty, List.append_cancel_right_eq, List.append_cancel_right_eq] at h
  obtain ⟨h, hnonce⟩ := List.append_inj' h (by simp)
  obtain ⟨h, htime⟩ := List.append_inj' h (by simp)
  obtain ⟨h, hnumber⟩ := List.append_inj (List.append_inj' h rfl).1
    (by simp only [List.length_append, h32, hroot, hc])
  obtain ⟨h, hmerkle⟩ := List.append_inj' h (by rw [h32, h32])
  obtain ⟨h, hstate⟩ := List.append_inj' h (by rw [hroot, hroot])
  obtain ⟨hparent, hcoinbase⟩ := List.append_inj' h hc
  replace hnumber := congrArg ofBigEndian hnumber
  rw [int64Magnitude, int64Magnitude, if_pos hheight, if_pos hheight', hvalue (UInt64.toNat_lt _),
    hvalue (UInt64.toNat_lt _)] at hnumber
  refine ⟨hparent, hcoinbase, fun hlen hlen' => ?_, hmerkle, UInt64.toNat_inj.mp hnumber, ?_,
    littleEndian_uint64_inj hnonce, UInt32.toNat_inj.mp hdifficulty⟩
  · rwa [if_pos hlen, if_pos hlen'] at hstate
  · simpa using congrArg UInt64.toInt64 (littleEndian_uint64_inj (List.reverse_injective htime))

/-- Blocks that differ in their hashes and in the parents they name. -/
theorem sealHeaderBytes_inj_twins : ∃ b b' : Block, b.hash ≠ b'.hash
    ∧ sealHeaderBytes b [0] [5] = sealHeaderBytes b' [0] [5] ∧ b.height = b'.height := by
  have h : sealHeaderBytes (sampleBlock [1] [3] 1 10 []) [0] [5]
      = sealHeaderBytes (sampleBlock [2] [4] 1 10 []) [0] [5] := rfl
  exact ⟨_, _, by decide, h, (sealHeaderBytes_inj rfl (by decide) (by decide) h).2.2.2.2.1⟩

end NogoChain
