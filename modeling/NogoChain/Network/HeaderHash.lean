import NogoChain.Mining.Pipeline
import NogoChain.Network.CompactRelay
import NogoChain.Network.SyncLoop
import NogoChain.Network.SyncReactor

/-!
# Served headers and the hashes of their blocks

The hash of a mined block comes from the proof-of-work engine: it is the Keccak-256 digest of the
header as `rlpEncode` writes it. A node that is sent headers computes hashes of its own, the
SHA-256 digests of the binary encoding, and compares each with what the next header names. Two
headers above the genesis block are found to be linked only if the two digests are the same
(`honest_headers_linked_iff`).
-/

namespace NogoChain

variable (env : Env)

/-! ## The two encodings -/

/-- The bytes of the header that `Seal` works on. It has the whole difficulty, of which the block
keeps 32 bits. -/
def sealedHeaderBytes (b : Block) (coinbase : Bytes) (difficulty : Nat) : Bytes :=
  sealHeaderBytes { b with header := { b.header with difficultyBits := 0 } } b.header.prevHash
      coinbase
    ++ (bigEndian (difficulty.log2 + 1) difficulty).dropWhile (· == 0)

/-- The bytes that `computeHeaderHash` takes the digest of. -/
def headerBytes (h : BlockHeader) (height : UInt64) (miner : Bytes) : Bytes :=
  [1] ++ littleEndian 4 h.version.toNat ++ littleEndian 8 height.toNat
    ++ littleEndian 8 h.timestampUnix.toUInt64.toNat ++ exactly32 h.prevHash
    ++ exactly32 (sliceBytes h.merkleRoot) ++ littleEndian 4 h.difficultyBits.toNat ++ miner
    ++ littleEndian 8 h.nonce.toNat

theorem computeHeaderHash_eq_ok {h : BlockHeader} {height : UInt64} {minerAddress d : Bytes} :
    computeHeaderHash env h height minerAddress = .ok d
      ↔ ∃ miner, decodeMinerAddress minerAddress = .ok miner
        ∧ env.cr.sha256 (headerBytes h height miner) = d := by
  unfold computeHeaderHash
  cases decodeMinerAddress minerAddress with
  | error e => simp
  | ok miner => simp [headerBytes]

/-- `MineTransfers` seals `b` on `latest` for a coinbase, at a difficulty, and the engine answers
with the hash of the header. -/
def SealedOn (latest b : Block) (coinbase : Bytes) (difficulty : Nat) : Prop :=
  ∃ c minerAddress answer transfers,
    assembleBlock env c latest minerAddress answer transfers = .ok b
      ∧ stringToAddress minerAddress = .ok coinbase ∧ answer.difficulty = difficulty
      ∧ answer.hash = env.cr.keccak256 (sealedHeaderBytes b coinbase difficulty)

/-- Every block but the first is sealed on the one before it. -/
def Chain.Mined (c : Chain) (coinbase : Nat → Bytes) (difficulty : Nat → Nat) : Prop :=
  ∀ i latest b, c.blocks[i]? = some latest → c.blocks[i + 1]? = some b →
    SealedOn env latest b (coinbase (i + 1)) (difficulty (i + 1))

/-- The headers as they arrive. -/
def receiveHeaders (headers : List BlockHeader) : Except GoError (List BlockHeader) :=
  headers.mapM fun h => BlockHeader.unmarshalJSON h.json

/-- **The two digests of a block agree**: that of the header as it arrives, and that of the header
that was sealed. -/
def DigestsAgree (b : Block) (height : UInt64) (coinbase : Bytes) (difficulty : Nat) : Prop :=
  ∃ miner, decodeMinerAddress (b.headerAt height).reread.minerAddress = .ok miner
    ∧ env.cr.sha256 (headerBytes (b.headerAt height).reread height miner)
      = env.cr.keccak256 (sealedHeaderBytes b coinbase difficulty)

variable {env} {c : Chain} {coinbase : Nat → Bytes} {difficulty : Nat → Nat}

/-! ## Headers in a row -/

theorem SealedOn.hashes {latest b : Block} {coinbase : Bytes} {difficulty : Nat}
    (h : SealedOn env latest b coinbase difficulty) :
    b.header.prevHash = latest.hash
      ∧ b.hash = env.cr.keccak256 (sealedHeaderBytes b coinbase difficulty) := by
  obtain ⟨c, minerAddress, answer, transfers, hb, -, -, hhash⟩ := h
  obtain ⟨-, -, -, -, leaves, root, -, -, hnew⟩ := assembleBlock_eq_ok.mp hb
  exact ⟨by rw [hnew]; rfl, by rw [← hhash, hnew]; rfl⟩

/-- **The hash that is computed from a header** is the one the next header names if the two
digests agree. -/
theorem computeHeaderHash_eq_prevHash_iff (hmined : c.Mined env coinbase difficulty) {i : Nat}
    {b b' : Block} (hi : i ≠ 0) (hb : c.blocks[i]? = some b) (hb' : c.blocks[i + 1]? = some b')
    (height : UInt64) :
    computeHeaderHash env (b.headerAt height).reread height (b.headerAt height).reread.minerAddress
        = .ok b'.header.prevHash
      ↔ DigestsAgree env b height (coinbase i) (difficulty i) := by
  obtain ⟨i, rfl⟩ := Nat.exists_eq_add_one_of_ne_zero hi
  obtain ⟨a, ha⟩ : ∃ a, c.blocks[i]? = some a :=
    ⟨_, List.getElem?_eq_getElem (Nat.lt_of_succ_lt (List.getElem?_eq_some_iff.mp hb).1)⟩
  rw [computeHeaderHash_eq_ok, (hmined _ b b' hb hb').hashes.1, (hmined i a b ha hb).hashes.2]
  rfl

theorem receiveHeaders_eq (headers : List BlockHeader) :
    receiveHeaders headers = .ok (headers.map BlockHeader.reread) := by
  unfold receiveHeaders
  rw [Except.mapM_eq_ok, List.forall₂_map_right_iff, List.forall₂_same]
  exact fun h _ => h.unmarshalJSON_json

/-- The served headers are those of the blocks from the height on. -/
theorem getElem?_headersFrom {fromHeight count : UInt64} {headers : List BlockHeader}
    (hserved : c.headersFrom fromHeight count = .ok headers) {k : Nat} {h : BlockHeader}
    (hk : headers[k]? = some h) :
    ∃ b, c.blocks[fromHeight.toNat + k]? = some b
      ∧ h = b.headerAt (fromHeight + UInt64.ofNat k) := by
  unfold Chain.headersFrom at hserved
  split at hserved
  · cases hserved
    simp at hk
  · dsimp only at hserved
    generalize (if fromHeight + count > c.length64 then c.length64 else fromHeight + count) = stop
      at hserved
    split at hserved
    · cases hserved
    · cases hserved
      rw [List.getElem?_mapIdx, List.getElem?_take] at hk
      split at hk
      · rw [List.getElem?_drop] at hk
        obtain ⟨b, hb, rfl⟩ := Option.map_eq_some_iff.mp hk
        exact ⟨b, hb, rfl⟩
      · cases hk

/-- One step of the walk: a header of height 0 is not looked at. -/
theorem headersLinked_cons_cons {height : UInt64} {prev header : BlockHeader}
    {rest : List BlockHeader} :
    headersLinked env height (prev :: header :: rest) = true
      ↔ (height = 0
          ∨ computeHeaderHash env prev height prev.minerAddress = .ok header.prevHash)
        ∧ headersLinked env (height + 1) (header :: rest) = true := by
  rw [headersLinked, Bool.and_eq_true]
  refine and_congr_left' ?_
  by_cases hzero : height = 0
  · simp [hzero]
  · rw [if_pos (UInt64.pos_iff_ne_zero.mpr hzero)]
    cases computeHeaderHash env prev height prev.minerAddress with
    | error e => simp [hzero]
    | ok d =>
      simp only [beq_iff_eq, hzero, false_or, Except.ok.injEq]
      exact eq_comm

/-- What is asked of each header and the next. -/
theorem headersLinked_iff {headers : List BlockHeader} {height : UInt64} :
    headersLinked env height headers = true
      ↔ ∀ k prev header, headers[k]? = some prev → headers[k + 1]? = some header →
        height + UInt64.ofNat k = 0 ∨ computeHeaderHash env prev (height + UInt64.ofNat k)
          prev.minerAddress = .ok header.prevHash := by
  induction headers generalizing height with
  | nil => simp [headersLinked]
  | cons prev rest ih =>
    rcases rest with _ | ⟨header, rest⟩
    · simp [headersLinked]
    have hnext : ∀ k, height + 1 + UInt64.ofNat k = height + UInt64.ofNat (k + 1) := fun k => by
      rw [UInt64.ofNat_add, UInt64.add_assoc, UInt64.add_comm (UInt64.ofNat k)]
      rfl
    rw [headersLinked_cons_cons, ih]
    simp only [hnext]
    constructor
    · rintro ⟨hfirst, hrest⟩ (_ | k) x y hx hy
      · cases hx
        cases hy
        simpa using hfirst
      · exact hrest k x y hx hy
    · intro h
      exact ⟨by simpa using h 0 prev header rfl rfl, fun k x y hx hy => h (k + 1) x y hx hy⟩

/-- **When an honest peer's headers are accepted**: if and only if for each of them that stands
above the genesis block and is followed by another one, the two digests agree. -/
theorem honest_headers_linked_iff (c : Chain) (coinbase : Nat → Bytes) (difficulty : Nat → Nat)
    (hmined : c.Mined env coinbase difficulty) (fromHeight count : UInt64)
    (headers received : List BlockHeader) (hserved : c.headersFrom fromHeight count = .ok headers)
    (hreceived : receiveHeaders headers = .ok received) :
    headersLinked env fromHeight received = true
      ↔ ∀ k b, k + 1 < received.length → c.blocks[fromHeight.toNat + k]? = some b →
        fromHeight + UInt64.ofNat k = 0
          ∨ DigestsAgree env b (fromHeight + UInt64.ofNat k) (coinbase (fromHeight.toNat + k))
            (difficulty (fromHeight.toNat + k)) := by
  rw [receiveHeaders_eq] at hreceived
  cases hreceived
  have hblock := fun k h => getElem?_headersFrom hserved (k := k) (h := h)
  have habove : ∀ {k : Nat}, fromHeight + UInt64.ofNat k ≠ 0 → fromHeight.toNat + k ≠ 0 := by
    intro k hne hzero
    obtain ⟨hfrom, rfl⟩ := Nat.add_eq_zero_iff.mp hzero
    exact hne (by rw [show fromHeight = 0 from UInt64.toNat_inj.mp hfrom]; rfl)
  have hpair := fun {k : Nat} {b b' : Block} (hb : c.blocks[fromHeight.toNat + k]? = some b)
      (hb' : c.blocks[fromHeight.toNat + (k + 1)]? = some b') =>
    or_congr_right' fun hne => computeHeaderHash_eq_prevHash_iff hmined (habove hne) hb hb'
      (fromHeight + UInt64.ofNat k)
  rw [headersLinked_iff]
  simp only [List.getElem?_map, Option.map_eq_some_iff, List.length_map]
  constructor
  · intro h k b hk hb
    obtain ⟨b', hb', hh'⟩ := hblock (k + 1) _ (List.getElem?_eq_getElem hk)
    obtain ⟨x, hx, hh⟩ := hblock k _ (List.getElem?_eq_getElem (Nat.lt_of_succ_lt hk))
    obtain rfl := Option.some.inj (hb.symm.trans hx)
    refine (hpair hb hb').mp (h k _ (b'.headerAt (fromHeight + UInt64.ofNat (k + 1))).reread
      ⟨_, ?_, rfl⟩ ⟨_, ?_, rfl⟩)
    · rw [List.getElem?_eq_getElem (Nat.lt_of_succ_lt hk), hh]
    · rw [List.getElem?_eq_getElem hk, hh']
  · rintro h k _ _ ⟨x, hx, rfl⟩ ⟨y, hy, rfl⟩
    obtain ⟨b, hb, rfl⟩ := hblock k x hx
    obtain ⟨b', hb', rfl⟩ := hblock (k + 1) y hy
    exact (hpair hb hb').mpr (h k b (List.getElem?_eq_some_iff.mp hy).1 hb)

/-- Digests of one function are ones, those of the other twos. -/
def twoDigests : Env :=
  { sampleEnv with
    cr := { Crypto.constant with
      sha256 := fun _ => List.replicate 32 1
      sha256_length := fun _ => rfl
      keccak256 := fun _ => List.replicate 32 2
      keccak256_length := fun _ => rfl } }

section Sealed

variable (env : Env)

/-- The answer of the engine if all digests are the same. -/
def digestAnswer : SealAnswer :=
  { sampleAnswer with hash := env.cr.keccak256 [], hash_length := env.cr.keccak256_length [] }

/-- The block that is sealed on another one. -/
def sealedAfter (latest : Block) : Block :=
  newBlock env (Chain.initial BoltStore.empty 0) latest (zeroAddress 1) (digestAnswer env)
    (env.cr.sha256 []) []

/-- A block, one sealed on it, and one sealed on that. -/
def sealedChain : Chain :=
  { Chain.initial BoltStore.empty 0 with
    blocks := [firstBlock, sealedAfter env firstBlock,
      sealedAfter env (sealedAfter env firstBlock)] }

end Sealed

theorem sealedChain_mined (hconst : ∀ x, env.cr.keccak256 x = env.cr.keccak256 [])
    (h : ∀ latest ∈ [firstBlock, sealedAfter env firstBlock],
      assembleBlock env (Chain.initial BoltStore.empty 0) latest (zeroAddress 1)
        (digestAnswer env) [] = .ok (sealedAfter env latest)) :
    ∃ coinbase, (sealedChain env).Mined env (fun _ => coinbase)
      fun _ => sampleAnswer.difficulty := by
  obtain ⟨-, -, -, ⟨coinbase, hcoinbase⟩, -⟩ := assembleBlock_eq_ok.mp (h _ List.mem_cons_self)
  refine ⟨coinbase, fun i latest b hlatest hb => ?_⟩
  have hsealed : ∀ latest ∈ [firstBlock, sealedAfter env firstBlock],
      SealedOn env latest (sealedAfter env latest) coinbase sampleAnswer.difficulty :=
    fun latest hmem => ⟨_, _, _, _, h latest hmem, hcoinbase, rfl, (hconst _).symm⟩
  rcases i with _ | _ | i
  · cases hlatest
    cases hb
    exact hsealed _ List.mem_cons_self
  · cases hlatest
    cases hb
    exact hsealed _ (List.mem_cons_of_mem _ List.mem_cons_self)
  · simp [sealedChain] at hb

/-- Two blocks above the first, whose digests agree. -/
theorem honest_headers_linked_sealed :
    headersLinked sampleEnv 1 (((sealedChain sampleEnv).blocks.drop 1).mapIdx fun k b =>
      (b.headerAt (1 + UInt64.ofNat k)).reread) = true := by
  obtain ⟨coinbase, hmined⟩ :=
    sealedChain_mined (fun _ => rfl : ∀ x, sampleEnv.cr.keccak256 x = _) (by decide +kernel)
  refine (honest_headers_linked_iff (sealedChain sampleEnv) _ _ hmined 1 2 _ _ rfl
    (receiveHeaders_eq _)).mpr fun k b hk hb => .inr ?_
  obtain rfl : k = 0 := Nat.lt_one_iff.mp (Nat.succ_lt_succ_iff.mp hk)
  cases hb
  exact ⟨List.replicate 32 0, by decide +kernel, rfl⟩

/-- **An honest peer is refused**: the headers of two blocks that were mined one on the other. -/
theorem honest_headers_refused :
    (∃ coinbase, (sealedChain twoDigests).Mined twoDigests (fun _ => coinbase)
        fun _ => sampleAnswer.difficulty)
      ∧ ∃ headers received, (sealedChain twoDigests).headersFrom 1 2 = .ok headers
        ∧ receiveHeaders headers = .ok received
        ∧ headersLinked twoDigests 1 received = false := by
  refine ⟨sealedChain_mined (fun _ => rfl) (by decide +kernel), _, _, rfl, receiveHeaders_eq _, ?_⟩
  decide +kernel

end NogoChain
