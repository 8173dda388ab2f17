import NogoChain.Network.Receive

/-!
# Ranges of blocks and headers

A peer asks for the blocks or the headers from a height on, so many of them. The end of the range
is a sum of 64 bits; the headers are copied field by field, with the index for the height and
without the state root; and whether there is more is read off the height of the tip.
-/

namespace NogoChain

open Prog

/-- `BlocksFrom`. -/
def Chain.blocksFrom (c : Chain) (fromHeight count : UInt64) : Except Fault (List Block) :=
  if fromHeight ≥ c.length64 then .ok []
  else
    let sum := fromHeight + count
    let stop := if sum > c.length64 then c.length64 else sum
    if (stop - fromHeight).toNat > maxPointers then .error (.panic "make([]*Block, 0, end-from)")
    else .ok ((c.blocks.drop fromHeight.toNat).take (stop.toNat - fromHeight.toNat))

/-- **The canonical blocks of a range**, whose end may be any number. -/
def Chain.range (c : Chain) (fromHeight count : UInt64) : List Block :=
  (c.blocks.drop fromHeight.toNat).take count.toNat

variable {env : SyncEnv} {n : SyncNode} {c : Chain} {f k : UInt64}

theorem Chain.headersFrom_of_blocksFrom {blocks : List Block} (h : c.blocksFrom f k = .ok blocks) :
    c.headersFrom f k = .ok (blocks.mapIdx fun i b => b.headerAt (f + UInt64.ofNat i)) := by
  unfold blocksFrom at h
  unfold headersFrom
  by_cases hge : f ≥ c.length64
  · rw [if_pos hge] at h ⊢
    cases h
    rfl
  · rw [if_neg hge] at h ⊢
    dsimp only at h ⊢
    generalize (if f + k > c.length64 then c.length64 else f + k) = stop at h ⊢
    split at h
    · cases h
    · next hcap =>
      rw [if_neg hcap]
      cases h
      rfl

/-- The blocks of the range are taken, unless its end wraps around. -/
theorem Chain.blocksFrom_eq_range_iff (hc : c.blocks.length ≤ maxPointers) :
    c.blocksFrom f k = .ok (c.range f k)
      ↔ (f.toNat < c.blocks.length → f.toNat + k.toNat < 2 ^ 64) := by
  constructor
  · intro h hlt
    refine Nat.lt_of_not_le fun hwrap => ?_
    obtain ⟨fault, hfault⟩ := (headersFrom_eq_error_iff hc f k).mpr ⟨hlt, hwrap⟩
    rw [headersFrom_of_blocksFrom h] at hfault
    cases hfault
  · intro hfits
    unfold blocksFrom range
    split
    · next hge =>
      rw [ge_iff_le, UInt64.le_iff_toNat_le, toNat_length64 hc] at hge
      rw [List.drop_eq_nil_of_le hge, List.take_nil]
    · next hlt =>
      rw [ge_iff_le, UInt64.le_iff_toNat_le, toNat_length64 hc, Nat.not_le] at hlt
      obtain ⟨hstop, hcap⟩ := toNat_rangeEnd hc hlt (hfits hlt)
      dsimp only
      rw [if_neg hcap, hstop, Except.ok.injEq, List.take_eq_take_iff, List.length_drop]
      omega

/-- What the goroutine of `OnGetHeaders` sends, to a peer that takes it. -/
theorem exists_sent_sendHeaders (peerID : Bytes) {headers : List BlockHeader}
    (hsend : env.sendOk n.tick = true) (hheaders : n.chain.headersFrom f k = .ok headers) :
    ∃ more, (sendHeaders env peerID f k n).state?.map (·.sent)
        = some (n.sent ++ [(peerID, .headers headers more)])
      ∧ (more = true ↔ UInt64.ofNat headers.length = k
        ∧ ∀ tip ∈ n.chain.tip?, f + k ≤ tip.height) := by
  have hsync : ∀ msg, ((do
      let _ ← sendSync env peerID msg
      pure () : SyncM Unit) n).state?.map (·.sent) = some (n.sent ++ [(peerID, msg)]) := by
    intro msg
    simp [sendSync, SyncNode.ask, hsend, Prog.when, bind_apply, get_apply, modify_apply, pure_apply]
  unfold sendHeaders
  rw [get_bind_apply, hheaders]
  refine ⟨_, hsync _, ?_⟩
  cases n.chain.tip? with
  | none | some tip => simp

/-- **What a request asks of the chain** for an exact answer. -/
@[mk_iff]
structure Chain.Servable (c : Chain) (f k : UInt64) : Prop where
  /-- the end of a range that begins on the chain fits in 64 bits -/
  fits : f.toNat < c.blocks.length → f.toNat + k.toNat < 2 ^ 64
  /-- the headers of the range have no state root, and repeat the index and the miner -/
  plain : ∀ i b, (c.range f k)[i]? = some b → b.header.stateRoot = []
    ∧ b.header.height = f + UInt64.ofNat i ∧ b.header.minerAddress = b.minerAddress
  /-- the tip is below the end of a full range at the end of the chain only -/
  tip : ∀ tip ∈ c.tip?, f.toNat + k.toNat ≤ c.blocks.length →
    (tip.height.toNat < f.toNat + k.toNat ↔ f.toNat + k.toNat = c.blocks.length)

theorem Block.headerAt_eq_header_iff {b : Block} {height : UInt64} : b.headerAt height = b.header
    ↔ b.header.stateRoot = [] ∧ b.header.height = height
      ∧ b.header.minerAddress = b.minerAddress := by
  cases hb : b.header
  simp [Block.headerAt, hb, eq_comm]

/-- **A range is served exactly** – its blocks, their headers, and whether there is a block at its
end – if and only if the chain can serve it. -/
theorem range_served_iff (env : SyncEnv) (n : SyncNode) (peerID : Bytes) (f k : UInt64) (hk : 0 < k)
    (hlen : n.chain.blocks.length ≤ maxPointers) (hsend : env.sendOk n.tick = true) :
    (n.chain.blocksFrom f k = .ok (n.chain.range f k)
      ∧ n.chain.headersFrom f k = .ok ((n.chain.range f k).map (·.header))
      ∧ ∃ headers, (sendHeaders env peerID f k n).state?.map (·.sent) = some (n.sent ++ [(peerID,
          .headers headers (decide (f.toNat + k.toNat < n.chain.blocks.length)))]))
      ↔ n.chain.Servable f k := by
  rw [Chain.servable_iff, ← Chain.blocksFrom_eq_range_iff hlen]
  refine and_congr_right fun hblocks => ?_
  have hheaders := Chain.headersFrom_of_blocksFrom hblocks
  obtain ⟨more, hsent, hmore⟩ := exists_sent_sendHeaders peerID hsend hheaders
  refine and_congr ?_ ?_
  · rw [hheaders, Except.ok.injEq, List.ext_getElem?_iff]
    refine forall_congr' fun i => ?_
    rw [List.getElem?_mapIdx, List.getElem?_map]
    cases (n.chain.range f k)[i]? with
    | none => simp
    | some b => simp [Block.headerAt_eq_header_iff]
  · have hpos : 0 < k.toNat := UInt64.lt_iff_toNat_lt.mp hk
    have hfull : UInt64.ofNat ((n.chain.range f k).mapIdx fun i b =>
          b.headerAt (f + UInt64.ofNat i)).length = k
        ↔ f.toNat + k.toNat ≤ n.chain.blocks.length := by
      have hmax : n.chain.blocks.length ≤ 2 ^ 45 := hlen
      rw [← UInt64.toNat_inj, List.length_mapIdx, Chain.range, List.length_take, List.length_drop,
        UInt64.toNat_ofNat', Nat.mod_eq_of_lt (by omega)]
      omega
    simp only [hsent, Option.some.injEq, List.append_cancel_left_eq, List.cons.injEq,
      Prod.mk.injEq, SyncMsg.headers.injEq, true_and, and_true, exists_eq_left']
    rw [Bool.eq_iff_iff, hmore, hfull, decide_eq_true_iff]
    by_cases hle : f.toNat + k.toNat ≤ n.chain.blocks.length
    · -- a chain with a full range has a tip
      have hne : n.chain.blocks ≠ [] := List.ne_nil_of_length_pos (by omega)
      have htip : n.chain.tip? = some (n.chain.blocks.getLast hne) :=
        List.getLast?_eq_getLast_of_ne_nil hne
      have hsum : (f + k).toNat = f.toNat + k.toNat := by
        rw [UInt64.toNat_add, Nat.mod_eq_of_lt
          ((Chain.blocksFrom_eq_range_iff hlen).mp hblocks (by omega))]
      simp only [htip, Option.mem_some_iff, forall_eq', UInt64.le_iff_toNat_le, hsum, hle, true_and,
        forall_const]
      omega
    · simp [hle, Nat.not_lt.mpr (Nat.le_of_not_le hle)]

/-- A node with two blocks, whose headers repeat the height and the miner. -/
def plainNode : SyncNode :=
  { twoBlockNode with chain.blocks := twoBlockNode.chain.blocks.map fun b => { b with
    header.height := b.height, header.minerAddress := b.minerAddress } }

/-- Blocks without a state root are served, and there are no more. -/
theorem range_served_plainNode :
    plainNode.chain.blocksFrom 0 2 = .ok plainNode.chain.blocks
      ∧ plainNode.chain.headersFrom 0 2 = .ok (plainNode.chain.blocks.map (·.header))
      ∧ ∃ headers, (sendHeaders (fixedPayloads 0 1 []) [] 0 2 plainNode).state?.map (·.sent)
        = some [([], .headers headers false)] := by
  have hplain : ∀ p ∈ (plainNode.chain.range 0 2).zipIdx, p.1.header.stateRoot = []
      ∧ p.1.header.height = 0 + UInt64.ofNat p.2 ∧ p.1.header.minerAddress = p.1.minerAddress := by
    decide
  exact (range_served_iff (fixedPayloads 0 1 []) plainNode [] 0 2 (by decide) (by decide)
    rfl).mpr ⟨by decide, fun i b h => hplain (b, i) (List.mem_zipIdx_iff_getElem?.mpr h), by decide⟩

/-- A node with a single block, whose header repeats the miner. -/
def oneBlockNode (stateRoot : Bytes) : SyncNode :=
  { twoBlockNode with chain.blocks := [{ sampleBlock [1] [] 0 1 [] with
    header.stateRoot := stateRoot, header.minerAddress := zeroAddress 1 }] }

/-- **Ranges that are not served.** The sum 1 + (2⁶⁴ − 1) is 0, which makes the capacity of the
slice negative; and a header comes without its state root. -/
theorem range_not_served :
    twoBlockNode.chain.blocksFrom 1 18446744073709551615
        = .error (.panic "make([]*Block, 0, end-from)")
      ∧ twoBlockNode.chain.range 1 18446744073709551615 ≠ []
      ∧ (oneBlockNode [1]).chain.headersFrom 0 1
        = .ok ((oneBlockNode []).chain.blocks.map (·.header)) :=
  ⟨rfl, by decide, rfl⟩

end NogoChain
