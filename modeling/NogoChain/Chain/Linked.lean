import NogoChain.Chain.Reachable
import NogoChain.Lib.HashTree

/-!
# The canonical chain is linked

A branch is spliced onto an ancestor that is found by a walk of its own, from the new tip
down. For blocks whose heights are honest, the walk of the completeness check, the walk that
looks for the ancestor and the walk that collects the branch meet the same hashes at the
same heights; so the block that the branch is put on is the parent of its first block.
-/

namespace NogoChain

variable {env : Env} {P : Block → Prop} {c : Chain}

/-- Blocks as a tree of hashes. -/
def blockTree : HashTree Block Bytes := ⟨(·.hash), (·.header.prevHash), (·.height.toNat)⟩

/-- One block is the parent of the other, by hash and height. -/
def IsParent (p b : Block) : Prop :=
  b.header.prevHash = p.hash ∧ b.height.toNat = p.height.toNat + 1

/-- **The canonical chain is linked**: it starts at height 0 and every block is followed by
a child. -/
structure Chain.Linked (c : Chain) : Prop where
  /-- each block is the parent of the next -/
  links : c.blocks.IsChain IsParent
  /-- the first block has height 0 -/
  root : ∀ b ∈ c.blocks.head?, b.height = 0

/-- The height of a canonical block is its index. -/
theorem Chain.Linked.height_eq (h : c.Linked) :
    ∀ (i : Nat) (hi : i < c.blocks.length), c.blocks[i].height.toNat = i
  | 0, hi => by
    have hroot := h.root c.blocks[0] (by simp [List.head?_eq_getElem?, List.getElem?_eq_getElem hi])
    rw [hroot]
    rfl
  | i + 1, hi => by
    have hlink := List.isChain_iff_getElem.mp h.links i hi
    rw [hlink.2, h.height_eq i (by omega)]

variable {b p ancestor newTip : Block} {calls : List Call} {w : World}

theorem Chain.Linked.getElem?_height (h : c.Linked) (hb : b ∈ c.blocks) :
    c.blocks[b.height.toNat]? = some b := by
  obtain ⟨i, hi, rfl⟩ := List.getElem_of_mem hb
  rw [h.height_eq i hi, List.getElem?_eq_getElem hi]

/-- The height of the tip is the last index. -/
theorem Chain.Linked.tip_height (h : c.Linked) {tip : Block} (htip : c.tip? = some tip) :
    tip.height.toNat + 1 = c.blocks.length := by
  rw [Chain.tip?, List.getLast?_eq_getElem?] at htip
  obtain ⟨hlt, rfl⟩ := List.getElem?_eq_some_iff.mp htip
  rw [h.height_eq _ hlt]
  omega

/-! ## Indices -/

theorem goInt_eq (x : UInt64) :
    goInt x = if x.toNat < 2 ^ 63 then (x.toNat : Int) else x.toNat - 2 ^ 64 := by
  have hnat : x.toBitVec.toNat = x.toNat := rfl
  change x.toBitVec.toInt = _
  rw [BitVec.toInt_eq_toNat_cond, hnat]
  split <;> split
  · rfl
  · omega
  · omega
  · rfl

theorem toNat_of_goInt {x : UInt64} {n : Nat} (h : goInt x = Int.ofNat n) : x.toNat = n := by
  have := x.toNat_lt
  rw [goInt_eq] at h
  split at h <;> simp only [Int.ofNat_eq_natCast] at h <;> omega

/-- The height below that of a child. -/
theorem IsParent.height_sub_one (h : IsParent p b) : b.height - 1 = p.height := by
  have hle : (1 : UInt64) ≤ b.height := by
    rw [UInt64.le_iff_toNat_le, h.2]
    simp
  apply UInt64.toNat.inj
  rw [UInt64.toNat_sub_of_le _ _ hle, h.2]
  simp

/-! ## Completeness -/

/-- **A fork chain that reaches the canonical chain**, or ends at height 0, along fork
blocks. -/
inductive Chain.Reaches (c : Chain) : Block → Prop
  | ground {b : Block} (h : b.height = 0) : c.Reaches b
  /-- the parent is canonical -/
  | active {b : Block} (h : c.isParentOnActiveChainLocked b.header.prevHash = true) : c.Reaches b
  /-- the parent is a fork block -/
  | fork {b p : Block} (h : c.forkBlocksByHash.lookup b.header.prevHash = some p)
      (hp : c.Reaches p) : c.Reaches b

/-- The loop of the completeness check does not use its bound up if there are fewer fork
blocks than steps: the hashes seen are distinct, and all but the first are those of fork
blocks. -/
theorem reaches_of_loop (first : Bytes) :
    ∀ {n : Nat} {visited : List Bytes} {b : Block}, visited.Nodup →
      (∀ h ∈ visited, h = first ∨ h ∈ c.forkBlocksByHash.keys) →
      (b.hash = first ∨ b.hash ∈ c.forkBlocksByHash.keys) →
      c.forkBlocksByHash.keys.length + 1 < n + visited.length →
      (∀ h p, c.forkBlocksByHash.lookup h = some p → p.hash = h) →
      c.isForkChainCompleteLoop n visited b = some true → c.Reaches b
  | 0, visited, b, hnodup, hvisited, _, hn, _, _ => by
    have hle : visited.length ≤ (first :: c.forkBlocksByHash.keys).length :=
      (List.subperm_of_subset hnodup fun h hh => List.mem_cons.mpr (hvisited h hh)).length_le
    simp only [List.length_cons] at hle
    omega
  | n + 1, visited, b, hnodup, hvisited, hb, hn, hkeys, h => by
    unfold Chain.isForkChainCompleteLoop at h
    split at h
    · split at h <;> cases h
    · next hnew =>
      split at h
      · next hzero => exact .ground hzero
      · split at h
        · next hactive => exact .active hactive
        · split at h
          · next p hp =>
            refine .fork hp (reaches_of_loop first ?_ ?_ ?_ ?_ hkeys h)
            · exact List.nodup_cons.mpr ⟨hnew, hnodup⟩
            · intro x hx
              rcases List.mem_cons.mp hx with rfl | hx
              · exact hb
              · exact hvisited x hx
            · right
              rw [hkeys _ p hp]
              exact AList.mem_keys.mp (AList.lookup_isSome.mp (by rw [hp]; rfl))
            · rw [List.length_cons]
              omega
          · cases h

theorem Chain.Holds.reaches (hc : c.Holds P) (hsize : c.forkBlocksByHash.keys.length + 1 < 10000)
    (h : c.isForkChainCompleteLocked b = some true) : c.Reaches b :=
  reaches_of_loop b.hash List.nodup_nil nofun (.inl rfl) hsize
    (fun h p hp => (hc.forkHashes h p hp).2) h

/-! ## The walk to the common ancestor -/

/-- The loop that looks for the ancestor goes to a block with the hash of the parent. -/
theorem Chain.ancestorStep_next (h : c.ancestorStep b = .next p) :
    c.forkBlocksByHash.lookup b.header.prevHash = some p
      ∨ c.blocksByHash.lookup b.header.prevHash = some p := by
  unfold ancestorStep at h
  split at h
  · cases h
  · split at h
    · next q hq => exact .inl (WalkStep.next.inj h ▸ hq)
    · split at h
      · cases h
      · next q hq =>
        split at h
        · cases h
        · split at h
          · cases h
          · split at h
            · exact .inr (WalkStep.next.inj h ▸ hq)
            · cases h

/-- One step of the walk goes to a block with the hash of the parent. -/
theorem Chain.Holds.ancestorStep (hc : c.Holds P)
    (h : c.ancestorStep b = .next p) : P p ∧ p.hash = b.header.prevHash := by
  rcases ancestorStep_next h with hp | hp
  · exact hc.forkHashes _ _ hp
  · exact hc.known _ _ hp

/-- The blocks of the walk, from the first one down. -/
theorem Chain.Holds.walk_descends (hc : c.Holds P) :
    ∀ {n : Nat} {b : Block} {visited : List Block} {d : Except Fault (Option Nat)}, P b →
      walk c.ancestorStep n b = some (visited, d) →
      blockTree.Descends P visited ∧ visited.head? = some b
  | 0, _, _, _, _, h => nomatch h
  | n + 1, b, visited, d, hb, h => by
    rcases walk_succ_eq_some.mp h with ⟨_, rfl⟩ | ⟨p, l, hs, hw, rfl⟩
    · exact ⟨⟨fun x hx => List.mem_singleton.mp hx ▸ hb, .singleton b⟩, rfl⟩
    · obtain ⟨hp, hhash⟩ := hc.ancestorStep hs
      obtain ⟨hl, hhead⟩ := hc.walk_descends hp hw
      refine ⟨⟨fun x hx => ?_, ?_⟩, rfl⟩
      · rcases List.mem_cons.mp hx with rfl | hx
        · exact hb
        · exact hl.mem x hx
      · refine List.isChain_cons.mpr ⟨fun y hy => ?_, hl.links⟩
        rw [hhead, Option.mem_some_iff] at hy
        exact hy ▸ hhash

/-- No divergence is read off at a block below whose height the canonical chain has the
parent. -/
theorem Chain.divergenceAt_of_parent {x : Block} (h : c.blocks[(b.height - 1).toNat]? = some x)
    (hx : x.hash = b.header.prevHash) : c.divergenceAt b = none := by
  unfold Chain.divergenceAt
  split
  · next n hn =>
    rw [toNat_of_goInt hn] at h
    simp [h, hx]
  · rfl

/-- No divergence is read off at height 0. -/
theorem Chain.divergenceAt_of_zero (h : b.height = 0) : c.divergenceAt b = none := by
  have hneg : goInt (b.height - 1) = .negSucc 0 := by
    rw [h]
    decide
  unfold Chain.divergenceAt
  rw [hneg]

/-- Where the walk ends. -/
theorem Chain.ancestorStep_done {d : Option Nat} (h : c.ancestorStep b = .done (.ok d)) :
    d = none ∨ (d = c.divergenceAt b ∧ c.forkBlocksByHash.lookup b.header.prevHash = none) := by
  unfold Chain.ancestorStep at h
  split at h
  · exact .inl (Except.ok.inj (WalkStep.done.inj h)).symm
  · split at h
    · cases h
    · next hfork =>
      split at h
      · exact .inr ⟨(Except.ok.inj (WalkStep.done.inj h)).symm, hfork⟩
      · split at h
        · cases h
        · split at h
          · exact .inr ⟨(Except.ok.inj (WalkStep.done.inj h)).symm, hfork⟩
          · split at h
            · cases h
            · exact .inr ⟨(Except.ok.inj (WalkStep.done.inj h)).symm, hfork⟩

theorem Chain.ancestorStep_fork {q : Block}
    (hp : c.forkBlocksByHash.lookup b.header.prevHash = some p) (h : c.ancestorStep b = .next q) :
    q = p := by
  unfold Chain.ancestorStep at h
  split at h
  · cases h
  · rw [hp] at h
    exact (WalkStep.next.inj h).symm

/-- A canonical block is at height 0 or its parent is canonical. -/
theorem Chain.Linked.parent (h : c.Linked) {x : Block} (hx : x ∈ c.blocks) :
    x.height = 0 ∨ ∃ y ∈ c.blocks, IsParent y x := by
  obtain ⟨i, hi, rfl⟩ := List.getElem_of_mem hx
  cases i with
  | zero =>
    exact .inl (h.root _ (by simp [List.head?_eq_getElem?, List.getElem?_eq_getElem hi]))
  | succ i =>
    exact .inr ⟨c.blocks[i], List.getElem_mem _, List.isChain_iff_getElem.mp h.links i hi⟩

section Walk

variable (hc : c.Holds P) (ht : blockTree.Honest P) (hl : c.Linked)
include hc ht hl

/-- From a block with a canonical hash, the walk stays on the canonical chain and reads no
divergence off. -/
theorem divergence_of_canonical :
    ∀ {n : Nat} {b : Block} {visited : List Block} {d : Option Nat}, P b →
      (∃ x ∈ c.blocks, x.hash = b.hash) → walk c.ancestorStep n b = some (visited, .ok d) → d = none
  | 0, _, _, _, _, _, h => nomatch h
  | n + 1, b, visited, d, hb, ⟨x, hx, hhash⟩, h => by
    obtain ⟨hheight, hprev⟩ := ht.hash_inj (hc.blocks x hx) hb hhash
    have hheight : x.height = b.height := UInt64.toNat.inj hheight
    have hprev : x.header.prevHash = b.header.prevHash := hprev
    rcases walk_succ_eq_some.mp h with ⟨hs, rfl⟩ | ⟨p, l, hs, hw, rfl⟩
    · rcases Chain.ancestorStep_done hs with hd | ⟨rfl, -⟩
      · exact hd
      · rcases hl.parent hx with hzero | ⟨y, hy, hparent⟩
        · exact Chain.divergenceAt_of_zero (hheight ▸ hzero)
        · refine Chain.divergenceAt_of_parent (x := y) ?_ (by rw [← hprev, hparent.1])
          rw [← hheight, hparent.height_sub_one]
          exact hl.getElem?_height hy
    · obtain ⟨hp, hphash⟩ := hc.ancestorStep hs
      refine divergence_of_canonical hp ?_ hw
      rcases hl.parent hx with hzero | ⟨y, hy, hparent⟩
      · have hsucc : b.height.toNat = p.height.toNat + 1 := ht.height_succ hp hb hphash.symm
        rw [← hheight, hzero] at hsucc
        exact absurd hsucc (by simp)
      · exact ⟨y, hy, by rw [hphash, ← hprev, hparent.1]⟩

/-- **Along a complete fork chain no divergence is read off.** -/
theorem Chain.Reaches.divergence (h : c.Reaches b) :
    ∀ {n : Nat} {visited : List Block} {d : Option Nat}, P b →
      walk c.ancestorStep n b = some (visited, .ok d) → d = none := by
  induction h with
  | @ground b hzero =>
    intro n visited d hb hw
    cases n with
    | zero => cases hw
    | succ n =>
      rcases walk_succ_eq_some.mp hw with ⟨hs, rfl⟩ | ⟨p, l, hs, -, rfl⟩
      · rcases Chain.ancestorStep_done hs with hd | ⟨rfl, -⟩
        · exact hd
        · exact Chain.divergenceAt_of_zero hzero
      · obtain ⟨hp, hphash⟩ := hc.ancestorStep hs
        have hsucc : b.height.toNat = p.height.toNat + 1 := ht.height_succ hp hb hphash.symm
        rw [hzero] at hsucc
        exact absurd hsucc (by simp)
  | @fork b p hfork _ ih =>
    intro n visited d hb hw
    cases n with
    | zero => cases hw
    | succ n =>
      rcases walk_succ_eq_some.mp hw with ⟨hs, rfl⟩ | ⟨q, l, hs, hw', rfl⟩
      · rcases Chain.ancestorStep_done hs with hd | ⟨-, hnone⟩
        · exact hd
        · rw [hfork] at hnone
          cases hnone
      · obtain rfl := Chain.ancestorStep_fork hfork hs
        exact ih (hc.ancestorStep hs).1 hw'
  | @active b hactive =>
    intro n visited d hb hw
    -- the canonical parent
    obtain ⟨q, x, hq, hx, hxhash⟩ : ∃ q x, c.blocksByHash.lookup b.header.prevHash = some q
        ∧ c.blocks[q.height.toNat]? = some x ∧ x.hash = b.header.prevHash := by
      unfold Chain.isParentOnActiveChainLocked at hactive
      split at hactive
      · cases hactive
      · next q hq =>
        split at hactive
        · cases hactive
        · next x hx => exact ⟨q, x, hq, hx, by simpa using hactive⟩
    obtain ⟨hPq, hqhash⟩ := hc.known _ _ hq
    have hparent : IsParent q b := ⟨hqhash.symm, ht.height_succ hPq hb hqhash.symm⟩
    cases n with
    | zero => cases hw
    | succ n =>
      rcases walk_succ_eq_some.mp hw with ⟨hs, rfl⟩ | ⟨p, l, hs, hw', rfl⟩
      · rcases Chain.ancestorStep_done hs with hd | ⟨rfl, -⟩
        · exact hd
        · refine Chain.divergenceAt_of_parent (x := x) ?_ hxhash
          rw [hparent.height_sub_one]
          exact hx
      · obtain ⟨hp, hphash⟩ := hc.ancestorStep hs
        exact divergence_of_canonical hc ht hl hp
          ⟨x, List.mem_of_getElem? hx, hxhash.trans hphash.symm⟩ hw'

end Walk

/-! ## Where a branch is put -/

/-- **The ancestor of a reorganisation is one**: a canonical block whose hash is met on the
way down from the new tip. -/
def Chain.Meets (P : Block → Prop) (c : Chain) (ancestor newTip : Block) : Prop :=
  ancestor ∈ c.blocks ∧ ∃ l, blockTree.Descends P (newTip :: l)
    ∧ ∃ x ∈ newTip :: l, x.hash = ancestor.hash

/-- The ancestor that `AddBlock` finds for a complete fork chain is one. -/
theorem Chain.Target.meets (hc : c.Holds P) (ht : blockTree.Honest P) (hl : c.Linked)
    (hsize : c.forkBlocksByHash.keys.length + 1 < 10000)
    (hP : P newTip) (h : c.Target ancestor newTip) : c.Meets P ancestor newTip := by
  obtain ⟨⟨-, hcomplete⟩, visited, d, hwalk, hfind⟩ := h
  obtain rfl := (hc.reaches hsize hcomplete).divergence hc ht hl hP hwalk
  have hdescends := (hc.walk_descends hP hwalk).1
  obtain ⟨l, rfl⟩ := walk_eq_cons hwalk
  have hmem : ancestor.hash ∈ (newTip :: l).map (·.hash) ++ c.guessedAncestor none := by
    simpa using List.find?_some hfind
  have hnone : c.guessedAncestor none = [] := rfl
  rw [hnone, List.append_nil] at hmem
  obtain ⟨x, hx, hhash⟩ := List.mem_map.mp hmem
  exact ⟨List.mem_reverse.mp (List.mem_of_find?_eq_some hfind), l, hdescends, x, hx, hhash⟩

theorem Branch.exists_cons {visited : List Block}
    (h : Branch env c ancestor newTip visited) : ∃ l, visited = newTip :: l := by
  cases visited with
  | nil => cases h.head
  | cons x l => exact ⟨l, by rw [Option.some.inj h.head]⟩

/-- The blocks of a branch descend from the new tip. -/
theorem Branch.descends (hc : c.Holds P) {visited : List Block}
    (h : Branch env c ancestor newTip visited) (hP : P newTip) : blockTree.Descends P visited where
  mem := h.holds hc hP
  links := h.parents.imp fun _ _ hp => (hc.knownParent hp).2

section Junction

variable {visited : List Block} (hc : c.Holds P) (ht : blockTree.Honest P)
  (hbranch : Branch env c ancestor newTip visited) (hP : P newTip)
include hc ht hbranch hP

/-- The new blocks are linked. -/
theorem Branch.newBlocks_linked : visited.dropLast.reverse.IsChain IsParent := by
  have hdescends := hbranch.descends hc hP
  have hparents : visited.IsChain fun x y => IsParent y x := by
    refine List.isChain_iff_getElem.mpr fun i hi => ?_
    have hlink := List.isChain_iff_getElem.mp hdescends.links i hi
    have hx := hdescends.mem _ (List.getElem_mem (Nat.lt_of_succ_lt hi))
    have hy := hdescends.mem _ (List.getElem_mem hi)
    exact ⟨hlink.symm, ht.height_succ hy hx hlink.symm⟩
  exact (isChain_dropLast_reverse hparents).1

/-- **The lowest new block is a child of the ancestor.** -/
theorem Branch.isParent_ancestor (hmeets : c.Meets P ancestor newTip)
    (hb : b ∈ visited.dropLast.reverse.head?) : IsParent ancestor b := by
  have hdescends := hbranch.descends hc hP
  obtain ⟨hancestor, l, hl, a, ha, hahash⟩ := hmeets
  have hmem : b ∈ visited.dropLast := List.mem_reverse.mp (List.mem_of_mem_head? hb)
  obtain ⟨x, hx⟩ := exists_getLast?_of_head? hb
  obtain ⟨-, hparent⟩ := isChain_dropLast_reverse hbranch.parents
  obtain ⟨hPx, hxhash⟩ := hc.knownParent (hparent b hb x hx)
  have hPb : P b := hdescends.mem b (List.mem_of_mem_dropLast hmem)
  have hsucc : b.height.toNat = x.height.toNat + 1 := ht.height_succ hPx hPb hxhash.symm
  -- the branch ends at the height of the ancestor
  have habove := UInt64.lt_iff_toNat_lt.mp (hbranch.above b hmem)
  have hstop := mt UInt64.lt_iff_toNat_lt.mpr (hbranch.stop x hx)
  have hheight : x.height.toNat = ancestor.height.toNat := by omega
  have hsame : a.height.toNat = ancestor.height.toNat :=
    (ht.hash_inj (hl.mem a ha) (hc.blocks ancestor hancestor) hahash).1
  obtain ⟨l', rfl⟩ := hbranch.exists_cons
  have hhash : x.hash = a.hash :=
    hdescends.hash_eq ht hl rfl (List.mem_of_getLast? hx) ha (hheight.trans hsame.symm)
  refine ⟨?_, ?_⟩
  · rw [← hxhash, hhash, hahash]
  · rw [hsucc, hheight]

end Junction

/-- The last block a reorganisation keeps is its ancestor. -/
theorem Chain.Linked.getLast?_kept (hl : c.Linked) (ha : ancestor ∈ c.blocks)
    (hp : p ∈ (c.kept ancestor).getLast?) : p = ancestor := by
  have hget := hl.getElem?_height ha
  have hlt := ancestor.height.toNat_lt
  unfold Chain.kept at hp
  rw [goInt_eq] at hp
  split at hp
  · have hk : ((ancestor.height.toNat : Int) + 1).toNat = ancestor.height.toNat + 1 := by omega
    rw [hk, List.take_add_one, hget, Option.toList_some, List.getLast?_concat] at hp
    exact (Option.some.inj hp).symm
  · have hk : ((ancestor.height.toNat : Int) - 2 ^ 64 + 1).toNat = 0 := by omega
    rw [hk] at hp
    cases hp

/-! ## The condition -/

/-- **The condition under which a step keeps the chain linked.** An extension: the store does
not take a block two above the tip, for it has another block, or none, at the height above
the tip. A reorganisation: it is not refused halfway through, there are fewer fork blocks
than steps in the completeness check, and an ancestor that the caller names is one. A
rollback: nothing. -/
def CoreStep.KeepsLinks (env : Env) (P : Block → Prop) (calls : List Call) : CoreStep → Prop
  | .extend before b => b.height = before.length64 + 1 →
      b.height ≠ 0 ∧ before.store.canon.lookup (b.height - 1) ≠ some b.header.prevHash
  | .reorganize before ancestor newBlocks =>
    ¬ CoreStep.Refused env (.reorganize before ancestor newBlocks)
      ∧ before.forkBlocksByHash.keys.length + 1 < 10000
      ∧ ∀ newTip, .reorganizeToKnownFork ancestor newTip ∈ calls → before.Meets P ancestor newTip
  | .rollback _ _ => True

/-- The ancestor and the new tip of a reorganisation: found by `AddBlock`, or named by a
caller. -/
def Chain.Aim (calls : List Call) (c : Chain) (ancestor newTip : Block) : Prop :=
  c.Target ancestor newTip ∨ .reorganizeToKnownFork ancestor newTip ∈ calls

/-- A block that the store appends above height 0 names the block that the store has at the
height below. -/
theorem canon_of_appended {store : BoltStore} (h : c.appended env b = .ok store)
    (hheight : b.height ≠ 0) : c.store.canon.lookup (b.height - 1) = some b.header.prevHash := by
  have hpos : b.height > 0 := by
    exact Nat.pos_of_ne_zero fun hzero => hheight (UInt64.toNat.inj hzero)
  rw [Chain.appended, view_putOn] at h
  exact BoltStore.canon_of_appendCanonical (b := c.withWork b) hpos (Chain.written_eq_ok.mp h).2

/-- **A block that is accepted at the tip is a child of it**, or the first block at height 0. -/
theorem Attach.isParent (hc : c.Holds P) (ht : blockTree.Honest P)
    (hP : P b) (h : Attach c b) (happended : ∃ store, c.appended env b = .ok store)
    (hclean : CoreStep.KeepsLinks env P calls (.extend c b)) :
    (∃ tip, c.tip? = some tip ∧ IsParent tip b) ∨ (c.tip? = none ∧ b.height = 0) := by
  obtain ⟨store, hstore⟩ := happended
  rcases h with ⟨tip, htip, hprev, -⟩ | htwo | ⟨hnone, hheight⟩
  · have htipP : P tip := hc.blocks tip (List.mem_of_getLast? htip)
    exact .inl ⟨tip, htip, hprev, ht.height_succ htipP hP hprev⟩
  · obtain ⟨hne, hcanon⟩ := hclean htwo
    exact absurd (canon_of_appended hstore hne) hcanon
  · refine .inr ⟨hnone, ?_⟩
    rw [hheight, Chain.length64, List.getLast?_eq_none_iff.mp hnone]
    rfl

/-- The first block after a reorganisation is the first before it. -/
theorem Chain.Linked.root_spliced (hl : c.Linked) (ha : ancestor ∈ c.blocks)
    (hindex : 0 ≤ goInt ancestor.height + 1) {newBlocks : List Block}
    (habove : ∀ b ∈ newBlocks, ancestor.height < b.height) :
    ∀ b ∈ (c.spliced ancestor newBlocks).head?, b.height = 0 := by
  intro b hb
  rw [goInt_eq] at hindex
  unfold Chain.spliced at hb
  rw [goInt_eq] at hb
  split at hindex
  · next hlt =>
    have hk : ((ancestor.height.toNat : Int) + 1).toNat = ancestor.height.toNat + 1 := by omega
    rw [if_pos hlt, hk] at hb
    obtain ⟨x, xs, hblocks⟩ := List.exists_cons_of_ne_nil (List.ne_nil_of_mem ha)
    refine hl.root b ?_
    rw [hblocks, List.take_succ_cons] at hb
    rw [hblocks]
    exact hb
  · next hge =>
    -- an ancestor of the greatest height, above which there is nothing
    have h64 := ancestor.height.toNat_lt
    have hk : ((ancestor.height.toNat : Int) - 2 ^ 64 + 1).toNat = 0 := by omega
    rw [if_neg hge, hk] at hb
    have hlt := UInt64.lt_iff_toNat_lt.mp (habove b (List.mem_of_mem_head? hb))
    have hb64 := b.height.toNat_lt
    omega

theorem Extension.root {w' : World} (h : Extension env w w' b) (hw : w.chain.Linked)
    (hfirst : (∃ store, w.chain.appended env b = .ok store) → w.chain.tip? = none → b.height = 0) :
    ∀ x ∈ w'.chain.blocks.head?, x.height = 0 := by
  rcases h.blocks_eq with hblocks | ⟨happended, -, hblocks⟩
  · rw [hblocks]
    exact hw.root
  · rw [hblocks]
    cases htip : w.chain.tip? with
    | none =>
      rw [List.getLast?_eq_none_iff.mp htip]
      intro x hx
      rw [← Option.some.inj hx]
      exact hfirst happended htip
    | some tip =>
      rw [List.head?_append_of_ne_nil _ (List.ne_nil_of_mem (List.mem_of_getLast? htip))]
      exact hw.root

/-- **One move keeps the chain linked.** -/
theorem Move.linked (ht : blockTree.Honest P) {w' : World}
    (h : Move env P (Chain.Aim calls) w w') (hc : w.chain.Holds P)
    (hclean : ∀ step ∈ w'.steps, CoreStep.KeepsLinks env P calls step) (hw : w.chain.Linked) :
    w'.chain.Linked := by
  have hlast : ∀ {step}, w'.steps = step :: w.steps → CoreStep.KeepsLinks env P calls step := by
    intro step hsteps
    exact hclean step (by rw [hsteps]; exact List.mem_cons_self)
  -- no reorganisation was refused, so a block is put on the tip it was compared with
  have hattach : ∀ {b}, w'.steps = .extend w.chain b :: w.steps → Attaches env w b →
      Attach w.chain b := by
    intro b hsteps hb
    refine hb.resolve_right fun ⟨step, hstep, hrefused⟩ => ?_
    have hkeeps := hclean step (by rw [hsteps]; exact List.mem_cons_of_mem _ hstep)
    cases step with
    | extend before b => exact hrefused
    | reorganize before ancestor newBlocks => exact hkeeps.1 hrefused
    | rollback before height => exact hrefused
  have hmeets : ∀ {ancestor newTip visited}, P newTip → w.chain.Aim calls ancestor newTip →
      w'.steps = .reorganize w.chain ancestor visited :: w.steps →
      w.chain.Meets P ancestor newTip := by
    intro ancestor newTip visited hP haim hsteps
    obtain ⟨-, hsize, hnamed⟩ := hlast hsteps
    rcases haim with htarget | hcall
    · exact htarget.meets hc ht hw hsize hP
    · exact hnamed newTip hcall
  constructor
  · refine h.isChain hw.links ?_ ?_
    · intro b hP hb happended _ hsteps tip htip
      rcases (hattach hsteps hb).isParent hc ht hP happended (hlast hsteps) with
        ⟨tip', htip', hparent⟩ | ⟨hnone, -⟩
      · obtain rfl : tip' = tip := Option.some.inj (htip'.symm.trans htip)
        exact hparent
      · exact nomatch hnone.symm.trans htip
    · intro ancestor newTip visited hP haim hbranch hsteps
      have hancestor := hmeets hP haim hsteps
      refine ⟨hbranch.newBlocks_linked hc ht hP, fun p hp b hb => ?_⟩
      rw [hw.getLast?_kept hancestor.1 hp]
      exact hbranch.isParent_ancestor hc ht hP hancestor hb
  · cases h with
    | still hsteps hcore =>
      have hblocks : w'.chain.blocks = w.chain.blocks := congrArg Core.blocks hcore
      rw [hblocks]
      exact hw.root
    | extend b hP hb h =>
      refine h.root hw fun happended hnone => ?_
      rcases (hattach h.steps hb).isParent hc ht hP happended (hlast h.steps) with
        ⟨tip, htip, -⟩ | ⟨-, hzero⟩
      · exact nomatch hnone.symm.trans htip
      · exact hzero
    | switch ancestor newTip visited hP haim hbranch h =>
      rw [h.blocks_eq]
      refine hw.root_spliced (hmeets hP haim h.steps).1 h.index fun b hb => ?_
      exact hbranch.above b (List.mem_reverse.mp hb)
    | cut height h =>
      rw [h.blocks_eq]
      intro b hb
      refine hw.root b ?_
      rw [List.head?_take] at hb
      exact hb

/-- The fresh chain is linked. -/
theorem Fresh.linked (h : Fresh env w) : w.chain.Linked := by
  refine ⟨?_, fun b hb => ?_⟩
  · rw [h.blocks]
    exact .singleton _
  · rw [h.blocks] at hb
    rw [← Option.some.inj hb]
    rfl

/-- What a call brings in. -/
def Call.Brings (P : Block → Prop) : Call → Prop
  | .addBlock b => P b
  | .rollbackToHeight _ => True
  | .reorganizeToKnownFork _ newTip => P newTip

theorem brings_addBlocks {bs : List Block} (h : ∀ b ∈ bs, P b) :
    ∀ call ∈ bs.map Call.addBlock, call.Brings P := by
  intro call hcall
  obtain ⟨b, hb, rfl⟩ := List.mem_map.mp hcall
  exact h b hb

/-- What is held at the end of every run by honest blocks, and that the chain is linked if all
steps of the run meet `KeepsLinks`. -/
theorem holds_linked_of_run (ht : blockTree.Honest P) (hgenesis : P (createGenesisBlock env))
    (hcalls : ∀ call ∈ calls, call.Brings P)
    (h : runFromStart env calls = some w) :
    w.chain.Holds P
      ∧ ((∀ step ∈ w.steps, CoreStep.KeepsLinks env P calls step) → w.chain.Linked) := by
  refine run_invariant (T := Chain.Aim calls) (I := fun w => w.chain.Linked)
    (fun _ _ _ => .inl) hgenesis (fun w hw => hw.linked)
    (fun w w' hc hclean hw hmove => hmove.linked ht hc hclean hw) (fun call hcall => ?_) h
  have hbrings := hcalls call hcall
  cases call with
  | addBlock b => exact fun _ => hbrings
  | rollbackToHeight height => exact trivial
  | reorganizeToKnownFork ancestor newTip => exact ⟨hbrings, fun _ => .inr hcall⟩

/-- **The canonical chain is linked** at the end of every run by honest blocks all of whose
steps meet `KeepsLinks`: the height of a block is its index, and each block names the one
before it. -/
theorem canonical_linked (ht : blockTree.Honest P) (hgenesis : P (createGenesisBlock env))
    {calls : List Call} {w : World} (hcalls : ∀ call ∈ calls, call.Brings P)
    (h : runFromStart env calls = some w)
    (hsteps : ∀ step ∈ w.steps, CoreStep.KeepsLinks env P calls step) :
    (∀ (i : Nat) (hi : i < w.chain.blocks.length), w.chain.blocks[i].height.toNat = i)
      ∧ ∀ (i : Nat) (hi : i + 1 < w.chain.blocks.length),
        w.chain.blocks[i + 1].header.prevHash = w.chain.blocks[i].hash := by
  have hlinked := (holds_linked_of_run ht hgenesis hcalls h).2 hsteps
  refine ⟨hlinked.height_eq, fun i hi => ?_⟩
  exact (List.isChain_iff_getElem.mp hlinked.links i hi).1

/-! ## Two runs -/

/-- A reorganisation whose chain can be replayed and stored is not refused, by a database that
carries the write out. -/
theorem not_refused {before : Chain} {newBlocks : List Block}
    (hstore : env.storeOk before.tick = true)
    (hreplay : (replayBlocks env ((before.spliced ancestor newBlocks).map before.view) ∅).value?
      = some ())
    (hrewrite : (before.store.rewriteCanonical ((before.spliced ancestor newBlocks).map
      (viewWith (totalWorkOf (before.spliced ancestor newBlocks) before.totalWork).2))).isOk
        = true) :
    ¬ CoreStep.Refused env (.reorganize before ancestor newBlocks) := by
  rintro (⟨e, s, hs⟩ | ⟨e, he⟩ | hn)
  · rw [hs] at hreplay
    cases hreplay
  · rw [he] at hrewrite
    cases hrewrite
  · exact nomatch hstore.symm.trans hn

/-- The decidable part of `KeepsLinks`, for runs without explicit reorganisations. -/
def CoreStep.linksChecked (env : Env) : CoreStep → Bool
  | .extend before b => b.height = before.length64 + 1 →
      b.height ≠ 0 ∧ before.store.canon.lookup (b.height - 1) ≠ some b.header.prevHash
  | .reorganize before ancestor newBlocks =>
    let blocks := before.spliced ancestor newBlocks
    env.storeOk before.tick ∧ (replayBlocks env (blocks.map before.view) ∅).value? = some ()
      ∧ (before.store.rewriteCanonical
          (blocks.map (viewWith (totalWorkOf blocks before.totalWork).2))).isOk
      ∧ before.forkBlocksByHash.keys.length + 1 < 10000
  | .rollback _ _ => true

theorem CoreStep.keepsLinks_of_checked {step : CoreStep}
    (hcalls : ∀ ancestor newTip, .reorganizeToKnownFork ancestor newTip ∉ calls)
    (h : step.linksChecked env = true) : CoreStep.KeepsLinks env P calls step := by
  cases step with
  | extend before b =>
    have hshortcut : b.height = before.length64 + 1 →
        b.height ≠ 0 ∧ before.store.canon.lookup (b.height - 1) ≠ some b.header.prevHash :=
      of_decide_eq_true h
    exact hshortcut
  | reorganize before ancestor newBlocks =>
    obtain ⟨hstore, hreplay, hrewrite, hsize⟩ := of_decide_eq_true h
    exact ⟨not_refused hstore hreplay hrewrite, hsize, fun newTip hcall =>
      absurd hcall (hcalls ancestor newTip)⟩
  | rollback before height => exact trivial

/-- A finite set of blocks is honest if every two of its blocks agree. -/
theorem honest_of_list {l : List Block} (h : ∀ a ∈ l, ∀ b ∈ l,
      (b.header.prevHash = a.hash → b.height.toNat = a.height.toNat + 1)
        ∧ (a.hash = b.hash → a.height = b.height ∧ a.header.prevHash = b.header.prevHash)) :
    blockTree.Honest (· ∈ l) where
  height_succ ha hb hprev := (h _ ha _ hb).1 hprev
  hash_inj ha hb hhash := by
    obtain ⟨hheight, hprev⟩ := (h _ ha _ hb).2 hhash
    exact ⟨congrArg UInt64.toNat hheight, hprev⟩

/-- A block with hash `n` on the block with hash `prev`. -/
def numberedBlock (n prev : UInt8) (height : UInt64) (bits : UInt32) : Block :=
  { sampleBlock (List.replicate 32 n) (List.replicate 32 prev) height bits [] with ptr := n.toNat }

/-- A block, a heavier rival and a child of the rival. -/
def rivalBranch : List Block :=
  [numberedBlock 1 0 1 10, numberedBlock 2 0 1 20, numberedBlock 3 2 2 10]

/-- The chain is switched to the rival, which then gets a child. -/
theorem canonical_linked_rivalBranch :
    ∃ w, runFromStart sampleEnv (rivalBranch.map .addBlock) = some w ∧ w.chain.blocks.length = 3
      ∧ ∀ (i : Nat) (hi : i + 1 < w.chain.blocks.length),
        w.chain.blocks[i + 1].header.prevHash = w.chain.blocks[i].hash := by
  refine Prog.exists_and_of (fun w => w.chain.blocks.length = 3
      ∧ ∀ step ∈ w.steps, step.linksChecked sampleEnv = true) (by decide +kernel) fun w hw h => ?_
  obtain ⟨hlength, hsteps⟩ := h
  have hhonest : blockTree.Honest (· ∈ createGenesisBlock sampleEnv :: rivalBranch) :=
    honest_of_list (by decide +kernel)
  have hlinked := canonical_linked hhonest List.mem_cons_self
    (brings_addBlocks fun b hb => List.mem_cons_of_mem _ hb) hw
    fun step hstep => CoreStep.keepsLinks_of_checked (by simp) (hsteps step hstep)
  exact ⟨hlength, hlinked.2⟩

/-- **A fork block with a wrong height breaks the chain.** On a chain of five blocks, a heavy
block of height 3 that names the genesis block as its parent is put on block 1. -/
theorem spliced_block_unlinked :
    ∃ w b, runFromStart sampleEnv [.addBlock (numberedBlock 1 0 1 10),
        .addBlock (numberedBlock 2 1 2 10), .addBlock (numberedBlock 3 2 3 10),
        .addBlock (numberedBlock 4 3 4 10), .addBlock (numberedBlock 9 0 3 1000)] = some w
      ∧ w.chain.blocks = [createGenesisBlock sampleEnv, numberedBlock 1 0 1 10, b]
      ∧ b.height = 3 ∧ b.header.prevHash ≠ (numberedBlock 1 0 1 10).hash := by
  simp only [exists_and_left]
  exact Prog.exists_and_of (fun w => w.chain.blocks = [createGenesisBlock sampleEnv,
      numberedBlock 1 0 1 10, numberedBlock 9 0 3 1000]) (by decide +kernel) fun _ _ h =>
    ⟨numberedBlock 9 0 3 1000, h, rfl, by decide⟩

end NogoChain
