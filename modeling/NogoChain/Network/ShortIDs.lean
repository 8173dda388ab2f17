import NogoChain.Network.CompactBlock

/-!
# Short identifiers, matched in two ways

Up to 5000 transactions in the pool, `reconstructBlockV2Naive` walks the short identifiers of
the block and appends what it finds. Above that, `reconstructBlockV2WithSalt` walks the pool,
leaves out what the sender did not list as salt, and fills positions. The two agree exactly if
nothing is missing and nothing stands twice. `BuildCompactBlock` sends no salt at all, so the
second way then finds nothing.
-/

namespace NogoChain

variable {k0 : UInt64} {id : Bytes} {tx : Transaction} {cb : CompactBlockMsg}
variable {mp : MempoolInterface}

/-! ## One by one -/

/-- Every short identifier leads to a transaction or to one that is missing. -/
theorem matchShortID_length (mp : MempoolInterface) (candidates : Option (List Bytes))
    (unknown : Bytes) (found : Found) :
    (matchShortID mp candidates unknown found).txs.length
        + (matchShortID mp candidates unknown found).missingIDs.length
      = found.txs.length + found.missingIDs.length + 1 := by
  unfold matchShortID
  split
  · rw [List.length_append, List.length_singleton, Nat.add_assoc]
  · split
    · rw [List.length_append, List.length_singleton, Nat.add_right_comm]
    · rw [List.length_append, List.length_singleton, Nat.add_assoc]

theorem foldl_matchShortID_length {α : Type} (mp : MempoolInterface)
    (candidates : α → Option (List Bytes)) (unknown : α → Bytes) (l : List α) (found : Found) :
    (l.foldl (fun found a => matchShortID mp (candidates a) (unknown a) found) found).txs.length
        + (l.foldl (fun found a =>
          matchShortID mp (candidates a) (unknown a) found) found).missingIDs.length
      = found.txs.length + found.missingIDs.length + l.length := by
  induction l generalizing found with
  | nil => rfl
  | cons a l ih =>
    rw [List.foldl_cons, ih, matchShortID_length, List.length_cons]
    omega

variable {sid : UInt64} {pos : Nat}

/-- A short identifier that only one identifier of the pool has finds its transaction. -/
theorem matchShortID_of_unique (hid : id ∈ mp.getTxIDs) (hsid : shortIDOf k0 id = some sid)
    (htx : mp.getTx id = some tx)
    (hunique : ∀ id' ∈ mp.getTxIDs, shortIDOf k0 id' = some sid → id' = id) (unknown : Bytes)
    (found : Found) :
    matchShortID mp ((GoMap.group (shortIDOf k0) mp.getTxIDs).lookup sid) unknown found
      = { found with txs := found.txs ++ [tx] } := by
  rw [GoMap.lookup_group]
  cases hfilter : mp.getTxIDs.filter fun x => shortIDOf k0 x = some sid with
  | nil =>
    have hmem : id ∈ mp.getTxIDs.filter fun x => shortIDOf k0 x = some sid :=
      List.mem_filter.mpr ⟨hid, decide_eq_true hsid⟩
    rw [hfilter] at hmem
    cases hmem
  | cons x xs =>
    have hx : x ∈ mp.getTxIDs.filter fun x => shortIDOf k0 x = some sid :=
      hfilter ▸ List.mem_cons_self
    obtain ⟨hx, hxsid⟩ := List.mem_filter.mp hx
    obtain rfl : x = id := hunique x hx (of_decide_eq_true hxsid)
    rw [if_neg (List.cons_ne_nil x xs)]
    unfold matchShortID
    dsimp only
    rw [List.findSome?_cons, htx]

/-! ## Salt -/

namespace CompactBlockMsg

/-- The position of a short identifier in the block, the last if there are several. -/
def blockSIDPos (cb : CompactBlockMsg) : GoMap UInt64 Nat :=
  cb.shortTxIDsV2.zipIdx.foldl (fun m e => m.insert e.1 e.2) ∅

/-- What one identifier of the pool finds. -/
def saltMatch (cb : CompactBlockMsg) (mp : MempoolInterface) (fullID : Bytes) :
    Option (Nat × Transaction) :=
  (shortIDOf cb.nonce fullID).bind fun sid =>
    if sid ∈ cb.saltTxIDsV2 then
      (cb.blockSIDPos.lookup sid).bind fun pos => (mp.getTx fullID).map fun tx => (pos, tx)
    else none

def foundMap (cb : CompactBlockMsg) (mp : MempoolInterface) : GoMap Nat Transaction :=
  GoMap.fill (cb.saltMatch mp) mp.getTxIDs

theorem reconstructBlockV2WithSalt_eq (cb : CompactBlockMsg) (coinbaseTx : Transaction)
    (mp : MempoolInterface) : reconstructBlockV2WithSalt cb coinbaseTx mp =
      { txs := coinbaseTx :: cb.shortTxIDsV2.mapIdx fun pos _ =>
          ((cb.foundMap mp).lookup pos).getD Transaction.zero
        missingIDs := (cb.shortTxIDsV2.zipIdx.filter fun e =>
          ((cb.foundMap mp).lookup e.2).isNone).map fun e => sidText e.1 } := by
  unfold reconstructBlockV2WithSalt foundMap
  dsimp only
  rw [GoMap.foldl_eq_fill (f := cb.saltMatch mp)]
  intro m fullID
  unfold saltMatch
  cases shortIDOf cb.nonce fullID with
  | none => rfl
  | some sid =>
    by_cases hsalt : sid ∈ cb.saltTxIDsV2
    · cases hpos : cb.blockSIDPos.lookup sid <;> cases mp.getTx fullID <;> simp_all [blockSIDPos]
    · simp [hsalt]

theorem saltMatch_eq_some_iff {fullID : Bytes} : cb.saltMatch mp fullID = some (pos, tx)
      ↔ ∃ sid, shortIDOf cb.nonce fullID = some sid ∧ sid ∈ cb.saltTxIDsV2
        ∧ cb.blockSIDPos.lookup sid = some pos ∧ mp.getTx fullID = some tx := by
  simp [saltMatch, Option.bind_eq_some_iff]

theorem getElem?_of_blockSIDPos
    (h : cb.blockSIDPos.lookup sid = some pos) : cb.shortTxIDsV2[pos]? = some sid := by
  obtain ⟨e, he, rfl, rfl⟩ := (GoMap.lookup_of_foldl_insert Prod.fst Prod.snd h).resolve_right nofun
  exact List.mem_zipIdx_iff_getElem?.mp he

theorem blockSIDPos_of_nodup (hnodup : cb.shortTxIDsV2.Nodup)
    (h : cb.shortTxIDsV2[pos]? = some sid) : cb.blockSIDPos.lookup sid = some pos :=
  GoMap.lookup_foldl_insert Prod.fst Prod.snd (by rwa [List.zipIdx_map_fst])
    (List.mem_zipIdx_iff_getElem?.mpr h : (sid, pos) ∈ _) ∅

/-- The second way misses nothing exactly if every position is filled. -/
theorem missingIDs_eq_nil_iff (coinbaseTx : Transaction) :
    (reconstructBlockV2WithSalt cb coinbaseTx mp).missingIDs = []
      ↔ ∀ sid pos, cb.shortTxIDsV2[pos]? = some sid →
        ∃ tx, (cb.foundMap mp).lookup pos = some tx := by
  simp [reconstructBlockV2WithSalt_eq, List.mem_zipIdx_iff_getElem?, Option.ne_none_iff_exists']

/-- **Where the two ways agree**: no short identifier stands twice in the block, and each is
one that the sender listed and that the pool has a transaction for. -/
structure AllSalted (cb : CompactBlockMsg) (mp : MempoolInterface) : Prop where
  nodup : cb.shortTxIDsV2.Nodup
  has : ∀ sid ∈ cb.shortTxIDsV2, ∃ tx, ∃ id ∈ mp.getTxIDs,
    shortIDOf cb.nonce id = some sid ∧ sid ∈ cb.saltTxIDsV2 ∧ mp.getTx id = some tx

/-- What fills a position was listed, is in the pool, and has no other position. -/
theorem AllSalted.of_missingIDs {coinbaseTx : Transaction}
    (h : (reconstructBlockV2WithSalt cb coinbaseTx mp).missingIDs = []) : cb.AllSalted mp := by
  have hspec : ∀ sid pos, cb.shortTxIDsV2[pos]? = some sid → cb.blockSIDPos.lookup sid = some pos
      ∧ ∃ tx, ∃ id ∈ mp.getTxIDs,
        shortIDOf cb.nonce id = some sid ∧ sid ∈ cb.saltTxIDsV2 ∧ mp.getTx id = some tx := by
    intro sid pos hsid
    obtain ⟨tx, htx⟩ := (missingIDs_eq_nil_iff coinbaseTx).mp h sid pos hsid
    obtain ⟨id, hid, hmatch⟩ := GoMap.exists_of_lookup_fill htx
    obtain ⟨sid', hsid', hsalt, hpos, hget⟩ := saltMatch_eq_some_iff.mp hmatch
    obtain rfl : sid' = sid := Option.some.inj ((getElem?_of_blockSIDPos hpos).symm.trans hsid)
    exact ⟨hpos, tx, id, hid, hsid', hsalt, hget⟩
  refine ⟨List.nodup_iff_getElem?_ne_getElem?.mpr ?_, ?_⟩
  · intro i j hij hj heq
    have hj := List.getElem?_eq_getElem hj
    exact hij.ne (Option.some.inj ((hspec _ i (heq.trans hj)).1.symm.trans (hspec _ j hj).1))
  · intro sid hsid
    obtain ⟨pos, hpos⟩ := List.mem_iff_getElem?.mp hsid
    exact (hspec sid pos hpos).2

end CompactBlockMsg

/-- No two identifiers of the pool have the same short one. -/
def MempoolInterface.NoCollision (mp : MempoolInterface) (k0 : UInt64) : Prop :=
  ∀ id ∈ mp.getTxIDs, ∀ id' ∈ mp.getTxIDs, ∀ sid,
    shortIDOf k0 id = some sid → shortIDOf k0 id' = some sid → id' = id

theorem foldl_matchShortID_eq_map (hmp : mp.NoCollision k0) {txOf : UInt64 → Transaction}
    {sids : List UInt64} (hhas : ∀ sid ∈ sids, ∃ id ∈ mp.getTxIDs,
      shortIDOf k0 id = some sid ∧ mp.getTx id = some (txOf sid)) (found : Found) :
    sids.foldl (fun found sid => matchShortID mp
        ((GoMap.group (shortIDOf k0) mp.getTxIDs).lookup sid) (sidText sid) found) found
      = { found with txs := found.txs ++ sids.map txOf } := by
  induction sids generalizing found with
  | nil => simp
  | cons sid sids ih =>
    obtain ⟨id, hid, hsid, hget⟩ := hhas sid List.mem_cons_self
    rw [List.foldl_cons, matchShortID_of_unique hid hsid hget
      (fun id' hid' hsid' => hmp id hid id' hid' sid hsid hsid'),
      ih fun sid hsid => hhas sid (List.mem_cons_of_mem _ hsid)]
    simp

theorem CompactBlockMsg.AllSalted.lookup_foundMap (h : cb.AllSalted mp)
    (hmp : mp.NoCollision cb.nonce) {txOf : UInt64 → Transaction}
    (htx : ∀ sid ∈ cb.shortTxIDsV2, ∃ id ∈ mp.getTxIDs,
      shortIDOf cb.nonce id = some sid ∧ sid ∈ cb.saltTxIDsV2 ∧ mp.getTx id = some (txOf sid))
    (hpos : cb.shortTxIDsV2[pos]? = some sid) :
    (cb.foundMap mp).lookup pos = some (txOf sid) := by
  obtain ⟨id, hid, hsid, hsalt, hget⟩ := htx sid (List.mem_of_getElem? hpos)
  have hmatch := saltMatch_eq_some_iff.mpr
    ⟨sid, hsid, hsalt, blockSIDPos_of_nodup h.nodup hpos, hget⟩
  obtain ⟨tx, htx⟩ := GoMap.exists_lookup_fill hid hmatch
  -- whatever fills the position has the same short identifier, so it is the same transaction
  obtain ⟨id', hid', hmatch'⟩ := GoMap.exists_of_lookup_fill htx
  obtain ⟨sid', hsid', -, hpos', hget'⟩ := saltMatch_eq_some_iff.mp hmatch'
  obtain rfl : sid = sid' := Option.some.inj (hpos.symm.trans (getElem?_of_blockSIDPos hpos'))
  obtain rfl : id' = id := hmp id hid id' hid' sid hsid hsid'
  rwa [← Option.some.inj (hget'.symm.trans hget)]

/-- **The two ways of matching agree exactly where nothing is missing.** -/
theorem matching_agrees_iff (cb : CompactBlockMsg) (coinbaseTx : Transaction)
    (mp : MempoolInterface) (hmp : mp.NoCollision cb.nonce) :
    reconstructBlockV2Naive cb coinbaseTx mp = reconstructBlockV2WithSalt cb coinbaseTx mp
      ↔ cb.AllSalted mp := by
  constructor
  · intro heq
    have hlength := foldl_matchShortID_length mp
      (GoMap.group (shortIDOf cb.nonce) mp.getTxIDs).lookup sidText cb.shortTxIDsV2
      ⟨[coinbaseTx], []⟩
    change (reconstructBlockV2Naive cb coinbaseTx mp).txs.length
      + (reconstructBlockV2Naive cb coinbaseTx mp).missingIDs.length = _ at hlength
    have htxs : (reconstructBlockV2WithSalt cb coinbaseTx mp).txs.length
        = cb.shortTxIDsV2.length + 1 := by
      simp [CompactBlockMsg.reconstructBlockV2WithSalt_eq]
    rw [heq, htxs, List.length_singleton, List.length_nil] at hlength
    have hmissing : (reconstructBlockV2WithSalt cb coinbaseTx mp).missingIDs.length = 0 := by omega
    exact .of_missingIDs (List.length_eq_zero_iff.mp hmissing)
  · intro h
    have : Nonempty Transaction := ⟨.zero⟩
    choose! txOf htx using h.has
    have hlookup : ∀ sid pos, cb.shortTxIDsV2[pos]? = some sid →
        (cb.foundMap mp).lookup pos = some (txOf sid) := fun sid pos => h.lookup_foundMap hmp htx
    have hmissing : (reconstructBlockV2WithSalt cb coinbaseTx mp).missingIDs = [] :=
      (CompactBlockMsg.missingIDs_eq_nil_iff coinbaseTx).mpr
        fun sid pos hpos => ⟨_, hlookup sid pos hpos⟩
    have htxs : (cb.shortTxIDsV2.mapIdx fun pos _ =>
        ((cb.foundMap mp).lookup pos).getD Transaction.zero) = cb.shortTxIDsV2.map txOf := by
      ext1 pos
      rw [List.getElem?_map, List.getElem?_mapIdx]
      cases hpos : cb.shortTxIDsV2[pos]? with
      | none => rfl
      | some sid => simp [hlookup sid pos hpos]
    rw [CompactBlockMsg.reconstructBlockV2WithSalt_eq] at hmissing ⊢
    dsimp only at hmissing
    unfold reconstructBlockV2Naive
    rw [foldl_matchShortID_eq_map hmp fun sid hsid =>
      (htx sid hsid).imp fun id hid => ⟨hid.1, hid.2.1, hid.2.2.2⟩, hmissing, htxs]
    rfl

def buildCompactBlockV2WithMempool (cr : Crypto) (block : Block) (sessionNonce : UInt64)
    (mp : Option MempoolInterface) : Option CompactBlockMsg :=
  (buildCompactBlockV2 cr block sessionNonce).map fun msg =>
    match mp with
    | none => msg
    | some mp =>
      if mp.size > compactBlockV2SaltThreshold then
        { msg with saltTxIDsV2 := mp.getTxIDs.filterMap (shortIDOf sessionNonce) }
      else msg

/-- The identifier of every transaction when every digest is zero. -/
def zeroID : Bytes := Hex.encodeToString (List.replicate 32 0)

/-- Digests that start with the sum of the bytes. -/
def Crypto.tally : Crypto :=
  { Crypto.constant with
    sha256 := fun x => x.foldl (· + ·) 0 :: List.replicate 31 0
    sha256_length := fun _ => rfl }

/-- The identifier of a transaction for these digests. -/
def tallyID (tx : Transaction) : Bytes := (txIDHex Crypto.tally tx).toOption.getD []

/-- A pool with two transactions, and the size that it gives. -/
def poolOfTwo (size : Nat) : MempoolInterface :=
  let txs := [coinbaseTo (zeroAddress 1) 792000000, coinbaseTo (zeroAddress 1) 6]
  ⟨txs.map tallyID, fun id => txs.find? (tallyID · == id), size⟩

/-- The sender has a large pool. -/
theorem matching_agrees_salted :
    ∃ cb, buildCompactBlockV2WithMempool Crypto.tally
        (sampleBlock [1] [] 1 1 [coinbaseTo (zeroAddress 1) 6]) 7 (some (poolOfTwo 5001)) = some cb
      ∧ cb.shortTxIDsV2.length = 2
      ∧ reconstructBlockV2Naive cb Transaction.zero (poolOfTwo 2)
        = reconstructBlockV2WithSalt cb Transaction.zero (poolOfTwo 2) := by
  obtain ⟨cb, hcb, hlength, hapart, hall⟩ : ∃ cb, buildCompactBlockV2WithMempool Crypto.tally
        (sampleBlock [1] [] 1 1 [coinbaseTo (zeroAddress 1) 6]) 7 (some (poolOfTwo 5001)) = some cb
      ∧ cb.shortTxIDsV2.length = 2
      ∧ (∀ id ∈ (poolOfTwo 2).getTxIDs, ∀ id' ∈ (poolOfTwo 2).getTxIDs,
        shortIDOf cb.nonce id = shortIDOf cb.nonce id' → id' = id)
      ∧ (reconstructBlockV2WithSalt cb Transaction.zero (poolOfTwo 2)).missingIDs = [] := by
    decide +kernel
  refine ⟨cb, hcb, hlength, (matching_agrees_iff cb _ _ ?_).mpr (.of_missingIDs hall)⟩
  exact fun id hid id' hid' _ h h' => hapart id hid id' hid' (h.trans h'.symm)

/-- A pool with one transaction, and the size that it gives. -/
def poolOfOne (size : Nat) : MempoolInterface :=
  ⟨[zeroID], fun _ => some (coinbaseTo (zeroAddress 1) 792000000), size⟩

theorem poolOfOne_noCollision (size : Nat) (k0 : UInt64) : (poolOfOne size).NoCollision k0 :=
  fun _ hid _ hid' _ _ _ => (List.mem_singleton.mp hid').trans (List.mem_singleton.mp hid).symm

/-- **Without salt nothing is found**, though the pool has the only transaction of the block. -/
theorem matching_differs_without_salt :
    ∃ cb, buildCompactBlockV2 Crypto.constant (sampleBlock [1] [] 1 1 []) 7 = some cb
      ∧ (poolOfOne 1).NoCollision cb.nonce
      ∧ (reconstructBlockV2Naive cb Transaction.zero (poolOfOne 1)).missingIDs = []
      ∧ (reconstructBlockV2WithSalt cb Transaction.zero (poolOfOne 1)).missingIDs ≠ [] :=
  ⟨_, rfl, poolOfOne_noCollision 1 _, by decide +kernel, by decide +kernel⟩

end NogoChain
