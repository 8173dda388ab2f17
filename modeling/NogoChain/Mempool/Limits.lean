import Mathlib.Algebra.Order.BigOperators.Group.List
import Mathlib.Algebra.Order.Group.Nat
import NogoChain.Mempool.Runs

/-!
# The limits of the pool

The pool has a limit for the number of its entries and one for their total size. A newcomer to a
full pool first drives out the cheapest entry and the later ones of its sender, and only then
is its own size looked at; a replacement drives out the entries from its nonce on, and its size
is not looked at at all. So a call can fail with entries already gone, and the total can pass
its limit.

`PoolCall.Fits` is what a call needs for neither to happen, read off the pool before it: what
stays behind leaves room for the transaction.
-/

namespace NogoChain

open Prog

variable {env : Env}
  {cr : Crypto} {m m' : Mempool} {id a : Bytes} {r : List Bytes × Mempool} {tx : Transaction}
  {e : MempoolEntry}

namespace Mempool

/-! ## Limits and contents -/

/-- **The pool keeps to its limits.** -/
def WithinLimits (m : Mempool) : Prop :=
  (m.entries.keys.length : Int) ≤ m.maxSize ∧ m.totalSize ≤ m.maxTotalSize

/-- **Nothing has changed** in the entries, the indexes and the total. -/
structure SameContents (m m' : Mempool) : Prop where
  entries : m'.entries = m.entries
  bySenderNonce : m'.bySenderNonce = m.bySenderNonce
  addrInfo : m'.addrInfo = m.addrInfo
  byFee : m'.byFee = m.byFee
  totalSize : m'.totalSize = m.totalSize

theorem SameContents.refl (m : Mempool) : m.SameContents m := ⟨rfl, rfl, rfl, rfl, rfl⟩

/-- The sum of the sizes. -/
def sizeSum (m : Mempool) : Nat := (m.byFee.map (·.size.toNat)).sum

/-- The limits, with the sum of the sizes in place of its 64 bits. -/
def Bounded (m : Mempool) : Prop :=
  (m.entries.keys.length : Int) ≤ m.maxSize ∧ m.sizeSum ≤ m.maxTotalSize.toNat

theorem Bounded.totalSize (h : m.Bounded) (hm : m.Consistent cr) :
    m.totalSize.toNat = m.sizeSum := by
  rw [hm.total]
  exact Nat.mod_eq_of_lt (h.2.trans_lt m.maxTotalSize.toNat_lt)

theorem Bounded.withinLimits (h : m.Bounded) (hm : m.Consistent cr) : m.WithinLimits := by
  refine ⟨h.1, UInt64.le_iff_toNat_le.mpr ?_⟩
  rw [h.totalSize hm]
  exact h.2

end Mempool

/-! ## What an eviction leaves -/

/-- The entry is of the sender of the transaction, and has its nonce or a later one. -/
def MempoolEntry.Follows (cr : Crypto) (tx : Transaction) (e : MempoolEntry) : Prop :=
  e.tx.fromAddress cr = tx.fromAddress cr ∧ tx.nonce ≤ e.tx.nonce

instance (cr : Crypto) (tx : Transaction) (e : MempoolEntry) : Decidable (e.Follows cr tx) :=
  inferInstanceAs (Decidable (_ ∧ _))

namespace Mempool

/-- The size of the entries that do not follow a transaction. -/
def sizeWithout (cr : Crypto) (m : Mempool) (tx : Transaction) : Nat :=
  ((m.byFee.filter fun e => ¬ e.Follows cr tx).map (·.size.toNat)).sum

theorem Loses.sizeSum_le (h : m.Loses m') : m'.sizeSum ≤ m.sizeSum :=
  (h.byFee.map _).sum_le_sum fun _ _ => Nat.zero_le _

theorem Loses.bounded (h : m.Loses m') (hm : m.Bounded) : m'.Bounded := by
  refine ⟨?_, ?_⟩
  · rw [h.maxSize]
    exact (Int.ofNat_le.mpr h.length).trans hm.1
  · rw [h.maxTotalSize]
    exact h.sizeSum_le.trans hm.2

/-- **What an eviction does**: the entries that follow a transaction are gone, and the others
stay. -/
structure Evicts (cr : Crypto) (tx : Transaction) (m m' : Mempool) : Prop extends m.Loses m' where
  lookup : ∀ id e, m'.entries.lookup id = some e ↔ m.entries.lookup id = some e ∧ ¬ e.Follows cr tx

theorem lookup_removeLocked (m : Mempool) (id k : Bytes) :
    (m.removeLocked env id).entries.lookup k = if k = id then none else m.entries.lookup k := by
  rcases removeLocked_entries env m id with herase | ⟨hnone, hsame⟩
  · rw [herase, GoMap.lookup_erase]
  · rw [hsame]
    by_cases h : k = id
    · rw [if_pos h, h, hnone]
    · rw [if_neg h]

/-! ### `evictWithDependents` -/

/-- One round of the loop. -/
theorem lookup_evictLater (a : Bytes) (n : UInt64) (m : Mempool) (id k : Bytes) (e : MempoolEntry) :
    (m.evictLater env a n id).entries.lookup k = some e ↔ m.entries.lookup k = some e
      ∧ ¬ (k = id ∧ e.tx.fromAddress env.cr = .ok a ∧ n < e.tx.nonce) := by
  unfold evictLater
  cases hid : m.entries.lookup id with
  | none =>
    refine (and_iff_left_of_imp fun hk => ?_).symm
    rintro ⟨rfl, -, -⟩
    exact nomatch hk.symm.trans hid
  | some e' =>
    have hsame : k = id → m.entries.lookup k = some e → e = e' := by
      rintro rfl hk
      exact Option.some.inj (hk.symm.trans hid)
    dsimp only
    cases hsender : e'.tx.fromAddress env.cr with
    | error err =>
      refine (and_iff_left_of_imp fun hk => ?_).symm
      rintro ⟨hkid, hfrom, -⟩
      rw [hsame hkid hk, hsender] at hfrom
      cases hfrom
    | ok sender =>
      dsimp only
      split
      · next hlater =>
        rw [lookup_removeLocked]
        split
        · next hkid =>
          refine iff_of_false nofun fun ⟨hk, hnot⟩ => hnot ⟨hkid, ?_⟩
          rw [hsame hkid hk]
          exact ⟨hlater.1 ▸ hsender, hlater.2⟩
        · next hkid =>
          exact (and_iff_left fun h => hkid h.1).symm
      · next hlater =>
        refine (and_iff_left_of_imp fun hk => ?_).symm
        rintro ⟨hkid, hfrom, hnonce⟩
        rw [hsame hkid hk] at hfrom hnonce
        exact hlater ⟨Except.ok.inj (hsender.symm.trans hfrom), hnonce⟩

/-- The whole loop. -/
theorem lookup_foldl_evictLater (a : Bytes) (n : UInt64) (ids : List Bytes) (m : Mempool)
    (k : Bytes) (e : MempoolEntry) :
    (ids.foldl (evictLater env a n) m).entries.lookup k = some e ↔ m.entries.lookup k = some e
        ∧ ¬ (k ∈ ids ∧ e.tx.fromAddress env.cr = .ok a ∧ n < e.tx.nonce) := by
  induction ids generalizing m with
  | nil => exact (and_iff_left fun h => nomatch h.1).symm
  | cons id ids ih =>
    rw [List.foldl_cons, ih, lookup_evictLater, and_assoc, List.mem_cons]
    tauto

/-- **`evictWithDependents`** drives out the entries that follow the victim, itself included. -/
theorem evicts_evictWithDependents (hm : m.Consistent env.cr)
    {victim : MempoolEntry} (hid : m.entries.lookup id = some victim) :
    m.Evicts env.cr victim.tx (m.evictWithDependents env id) := by
  obtain ⟨a, ha⟩ := hm.sender hid
  refine ⟨(evicting_loses env).evictWithDependents m id, fun k e => ?_⟩
  unfold evictWithDependents
  rw [hid]
  dsimp only
  rw [ha]
  -- the loop sees every entry that is left
  have hseen : ∀ {x : Mempool}, x.entries = (m.removeLocked env id).entries →
      (x.entries.lookup k = some e ∧ ¬ (k ∈ env.order (m.removeLocked env id).tick
          (m.removeLocked env id).entries.keys
        ∧ e.tx.fromAddress env.cr = .ok a ∧ victim.tx.nonce < e.tx.nonce)
        ↔ k ≠ id ∧ m.entries.lookup k = some e
          ∧ ¬ (e.tx.fromAddress env.cr = .ok a ∧ victim.tx.nonce < e.tx.nonce)) := by
    intro x hx
    rw [hx]
    by_cases hkid : k = id
    · rw [lookup_removeLocked, if_pos hkid]
      exact iff_of_false (fun h => nomatch h.1) fun h => h.1 hkid
    · rw [lookup_removeLocked, if_neg hkid, (env.order_perm _ _).mem_iff]
      refine ⟨fun ⟨hk, hnot⟩ => ⟨hkid, hk, fun hlater => hnot ⟨?_, hlater⟩⟩,
        fun ⟨_, hk, hnot⟩ => ⟨hk, fun hlater => hnot hlater.2⟩⟩
      refine GoMap.mem_keys_of_lookup (v := e) ?_
      rw [lookup_removeLocked, if_neg hkid, hk]
  rw [lookup_foldl_evictLater, hseen rfl]
  unfold MempoolEntry.Follows
  rw [ha]
  constructor
  · rintro ⟨hkid, hk, hnot⟩
    refine ⟨hk, fun ⟨hfrom, hnonce⟩ => ?_⟩
    rcases UInt64.lt_or_eq_of_le hnonce with hlt | heq
    · exact hnot ⟨hfrom, hlt⟩
    · -- the sender and the nonce are those of the victim
      have hindex := (hm.indexed a victim.tx.nonce k).mpr ⟨e, hk, hfrom, heq.symm⟩
      have hindex' := (hm.indexed a victim.tx.nonce id).mpr ⟨victim, hid, ha, rfl⟩
      exact hkid (Option.some.inj (hindex.symm.trans hindex'))
  · rintro ⟨hk, hnot⟩
    refine ⟨?_, hk, fun ⟨hfrom, hlt⟩ => hnot ⟨hfrom, UInt64.le_of_lt hlt⟩⟩
    rintro rfl
    obtain rfl := Option.some.inj (hk.symm.trans hid)
    exact hnot ⟨ha, UInt64.le_refl _⟩

/-! ### `evictBySenderNonce` -/

theorem Consistent.tick (hm : m.Consistent env.cr) (n : Nat) :
    ({ m with tick := n } : Mempool).Consistent env.cr :=
  ⟨hm.txId, hm.sender, hm.indexed, hm.byFee, hm.ptrs, hm.allocated, hm.total, hm.recipients,
    hm.recipients_nil⟩

/-- Removing the entry of a sender and a nonce. -/
theorem lookup_removeLocked_of_txIdOf (hm : m.Consistent env.cr)
    {n : UInt64} (hid : m.txIdOf a n = some id) (k : Bytes) (e : MempoolEntry) :
    (m.removeLocked env id).entries.lookup k = some e ↔ m.entries.lookup k = some e
      ∧ ¬ (e.tx.fromAddress env.cr = .ok a ∧ e.tx.nonce = n) := by
  obtain ⟨e', he', hfrom', hnonce'⟩ := (hm.indexed a n id).mp hid
  rw [lookup_removeLocked]
  split
  · next hkid =>
    refine iff_of_false nofun fun ⟨hk, hnot⟩ => hnot ?_
    rw [hkid] at hk
    obtain rfl := Option.some.inj (hk.symm.trans he')
    exact ⟨hfrom', hnonce'⟩
  · next hkid =>
    refine (and_iff_left_of_imp fun hk ⟨hfrom, hnonce⟩ => hkid ?_).symm
    have hindex := (hm.indexed a n k).mpr ⟨e, hk, hfrom, hnonce⟩
    exact Option.some.inj (hindex.symm.trans hid)

/-- One round of the loop. -/
theorem lookup_evictNonce (hm : r.2.Consistent env.cr) (a : Bytes)
    (nonce n : UInt64) (k : Bytes) (e : MempoolEntry) :
    (evictNonce env a nonce r n).2.entries.lookup k = some e ↔ r.2.entries.lookup k = some e
      ∧ ¬ (e.tx.fromAddress env.cr = .ok a ∧ e.tx.nonce = n ∧ nonce < n) := by
  unfold evictNonce
  cases hid : r.2.txIdOf a n with
  | none =>
    refine (and_iff_left_of_imp fun hk ⟨hfrom, hnonce, _⟩ => ?_).symm
    exact nomatch ((hm.indexed a n k).mpr ⟨e, hk, hfrom, hnonce⟩).symm.trans hid
  | some id =>
    dsimp only
    split
    · next hlater =>
      rw [lookup_removeLocked_of_txIdOf hm hid]
      exact and_congr_right fun _ => not_congr
        ⟨fun h => ⟨h.1, h.2, hlater⟩, fun h => ⟨h.1, h.2.1⟩⟩
    · next hlater =>
      exact (and_iff_left fun h => hlater h.2.2).symm

/-- The whole loop. -/
theorem lookup_foldl_evictNonce (a : Bytes) (nonce : UInt64) (nonces : List UInt64)
    (hm : r.2.Consistent env.cr) (k : Bytes) (e : MempoolEntry) :
    (nonces.foldl (evictNonce env a nonce) r).2.entries.lookup k = some e
      ↔ r.2.entries.lookup k = some e
        ∧ ¬ (e.tx.fromAddress env.cr = .ok a ∧ e.tx.nonce ∈ nonces ∧ nonce < e.tx.nonce) := by
  induction nonces generalizing r with
  | nil => exact (and_iff_left fun h => nomatch h.2.1).symm
  | cons n nonces ih =>
    have hnext := ((evicting_steps trivial).evictNonce a nonce r n).consistent hm
    rw [List.foldl_cons, ih hnext, lookup_evictNonce hm, List.mem_cons]
    constructor
    · rintro ⟨⟨hk, hnot⟩, hnot'⟩
      refine ⟨hk, fun ⟨hfrom, hmem, hlt⟩ => ?_⟩
      rcases hmem with rfl | hmem
      · exact hnot ⟨hfrom, rfl, hlt⟩
      · exact hnot' ⟨hfrom, hmem, hlt⟩
    · rintro ⟨hk, hnot⟩
      exact ⟨⟨hk, fun ⟨hfrom, heq, hlt⟩ => hnot ⟨hfrom, Or.inl heq, heq ▸ hlt⟩⟩,
        fun ⟨hfrom, hmem, hlt⟩ => hnot ⟨hfrom, Or.inr hmem, hlt⟩⟩

/-- The loop over the nonces of a sender takes out the later ones. -/
theorem evicts_foldl_evictNonce (hm : r.2.Consistent env.cr)
    (a : Bytes) (nonce : UInt64) {nonces : List UInt64}
    (hnonces : ∀ n, n ∈ nonces ↔ n ∈ ((r.2.bySenderNonce.lookup a).getD ∅).keys)
    (k : Bytes) (e : MempoolEntry) :
    (nonces.foldl (evictNonce env a nonce) r).2.entries.lookup k = some e
      ↔ r.2.entries.lookup k = some e
        ∧ ¬ (e.tx.fromAddress env.cr = .ok a ∧ nonce < e.tx.nonce) := by
  rw [lookup_foldl_evictNonce a nonce nonces hm]
  refine and_congr_right fun hk => not_congr ⟨fun h => ⟨h.1, h.2.2⟩, fun h => ⟨h.1, ?_, h.2⟩⟩
  have hindex := (hm.indexed a e.tx.nonce k).mpr ⟨e, hk, h.1, rfl⟩
  rw [txIdOf, GoMap.lookup₂_eq] at hindex
  exact (hnonces _).mpr (GoMap.mem_keys_of_lookup hindex)

/-- The eviction, from where the entry of the nonce itself has been taken out. -/
theorem evicts_later (ha : tx.fromAddress env.cr = .ok a) (hr : r.2.Consistent env.cr)
    (hloses : m.Loses r.2)
    (hlookup : ∀ k e, r.2.entries.lookup k = some e ↔ m.entries.lookup k = some e
      ∧ ¬ (e.tx.fromAddress env.cr = .ok a ∧ e.tx.nonce = tx.nonce)) :
    m.Evicts env.cr tx ((env.order r.2.tick ((r.2.bySenderNonce.lookup a).getD ∅).keys).foldl
      (evictNonce env a tx.nonce) (r.1, { r.2 with tick := r.2.tick + 1 })).2 := by
  have hticked := hr.tick (r.2.tick + 1)
  have hrest := (evicting_loses env).foldl Prod.snd
    ((evicting_loses env).evictNonce a tx.nonce)
    (env.order r.2.tick ((r.2.bySenderNonce.lookup a).getD ∅).keys)
    (r.1, { r.2 with tick := r.2.tick + 1 })
  refine ⟨(hloses.trans (Loses.tick r.2 (r.2.tick + 1))).trans hrest, fun k e => ?_⟩
  rw [evicts_foldl_evictNonce hticked a tx.nonce fun n => (env.order_perm _ _).mem_iff]
  refine (and_congr_left' (hlookup k e)).trans ?_
  unfold MempoolEntry.Follows
  rw [ha, and_assoc]
  refine and_congr_right fun _ => ?_
  constructor
  · rintro ⟨hsame, hlater⟩ ⟨hfrom, hnonce⟩
    rcases UInt64.lt_or_eq_of_le hnonce with hlt | heq
    · exact hlater ⟨hfrom, hlt⟩
    · exact hsame ⟨hfrom, heq.symm⟩
  · intro hnot
    exact ⟨fun h => hnot ⟨h.1, UInt64.le_of_eq h.2.symm⟩,
      fun h => hnot ⟨h.1, UInt64.le_of_lt h.2⟩⟩

/-- **`evictBySenderNonce`** drives out the entries that follow a transaction of that sender and
nonce. -/
theorem evicts_evictBySenderNonce (hm : m.Consistent env.cr) (ha : tx.fromAddress env.cr = .ok a) :
    m.Evicts env.cr tx (m.evictBySenderNonce env a tx.nonce).2 := by
  unfold evictBySenderNonce
  cases hid : m.txIdOf a tx.nonce with
  | none =>
    refine evicts_later ha (r := ([], m)) hm (.refl m) fun k e => ?_
    refine (and_iff_left_of_imp fun hk ⟨hfrom, hnonce⟩ => ?_).symm
    exact nomatch ((hm.indexed a tx.nonce k).mpr ⟨e, hk, hfrom, hnonce⟩).symm.trans hid
  | some id =>
    exact evicts_later ha (r := ([id], m.removeLocked env id)) (hm.removeLocked id)
      (removeLocked_loses env m id) (lookup_removeLocked_of_txIdOf hm hid)

/-! ### What an eviction leaves, in numbers -/

theorem Consistent.byFee_nodup (hm : m.Consistent cr) : m.byFee.Nodup :=
  List.Nodup.of_map _ hm.ptrs

/-- The sizes that are left. -/
theorem Evicts.sizeSum (h : m.Evicts cr tx m')
    (hm : m.Consistent cr) (hm' : m'.Consistent cr) : m'.sizeSum = m.sizeWithout cr tx := by
  have hperm : m'.byFee.Perm (m.byFee.filter fun e => ¬ e.Follows cr tx) := by
    refine (List.perm_ext_iff_of_nodup hm'.byFee_nodup (hm.byFee_nodup.filter _)).mpr fun e => ?_
    rw [hm'.byFee, h.lookup, List.mem_filter, hm.byFee, decide_eq_true_iff]
  exact (hperm.map _).sum_eq

/-- One entry at least is gone. -/
theorem Evicts.length_lt (h : m.Evicts cr tx m') (he : m.entries.lookup id = some e)
    (hfollows : e.Follows cr tx) : m'.entries.keys.length < m.entries.keys.length := by
  have hsub : m'.entries.keys ⊆ m.entries.keys.erase id := by
    intro k hk
    obtain ⟨x, hx⟩ := GoMap.exists_lookup_of_mem_keys hk
    have hold := (h.lookup k x).mp hx
    refine (List.mem_erase_of_ne ?_).mpr (GoMap.mem_keys_of_lookup hold.1)
    rintro rfl
    obtain rfl := Option.some.inj (hold.1.symm.trans he)
    exact hold.2 hfollows
  have hle := (List.subperm_of_subset m'.entries.keys_nodup hsub).length_le
  have hmem := GoMap.mem_keys_of_lookup he
  have hpos := List.length_pos_of_mem hmem
  rw [List.length_erase_of_mem hmem] at hle
  omega

/-- An entry for which there is room. -/
theorem bounded_enter
    (hfree : m.entries.lookup e.txId = none) (hcount : (m.entries.keys.length : Int) < m.maxSize)
    (hsize : m.sizeSum + e.size.toNat ≤ m.maxTotalSize.toNat) : (m.enter a e).Bounded := by
  have hmax : (m.enter a e).maxSize = m.maxSize ∧ (m.enter a e).maxTotalSize = m.maxTotalSize := by
    unfold enter indexAddrInfo
    split <;> exact ⟨rfl, rfl⟩
  have hlength : (m.enter a e).entries.keys.length = m.entries.keys.length + 1 := by
    have hinsert := GoMap.length_insert_of_lookup_none hfree e
    rw [enter_entries]
    simpa [AList.keys, List.keys] using hinsert
  have hsum : (m.enter a e).sizeSum = m.sizeSum + e.size.toNat := by
    unfold sizeSum
    rw [enter_byFee]
    simp
  refine ⟨?_, ?_⟩
  · rw [hmax.1, hlength]
    exact Int.add_one_le_of_lt hcount
  · rw [hmax.2, hsum]
    exact hsize

/-- **A newcomer in the place of what was driven out.** -/
theorem Evicts.bounded_enter (h : m.Evicts env.cr tx m')
    (hm : m.Consistent env.cr) (hm' : m'.Consistent env.cr) (hbounded : m.Bounded)
    (he : m.entries.lookup id = some e) (hfollows : e.Follows env.cr tx)
    {entry : MempoolEntry} (hfree : m'.entries.lookup entry.txId = none)
    (hroom : m.sizeWithout env.cr tx + entry.size.toNat ≤ m.maxTotalSize.toNat) :
    (m'.enter a entry).Bounded := by
  refine Mempool.bounded_enter hfree ?_ ?_
  · rw [h.maxSize]
    exact (Int.ofNat_lt.mpr (h.length_lt he hfollows)).trans_le hbounded.1
  · rw [h.maxTotalSize, h.sizeSum hm hm']
    exact hroom

end Mempool

theorem MempoolEntry.follows_self (cr : Crypto) (e : MempoolEntry) : e.Follows cr e.tx :=
  ⟨rfl, UInt64.le_refl _⟩

/-! ## When a call fits -/

namespace Mempool

/-- **Room for a newcomer.** In a full pool: what stays behind when the cheapest entry is driven
out leaves room for it. Otherwise only the sum with its size has to be one of 64 bits, for the
check of the total to mean what it says. -/
def RoomFor (env : Env) (m : Mempool) (tx : Transaction) : Prop :=
  (m.isFull = true → ∀ victim ∈ m.entries.lookup (m.lowestFeeEntry env),
      m.sizeWithout env.cr victim.tx + (estimateTxSize tx).toNat ≤ m.maxTotalSize.toNat)
    ∧ (m.isFull = false → m.totalSize.toNat + (estimateTxSize tx).toNat < 2 ^ 64)

/-- **Room for a replacement.** If it outbids a pooled transaction: what stays behind when that
one is driven out leaves room for it, and its identifier is not one that stays. -/
def RoomForReplacement (cr : Crypto) (m : Mempool) (tx : Transaction) (txid : Bytes) : Prop :=
  m.Outbid cr tx → m.sizeWithout cr tx + (estimateTxSize tx).toNat ≤ m.maxTotalSize.toNat
    ∧ ∀ e ∈ m.entries.lookup txid, e.Follows cr tx

instance (m : Mempool) (tx : Transaction) : Decidable (m.RoomFor env tx) :=
  inferInstanceAs (Decidable ((_ = true → _) ∧ (_ = false → _)))

instance (m : Mempool) (tx : Transaction) (txid : Bytes) :
    Decidable (m.RoomForReplacement env.cr tx txid) :=
  inferInstanceAs (Decidable (_ → _ ∧ _))

end Mempool

/-- `lowestFeeEntry` can come upon the entry: its fee is below the highest number there is, and
it is not pooled under the empty identifier. -/
def MempoolEntry.Evictable (e : MempoolEntry) : Prop :=
  e.tx.fee ≠ FeeChecker.maxUint64 ∧ e.txId ≠ []

instance (e : MempoolEntry) : Decidable e.Evictable := inferInstanceAs (Decidable (_ ∧ _))

/-- **The call fits**, in the pool before it. -/
def PoolCall.Fits (env : Env) (m : Mempool) : PoolCall → Prop
  | .add tx | .addWithTxID tx _ _ _ | .addWithoutSignatureValidation tx => m.RoomFor env tx
  | .replaceByFee tx =>
    ∀ txid ∈ (txIDHex env.cr tx).toOption, m.RoomForReplacement env.cr tx txid
  | .replaceByFeeWithTxID tx txid => m.RoomForReplacement env.cr tx txid
  | .setMaxSize maxSize =>
    0 ≤ maxSize ∧ (m.entries.keys.length ≤ maxSize ∨ ∀ e ∈ m.byFee, e.Evictable)
  | _ => True

/-- The call returns an error. -/
def PoolCall.fails (env : Env) (m : Mempool) : PoolCall → Bool
  | .add tx => (Mempool.add env tx m).error?.isSome
  | .addWithTxID tx txid p height => (NogoChain.addWithTxID env tx txid p height m).error?.isSome
  | .addWithoutSignatureValidation tx =>
    (NogoChain.addWithoutSignatureValidation env tx m).error?.isSome
  | .replaceByFee tx => (NogoChain.replaceByFee env tx m).error?.isSome
  | .replaceByFeeWithTxID tx txid => (NogoChain.replaceByFeeWithTxID env tx txid m).error?.isSome
  | _ => false

/-! ## The calls that add -/

/-- **A call succeeds within the limits, or fails and does nothing.** -/
def Settles {ε α : Type} (m : Mempool) (o : Outcome Mempool ε Fault α) : Prop :=
  (∃ a m', o = .ret a m' ∧ m'.Bounded) ∨ ∃ e, o = .err e m

section Add

variable (hm : m.Consistent env.cr) (hb : m.Bounded)
include hm hb

/-- Room is made in a full pool, or not needed. -/
theorem makeRoom_cases (hfits : m.RoomFor env tx) :
    makeRoom env m = .err ([], .new "mempool full") m
      ∨ (makeRoom env m = .ret () m ∧ (m.entries.keys.length : Int) < m.maxSize
        ∧ m.sizeSum + (estimateTxSize tx).toNat < 2 ^ 64)
      ∨ ∃ m', makeRoom env m = .ret () m' ∧ m'.Consistent env.cr
        ∧ (∀ id, m.entries.lookup id = none → m'.entries.lookup id = none)
        ∧ (m'.entries.keys.length : Int) < m'.maxSize
        ∧ m'.sizeSum + (estimateTxSize tx).toNat ≤ m'.maxTotalSize.toNat := by
  unfold makeRoom
  rw [get_bind_apply]
  split
  · next hfull =>
    split
    · exact .inl rfl
    · next hlowest =>
      obtain ⟨victim, hvictim⟩ := Mempool.exists_lookup_lowestFeeEntry hlowest
      have hticked := hm.tick (m.tick + 1)
      have hevicts := Mempool.evicts_evictWithDependents hticked hvictim
      have hconsistent := PoolSteps.consistent
        ((Mempool.evicting_steps trivial).evictWithDependents _ (m.lowestFeeEntry env)) hticked
      refine .inr (.inr ⟨_, rfl, hconsistent, fun id hnone => ?_, ?_, ?_⟩)
      · exact Option.eq_none_iff_forall_ne_some.mpr fun e he =>
          nomatch ((hevicts.lookup id e).mp he).1.symm.trans hnone
      · rw [hevicts.maxSize]
        refine (Int.ofNat_lt.mpr ?_).trans_le hb.1
        exact hevicts.length_lt hvictim (victim.follows_self env.cr)
      · rw [hevicts.maxTotalSize, hevicts.sizeSum hticked hconsistent]
        exact hfits.1 hfull victim hvictim
  · next hfull =>
    have hcount : ¬ (m.entries.keys.length : Int) ≥ m.maxSize := by
      intro hlong
      exact hfull (by unfold Mempool.isFull; rw [decide_eq_true hlong, Bool.true_or])
    have hsum := hfits.2 (Bool.eq_false_iff.mpr hfull)
    rw [hb.totalSize hm] at hsum
    exact .inr (.inl ⟨rfl, not_le.mp hcount, hsum⟩)

omit hm hb in
/-- What `addLocked` does once there is room: `m'` is the pool then. -/
theorem sizeCheck_settles {txid : Bytes}
    (hsame : m'.maxTotalSize.toNat < m'.sizeSum + (estimateTxSize tx).toNat → m' = m)
    (hm' : m'.Consistent env.cr) (hfree : m'.entries.lookup txid = none)
    (hcount : (m'.entries.keys.length : Int) < m'.maxSize)
    (hsum : m'.sizeSum + (estimateTxSize tx).toNat < 2 ^ 64) :
    Settles m ((do
      let m ← Prog.get
      if m.totalSize + estimateTxSize tx > m.maxTotalSize then
        Prog.throw ([], .new "mempool size limit exceeded")
      else do
        Prog.modify fun m => m.enter a (m.newEntry env tx txid)
        pure txid : AddM Bytes) m') := by
  have htotal : (m'.totalSize + estimateTxSize tx).toNat
      = m'.sizeSum + (estimateTxSize tx).toNat := by
    rw [UInt64.toNat_add, hm'.total, Nat.mod_add_mod]
    exact Nat.mod_eq_of_lt hsum
  rw [get_bind_apply]
  split
  · next hbig =>
    rw [gt_iff_lt, UInt64.lt_iff_toNat_lt, htotal] at hbig
    obtain rfl := hsame hbig
    exact .inr ⟨_, rfl⟩
  · next hbig =>
    rw [gt_iff_lt, UInt64.lt_iff_toNat_lt, htotal, not_lt] at hbig
    exact .inl ⟨txid, _, rfl, Mempool.bounded_enter hfree hcount hbig⟩

theorem addLocked_settles (validate : Mempool → Except GoError Unit)
    (txid : Bytes) (hfits : m.RoomFor env tx) :
    Settles m (addLocked env validate tx txid a m) := by
  unfold addLocked
  rw [get_bind_apply]
  split
  · exact .inr ⟨_, rfl⟩
  · next hid =>
    cases hnonce : m.txIdOf a tx.nonce with
    | some existingID => exact .inr ⟨_, rfl⟩
    | none =>
      cases validate m with
      | error e => exact .inr ⟨_, rfl⟩
      | ok _ =>
        dsimp only
        rw [bind_apply]
        have hfree := Option.not_isSome_iff_eq_none.mp hid
        rcases makeRoom_cases hm hb hfits with hroom | ⟨hroom, hcount, hsum⟩
          | ⟨m', hroom, hm', hkeep, hcount, hsum⟩
        · rw [hroom]
          exact .inr ⟨_, rfl⟩
        · rw [hroom]
          exact sizeCheck_settles (fun _ => rfl) hm hfree hcount hsum
        · rw [hroom]
          exact sizeCheck_settles (fun hbig => absurd hsum (not_le.mpr hbig)) hm' (hkeep _ hfree)
            hcount (hsum.trans_lt m'.maxTotalSize.toNat_lt)

theorem addIdentified_settles (validate : Mempool → Except GoError Unit)
    (id : Except GoError Bytes) (hfits : m.RoomFor env tx) :
    Settles m (addIdentified env validate tx id m) := by
  cases id with
  | error e => exact .inr ⟨_, rfl⟩
  | ok id =>
    unfold addIdentified
    cases ha : tx.fromAddress env.cr with
    | error e => exact .inr ⟨_, rfl⟩
    | ok a => exact addLocked_settles hm hb _ id hfits

/-! ## The calls that replace -/

theorem replaceLocked_settles {txid : Bytes}
    (ha : tx.fromAddress env.cr = .ok a) (houtbid : m.Outbid env.cr tx)
    (hfits : m.RoomForReplacement env.cr tx txid) :
    Settles m (replaceLocked env tx txid a m) := by
  obtain ⟨hroom, hgone⟩ := hfits houtbid
  obtain ⟨x, hx, hsender, hnonce, -⟩ := houtbid
  have hevicts := Mempool.evicts_evictBySenderNonce hm ha
  have hm' := PoolSteps.consistent
    ((Mempool.evicting_steps trivial).evictBySenderNonce m a tx.nonce) hm
  have hfree : (m.evictBySenderNonce env a tx.nonce).2.entries.lookup txid = none := by
    refine Option.eq_none_iff_forall_ne_some.mpr fun e he => ?_
    obtain ⟨hold, hnot⟩ := (hevicts.lookup txid e).mp he
    exact hnot (hgone e hold)
  unfold replaceLocked
  rw [bind_apply, get_apply]
  dsimp only
  rw [hfree, if_neg (by simp)]
  exact .inl ⟨_, _, rfl, hevicts.bounded_enter hm hm' hb (GoMap.mem_entries_iff.mp hx)
    ⟨hsender, UInt64.le_of_eq hnonce.symm⟩ hfree hroom⟩

theorem replaceByFeeWithTxID_settles (tx : Transaction) (txid : Bytes)
    (hfits : m.RoomForReplacement env.cr tx txid) :
    Settles m (replaceByFeeWithTxID env tx txid m) := by
  rcases replaceByFeeWithTxID_cases hm tx txid with hrefused | ⟨a, ha, houtbid, h⟩
  · exact .inr hrefused
  · rw [h]
    exact replaceLocked_settles hm hb ha houtbid hfits

theorem replaceByFee_settles (tx : Transaction)
    (hfits : ∀ txid ∈ (txIDHex env.cr tx).toOption, m.RoomForReplacement env.cr tx txid) :
    Settles m (replaceByFee env tx m) := by
  unfold replaceByFee
  cases hid : txIDHex env.cr tx with
  | error e => exact .inr ⟨_, rfl⟩
  | ok txid =>
    refine replaceByFeeWithTxID_settles hm hb tx txid (hfits txid ?_)
    rw [hid]
    rfl

end Add

/-! ## `SetMaxSize` -/

namespace Mempool

/-- Among entries that can be come upon one is found. -/
theorem cheapest_ne_nil {l : List (Sigma fun _ : Bytes => MempoolEntry)} {best : UInt64 × Bytes}
    (hall : ∀ x ∈ l, x.2.tx.fee ≠ FeeChecker.maxUint64 ∧ x.1 ≠ [])
    (hbest : best.2 ≠ [] ∨ best.1 = FeeChecker.maxUint64 ∧ l ≠ []) :
    (l.foldl (fun (best : UInt64 × Bytes) e =>
      if e.2.tx.fee < best.1 then (e.2.tx.fee, e.1) else best) best).2 ≠ [] := by
  induction l generalizing best with
  | nil => exact hbest.resolve_right fun h => h.2 rfl
  | cons x xs ih =>
    obtain ⟨hfee, hid⟩ := hall x (List.mem_cons_self ..)
    refine ih (fun y hy => hall y (List.mem_cons_of_mem x hy)) (Or.inl ?_)
    dsimp only
    split
    · exact hid
    · next hless =>
      -- the first entry is below the highest number
      refine hbest.resolve_right fun h => hless ?_
      rw [h.1]
      exact UInt64.lt_of_le_of_ne (UInt64.le_iff_toNat_le.mpr
        (Nat.le_of_lt_succ x.2.tx.fee.toNat_lt)) hfee

/-- Where `lowestFeeEntry` finds nothing among entries that it can come upon, there is none. -/
theorem keys_eq_nil_of_lowestFeeEntry (hm : m.Consistent env.cr)
    (hall : ∀ e ∈ m.byFee, e.Evictable) (hnone : m.lowestFeeEntry env = []) :
    m.entries.keys = [] := by
  by_contra hkeys
  refine cheapest_ne_nil (l := env.order m.tick m.entries.entries) (fun x hx => ?_)
    (Or.inr ⟨rfl, fun hnil => hkeys ?_⟩) hnone
  · have hx' := GoMap.mem_entries_iff.mp ((env.order_perm _ _).mem_iff.mp hx)
    have hid := hm.txId hx'
    have hevictable := hall x.2 ((hm.byFee x.2).mpr (hid ▸ hx'))
    exact ⟨hevictable.1, hid ▸ hevictable.2⟩
  · have hentries : m.entries.entries = [] := (hnil ▸ env.order_perm _ _).symm.eq_nil
    rw [AList.keys, hentries]
    rfl

/-- **`SetMaxSize`** leaves a pool within the new limit. -/
theorem setMaxSize_bounded (hm : m.Consistent env.cr) (hb : m.Bounded)
    {maxSize : Int} (hmax : 0 ≤ maxSize)
    (hfits : m.entries.keys.length ≤ maxSize ∨ ∀ e ∈ m.byFee, e.Evictable) :
    (m.setMaxSize env maxSize).Bounded := by
  have hloses : Loses { m with maxSize := maxSize } (m.setMaxSize env maxSize) :=
    (evicting_loses env).shrink _ _
  have hcount : (m.setMaxSize env maxSize).entries.keys.length
      ≤ (m.setMaxSize env maxSize).maxSize := by
    rcases hfits with hfew | hall
    · rw [hloses.maxSize]
      exact (Int.ofNat_le.mpr hloses.length).trans hfew
    · have hconsistent : (m.setMaxSize env maxSize).Consistent env.cr := by
        obtain ⟨m', hexec, hsteps⟩ := (PoolCall.setMaxSize maxSize).exec_steps hm
        cases hexec
        exact hsteps.consistent hm
      rcases setMaxSize_done m maxSize with hdone | hnone
      · exact hdone
      · rw [keys_eq_nil_of_lowestFeeEntry hconsistent
          (fun e he => hall e (hloses.byFee.subset he)) hnone, hloses.maxSize]
        exact hmax
  refine ⟨hcount, ?_⟩
  rw [hloses.maxTotalSize]
  exact hloses.sizeSum_le.trans hb.2

end Mempool

/-! ## Every call -/

theorem Settles.exec {ε α : Type} {o : Outcome Mempool ε Fault α}
    (h : Settles m o) (hb : m.Bounded) (hexec : o.state? = some m') :
    m'.Bounded ∧ (o.error?.isSome = true → m.SameContents m') := by
  rcases h with ⟨a, m₁, rfl, hb₁⟩ | ⟨e, rfl⟩
  · obtain rfl : m₁ = m' := Option.some.inj hexec
    exact ⟨hb₁, nofun⟩
  · obtain rfl : m = m' := Option.some.inj hexec
    exact ⟨hb, fun _ => .refl m⟩

/-- The calls that only take out. -/
theorem Mempool.Loses.exec {m₁ : Mempool} (h : m.Loses m₁) (hb : m.Bounded)
    (hexec : some m₁ = some m') : m'.Bounded ∧ (false = true → m.SameContents m') := by
  cases hexec
  exact ⟨h.bounded hb, nofun⟩

/-- **What one call does**, if it fits. -/
theorem PoolCall.exec_bounded (hm : m.Consistent env.cr) (hb : m.Bounded)
    {call : PoolCall} (hfits : call.Fits env m) (hexec : call.exec env m = some m') :
    m'.Bounded ∧ (call.fails env m = true → m.SameContents m') := by
  cases call with
  | add tx | addWithTxID tx txid p height | addWithoutSignatureValidation tx =>
    exact (addIdentified_settles hm hb _ _ hfits).exec hb hexec
  | replaceByFee tx => exact (replaceByFee_settles hm hb tx hfits).exec hb hexec
  | replaceByFeeWithTxID tx txid =>
    exact (replaceByFeeWithTxID_settles hm hb tx txid hfits).exec hb hexec
  | remove txid => exact (Mempool.removeLocked_loses env m txid).exec hb hexec
  | removeMany txids =>
    exact ((Mempool.evicting_loses env).removeMany m txids).exec hb hexec
  | setMaxSize maxSize =>
    cases hexec
    exact ⟨Mempool.setMaxSize_bounded hm hb hfits.1 hfits.2, nofun⟩
  | setMinFeeRate minFeeRate | updateHeight height | updateConsensus consensus =>
    cases hexec
    exact ⟨hb, nofun⟩
  | clear =>
    have hloses : m.Loses m.clear := ⟨rfl, rfl, List.nil_sublist _, Nat.zero_le _⟩
    exact hloses.exec hb hexec
  | cleanupExpired =>
    have hloses : m.Loses (m.cleanupExpired env) :=
      (Mempool.Loses.tick m (m.tick + 1)).trans ((Mempool.evicting_loses env).removeMany _ _)
    exact hloses.exec hb hexec

instance PoolCall.decidableFits (m : Mempool) (call : PoolCall) : Decidable (call.Fits env m) :=
  match call with
  | .add tx | .addWithTxID tx _ _ _ | .addWithoutSignatureValidation tx =>
    inferInstanceAs (Decidable (m.RoomFor env tx))
  | .replaceByFee tx => inferInstanceAs
      (Decidable (∀ txid ∈ (txIDHex env.cr tx).toOption, m.RoomForReplacement env.cr tx txid))
  | .replaceByFeeWithTxID tx txid =>
    inferInstanceAs (Decidable (m.RoomForReplacement env.cr tx txid))
  | .setMaxSize _ => inferInstanceAs (Decidable (0 ≤ _ ∧ (_ ≤ _ ∨ ∀ e ∈ m.byFee, e.Evictable)))
  | .remove _ | .removeMany _ | .setMinFeeRate _ | .updateHeight _ | .updateConsensus _ | .clear
  | .cleanupExpired => inferInstanceAs (Decidable True)

/-! ## Whole runs -/

/-- **The limits over a run.** In every run from an empty pool in which every call fits, the pool
is within its limits after the run, and a further call that fits either succeeds or changes
nothing. Every state of such a run is the end of one. -/
theorem withinLimits_after_run (env : Env) (maxSize : Int) (minFeeRate : UInt64) (ttl : Int)
    (chainId : UInt64) (consensus : ConsensusParams) (height maxMemoryMB : UInt64)
    (calls : List PoolCall) :
    let m₀ := newMempool maxSize minFeeRate ttl chainId consensus height maxMemoryMB
    Along env (fun m call => call.Fits env m) calls m₀ →
      ∃ m, runPool env calls m₀ = some m ∧ m.WithinLimits
        ∧ ∀ (call : PoolCall) (m' : Mempool), call.Fits env m → call.exec env m = some m' →
          m'.WithinLimits ∧ (call.fails env m = true → m.SameContents m') := by
  intro m₀ hfits
  have hm₀ : m₀.Consistent env.cr := Mempool.consistent_of_empty rfl rfl rfl rfl rfl
  have hb₀ : m₀.Bounded := by
    refine ⟨?_, Nat.zero_le _⟩
    show (0 : Int) ≤ if maxSize ≤ 0 then 10000 else maxSize
    split <;> omega
  obtain ⟨m, hrun, hm, hb⟩ := runPool_induction
    (fun m call m' hm hfits hb hexec => (PoolCall.exec_bounded hm hb hfits hexec).1) hm₀ hb₀ hfits
  refine ⟨m, hrun, hb.withinLimits hm, fun call m' hcall hexec => ?_⟩
  obtain ⟨hb', hsame⟩ := PoolCall.exec_bounded hm hb hcall hexec
  obtain ⟨m₁, hexec₁, hsteps⟩ := call.exec_steps hm
  obtain rfl := Option.some.inj (hexec₁.symm.trans hexec)
  exact ⟨hb'.withinLimits (hsteps.consistent hm), hsame⟩

/-- A transfer that takes the place of one with its nonce, under a name. -/
def replacing (name : String) (nonce fee : UInt64) : PoolCall :=
  .replaceByFeeWithTxID { sampleTransfer (zeroAddress 2) with nonce := nonce, fee := fee }
    (ascii name)

/-- Three transfers, of which one is replaced, and a limit of two; a second transfer with a
pooled nonce is then refused. -/
theorem withinLimits_after_run_replaced :
    ∃ m, runPool sampleEnv [pooled "a" 1 90000, pooled "b" 2 80000, pooled "c" 3 60000,
        replacing "d" 3 70000, .setMaxSize 2] samplePool = some m
      ∧ m.entries.keys.length = 2 ∧ m.WithinLimits
      ∧ (pooled "e" 1 80000).fails sampleEnv m = true
      ∧ ∀ m', (pooled "e" 1 80000).exec sampleEnv m = some m' → m.SameContents m' := by
  refine Prog.exists_and_of (fun m => m.entries.keys.length = 2
      ∧ (pooled "e" 1 80000).fails sampleEnv m = true ∧ (pooled "e" 1 80000).Fits sampleEnv m)
    (by decide +kernel) fun m hm h => ?_
  obtain ⟨htwo, hfails, hfits⟩ := h
  obtain ⟨m₁, hrun, hlimits, hcall⟩ := withinLimits_after_run sampleEnv 0 0 0 1
    ConsensusParams.default 0 0 [pooled "a" 1 90000, pooled "b" 2 80000, pooled "c" 3 60000,
      replacing "d" 3 70000, .setMaxSize 2] (by decide +kernel)
  obtain rfl : m₁ = m := Option.some.inj (hrun.symm.trans hm)
  exact ⟨htwo, hlimits, hfails, fun m' hexec => (hcall _ m' hfits hexec).2 hfails⟩

/-- **A replacement that fails and evicts.** The callers of `ReplaceByFeeWithTxID` give it no
identifier, so that what it pools stands under the empty one. The second such replacement is
refused because the first stands there, when the transfer it was to replace is already gone. -/
theorem failed_replacement_evicts :
    ∃ m m', runPool sampleEnv [pooled "a" 1 60000, replacing "" 1 90000, pooled "b" 2 60000]
        samplePool = some m
      ∧ (replacing "" 2 90000).exec sampleEnv m = some m'
      ∧ (replacing "" 2 90000).fails sampleEnv m = true
      ∧ (m.entries.lookup (ascii "b")).isSome = true
      ∧ m'.entries.lookup (ascii "b") = none := by
  simp only [exists_and_left]
  decide +kernel

end NogoChain
