import NogoChain.Mempool.Pool

/-!
# What holds of the pool after any run

Every call on the pool is a sequence of three kinds of changes: an entry is taken out
(`removeLocked`), a transaction that is not there is entered in all five places (`enter`),
or everything is cleared. `Consistent` is kept by each of them and so holds after any
sequence of calls: the sender/nonce index and the entries determine each other, `byFee` has
each entry once, and the total is that of the sizes.

Two things are not kept. `byFee` is called a heap, but an entry is put at its end and stays
there, so that it is in heap order only as long as rates come in falling order. And what the
index by recipient says of an entry is not taken back when the entry goes.
-/

namespace NogoChain

variable {env : Env}

/-! ## The fee order -/

variable {e : MempoolEntry} {m : Mempool} {id a : Bytes}

namespace FeeHeap

/-- The heap order of `container/heap` for `Less`: no element is less than its parent. -/
def Ordered (h : FeeHeap) : Prop :=
  ∀ i : Fin h.length,
    ¬ (h.get i).feeRate > (h.get ⟨(i.val - 1) / 2, by have := i.isLt; omega⟩).feeRate

instance (h : FeeHeap) : Decidable h.Ordered :=
  inferInstanceAs (Decidable (∀ _ : Fin h.length, ¬ _))

/-- Rates in falling order are in heap order. -/
theorem ordered_of_pairwise {h : FeeHeap} (hfall : h.Pairwise fun a b => b.feeRate ≤ a.feeRate) :
    h.Ordered := by
  intro i
  rw [gt_iff_lt, not_lt]
  rcases Nat.eq_zero_or_pos i.val with h0 | hpos
  · have hparent : (⟨(i.val - 1) / 2, by have := i.isLt; omega⟩ : Fin h.length) = i :=
      Fin.ext (by simp [h0])
    rw [hparent]
  · exact List.pairwise_iff_get.mp hfall _ i (Fin.mk_lt_of_lt_val (by omega))

/-- The entry that `remove` takes out. -/
theorem perm_cons_remove {h : FeeHeap} (he : e ∈ h)
    (hptrs : (h.map (·.ptr)).Nodup) : h.Perm (e :: h.remove e) := by
  obtain ⟨x, l₁, l₂, -, hx, hsplit, hrest⟩ :=
    List.exists_of_eraseP (p := fun x => x.ptr = e.ptr) he (decide_eq_true rfl)
  have hmem : x ∈ h := by
    rw [hsplit]
    exact List.mem_append_right l₁ List.mem_cons_self
  have hxe : x = e := List.inj_on_of_nodup_map hptrs hmem he (of_decide_eq_true hx)
  unfold remove
  rw [hrest, hsplit, hxe]
  exact List.perm_middle

theorem remove_sublist (h : FeeHeap) (e : MempoolEntry) : (h.remove e).Sublist h :=
  List.eraseP_sublist

end FeeHeap

/-! ## Consistency -/

namespace Mempool

/-- **The places in which the pool keeps its entries agree.** -/
structure Consistent (cr : Crypto) (m : Mempool) : Prop where
  /-- an entry stands under its identifier -/
  txId : ∀ {id e}, m.entries.lookup id = some e → e.txId = id
  sender : ∀ {id e}, m.entries.lookup id = some e → ∃ a, e.tx.fromAddress cr = .ok a
  /-- the sender/nonce index lists the entries -/
  indexed : ∀ a n id, m.txIdOf a n = some id
    ↔ ∃ e, m.entries.lookup id = some e ∧ e.tx.fromAddress cr = .ok a ∧ e.tx.nonce = n
  /-- the fee order lists the entries -/
  byFee : ∀ e, e ∈ m.byFee ↔ m.entries.lookup e.txId = some e
  /-- the entries are different objects -/
  ptrs : (m.byFee.map (·.ptr)).Nodup
  /-- which have all been made -/
  allocated : ∀ e ∈ m.byFee, e.ptr < m.allocated
  /-- the total is that of the sizes, as far as 64 bits can hold it -/
  total : m.totalSize.toNat = (m.byFee.map (·.size.toNat)).sum % 2 ^ 64
  /-- every entry stands under its recipient -/
  recipients : ∀ {id e}, m.entries.lookup id = some e → e.tx.toAddress ≠ [] →
    m.addrInfo.lookup₂ e.tx.toAddress id = some ()
  /-- nothing stands under the empty recipient -/
  recipients_nil : ∀ id, m.addrInfo.lookup₂ [] id = none

theorem consistent_of_empty {cr : Crypto} (hentries : m.entries = ∅)
    (hsender : m.bySenderNonce = ∅) (haddr : m.addrInfo = ∅) (hfee : m.byFee = [])
    (htotal : m.totalSize = 0) : m.Consistent cr := by
  have hnone : ∀ id, m.entries.lookup id = none := by
    intro id
    rw [hentries, AList.lookup_empty]
  constructor <;> simp [hnone, txIdOf, hsender, haddr, hfee, htotal, GoMap.lookup₂_empty]

/-! ### Taking an entry out -/

theorem removeLocked_of_none (h : m.entries.lookup id = none) : m.removeLocked env id = m := by
  unfold removeLocked
  rw [h]

theorem removeLocked_of_some
    (h : m.entries.lookup id = some e) (ha : e.tx.fromAddress env.cr = .ok a) :
    m.removeLocked env id = { m with
      entries := m.entries.erase id
      byFee := m.byFee.remove e
      totalSize := m.totalSize - e.size
      bySenderNonce := m.bySenderNonce.erase₂ a e.tx.nonce } := by
  unfold removeLocked
  rw [h]
  dsimp only
  rw [ha]

/-- A removal does not bring an entry in. -/
theorem lookup_removeLocked_of_none {id' : Bytes}
    (h : m.entries.lookup id' = none) : (m.removeLocked env id).entries.lookup id' = none := by
  unfold removeLocked
  split
  · exact h
  · have herase : (m.entries.erase id).lookup id' = none := by
      rw [GoMap.lookup_erase, h, ite_self]
    split <;> exact herase

/-- A removal does not occupy a nonce. -/
theorem txIdOf_removeLocked_of_none {n : UInt64}
    (h : m.txIdOf a n = none) : (m.removeLocked env id).txIdOf a n = none := by
  unfold removeLocked
  split
  · exact h
  · split
    · exact h
    · unfold txIdOf at h ⊢
      rw [GoMap.lookup₂_erase₂, h, ite_self]

/-- **Removal.** -/
theorem Consistent.removeLocked (h : m.Consistent env.cr) (id : Bytes) :
    (m.removeLocked env id).Consistent env.cr := by
  cases he : m.entries.lookup id with
  | none =>
    rw [removeLocked_of_none he]
    exact h
  | some e =>
    obtain ⟨a, ha⟩ := h.sender he
    have htxId : e.txId = id := h.txId he
    have hmem : e ∈ m.byFee := (h.byFee e).mpr (htxId ▸ he)
    have hperm := FeeHeap.perm_cons_remove hmem h.ptrs
    have hindex : m.txIdOf a e.tx.nonce = some id := (h.indexed a _ id).mpr ⟨e, he, ha, rfl⟩
    rw [removeLocked_of_some he ha]
    refine ⟨?_, ?_, ?_, ?_, ?_, ?_, ?_, ?_, ?_⟩
    · exact fun h' => h.txId (GoMap.lookup_of_erase h')
    · exact fun h' => h.sender (GoMap.lookup_of_erase h')
    · intro a' n id'
      unfold txIdOf
      rw [GoMap.lookup₂_erase₂]
      split
      · next hslot =>
        obtain ⟨rfl, rfl⟩ := hslot
        refine ⟨nofun, ?_⟩
        -- an entry that is left would have occupied the slot of the one that went
        rintro ⟨e', he', ha', hn'⟩
        have hold := (h.indexed a' _ id').mpr ⟨e', GoMap.lookup_of_erase he', ha', hn'⟩
        have hid : id' = id := Option.some.inj (hold.symm.trans hindex)
        rw [hid, GoMap.lookup_erase, if_pos rfl] at he'
        cases he'
      · next hslot =>
        refine (h.indexed a' n id').trans (exists_congr fun e' => and_congr_left fun he' => ?_)
        rw [GoMap.lookup_erase]
        refine ⟨fun hold => ?_, fun hnew => ?_⟩
        · rw [if_neg, hold]
          rintro rfl
          obtain rfl : e' = e := Option.some.inj (hold.symm.trans he)
          refine hslot ⟨?_, he'.2.symm⟩
          exact Except.ok.inj (he'.1.symm.trans ha)
        · split at hnew
          · cases hnew
          · exact hnew
    · intro e'
      have hnot : e ∉ m.byFee.remove e := by
        have hnodup := (hperm.map (·.ptr)).nodup_iff.mp h.ptrs
        rw [List.map_cons, List.nodup_cons] at hnodup
        exact fun hin => hnodup.1 (List.mem_map.mpr ⟨e, hin, rfl⟩)
      rw [GoMap.lookup_erase]
      split
      · next hid =>
        refine ⟨fun hin => ?_, nofun⟩
        have hold := (h.byFee e').mp ((FeeHeap.remove_sublist _ _).subset hin)
        rw [hid, he] at hold
        exact absurd (Option.some.inj hold ▸ hin) hnot
      · next hid =>
        rw [← h.byFee e', hperm.mem_iff, List.mem_cons]
        refine ⟨Or.inr, Or.rec (fun heq => ?_) (fun hin => hin)⟩
        exact absurd (heq ▸ htxId) hid
    · exact h.ptrs.sublist ((FeeHeap.remove_sublist _ _).map _)
    · exact fun e' he' => h.allocated e' ((FeeHeap.remove_sublist _ _).subset he')
    · have hsum := (hperm.map (·.size.toNat)).sum_eq
      rw [List.map_cons, List.sum_cons] at hsum
      have htotal := h.total
      dsimp only
      rw [UInt64.toNat_sub, htotal, hsum]
      have := e.size.toNat_lt
      omega
    · exact fun h' => h.recipients (GoMap.lookup_of_erase h')
    · exact h.recipients_nil

/-! ### Entering -/

section Enter

variable (m : Mempool) (a : Bytes) (e : MempoolEntry)

theorem enter_entries : (m.enter a e).entries = m.entries.insert e.txId e := by
  unfold enter indexAddrInfo
  split <;> rfl

theorem enter_bySenderNonce :
    (m.enter a e).bySenderNonce = m.bySenderNonce.insert₂ a e.tx.nonce e.txId := by
  unfold enter indexAddrInfo
  split <;> rfl

theorem enter_byFee : (m.enter a e).byFee = m.byFee ++ [e] := by
  unfold enter indexAddrInfo FeeHeap.push
  split <;> rfl

theorem enter_totalSize : (m.enter a e).totalSize = m.totalSize + e.size := by
  unfold enter indexAddrInfo
  split <;> rfl

theorem enter_allocated : (m.enter a e).allocated = m.allocated + 1 := by
  unfold enter indexAddrInfo
  split <;> rfl

theorem lookup₂_addrInfo_enter (b id : Bytes) : (m.enter a e).addrInfo.lookup₂ b id
      = if e.tx.toAddress ≠ [] ∧ b = e.tx.toAddress ∧ id = e.txId then some ()
        else m.addrInfo.lookup₂ b id := by
  unfold enter indexAddrInfo
  split
  · next hnil => rw [if_neg (fun h => h.1 hnil)]
  · next hnil =>
    refine (GoMap.lookup₂_insert₂ _ _ _ _ _ _).trans ?_
    simp only [ne_eq, hnil, not_false_eq_true, true_and]

end Enter

/-- **Entry** of a transaction whose identifier and nonce are free. -/
theorem Consistent.enter (h : m.Consistent env.cr)
    (hptr : e.ptr = m.allocated) (ha : e.tx.fromAddress env.cr = .ok a)
    (hid : m.entries.lookup e.txId = none) (hnonce : m.txIdOf a e.tx.nonce = none) :
    (m.enter a e).Consistent env.cr := by
  have hlookup : ∀ id, (m.enter a e).entries.lookup id
      = if id = e.txId then some e else m.entries.lookup id := by
    intro id
    rw [enter_entries, GoMap.lookup_insert]
  -- an entry is the new one or one of the old ones
  have hcases : ∀ {id e'}, (m.enter a e).entries.lookup id = some e' →
      (id = e.txId ∧ e' = e) ∨ m.entries.lookup id = some e' := by
    intro id e' h'
    rw [hlookup] at h'
    split at h'
    · next hid => exact .inl ⟨hid, (Option.some.inj h').symm⟩
    · exact .inr h'
  refine ⟨?_, ?_, ?_, ?_, ?_, ?_, ?_, ?_, ?_⟩
  · intro id e' h'
    rcases hcases h' with ⟨rfl, rfl⟩ | hold
    · rfl
    · exact h.txId hold
  · intro id e' h'
    rcases hcases h' with ⟨rfl, rfl⟩ | hold
    · exact ⟨a, ha⟩
    · exact h.sender hold
  · intro a' n id
    unfold txIdOf
    rw [enter_bySenderNonce, GoMap.lookup₂_insert₂]
    split
    · next hslot =>
      obtain ⟨rfl, rfl⟩ := hslot
      refine ⟨fun heq => ?_, ?_⟩
      · cases heq
        exact ⟨e, by rw [hlookup, if_pos rfl], ha, rfl⟩
      · rintro ⟨e', he', ha', hn'⟩
        rcases hcases he' with ⟨rfl, -⟩ | hold
        · rfl
        · -- the slot was free
          rw [(h.indexed a' _ id).mpr ⟨e', hold, ha', hn'⟩] at hnonce
          cases hnonce
    · next hslot =>
      refine (h.indexed a' n id).trans (exists_congr fun e' => and_congr_left fun he' => ?_)
      refine ⟨fun hold => ?_, fun hnow => ?_⟩
      · rw [hlookup, if_neg, hold]
        rintro rfl
        rw [hold] at hid
        cases hid
      · rcases hcases hnow with ⟨-, rfl⟩ | hold
        · exact absurd ⟨(Except.ok.inj (ha.symm.trans he'.1)).symm, he'.2.symm⟩ hslot
        · exact hold
  · intro e'
    rw [enter_byFee, List.mem_append, List.mem_singleton, h.byFee, hlookup]
    split
    · next hsame =>
      rw [hsame, hid]
      simp [eq_comm]
    · next hother =>
      refine ⟨Or.rec (fun hold => hold) fun heq => ?_, Or.inl⟩
      exact absurd (heq ▸ rfl) hother
  · rw [enter_byFee, List.map_append, List.nodup_append]
    refine ⟨h.ptrs, List.nodup_singleton _, ?_⟩
    intro p hp q hq
    obtain ⟨e', he', rfl⟩ := List.mem_map.mp hp
    have hq' : q = m.allocated := (List.mem_singleton.mp hq).trans hptr
    exact hq' ▸ (h.allocated e' he').ne
  · intro e' he'
    rw [enter_byFee, List.mem_append, List.mem_singleton] at he'
    rw [enter_allocated]
    rcases he' with hold | rfl
    · exact (h.allocated e' hold).trans (Nat.lt_succ_self _)
    · exact hptr ▸ Nat.lt_succ_self _
  · rw [enter_byFee, enter_totalSize, UInt64.toNat_add, h.total, List.map_append, List.sum_append]
    simp
  · intro id e' h' hto
    rw [lookup₂_addrInfo_enter]
    rcases hcases h' with ⟨rfl, rfl⟩ | hold
    · rw [if_pos ⟨hto, rfl, rfl⟩]
    · rw [h.recipients hold hto, ite_self]
  · intro id
    rw [lookup₂_addrInfo_enter, if_neg, h.recipients_nil]
    exact fun hto => hto.1 hto.2.1.symm

end Mempool

end NogoChain
