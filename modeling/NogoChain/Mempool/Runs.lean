import NogoChain.Chain.Run
import NogoChain.Core.SignedEffect
import NogoChain.Mempool.Consistent

/-!
# Runs of the pool

What each call does, as a sequence of changes, and what follows for whole runs.
-/

namespace NogoChain

open Prog

variable {env : Env}

/-! ## The changes a call is made of -/

/-- **One change of the pool.** `mayRemove` says whether entries can be taken out, `offered`
which transactions can be entered. -/
inductive PoolStep (env : Env) (mayRemove : Prop) (offered : Transaction → Prop) :
    Mempool → Mempool → Prop
  /-- a setting, or a question to the run time -/
  | still (m : Mempool) (maxSize : Int) (minFeeRate : UInt64) (consensus : ConsensusParams)
      (currentHeight : UInt64) (tick : Nat) :
      PoolStep env mayRemove offered m
        { m with maxSize := maxSize, minFeeRate := minFeeRate, consensus := consensus,
                 currentHeight := currentHeight, tick := tick }
  | remove (m : Mempool) (id : Bytes) (h : mayRemove) :
      PoolStep env mayRemove offered m (m.removeLocked env id)
  | clear (m : Mempool) : PoolStep env mayRemove offered m m.clear
  | enter (m : Mempool) {a : Bytes} {tx : Transaction} {id : Bytes} (htx : offered tx)
      (ha : tx.fromAddress env.cr = .ok a) (hid : m.entries.lookup id = none)
      (hnonce : m.txIdOf a tx.nonce = none) :
      PoolStep env mayRemove offered m (m.enter a (m.newEntry env tx id))

/-- A sequence of changes. -/
abbrev PoolSteps (env : Env) (mayRemove : Prop) (offered : Transaction → Prop) :=
  Relation.ReflTransGen (PoolStep env mayRemove offered)

variable {a : Bytes} {m m' : Mempool} {mayRemove : Prop} {tx : Transaction}

section Steps

variable {offered : Transaction → Prop}

theorem PoolStep.consistent (h : PoolStep env mayRemove offered m m')
    (hm : m.Consistent env.cr) : m'.Consistent env.cr := by
  cases h with
  | still =>
    exact ⟨hm.txId, hm.sender, hm.indexed, hm.byFee, hm.ptrs, hm.allocated, hm.total,
      hm.recipients, hm.recipients_nil⟩
  | remove id h => exact hm.removeLocked id
  | clear => exact Mempool.consistent_of_empty rfl rfl rfl rfl rfl
  | enter htx ha hid hnonce => exact hm.enter rfl ha hid hnonce

theorem PoolSteps.consistent (h : PoolSteps env mayRemove offered m m')
    (hm : m.Consistent env.cr) : m'.Consistent env.cr := by
  induction h with
  | refl => exact hm
  | tail _ hstep ih => exact hstep.consistent ih

theorem PoolSteps.mono {mayRemove' : Prop} {offered' : Transaction → Prop}
    (h : PoolSteps env mayRemove offered m m') (hremove : mayRemove → mayRemove')
    (hoffered : ∀ tx, offered tx → offered' tx) : PoolSteps env mayRemove' offered' m m' := by
  refine Relation.ReflTransGen.mono (fun x y hxy => ?_) _ _ h
  cases hxy with
  | still => exact .still ..
  | remove id h => exact .remove x id (hremove h)
  | clear => exact .clear x
  | enter htx ha hid hnonce => exact .enter x (hoffered _ htx) ha hid hnonce

theorem PoolSteps.tick (m : Mempool) (n : Nat) :
    PoolSteps env mayRemove offered m { m with tick := n } :=
  .single (.still m m.maxSize m.minFeeRate m.consensus m.currentHeight n)

/-- Without an offer no identifier and no nonce is taken. -/
theorem PoolSteps.free {id : Bytes} {n : UInt64} (h : PoolSteps env mayRemove (fun _ => False) m m')
    (hfree : m.entries.lookup id = none ∧ m.txIdOf a n = none) :
    m'.entries.lookup id = none ∧ m'.txIdOf a n = none := by
  induction h with
  | refl => exact hfree
  | tail _ hstep ih =>
    cases hstep with
    | still => exact ih
    | remove id' h =>
      exact ⟨Mempool.lookup_removeLocked_of_none ih.1, Mempool.txIdOf_removeLocked_of_none ih.2⟩
    | clear => exact ⟨AList.lookup_empty id, GoMap.lookup₂_empty a n⟩
    | enter htx => exact htx.elim

end Steps

/-! ## The functions that evict -/

namespace Mempool

/-- **A preorder that is kept where entries are taken out** and the run time is asked. -/
structure Evicting (env : Env) (R : Mempool → Mempool → Prop) : Prop where
  refl : ∀ m, R m m
  trans : ∀ {m₁ m₂ m₃}, R m₁ m₂ → R m₂ m₃ → R m₁ m₃
  remove : ∀ m id, R m (m.removeLocked env id)
  tick : ∀ (m : Mempool) (n : Nat), R m { m with tick := n }

namespace Evicting

variable {R : Mempool → Mempool → Prop} (h : Evicting env R)
include h

/-- A loop over a list, with a state of which the pool is a part. -/
theorem foldl {ι σ : Type} (pool : σ → Mempool) {f : σ → ι → σ}
    (hf : ∀ s x, R (pool s) (pool (f s x))) (l : List ι) (s : σ) :
    R (pool s) (pool (l.foldl f s)) := by
  induction l generalizing s with
  | nil => exact h.refl _
  | cons x xs ih => exact h.trans (hf s x) (ih (f s x))

theorem removeMany (m : Mempool) (ids : List Bytes) : R m (m.removeMany env ids) :=
  h.foldl (fun m => m) h.remove ids m

theorem evictLater (sender : Bytes) (nonce : UInt64) (m : Mempool) (id : Bytes) :
    R m (m.evictLater env sender nonce id) := by
  unfold Mempool.evictLater
  split
  · exact h.refl m
  · split
    · exact h.refl m
    · split
      · exact h.remove m id
      · exact h.refl m

theorem evictWithDependents (m : Mempool) (id : Bytes) : R m (m.evictWithDependents env id) := by
  unfold Mempool.evictWithDependents
  split
  · exact h.refl m
  · next victim _ =>
    split
    · exact h.remove m id
    · next sender _ =>
      refine h.trans (h.trans (h.remove m id) (h.tick _ ((m.removeLocked env id).tick + 1))) ?_
      exact h.foldl (fun m => m) (h.evictLater sender victim.tx.nonce) _ _

theorem evictNonce (a : Bytes) (nonce : UInt64) (r : List Bytes × Mempool) (n : UInt64) :
    R r.2 (Mempool.evictNonce env a nonce r n).2 := by
  unfold Mempool.evictNonce
  split
  · exact h.refl _
  · split
    · exact h.remove _ _
    · exact h.refl _

theorem evictBySenderNonce (m : Mempool) (a : Bytes) (nonce : UInt64) :
    R m (m.evictBySenderNonce env a nonce).2 := by
  refine h.trans ?_ (h.foldl Prod.snd (h.evictNonce a nonce) _ _)
  refine h.trans ?_ (h.tick _ _)
  split
  · exact h.refl m
  · next id _ => exact h.remove m id

theorem shrink (n : Nat) (m : Mempool) : R m (m.shrink env n) := by
  induction n generalizing m with
  | zero => exact h.refl m
  | succ n ih =>
    unfold Mempool.shrink
    split
    · split
      · exact h.refl m
      · exact h.trans (h.trans (h.tick m (m.tick + 1)) (h.evictWithDependents _ _)) (ih _)
    · exact h.refl m

end Evicting

theorem evicting_steps (hremove : mayRemove) :
    Evicting env (PoolSteps env mayRemove fun _ => False) :=
  ⟨fun _ => .refl, .trans, fun m id => .single (.remove m id hremove), PoolSteps.tick⟩

/-- **What a removal does to the limits**: they stay, and nothing comes in. -/
structure Loses (m m' : Mempool) : Prop where
  maxSize : m'.maxSize = m.maxSize
  maxTotalSize : m'.maxTotalSize = m.maxTotalSize
  byFee : m'.byFee.Sublist m.byFee
  length : m'.entries.keys.length ≤ m.entries.keys.length

theorem Loses.refl (m : Mempool) : m.Loses m := ⟨rfl, rfl, List.Sublist.refl _, le_refl _⟩

theorem Loses.trans {m₁ m₂ m₃ : Mempool} (h : m₁.Loses m₂) (h' : m₂.Loses m₃) : m₁.Loses m₃ :=
  ⟨h'.maxSize.trans h.maxSize, h'.maxTotalSize.trans h.maxTotalSize, h'.byFee.trans h.byFee,
    h'.length.trans h.length⟩

theorem Loses.tick (m : Mempool) (n : Nat) : m.Loses { m with tick := n } :=
  ⟨rfl, rfl, List.Sublist.refl _, le_refl _⟩

theorem removeLocked_entries (env : Env) (m : Mempool) (id : Bytes) :
    (m.removeLocked env id).entries = m.entries.erase id
      ∨ m.entries.lookup id = none ∧ (m.removeLocked env id).entries = m.entries := by
  unfold removeLocked
  cases h : m.entries.lookup id with
  | none => exact .inr ⟨rfl, rfl⟩
  | some e =>
    dsimp only
    cases e.tx.fromAddress env.cr with
    | error _ | ok _ => exact .inl rfl

theorem removeLocked_loses (env : Env) (m : Mempool) (id : Bytes) :
    m.Loses (m.removeLocked env id) := by
  have hlength : (m.removeLocked env id).entries.keys.length ≤ m.entries.keys.length := by
    rcases removeLocked_entries env m id with herase | ⟨-, hsame⟩
    · rw [herase]
      exact GoMap.length_erase_le _ _
    · rw [hsame]
  revert hlength
  unfold removeLocked
  cases m.entries.lookup id with
  | none => exact fun _ => .refl m
  | some e =>
    dsimp only
    cases e.tx.fromAddress env.cr with
    | error _ | ok _ => exact fun h => ⟨rfl, rfl, FeeHeap.remove_sublist _ _, h⟩

theorem evicting_loses (env : Env) : Evicting env Loses :=
  ⟨.refl, .trans, removeLocked_loses env, .tick⟩

/-- The nonce is free after `evictBySenderNonce`. -/
theorem txIdOf_evictBySenderNonce (hm : m.Consistent env.cr) (a : Bytes)
    (nonce : UInt64) : (m.evictBySenderNonce env a nonce).2.txIdOf a nonce = none := by
  -- the loop keeps free what is free before it
  refine List.foldlRecOn (motive := fun r : List Bytes × Mempool => r.2.txIdOf a nonce = none)
    _ _ ?_ fun r hr n _ => ?_
  · split
    · next hnone => exact hnone
    · next id hsome =>
      obtain ⟨e, he, ha, hn⟩ := (hm.indexed a nonce id).mp hsome
      rw [removeLocked_of_some he ha]
      unfold txIdOf
      rw [GoMap.lookup₂_erase₂, if_pos ⟨rfl, hn.symm⟩]
  · unfold evictNonce
    split
    · exact hr
    · split
      · exact txIdOf_removeLocked_of_none hr
      · exact hr

theorem shrink_steps (n : Nat) (m : Mempool)
    (hremove : m.entries.keys.length > m.maxSize → mayRemove) :
    PoolSteps env mayRemove (fun _ => False) m (m.shrink env n) := by
  by_cases hlong : m.entries.keys.length > m.maxSize
  · exact (evicting_steps (hremove hlong)).shrink n m
  · cases n with
    | zero => exact .refl
    | succ n =>
      unfold shrink
      rw [if_neg hlong]

/-! ### The loop of `SetMaxSize` comes to its end -/

/-- An eviction makes the pool smaller. -/
theorem length_evictWithDependents_lt {id : Bytes} {e : MempoolEntry}
    (h : m.entries.lookup id = some e) :
    (m.evictWithDependents env id).entries.keys.length < m.entries.keys.length := by
  have hfirst : (m.removeLocked env id).entries.keys.length < m.entries.keys.length := by
    rcases removeLocked_entries env m id with herase | ⟨hnone, -⟩
    · have hmem : id ∈ m.entries := by
        rw [← AList.lookup_isSome, h]
        rfl
      rw [herase]
      exact GoMap.length_erase_lt hmem
    · exact nomatch h.symm.trans hnone
  refine lt_of_le_of_lt ?_ hfirst
  unfold evictWithDependents
  rw [h]
  dsimp only
  split
  · exact le_refl _
  · next sender _ =>
    exact ((evicting_loses env).foldl (fun m => m)
      ((evicting_loses env).evictLater sender e.tx.nonce) _ _).length

/-- The entry with the lowest fee is an entry. -/
theorem exists_lookup_lowestFeeEntry (h : m.lowestFeeEntry env ≠ []) :
    ∃ e, m.entries.lookup (m.lowestFeeEntry env) = some e := by
  have hfold : m.lowestFeeEntry env = []
      ∨ ∃ e, m.entries.lookup (m.lowestFeeEntry env) = some e := by
    refine List.foldlRecOn
      (motive := fun r : UInt64 × Bytes => r.2 = [] ∨ ∃ e, m.entries.lookup r.2 = some e)
      _ _ (.inl rfl) fun r hr x hx => ?_
    by_cases hless : x.2.tx.fee < r.1
    · rw [if_pos hless]
      exact .inr ⟨x.2, GoMap.mem_entries_iff.mp ((env.order_perm _ _).mem_iff.mp hx)⟩
    · rw [if_neg hless]
      exact hr
  exact hfold.resolve_left h

theorem shrink_done : ∀ (n : Nat) (m : Mempool), m.entries.keys.length ≤ n →
    (m.shrink env n).entries.keys.length ≤ (m.shrink env n).maxSize
      ∨ (m.shrink env n).lowestFeeEntry env = []
  | 0, m, hn => by
    refine .inr (not_not.mp fun hlowest => ?_)
    obtain ⟨e, he⟩ := exists_lookup_lowestFeeEntry hlowest
    have hnil := List.length_eq_zero_iff.mp (Nat.le_zero.mp hn)
    exact nomatch he.symm.trans (GoMap.lookup_eq_none_of_keys_eq_nil hnil _)
  | n + 1, m, hn => by
    unfold shrink
    split
    · split
      · next hlowest => exact .inr hlowest
      · next hlowest =>
        obtain ⟨e, he⟩ := exists_lookup_lowestFeeEntry hlowest
        refine shrink_done n _ (Nat.le_of_lt_succ (lt_of_lt_of_le ?_ hn))
        exact length_evictWithDependents_lt (m := { m with tick := m.tick + 1 }) he
    · next hshort => exact .inl (not_lt.mp hshort)

/-- **The bound on the loop of `SetMaxSize` is enough**: it ends with a pool within the limit,
or with one in which it finds nothing to evict. -/
theorem setMaxSize_done (m : Mempool) (maxSize : Int) :
    (m.setMaxSize env maxSize).entries.keys.length ≤ (m.setMaxSize env maxSize).maxSize
      ∨ (m.setMaxSize env maxSize).lowestFeeEntry env = [] :=
  shrink_done _ _ (le_refl _)

end Mempool

/-! ## The calls -/

theorem makeRoom_ends (env : Env) (m : Mempool) : (∃ m', makeRoom env m = .ret () m'
        ∧ PoolSteps env (m.isFull = true) (fun _ => False) m m')
      ∨ makeRoom env m = .err ([], .new "mempool full") m := by
  unfold makeRoom
  rw [get_bind_apply]
  split
  · next hfull =>
    split
    · exact .inr rfl
    · refine .inl ⟨_, rfl, (PoolSteps.tick m (m.tick + 1)).trans ?_⟩
      exact (Mempool.evicting_steps hfull).evictWithDependents _ _
  · exact .inl ⟨m, rfl, .refl⟩

theorem addLocked_ends (validate : Mempool → Except GoError Unit)
    (txid : Bytes) (ha : tx.fromAddress env.cr = .ok a) (m : Mempool) :
    ∃ m', (addLocked env validate tx txid a m).state? = some m'
      ∧ PoolSteps env (m.isFull = true) (· = tx) m m' := by
  unfold addLocked
  rw [get_bind_apply]
  split
  · exact ⟨m, rfl, .refl⟩
  · next hid =>
    cases hnonce : m.txIdOf a tx.nonce with
    | some existingID => exact ⟨m, rfl, .refl⟩
    | none =>
      cases validate m with
      | error e => exact ⟨m, rfl, .refl⟩
      | ok _ =>
        dsimp only
        rw [bind_apply]
        rcases makeRoom_ends env m with ⟨m₁, hroom, hsteps⟩ | hroom
        · have hfree := hsteps.free ⟨Option.not_isSome_iff_eq_none.mp hid, hnonce⟩
          have hbefore : PoolSteps env (m.isFull = true) (· = tx) m m₁ :=
            hsteps.mono id fun _ => False.elim
          rw [hroom]
          dsimp only
          rw [get_bind_apply]
          split
          · exact ⟨m₁, rfl, hbefore⟩
          · exact ⟨_, rfl, hbefore.tail (.enter m₁ rfl ha hfree.1 hfree.2)⟩
        · rw [hroom]
          exact ⟨m, rfl, .refl⟩

theorem addIdentified_ends (validate : Mempool → Except GoError Unit) (tx : Transaction)
    (id : Except GoError Bytes) (m : Mempool) :
    ∃ m', (addIdentified env validate tx id m).state? = some m'
      ∧ PoolSteps env (m.isFull = true) (· = tx) m m' := by
  cases id with
  | error e => exact ⟨m, rfl, .refl⟩
  | ok id =>
    unfold addIdentified
    cases ha : tx.fromAddress env.cr with
    | error e => exact ⟨m, rfl, .refl⟩
    | ok a => exact addLocked_ends _ id ha m

/-- A pooled transaction of the same sender and nonce has a lower fee. -/
def Mempool.Outbid (cr : Crypto) (m : Mempool) (tx : Transaction) : Prop :=
  ∃ x ∈ m.entries.entries, x.2.tx.fromAddress cr = tx.fromAddress cr
    ∧ x.2.tx.nonce = tx.nonce ∧ x.2.tx.fee < tx.fee

theorem replaceLocked_ends (hm : m.Consistent env.cr) (hremove : mayRemove) (txid : Bytes)
    (ha : tx.fromAddress env.cr = .ok a) :
    ∃ m', (replaceLocked env tx txid a m).state? = some m'
      ∧ PoolSteps env mayRemove (· = tx) m m' := by
  have hevict : PoolSteps env mayRemove (· = tx) m (m.evictBySenderNonce env a tx.nonce).2 :=
    ((Mempool.evicting_steps hremove).evictBySenderNonce m a tx.nonce).mono id fun _ => False.elim
  unfold replaceLocked
  rw [bind_apply, get_apply]
  dsimp only
  rw [bind_apply, modify_apply]
  dsimp only
  split
  · exact ⟨_, rfl, hevict⟩
  · next hid =>
    refine ⟨_, rfl, hevict.tail (.enter _ rfl ha ?_ ?_)⟩
    · exact Option.not_isSome_iff_eq_none.mp hid
    · exact Mempool.txIdOf_evictBySenderNonce hm a tx.nonce

/-- **A replacement is refused**, or it outbids an entry. -/
theorem replaceByFeeWithTxID_cases (hm : m.Consistent env.cr) (tx : Transaction) (txid : Bytes) :
    (∃ e, replaceByFeeWithTxID env tx txid m = .err e m)
      ∨ ∃ a, tx.fromAddress env.cr = .ok a ∧ m.Outbid env.cr tx
        ∧ replaceByFeeWithTxID env tx txid m = replaceLocked env tx txid a m := by
  unfold replaceByFeeWithTxID
  cases ha : tx.fromAddress env.cr with
  | error e => exact .inl ⟨_, rfl⟩
  | ok a =>
    dsimp only
    rw [get_bind_apply]
    cases hindex : m.txIdOf a tx.nonce with
    | none => exact .inl ⟨_, rfl⟩
    | some existingID =>
      obtain ⟨existing, hexisting, hsender, hnonce⟩ := (hm.indexed a _ existingID).mp hindex
      dsimp only
      rw [hexisting]
      dsimp only
      split
      · exact .inl ⟨_, rfl⟩
      · next hfee =>
        split
        · exact .inl ⟨_, rfl⟩
        · exact .inr ⟨a, rfl, ⟨⟨existingID, existing⟩, GoMap.mem_entries_iff.mpr hexisting,
            hsender.trans ha.symm, hnonce, UInt64.not_le.mp hfee⟩, rfl⟩

/-- A replacement never faults: the index has no identifier that is not pooled. -/
theorem replaceByFeeWithTxID_ends (hm : m.Consistent env.cr) (tx : Transaction) (txid : Bytes) :
    ∃ m', (replaceByFeeWithTxID env tx txid m).state? = some m'
      ∧ PoolSteps env (m.Outbid env.cr tx) (· = tx) m m' := by
  rcases replaceByFeeWithTxID_cases hm tx txid with ⟨e, h⟩ | ⟨a, ha, houtbid, h⟩
  · exact ⟨m, by rw [h, Outcome.state?_err], .refl⟩
  · rw [h]
    exact replaceLocked_ends hm houtbid txid ha

theorem replaceByFee_ends (hm : m.Consistent env.cr) (tx : Transaction) :
    ∃ m', (replaceByFee env tx m).state? = some m'
      ∧ PoolSteps env (m.Outbid env.cr tx) (· = tx) m m' := by
  unfold replaceByFee
  cases txIDHex env.cr tx with
  | error e => exact ⟨m, rfl, .refl⟩
  | ok id => exact replaceByFeeWithTxID_ends hm tx id

/-- **When a call can take entries out**, read off the pool before it. -/
def PoolCall.MayRemove (env : Env) (m : Mempool) : PoolCall → Prop
  | .add _ | .addWithTxID _ _ _ _ | .addWithoutSignatureValidation _ => m.isFull = true
  | .replaceByFee tx | .replaceByFeeWithTxID tx _ => m.Outbid env.cr tx
  | .remove id => m.entries.lookup id ≠ none
  | .removeMany ids => ∃ id ∈ ids, m.entries.lookup id ≠ none
  | .setMaxSize maxSize => m.entries.keys.length > maxSize
  | .cleanupExpired =>
    ∃ x ∈ m.entries.entries, Mempool.timeSub (env.now m.tick) x.2.received > m.ttl
  | .setMinFeeRate _ | .updateHeight _ | .updateConsensus _ | .clear => False

instance (m : Mempool) (tx : Transaction) : Decidable (m.Outbid env.cr tx) :=
  inferInstanceAs (Decidable (∃ x ∈ m.entries.entries, _))

instance (m : Mempool) (call : PoolCall) : Decidable (call.MayRemove env m) :=
  match call with
  | .add _ | .addWithTxID _ _ _ _ | .addWithoutSignatureValidation _ =>
    inferInstanceAs (Decidable (_ = true))
  | .replaceByFee tx | .replaceByFeeWithTxID tx _ =>
    inferInstanceAs (Decidable (m.Outbid env.cr tx))
  | .remove _ => inferInstanceAs (Decidable (_ ≠ none))
  | .removeMany _ => inferInstanceAs (Decidable (∃ id ∈ _, m.entries.lookup id ≠ none))
  | .setMaxSize _ => inferInstanceAs (Decidable (_ > _))
  | .cleanupExpired => inferInstanceAs (Decidable (∃ x ∈ m.entries.entries, _))
  | .setMinFeeRate _ | .updateHeight _ | .updateConsensus _ | .clear =>
    inferInstanceAs (Decidable False)

/-- The transaction a call offers to the pool. -/
def PoolCall.Offers : PoolCall → Transaction → Prop
  | .add tx | .addWithTxID tx _ _ _ | .addWithoutSignatureValidation tx | .replaceByFee tx
  | .replaceByFeeWithTxID tx _ => (· = tx)
  | _ => fun _ => False

/-- Removing what is not there changes nothing. -/
theorem Mempool.removeMany_of_none {ids : List Bytes}
    (h : ∀ id ∈ ids, m.entries.lookup id = none) : m.removeMany env ids = m := by
  induction ids with
  | nil => rfl
  | cons id ids ih =>
    unfold Mempool.removeMany at ih ⊢
    rw [List.foldl_cons, Mempool.removeLocked_of_none (h id List.mem_cons_self)]
    exact ih fun x hx => h x (List.mem_cons_of_mem id hx)

theorem Mempool.cleanupExpired_steps (m : Mempool) :
    PoolSteps env (PoolCall.cleanupExpired.MayRemove env m) (fun _ => False) m
      (m.cleanupExpired env) := by
  unfold Mempool.cleanupExpired
  dsimp only
  refine (PoolSteps.tick m (m.tick + 1)).trans ?_
  by_cases hexpired : PoolCall.cleanupExpired.MayRemove env m
  · exact (Mempool.evicting_steps hexpired).removeMany _ _
  · -- nothing has expired
    have hnil : (env.order m.tick m.entries.entries).filter
        (fun e => decide (Mempool.timeSub (env.now m.tick) e.2.received > m.ttl)) = [] := by
      refine List.filter_eq_nil_iff.mpr fun e he hold => hexpired ⟨e, ?_, of_decide_eq_true hold⟩
      exact (env.order_perm _ _).mem_iff.mp he
    rw [hnil]
    exact .refl

/-- **Every call is a sequence of changes**, and no call faults. -/
theorem PoolCall.exec_steps (hm : m.Consistent env.cr) (call : PoolCall) :
    ∃ m', call.exec env m = some m' ∧ PoolSteps env (call.MayRemove env m) call.Offers m m' := by
  cases call with
  | add tx | addWithTxID tx _ _ _ | addWithoutSignatureValidation tx =>
    exact addIdentified_ends _ tx _ m
  | replaceByFee tx => exact replaceByFee_ends hm tx
  | replaceByFeeWithTxID tx txid => exact replaceByFeeWithTxID_ends hm tx txid
  | remove id =>
    refine ⟨_, rfl, ?_⟩
    by_cases hid : m.entries.lookup id = none
    · rw [Mempool.removeLocked_of_none hid]
    · exact .single (.remove m id hid)
  | removeMany ids =>
    refine ⟨_, rfl, ?_⟩
    by_cases hids : ∃ id ∈ ids, m.entries.lookup id ≠ none
    · exact (Mempool.evicting_steps hids).removeMany m ids
    · rw [Mempool.removeMany_of_none fun id hid => not_not.mp fun h => hids ⟨id, hid, h⟩]
  | setMaxSize maxSize =>
    refine ⟨_, rfl, ?_⟩
    exact .head (.still m maxSize m.minFeeRate m.consensus m.currentHeight m.tick)
      (Mempool.shrink_steps _ _ fun hlong => hlong)
  | setMinFeeRate rate =>
    exact ⟨_, rfl, .single (.still m m.maxSize rate m.consensus m.currentHeight m.tick)⟩
  | updateHeight height =>
    exact ⟨_, rfl, .single (.still m m.maxSize m.minFeeRate m.consensus height m.tick)⟩
  | updateConsensus consensus =>
    exact ⟨_, rfl, .single (.still m m.maxSize m.minFeeRate consensus m.currentHeight m.tick)⟩
  | clear => exact ⟨_, rfl, .single (.clear m)⟩
  | cleanupExpired => exact ⟨_, rfl, Mempool.cleanupExpired_steps m⟩

/-! ## Whole runs -/

/-- Every call of a run meets a condition on the pool before it. -/
def Along (env : Env) (C : Mempool → PoolCall → Prop) : List PoolCall → Mempool → Prop
  | [], _ => True
  | call :: calls, m => C m call ∧ ∀ m' ∈ call.exec env m, Along env C calls m'

instance (C : Mempool → PoolCall → Prop) [∀ m call, Decidable (C m call)] :
    ∀ (calls : List PoolCall) (m : Mempool), Decidable (Along env C calls m)
  | [], _ => inferInstanceAs (Decidable True)
  | call :: calls, m =>
    have (m' : Mempool) : Decidable (Along env C calls m') := instDecidableAlong C calls m'
    inferInstanceAs (Decidable (C m call ∧ ∀ m' ∈ call.exec env m, Along env C calls m'))

theorem along_true : ∀ (calls : List PoolCall) (m : Mempool), Along env (fun _ _ => True) calls m
  | [], _ => trivial
  | _ :: calls, _ => ⟨trivial, fun m' _ => along_true calls m'⟩

/-- **Run induction.** A run from a consistent pool ends in a consistent pool, and keeps
whatever a call keeps that meets `C`. -/
theorem runPool_induction {C : Mempool → PoolCall → Prop} {I : Mempool → Prop}
    (hkeep : ∀ m call m', m.Consistent env.cr → C m call → I m → call.exec env m = some m' → I m')
    {calls : List PoolCall} (hm : m.Consistent env.cr) (hI : I m)
    (hC : Along env C calls m) :
    ∃ m', runPool env calls m = some m' ∧ m'.Consistent env.cr ∧ I m' := by
  induction calls generalizing m with
  | nil => exact ⟨m, rfl, hm, hI⟩
  | cons call calls ih =>
    obtain ⟨m₁, hexec, hsteps⟩ := call.exec_steps hm
    obtain ⟨m', hrun, hend⟩ := ih (hsteps.consistent hm) (hkeep m call m₁ hm hC.1 hI hexec)
      (hC.2 m₁ hexec)
    refine ⟨m', ?_, hend⟩
    unfold runPool
    rw [hexec, Option.bind_some, hrun]

/-- Whatever the changes of a call keep is kept. -/
theorem runPool_invariant {C : Mempool → PoolCall → Prop} {I : Mempool → Prop}
    (hkeep : ∀ m call m', C m call → I m →
      PoolSteps env (call.MayRemove env m) call.Offers m m' → I m')
    {calls : List PoolCall} (hm : m.Consistent env.cr) (hI : I m)
    (hC : Along env C calls m) :
    ∃ m', runPool env calls m = some m' ∧ m'.Consistent env.cr ∧ I m' := by
  refine runPool_induction (fun m call m' hm hC hI hexec => ?_) hm hI hC
  obtain ⟨m₁, hexec₁, hsteps⟩ := call.exec_steps hm
  obtain rfl : m₁ = m' := Option.some.inj (hexec₁.symm.trans hexec)
  exact hkeep m call m₁ hC hI hsteps

/-- An entry of which an address is the sender or the recipient. -/
def MempoolEntry.Touches (cr : Crypto) (e : MempoolEntry) (addr : Bytes) : Prop :=
  e.tx.fromAddress cr = .ok addr ∨ e.tx.toAddress = addr

namespace Mempool

/-- The sender/nonce index and the entries determine each other, the fee order holds the
entries, the total is that of their sizes. -/
structure WellIndexed (cr : Crypto) (m : Mempool) : Prop where
  /-- every entry has a sender, and so a place in the index -/
  sender : ∀ id e, m.entries.lookup id = some e → ∃ a, e.tx.fromAddress cr = .ok a
  /-- the index has under a sender and a nonce the entry with that sender and nonce -/
  senderNonce : ∀ a n id, m.txIdOf a n = some id
    ↔ ∃ e, m.entries.lookup id = some e ∧ e.tx.fromAddress cr = .ok a ∧ e.tx.nonce = n
  /-- the fee order has each entry once -/
  byFee : m.byFee.Perm (m.entries.entries.map (·.2))
  /-- the total, as far as 64 bits can hold it -/
  totalSize : m.totalSize.toNat = (m.entries.entries.map (·.2.size.toNat)).sum % 2 ^ 64

theorem Consistent.wellIndexed {cr : Crypto} (h : m.Consistent cr) : m.WellIndexed cr := by
  have hvalues : (m.entries.entries.map (·.2)).Nodup := by
    refine List.Nodup.map_on (fun x hx y hy hxy => ?_) m.entries.nodupKeys.nodup
    -- two entries with one value stand under the same identifier
    have hx' := h.txId (GoMap.mem_entries_iff.mp hx)
    have hy' := h.txId (GoMap.mem_entries_iff.mp hy)
    exact Sigma.ext (hx'.symm.trans (hxy ▸ hy')) (heq_of_eq hxy)
  have hperm : m.byFee.Perm (m.entries.entries.map (·.2)) := by
    refine (List.perm_ext_iff_of_nodup h.ptrs.of_map hvalues).mpr fun e => ?_
    rw [h.byFee, List.mem_map]
    refine ⟨fun he => ⟨⟨e.txId, e⟩, GoMap.mem_entries_iff.mpr he, rfl⟩, ?_⟩
    rintro ⟨⟨id, e'⟩, hmem, rfl⟩
    have hlookup := GoMap.mem_entries_iff.mp hmem
    rw [h.txId hlookup]
    exact hlookup
  refine ⟨fun id e he => h.sender he, h.indexed, hperm, ?_⟩
  rw [h.total, (hperm.map (·.size.toNat)).sum_eq, List.map_map]
  rfl

/-! ### The fee order -/

/-- The rates of the entries fall. -/
def Falling (m : Mempool) : Prop := m.byFee.Pairwise fun a b => b.feeRate ≤ a.feeRate

/-- The call offers no more than any entry pays. -/
def BidsBelow (m : Mempool) : PoolCall → Prop
  | .add tx | .addWithTxID tx _ _ _ | .addWithoutSignatureValidation tx | .replaceByFee tx
  | .replaceByFeeWithTxID tx _ => ∀ e ∈ m.byFee, tx.feeRate ≤ e.feeRate
  | _ => True

instance (m : Mempool) (call : PoolCall) : Decidable (m.BidsBelow call) :=
  match call with
  | .add _ | .addWithTxID _ _ _ _ | .addWithoutSignatureValidation _ | .replaceByFee _
  | .replaceByFeeWithTxID _ _ => inferInstanceAs (Decidable (∀ e ∈ m.byFee, _))
  | .remove _ | .removeMany _ | .setMaxSize _ | .setMinFeeRate _ | .updateHeight _
  | .updateConsensus _ | .clear | .cleanupExpired => inferInstanceAs (Decidable True)

theorem BidsBelow.le {call : PoolCall} (h : m.BidsBelow call)
    (htx : call.Offers tx) : ∀ e ∈ m.byFee, tx.feeRate ≤ e.feeRate := by
  cases call <;> first | exact htx.elim | exact (show tx = _ from htx) ▸ h

/-- A call offers one transaction at most. -/
theorem offers_inj {call : PoolCall} {tx' : Transaction} (h : call.Offers tx)
    (h' : call.Offers tx') : tx = tx' := by
  cases call <;> first | exact h.elim | exact Eq.trans h (Eq.symm h')

theorem newEntry_feeRate (m : Mempool) (tx : Transaction) (id : Bytes) :
    (m.newEntry env tx id).feeRate = tx.feeRate := by
  rw [newEntry]

/-- Removals do not disturb falling rates, and a lower rate at the end neither. -/
theorem falling_of_steps {offered : Transaction → Prop} (h : PoolSteps env mayRemove offered m m')
    (hm : m.Falling ∧ ∀ tx, offered tx → ∀ e ∈ m.byFee, tx.feeRate ≤ e.feeRate)
    (hone : ∀ tx tx', offered tx → offered tx' → tx = tx') :
    m'.Falling ∧ ∀ tx, offered tx → ∀ e ∈ m'.byFee, tx.feeRate ≤ e.feeRate := by
  induction h with
  | refl => exact hm
  | @tail x y _ hstep ih =>
    cases hstep with
    | still => exact ih
    | clear => exact ⟨List.Pairwise.nil, fun tx _ e he => absurd he List.not_mem_nil⟩
    | remove id _ =>
      have hsub := (removeLocked_loses env x id).byFee
      exact ⟨ih.1.sublist hsub, fun tx htx e he => ih.2 tx htx e (hsub.subset he)⟩
    | enter htx ha hid hnonce =>
      unfold Falling
      rw [enter_byFee]
      refine ⟨List.pairwise_append.mpr ⟨ih.1, List.pairwise_singleton _ _, ?_⟩, ?_⟩
      · intro e he e' he'
        rw [List.mem_singleton.mp he', newEntry_feeRate]
        exact ih.2 _ htx e he
      · intro tx' htx' e he
        rcases List.mem_append.mp he with hold | hnew
        · exact ih.2 tx' htx' e hold
        · rw [List.mem_singleton.mp hnew, newEntry_feeRate, hone tx' _ htx' htx]

/-! ### The index by address -/

/-- The index by recipient has nothing that is not pooled. -/
def ExactRecipients (m : Mempool) : Prop :=
  ∀ a id, m.addrInfo.lookup₂ a id = some () → ∃ e, m.entries.lookup id = some e ∧ e.tx.toAddress = a

theorem exactRecipients_of_steps {offered : Transaction → Prop}
    (h : PoolSteps env mayRemove offered m m') (hremove : ¬ mayRemove)
    (hm : m.ExactRecipients) : m'.ExactRecipients := by
  induction h with
  | refl => exact hm
  | @tail x y _ hstep ih =>
    cases hstep with
    | still => exact ih
    | remove id h => exact absurd h hremove
    | clear =>
      intro a id h
      cases h
    | @enter _ tx txid htx ha hid hnonce =>
      intro b id h
      rw [lookup₂_addrInfo_enter] at h
      rw [enter_entries, GoMap.lookup_insert]
      split at h
      · next hnew =>
        rw [if_pos hnew.2.2]
        exact ⟨_, rfl, hnew.2.1.symm⟩
      · obtain ⟨e, he, hto⟩ := ih b id h
        refine ⟨e, ?_, hto⟩
        rw [if_neg, he]
        rintro rfl
        cases he.symm.trans hid

/-- What `GetByAddress` collects. -/
theorem mem_getByAddress (m : Mempool) (addr id : Bytes) :
    id ∈ m.getByAddress env addr
      ↔ (∃ n, m.txIdOf addr n = some id) ∨ m.addrInfo.lookup₂ addr id = some () := by
  unfold getByAddress
  rw [(env.order_perm _ _).mem_iff, ← AList.mem_keys, txidSet]
  rw [GoMap.mem_foldl_insert (fun txid => txid)]
  refine or_congr ?_ ?_
  · refine (GoMap.mem_foldl_insert (fun e : (_ : UInt64) × Bytes => e.2) _ _ _).trans ?_
    rw [or_iff_right (AList.notMem_empty id)]
    unfold txIdOf
    simp only [GoMap.lookup₂_eq, ← GoMap.mem_entries_iff]
    constructor
    · rintro ⟨e, he, rfl⟩
      exact ⟨e.1, he⟩
    · rintro ⟨n, hn⟩
      exact ⟨⟨n, id⟩, hn, rfl⟩
  · rw [GoMap.lookup₂_eq, exists_eq_right, ← AList.mem_keys, ← AList.lookup_isSome]
    cases AList.lookup id _ <;> simp

/-- **`GetByAddress` is exact** if the index by recipient is. -/
theorem Consistent.getByAddress_exact (hm : m.Consistent env.cr)
    (hexact : m.ExactRecipients) {addr : Bytes} (haddr : addr ≠ []) (id : Bytes) :
    id ∈ m.getByAddress env addr ↔ ∃ e, m.entries.lookup id = some e ∧ e.Touches env.cr addr := by
  rw [mem_getByAddress]
  constructor
  · rintro (⟨n, hn⟩ | hto)
    · obtain ⟨e, he, ha, -⟩ := (hm.indexed addr n id).mp hn
      exact ⟨e, he, .inl ha⟩
    · obtain ⟨e, he, ha⟩ := hexact addr id hto
      exact ⟨e, he, .inr ha⟩
  · rintro ⟨e, he, hfrom | rfl⟩
    · exact .inl ⟨e.tx.nonce, (hm.indexed addr _ id).mpr ⟨e, he, hfrom, rfl⟩⟩
    · exact .inr (hm.recipients he haddr)

end Mempool

/-- **The pool after a run.** No call faults. The sender/nonce index and the entries
determine each other, the fee order has each entry once and the total is that of the sizes,
whatever the calls were. The fee order is in heap order if no call offered more than any
entry paid at the time; and `GetByAddress` is exact if no call was one that can take
entries out. -/
theorem pool_after_run (env : Env) (maxSize : Int) (minFeeRate : UInt64) (ttl : Int)
    (chainId : UInt64) (consensus : ConsensusParams) (height maxMemoryMB : UInt64)
    (calls : List PoolCall) :
    let m₀ := newMempool maxSize minFeeRate ttl chainId consensus height maxMemoryMB
    ∃ m, runPool env calls m₀ = some m ∧ m.WellIndexed env.cr
      ∧ (Along env Mempool.BidsBelow calls m₀ → m.byFee.Ordered)
      ∧ (Along env (fun m call => ¬ call.MayRemove env m) calls m₀ →
        ∀ addr : Bytes, addr ≠ [] → (m.getByAddress env addr).Nodup
          ∧ ∀ id, id ∈ m.getByAddress env addr
            ↔ ∃ e, m.entries.lookup id = some e ∧ e.Touches env.cr addr) := by
  intro m₀
  have hm₀ : m₀.Consistent env.cr := Mempool.consistent_of_empty rfl rfl rfl rfl rfl
  obtain ⟨m, hrun, hm, -⟩ := runPool_invariant (C := fun _ _ => True) (I := fun _ => True)
    (fun _ _ _ _ _ _ => trivial) hm₀ trivial (along_true calls m₀)
  refine ⟨m, hrun, hm.wellIndexed, fun hbids => ?_, fun hstay addr haddr => ⟨?_, fun id => ?_⟩⟩
  · obtain ⟨m', hrun', -, hfalling⟩ := runPool_invariant (I := Mempool.Falling)
      (fun m call m' hbid hm hsteps => (Mempool.falling_of_steps hsteps
        ⟨hm, fun tx htx => hbid.le htx⟩ fun _ _ => Mempool.offers_inj).1)
      hm₀ List.Pairwise.nil hbids
    obtain rfl : m' = m := Option.some.inj (hrun'.symm.trans hrun)
    exact FeeHeap.ordered_of_pairwise hfalling
  · exact (env.order_perm _ _).nodup_iff.mpr (AList.keys_nodup _)
  · have hexact₀ : m₀.ExactRecipients := by
      intro a id h
      cases h
    obtain ⟨m', hrun', -, hexact⟩ := runPool_invariant (I := Mempool.ExactRecipients)
      (fun m call m' hstay hm hsteps => Mempool.exactRecipients_of_steps hsteps hstay hm)
      hm₀ hexact₀ hstay
    obtain rfl : m' = m := Option.some.inj (hrun'.symm.trans hrun)
    exact hm.getByAddress_exact hexact haddr id

/-- A transfer of the genesis miner with a fee, under a name. -/
def pooled (name : String) (nonce fee : UInt64) : PoolCall :=
  .addWithTxID { sampleTransfer (zeroAddress 2) with nonce := nonce, fee := fee } (ascii name)
    ConsensusParams.default 1

/-- An empty pool with the default limits. -/
def samplePool : Mempool := newMempool 0 0 0 1 ConsensusParams.default 0 0

/-- Two transfers with falling fees, which stay. -/
theorem pool_after_run_falling :
    ∃ m, runPool sampleEnv [pooled "a" 1 70000, pooled "b" 2 60000] samplePool = some m
      ∧ m.byFee.length = 2 ∧ m.byFee.Ordered
      ∧ ∀ id, id ∈ m.getByAddress sampleEnv (zeroAddress 2)
        ↔ ∃ e, m.entries.lookup id = some e ∧ e.Touches sampleEnv.cr (zeroAddress 2) := by
  obtain ⟨m, hrun, -, hordered, hexact⟩ := pool_after_run sampleEnv 0 0 0 1
    ConsensusParams.default 0 0 [pooled "a" 1 70000, pooled "b" 2 60000]
  have hlength : (runPool sampleEnv [pooled "a" 1 70000, pooled "b" 2 60000] samplePool).any
      (fun m => m.byFee.length = 2) = true := by
    decide +kernel
  obtain ⟨m', hm', htwo⟩ := (Option.any_eq_true _ _).mp hlength
  obtain rfl : m' = m := Option.some.inj (hm'.symm.trans hrun)
  exact ⟨m', hrun, of_decide_eq_true htwo, hordered (by decide +kernel),
    (hexact (by decide +kernel) (zeroAddress 2) (by decide)).2⟩

/-- **No heap order, and no removal from the index by recipient**: a transfer with a higher
fee stays behind the earlier one, and a transfer that was removed is still found under its
recipient. -/
theorem removed_transfer_found :
    ∃ m, runPool sampleEnv [pooled "a" 1 60000, pooled "b" 2 70000, pooled "c" 3 60000,
        .remove (ascii "c")] samplePool = some m
      ∧ ¬ m.byFee.Ordered
      ∧ ascii "c" ∈ m.getByAddress sampleEnv (zeroAddress 2)
      ∧ m.entries.lookup (ascii "c") = none := by
  decide +kernel

end NogoChain
