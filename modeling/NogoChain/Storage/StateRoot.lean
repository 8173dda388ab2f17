import NogoChain.Mining.Mine

/-!
# The state root

`CalculateStateRoot` hashes the accounts by ascending address, each written as its address and
sixteen bytes. Nothing says where an address ends, so that one long address can read like an
account and the beginning of the next. Addresses none of which begins another leave no such
doubt, for instance those of one length that the chain generates.
-/

namespace NogoChain

/-- An account as `CalculateStateRoot` writes it. -/
def accountEntry (e : Bytes × Account) : Bytes :=
  e.1 ++ bigEndian 8 e.2.balance.toNat ++ bigEndian 8 e.2.nonce.toNat

theorem accountBytes_eq (s : Ledger) :
    accountBytes s = (sortedAccounts s).flatMap accountEntry := by
  rw [sortedAccounts, List.flatMap_map]
  rfl

theorem mem_sortedAccounts {s : Ledger} {addr : Bytes} {x : Account} :
    (addr, x) ∈ sortedAccounts s ↔ s.lookup addr = some x := by
  simp only [sortedAccounts, List.mem_map, Finset.mem_sort, Finmap.mem_keys, Prod.mk.injEq]
  constructor
  · rintro ⟨addr, haddr, rfl, rfl⟩
    obtain ⟨x, hx⟩ := Finmap.mem_iff.mp haddr
    rw [Ledger.account, hx, Option.getD_some]
  · intro h
    exact ⟨addr, Finmap.mem_iff.mpr ⟨x, h⟩, rfl, by rw [Ledger.account, h, Option.getD_some]⟩

theorem bigEndian_uint64_inj {m n : UInt64} (h : bigEndian 8 m.toNat = bigEndian 8 n.toNat) :
    m = n :=
  littleEndian_uint64_inj (List.reverse_injective h)

theorem accountEntry_inj {x y : Bytes × Account} (h : accountEntry x = accountEntry y) :
    x = y := by
  obtain ⟨addr, balance, nonce⟩ := x
  obtain ⟨addr', balance', nonce'⟩ := y
  obtain ⟨hfirst, hnonce⟩ := List.append_inj' h (by simp)
  obtain ⟨haddr, hbalance⟩ := List.append_inj' hfirst (by simp)
  rw [show addr = addr' from haddr, show balance = balance' from bigEndian_uint64_inj hbalance,
    show nonce = nonce' from bigEndian_uint64_inj hnonce]

theorem length_accountEntry (e : Bytes × Account) : (accountEntry e).length = e.1.length + 16 := by
  simp [accountEntry]

/-- Neither address begins the other, unless they are the same. -/
def Unconfused (addr addr' : Bytes) : Prop :=
  addr <+: addr' ∨ addr' <+: addr → addr = addr'

instance (addr addr' : Bytes) : Decidable (Unconfused addr addr') :=
  inferInstanceAs (Decidable (_ → _))

theorem addr_isPrefix_flatMap (x : Bytes × Account) (l : List (Bytes × Account)) :
    x.1 <+: (x :: l).flatMap accountEntry := by
  simp only [List.flatMap_cons, accountEntry, List.append_assoc]
  exact List.prefix_append _ _

/-- Accounts at unconfused addresses are read back one by one: two first addresses begin one
string, so one of them begins the other. -/
theorem flatMap_accountEntry_inj {l l' : List (Bytes × Account)}
    (h : ∀ e ∈ l, ∀ e' ∈ l', Unconfused e.1 e'.1)
    (heq : l.flatMap accountEntry = l'.flatMap accountEntry) : l = l' := by
  have hlength := congrArg List.length heq
  induction l generalizing l' with
  | nil =>
    cases l' with
    | nil => rfl
    | cons y l' =>
      simp [length_accountEntry] at hlength
      omega
  | cons x l ih =>
    cases l' with
    | nil => simp [length_accountEntry] at hlength
    | cons y l' =>
      have haddr : x.1 = y.1 := by
        refine h x List.mem_cons_self y List.mem_cons_self ?_
        exact List.prefix_or_prefix_of_prefix (addr_isPrefix_flatMap x l)
          (heq ▸ addr_isPrefix_flatMap y l')
      obtain ⟨hfirst, hrest⟩ := List.append_inj heq (by simp [length_accountEntry, haddr])
      rw [accountEntry_inj hfirst, ih (fun e he e' he' => h e (List.mem_cons_of_mem _ he) e'
        (List.mem_cons_of_mem _ he')) hrest (congrArg _ hrest)]

/-- **The string that is hashed determines the state** if no address of one state begins another
address of the other. -/
theorem accountBytes_binds_state (s s' : Ledger)
    (h : ∀ addr ∈ s.keys, ∀ addr' ∈ s'.keys, Unconfused addr addr')
    (heq : accountBytes s = accountBytes s') : s = s' := by
  have hkeys : ∀ {s : Ledger}, ∀ e ∈ sortedAccounts s, e.1 ∈ s.keys := fun e he =>
    Finmap.mem_keys.mpr (Finmap.mem_iff.mpr ⟨_, mem_sortedAccounts.mp he⟩)
  rw [accountBytes_eq, accountBytes_eq] at heq
  have hentries := flatMap_accountEntry_inj
    (fun e he e' he' => h e.1 (hkeys e he) e'.1 (hkeys e' he')) heq
  refine Finmap.ext_lookup fun addr => Option.ext fun x => ?_
  rw [← mem_sortedAccounts, ← mem_sortedAccounts, hentries]

/-- A sorted list of the addresses is the order in which they are written. -/
theorem accountBytes_of_sorted {s : Ledger} {l : List Bytes} (hkeys : s.keys = l.toFinset)
    (hnodup : l.Nodup) (hsorted : l.Pairwise (· ≤ ·)) :
    accountBytes s = l.flatMap fun addr => accountEntry (addr, s.account addr) := by
  rw [accountBytes, hkeys, (List.toFinset_sort (· ≤ ·) hnodup).mpr hsorted]
  rfl

/-- Two accounts at addresses of different lengths that were entered in either order. -/
theorem accountBytes_binds_state_two : ((∅ : Ledger).insert [1, 2] ⟨5, 0⟩).insert [3] ⟨7, 1⟩
      = ((∅ : Ledger).insert [3] ⟨7, 1⟩).insert [1, 2] ⟨5, 0⟩ := by
  apply accountBytes_binds_state _ _ (by decide)
  rw [accountBytes_of_sorted (l := [[1, 2], [3]]) (by decide) (by decide) (by decide),
    accountBytes_of_sorted (l := [[1, 2], [3]]) (by decide) (by decide) (by decide)]
  decide

/-- **Two states with one root**: an account with the empty address and one with the address 97,
or a single account whose address is what is written of the first and that address. -/
theorem two_states_one_root :
    let s := ((∅ : Ledger).insert [] ⟨0, 0⟩).insert [97] ⟨0, 0⟩
    let s' := (∅ : Ledger).insert (List.replicate 16 0 ++ [97]) ⟨0, 0⟩
    accountBytes s = accountBytes s' ∧ s.lookup [97] = some ⟨0, 0⟩ ∧ s'.lookup [97] = none := by
  refine ⟨?_, by decide, by decide⟩
  rw [accountBytes_of_sorted (l := [[], [97]]) (by decide) (by decide) (by decide),
    accountBytes_of_sorted (l := [List.replicate 16 0 ++ [97]]) (by decide) (by decide) (by decide)]
  decide

end NogoChain
