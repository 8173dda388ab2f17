import Mathlib.Data.List.AList
import Mathlib.Data.List.Flatten
import Mathlib.Data.List.Induction
import Mathlib.Data.List.Perm.Subperm
import Mathlib.Data.List.Sort

/-!
# Go maps

A Go map is an `AList`: a list of entries with distinct keys. The order of the list has no
meaning; a program that ranges over a map is given an order by its environment.
-/

/-- A Go map. -/
abbrev GoMap (κ ν : Type) := AList (fun _ : κ => ν)

namespace GoMap

variable {κ ν ι : Type} [DecidableEq κ]

theorem lookup_insert (m : GoMap κ ν) (k k' : κ) (v : ν) :
    (m.insert k v).lookup k' = if k' = k then some v else m.lookup k' := by
  split
  · next h => rw [h, AList.lookup_insert]
  · next h => rw [AList.lookup_insert_ne h]

theorem lookup_erase (m : GoMap κ ν) (k k' : κ) :
    (m.erase k).lookup k' = if k' = k then none else m.lookup k' := by
  split
  · next h => rw [h, AList.lookup_erase]
  · next h => rw [AList.lookup_erase_ne h]

variable {k : κ} {m : GoMap κ ν} {v : ν} {l : List ι}

theorem mem_keys_of_lookup (h : m.lookup k = some v) : k ∈ m.keys :=
  AList.mem_keys.mp (AList.lookup_isSome.mp (Option.isSome_of_eq_some h))

theorem exists_lookup_of_mem_keys (h : k ∈ m.keys) : ∃ v, m.lookup k = some v :=
  Option.isSome_iff_exists.mp (AList.lookup_isSome.mpr (AList.mem_keys.mpr h))

/-- What is in a list of a map, or in no list. -/
theorem exists_lookup_of_mem_getD {m : GoMap κ (List ι)} {x : ι} (h : x ∈ (m.lookup k).getD []) :
    ∃ l, m.lookup k = some l ∧ x ∈ l := by
  cases hl : m.lookup k with
  | none => simp [hl] at h
  | some l => exact ⟨l, rfl, by simpa [hl] using h⟩

/-- An entry that is left after an erasure was there before. -/
theorem lookup_of_erase {k' : κ} (h : (m.erase k).lookup k' = some v) : m.lookup k' = some v := by
  rw [lookup_erase] at h
  split at h
  · cases h
  · exact h

/-- An entry that is left after several erasures was there before. -/
theorem lookup_of_foldl_erase (key : ι → κ)
    (h : (l.foldl (fun m x => m.erase (key x)) m).lookup k = some v) : m.lookup k = some v := by
  induction l generalizing m with
  | nil => exact h
  | cons x xs ih => exact lookup_of_erase (ih h)

/-- The same for erasures from the far end of a list. -/
theorem lookup_of_foldr_erase (key : ι → κ)
    (h : (l.foldr (fun x m => m.erase (key x)) m).lookup k = some v) : m.lookup k = some v := by
  rw [← List.foldl_reverse] at h
  exact lookup_of_foldl_erase key h

/-- What several erasures leave. -/
theorem lookup_foldl_erase (key : ι → κ) (l : List ι) (m : GoMap κ ν) (k : κ)
    [Decidable (k ∈ l.map key)] :
    (l.foldl (fun m x => m.erase (key x)) m).lookup k
      = if k ∈ l.map key then none else m.lookup k := by
  have hfold : ∀ m : GoMap κ ν, (l.foldl (fun m x => m.erase (key x)) m).lookup k
      = if (∃ x ∈ l, key x = k) then none else m.lookup k := by
    induction l with
    | nil => simp
    | cons x xs ih =>
      intro m
      rw [List.foldl_cons, ih, lookup_erase]
      by_cases hk : k = key x
      · simp [hk]
      · simp [hk, Ne.symm hk]
  rw [hfold]
  simp only [List.mem_map]

theorem lookup_foldr_erase (key : ι → κ) (l : List ι) (m : GoMap κ ν) (k : κ)
    [Decidable (k ∈ l.map key)] :
    (l.foldr (fun x m => m.erase (key x)) m).lookup k
      = if k ∈ l.map key then none else m.lookup k := by
  rw [← List.foldl_reverse, lookup_foldl_erase]
  simp only [List.map_reverse, List.mem_reverse]

/-- An entry after several insertions is one of those inserted, or was there before. -/
theorem lookup_of_foldl_insert (key : ι → κ) (val : ι → ν)
    (h : (l.foldl (fun m x => m.insert (key x) (val x)) m).lookup k = some v) :
    (∃ x ∈ l, key x = k ∧ val x = v) ∨ m.lookup k = some v := by
  induction l generalizing m with
  | nil => exact .inr h
  | cons x xs ih =>
    rcases ih h with ⟨y, hy, hyk⟩ | hm
    · exact .inl ⟨y, List.mem_cons_of_mem x hy, hyk⟩
    · rw [lookup_insert] at hm
      split at hm
      · next hk => exact .inl ⟨x, List.mem_cons_self, hk.symm, Option.some.inj hm⟩
      · exact .inr hm

theorem isSome_lookup_foldl_insert (key : ι → κ) (val : ι → ν) (l : List ι) (m : GoMap κ ν)
    (k : κ) :
    ((l.foldl (fun m x => m.insert (key x) (val x)) m).lookup k).isSome
      ↔ k ∈ l.map key ∨ (m.lookup k).isSome := by
  induction l generalizing m with
  | nil => simp
  | cons x xs ih =>
    rw [List.foldl_cons, ih, lookup_insert, List.map_cons, List.mem_cons]
    by_cases hk : k = key x <;> simp [hk]

theorem lookup_foldl_insert_of_notMem (key : ι → κ) (val : ι → ν)
    (h : k ∉ l.map key) (m : GoMap κ ν) :
    (l.foldl (fun m x => m.insert (key x) (val x)) m).lookup k = m.lookup k := by
  induction l generalizing m with
  | nil => rfl
  | cons x xs ih =>
    rw [List.map_cons, List.mem_cons, not_or] at h
    rw [List.foldl_cons, ih h.2, AList.lookup_insert_ne h.1]

/-- After insertions at distinct keys, every one of them is found. -/
theorem lookup_foldl_insert (key : ι → κ) (val : ι → ν) (hkeys : (l.map key).Nodup)
    {x : ι} (hx : x ∈ l) (m : GoMap κ ν) :
    (l.foldl (fun m x => m.insert (key x) (val x)) m).lookup (key x) = some (val x) := by
  induction l generalizing m with
  | nil => cases hx
  | cons y ys ih =>
    rw [List.map_cons, List.nodup_cons] at hkeys
    rw [List.foldl_cons]
    rcases List.mem_cons.mp hx with rfl | hx
    · rw [lookup_foldl_insert_of_notMem key val hkeys.1, AList.lookup_insert]
    · exact ih hkeys.2 hx _

theorem mem_entries_iff : ⟨k, v⟩ ∈ m.entries ↔ m.lookup k = some v :=
  (AList.mem_lookup_iff (s := m) (a := k) (b := v)).symm

theorem length_erase_le (m : GoMap κ ν) (k : κ) : (m.erase k).keys.length ≤ m.keys.length := by
  rw [AList.keys_erase]
  exact List.erase_sublist.length_le

theorem length_erase_lt (h : k ∈ m) : (m.erase k).keys.length < m.keys.length := by
  rw [AList.keys_erase, List.length_erase_of_mem h]
  exact Nat.sub_lt (List.length_pos_of_mem h) Nat.one_pos

/-- A map with fewer keys has fewer entries. -/
theorem length_le_of_lookup {ν' : Type} {m' : GoMap κ ν'}
    (h : ∀ k, (m.lookup k).isSome → (m'.lookup k).isSome) :
    m.entries.length ≤ m'.entries.length := by
  have hsub : m.keys ⊆ m'.keys := fun k hk =>
    AList.mem_keys.mp (AList.lookup_isSome.mp
      (h k (AList.lookup_isSome.mpr (AList.mem_keys.mpr hk))))
  have hle := ((AList.keys_nodup m).subperm hsub).length_le
  simpa [AList.keys, List.keys] using hle

theorem length_le_insert (m : GoMap κ ν) (k : κ) (v : ν) :
    m.entries.length ≤ (m.insert k v).entries.length := by
  refine length_le_of_lookup fun k' hk' => ?_
  rw [lookup_insert]
  split
  · rfl
  · exact hk'

/-- A new key is one more entry. -/
theorem length_insert_of_lookup_none (h : m.lookup k = none) (v : ν) :
    (m.insert k v).entries.length = m.entries.length + 1 := by
  rw [AList.entries_insert_of_notMem (AList.lookup_eq_none.mp h), List.length_cons]

/-- An erased key is one entry less. -/
theorem length_erase_of_lookup (h : m.lookup k = some v) :
    (m.erase k).entries.length < m.entries.length := by
  have hlt := length_erase_lt (AList.mem_keys.mpr (mem_keys_of_lookup h))
  simpa [AList.keys, List.keys] using hlt

/-- Inserting does not lose entries. -/
theorem length_le_foldl_insert (key : ι → κ) (val : ι → ν) (l : List ι) (m : GoMap κ ν) :
    m.entries.length ≤ (l.foldl (fun m x => m.insert (key x) (val x)) m).entries.length := by
  induction l generalizing m with
  | nil => exact Nat.le_refl _
  | cons x xs ih => exact (length_le_insert m (key x) (val x)).trans (ih _)

/-- The keys of a set that a loop has filled. -/
theorem mem_foldl_insert (key : ι → κ) (l : List ι) (m : GoMap κ Unit) (k : κ) :
    k ∈ l.foldl (fun m x => m.insert (key x) ()) m ↔ k ∈ m ∨ ∃ x ∈ l, key x = k := by
  induction l generalizing m with
  | nil => simp
  | cons x xs ih =>
    rw [List.foldl_cons, ih, AList.mem_insert]
    simp only [List.mem_cons, exists_eq_or_imp]
    tauto

/-- **The entries by ascending key**: the one list of pairs with ascending keys that has
every entry. -/
theorem sorted_entries_eq [LE κ] [DecidableLE κ] [Std.IsLinearOrder κ]
    {l : List (Sigma fun _ : κ => ν)} (hl : l.Pairwise fun x y => x.1 ≤ y.1 ∧ x.1 ≠ y.1)
    (hmem : ∀ k v, m.lookup k = some v ↔ ⟨k, v⟩ ∈ l) :
    m.entries.insertionSort (fun x y => x.1 ≤ y.1) = l := by
  have hnodup : l.Nodup := hl.imp fun h heq => h.2 (congrArg Sigma.fst heq)
  have hperm : (m.entries.insertionSort fun x y => x.1 ≤ y.1).Perm l := by
    refine (List.perm_insertionSort _ _).trans ?_
    refine (List.perm_ext_iff_of_nodup (List.NodupKeys.nodup m.nodupKeys) hnodup).mpr ?_
    intro e
    rw [← hmem, ← mem_entries_iff]
  have hsorted : (m.entries.insertionSort fun x y => x.1 ≤ y.1).Pairwise fun x y => x.1 ≤ y.1 := by
    exact List.pairwise_insertionSort _ _
  refine List.Perm.eq_of_pairwise (fun x y hx hy hxy hyx => ?_) hsorted (hl.imp And.left) hperm
  have hkey : x.1 = y.1 := Std.le_antisymm hxy hyx
  have hx' := (hmem x.1 x.2).mpr (hperm.mem_iff.mp hx)
  have hy' := (hmem y.1 y.2).mpr hy
  rw [hkey, hy'] at hx'
  exact Sigma.ext hkey (heq_of_eq (Option.some.inj hx').symm)

/-! ## Filling -/

/-- `m[k] = v` for the elements of a list that have a key and a value. -/
def fill {α : Type} (f : α → Option (κ × ν)) (l : List α) : GoMap κ ν :=
  l.foldl (fun m x => match f x with
    | none => m
    | some e => m.insert e.1 e.2) ∅

theorem foldl_eq_fill {α : Type} {f : α → Option (κ × ν)} {step : GoMap κ ν → α → GoMap κ ν}
    (h : ∀ m x, step m x = (f x).elim m fun e => m.insert e.1 e.2) (l : List α) :
    l.foldl step ∅ = fill f l := by
  unfold fill
  congr 1
  funext m x
  rw [h]
  cases f x with
  | none => rfl
  | some e => rfl

theorem fill_eq_foldl {α : Type} (f : α → Option (κ × ν)) (l : List α) :
    fill f l = (l.filterMap f).foldl (fun m e => m.insert e.1 e.2) ∅ := by
  rw [List.foldl_filterMap, foldl_eq_fill]
  intro m x
  cases f x with
  | none => rfl
  | some e => rfl

theorem exists_of_lookup_fill {α : Type} {f : α → Option (κ × ν)} {l : List α}
    (h : (fill f l).lookup k = some v) : ∃ x ∈ l, f x = some (k, v) := by
  rw [fill_eq_foldl] at h
  obtain ⟨e, he, hk, hv⟩ := (lookup_of_foldl_insert Prod.fst Prod.snd h).resolve_right nofun
  obtain ⟨x, hx, hfx⟩ := List.mem_filterMap.mp he
  exact ⟨x, hx, hfx.trans (congrArg some (Prod.ext hk hv))⟩

theorem exists_lookup_fill {α : Type} {f : α → Option (κ × ν)} {l : List α} {x : α} (hx : x ∈ l)
    (hf : f x = some (k, v)) : ∃ v', (fill f l).lookup k = some v' := by
  rw [fill_eq_foldl, ← Option.isSome_iff_exists, isSome_lookup_foldl_insert Prod.fst Prod.snd]
  exact .inl (List.mem_map_of_mem (List.mem_filterMap.mpr ⟨x, hx, hf⟩))

/-! ## Grouping -/

/-- `m[key(x)] = append(m[key(x)], x)` for the elements of a list that have a key. -/
def group {α : Type} (key : α → Option κ) (l : List α) : GoMap κ (List α) :=
  l.foldl (fun m x => match key x with
    | none => m
    | some k => m.insert k ((m.lookup k).getD [] ++ [x])) ∅

/-- The group of a key holds the elements with that key, in order. -/
theorem lookup_group {α : Type} (key : α → Option κ) (l : List α) (k : κ) : (group key l).lookup k
      = if l.filter (fun x => key x = some k) = [] then none
        else some (l.filter fun x => key x = some k) := by
  induction l using List.reverseRecOn with
  | nil => rfl
  | append_singleton l x ih =>
    unfold group at ih ⊢
    rw [List.foldl_append, List.foldl_cons, List.foldl_nil, List.filter_append]
    cases hx : key x with
    | none => simp [hx, ih]
    | some k' =>
      rw [lookup_insert]
      by_cases hk : k = k'
      · subst hk
        rw [if_pos rfl, ih]
        by_cases hnil : l.filter (fun x => key x = some k) = [] <;> simp [hx, hnil]
      · rw [if_neg hk, ih]
        simp [hx, Ne.symm hk]

/-! ## Maps of maps

A map whose values are maps, as a program keeps it that makes the inner map with its first
entry and drops it with its last. -/

variable {α : Type} [DecidableEq α]

/-- `m[a][k]`. -/
def lookup₂ (m : GoMap α (GoMap κ ν)) (a : α) (k : κ) : Option ν :=
  (m.lookup a).bind (·.lookup k)

/-- `m[a][k] = v`, the inner map made if it is not there. -/
def insert₂ (m : GoMap α (GoMap κ ν)) (a : α) (k : κ) (v : ν) : GoMap α (GoMap κ ν) :=
  m.insert a (((m.lookup a).getD ∅).insert k v)

/-- `delete(m[a], k)`, and the inner map with it if it is empty then. -/
def erase₂ (m : GoMap α (GoMap κ ν)) (a : α) (k : κ) : GoMap α (GoMap κ ν) :=
  match m.lookup a with
  | none => m
  | some inner => if (inner.erase k).keys = [] then m.erase a else m.insert a (inner.erase k)

theorem lookup₂_eq (m : GoMap α (GoMap κ ν)) (a : α) (k : κ) :
    m.lookup₂ a k = ((m.lookup a).getD ∅).lookup k := by
  unfold lookup₂
  cases m.lookup a with
  | none => rw [Option.bind_none, Option.getD_none, AList.lookup_empty]
  | some inner => rfl

theorem lookup₂_empty (a : α) (k : κ) : lookup₂ (∅ : GoMap α (GoMap κ ν)) a k = none := by
  unfold lookup₂
  rw [AList.lookup_empty, Option.bind_none]

theorem lookup₂_insert₂ (m : GoMap α (GoMap κ ν)) (a b : α) (k l : κ) (v : ν) :
    (insert₂ m a k v).lookup₂ b l = if b = a ∧ l = k then some v else m.lookup₂ b l := by
  unfold insert₂ lookup₂
  rw [lookup_insert]
  by_cases hb : b = a
  · subst hb
    rw [if_pos rfl, Option.bind_some, lookup_insert]
    split
    · next hl =>
      rw [if_pos ⟨rfl, hl⟩]
    · next hl =>
      rw [if_neg (fun h => hl h.2)]
      cases m.lookup b with
      | none => rw [Option.getD_none, AList.lookup_empty, Option.bind_none]
      | some inner => rfl
  · rw [if_neg hb, if_neg (fun h => hb h.1)]

theorem lookup_eq_none_of_keys_eq_nil (h : m.keys = []) (k : κ) : m.lookup k = none := by
  refine AList.lookup_eq_none.mpr fun hk => ?_
  rw [AList.mem_keys, h] at hk
  cases hk

theorem lookup₂_erase₂ (m : GoMap α (GoMap κ ν)) (a b : α) (k l : κ) :
    (erase₂ m a k).lookup₂ b l = if b = a ∧ l = k then none else m.lookup₂ b l := by
  unfold erase₂
  by_cases hb : b = a
  · subst hb
    -- what is left of the inner map is the same, whether it is kept or dropped
    have hinner : (erase₂ m b k).lookup₂ b l
        = (m.lookup b).bind fun inner => (inner.erase k).lookup l := by
      unfold erase₂ lookup₂
      cases hm : m.lookup b with
      | none =>
        rw [hm, Option.bind_none, Option.bind_none]
      | some inner =>
        dsimp only
        split
        · next hnil =>
          rw [lookup_erase, if_pos rfl, Option.bind_none, Option.bind_some,
            lookup_eq_none_of_keys_eq_nil hnil]
        · rw [lookup_insert, if_pos rfl, Option.bind_some, Option.bind_some]
    refine hinner.trans ?_
    unfold lookup₂
    by_cases hl : l = k
    · rw [if_pos ⟨rfl, hl⟩]
      cases m.lookup b with
      | none => rfl
      | some inner => rw [Option.bind_some, lookup_erase, if_pos hl]
    · rw [if_neg (fun h => hl h.2)]
      cases m.lookup b with
      | none => rfl
      | some inner => rw [Option.bind_some, Option.bind_some, lookup_erase, if_neg hl]
  · rw [if_neg (fun h => hb h.1)]
    unfold lookup₂
    cases m.lookup a with
    | none => rfl
    | some inner =>
      dsimp only
      split
      · rw [lookup_erase, if_neg hb]
      · rw [lookup_insert, if_neg hb]

/-! ## Maps of lists -/

section Lists

variable {α : Type}

/-- The number of elements in the lists of a map. -/
def listedCount (m : GoMap κ (List α)) : Nat := (m.entries.flatMap fun e => e.2).length

/-- Fewer lists have fewer elements. -/
theorem listedCount_mono {m m' : GoMap κ (List α)}
    (h : ∀ k l, m'.lookup k = some l → m.lookup k = some l) : listedCount m' ≤ listedCount m := by
  have hsub : m'.entries ⊆ m.entries := fun e he =>
    mem_entries_iff.mpr (h e.1 e.2 (mem_entries_iff.mp he))
  obtain ⟨l, hperm, hsublist⟩ := (List.NodupKeys.nodup m'.nodupKeys).subperm hsub
  have hlength : (l.flatMap fun e => e.2).length = listedCount m' :=
    (hperm.flatMap_right fun e => e.2).length_eq
  rw [← hlength]
  exact (hsublist.flatMap fun e => e.2).length_le

/-- Erasing a key takes its list away. -/
theorem listedCount_erase {m : GoMap κ (List α)} {l : List α} (h : m.lookup k = some l) :
    listedCount m = l.length + listedCount (m.erase k) := by
  obtain ⟨l', l₁, l₂, -, hentries, hkerase⟩ := List.exists_of_kerase (mem_keys_of_lookup h)
  have hl : l' = l := by
    have hmem : (⟨k, l'⟩ : (_ : κ) × List α) ∈ m.entries := by
      rw [hentries]
      exact List.mem_append_right l₁ List.mem_cons_self
    exact Option.some.inj ((mem_entries_iff.mp hmem).symm.trans h)
  have herase : (m.erase k).entries = l₁ ++ l₂ := hkerase
  unfold listedCount
  rw [hentries, herase, hl]
  simp only [List.flatMap_append, List.flatMap_cons, List.length_append]
  omega

end Lists

end GoMap
