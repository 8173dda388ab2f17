import NogoChain.Lib.GoMap
import NogoChain.Lib.GoSlice

/-!
# Maps of slices

A map from keys to slices is an index: each key lists some elements. The index is *apart* if no
two of its slices look at one array; then what is done to the list of one key does not show in
the list of another, and `listed` behaves like a function that is updated at one key. A loop
that ranges over an old slice of the index gets no such guarantee, since the old slice and the
new one share their array.
-/

namespace Slice

variable {κ α : Type} [DecidableEq κ] {h h' : Heap α} {m : GoMap κ Slice}

/-- The elements listed under a key. -/
def listed (h : Heap α) (m : GoMap κ Slice) (k : κ) : List α :=
  ((m.lookup k).map fun s => s.toList h).getD []

/-- The slice lies within an array of the heap. -/
structure Valid (h : Heap α) (s : Slice) : Prop where
  /-- there is such an array -/
  arr_lt : s.arr < h.length
  /-- and it is long enough -/
  len_le : s.len ≤ (s.cells h).length

/-- **No two slices of the index share an array.** -/
structure Apart (h : Heap α) (m : GoMap κ Slice) : Prop where
  /-- every slice lies within an array -/
  valid : ∀ k s, m.lookup k = some s → Valid h s
  own : ∀ k k' s s', m.lookup k = some s → m.lookup k' = some s' → s.arr = s'.arr → k = k'

theorem apart_empty (h : Heap α) : Apart h (∅ : GoMap κ Slice) := ⟨nofun, nofun⟩

theorem listed_empty (h : Heap α) (k : κ) : listed h (∅ : GoMap κ Slice) k = [] := rfl

variable {s : Slice}

theorem listed_of_lookup {k : κ} (hs : m.lookup k = some s) : listed h m k = s.toList h := by
  rw [listed, hs, Option.map_some, Option.getD_some]

theorem listed_of_lookup_none {k : κ} (hs : m.lookup k = none) : listed h m k = [] := by
  rw [listed, hs, Option.map_none, Option.getD_none]

theorem Valid.length_toList (hs : Valid h s) : (s.toList h).length = s.len := by
  rw [toList, List.length_take, Nat.min_eq_left hs.len_le]

/-! ## Frames -/

theorem cells_set (h : Heap α) (i : Nat) (l : List α) (s : Slice) :
    s.cells (h.set i l) = if s.arr = i ∧ i < h.length then l else s.cells h := by
  unfold cells
  by_cases hi : i = s.arr
  · subst hi
    by_cases hlt : s.arr < h.length <;> simp [hlt]
  · simp [hi, Ne.symm hi]

theorem cells_append_of_lt (hs : s.arr < h.length) (l : Heap α) : s.cells (h ++ l) = s.cells h := by
  unfold cells
  rw [List.getD_eq_getElem?_getD, List.getD_eq_getElem?_getD, List.getElem?_append_left hs]

/-- **One key gets another slice.** The arrays of the other keys stay as they are, and none of
them is the array of the new slice. -/
theorem Apart.replace (hm : Apart h m) {k : κ} {s' : Slice} (hvalid : Valid h' s')
    (hframe : ∀ k' s, k' ≠ k → m.lookup k' = some s →
      Valid h' s ∧ s.cells h' = s.cells h ∧ s.arr ≠ s'.arr) :
    Apart h' (m.insert k s')
      ∧ ∀ k', listed h' (m.insert k s') k' = if k' = k then s'.toList h' else listed h m k' := by
  refine ⟨⟨fun k₁ s₁ h₁ => ?_, fun k₁ k₂ s₁ s₂ h₁ h₂ harr => ?_⟩, fun k' => ?_⟩
  · rw [GoMap.lookup_insert] at h₁
    split at h₁
    · exact Option.some.inj h₁ ▸ hvalid
    · next hk => exact (hframe k₁ s₁ hk h₁).1
  · rw [GoMap.lookup_insert] at h₁ h₂
    split at h₁ <;> split at h₂
    · next hk₁ hk₂ => rw [hk₁, hk₂]
    · next hk₁ hk₂ =>
      exact absurd ((Option.some.inj h₁ ▸ harr).symm) (hframe k₂ s₂ hk₂ h₂).2.2
    · next hk₁ hk₂ => exact absurd (Option.some.inj h₂ ▸ harr) (hframe k₁ s₁ hk₁ h₁).2.2
    · exact hm.own k₁ k₂ s₁ s₂ h₁ h₂ harr
  · split
    · next hk =>
      rw [listed, GoMap.lookup_insert, if_pos hk, Option.map_some, Option.getD_some]
    · next hk =>
      rw [listed, listed, GoMap.lookup_insert, if_neg hk]
      cases hs : m.lookup k' with
      | none => rfl
      | some s =>
        simp only [Option.map_some, Option.getD_some, toList, (hframe k' s hk hs).2.1]

/-- **One key loses its slice.** -/
theorem Apart.erase (hm : Apart h m) {k : κ}
    (hframe : ∀ k' s, k' ≠ k → m.lookup k' = some s → Valid h' s ∧ s.cells h' = s.cells h) :
    Apart h' (m.erase k)
      ∧ ∀ k', listed h' (m.erase k) k' = if k' = k then [] else listed h m k' := by
  refine ⟨⟨fun k₁ s₁ h₁ => ?_, fun k₁ k₂ s₁ s₂ h₁ h₂ harr => ?_⟩, fun k' => ?_⟩
  · rw [GoMap.lookup_erase] at h₁
    split at h₁
    · cases h₁
    · next hk => exact (hframe k₁ s₁ hk h₁).1
  · exact hm.own k₁ k₂ s₁ s₂ (GoMap.lookup_of_erase h₁) (GoMap.lookup_of_erase h₂) harr
  · split
    · next hk =>
      rw [listed, GoMap.lookup_erase, if_pos hk, Option.map_none, Option.getD_none]
    · next hk =>
      rw [listed, listed, GoMap.lookup_erase, if_neg hk]
      cases hs : m.lookup k' with
      | none => rfl
      | some s => simp only [Option.map_some, Option.getD_some, toList, (hframe k' s hk hs).2]

/-! ## Appending -/

section Append

variable [Inhabited α]

/-- A new array is nobody else's. -/
theorem Apart.alloc (hm : Apart h m) (grow : Nat → Nat) (k : κ) (xs : List α) :
    Apart (alloc grow h xs).1 (m.insert k (alloc grow h xs).2)
      ∧ ∀ k', listed (Slice.alloc grow h xs).1 (m.insert k (Slice.alloc grow h xs).2) k'
        = if k' = k then xs else listed h m k' := by
  have hcells : (Slice.alloc grow h xs).2.cells (Slice.alloc grow h xs).1
      = xs ++ List.replicate (grow xs.length - xs.length) default := by
    simp [Slice.alloc, cells]
  have hvalid : Valid (Slice.alloc grow h xs).1 (Slice.alloc grow h xs).2 := by
    refine ⟨?_, ?_⟩
    · simp [Slice.alloc]
    · rw [hcells, List.length_append]
      exact Nat.le_add_right _ _
  have hlist : (Slice.alloc grow h xs).2.toList (Slice.alloc grow h xs).1 = xs := by
    rw [toList, hcells]
    exact List.take_left
  obtain ⟨hapart, hlisted⟩ := hm.replace hvalid fun k' s _ hs => by
    have hlt := (hm.valid k' s hs).arr_lt
    have hsame : s.cells (Slice.alloc grow h xs).1 = s.cells h := cells_append_of_lt hlt _
    refine ⟨⟨?_, ?_⟩, hsame, Nat.ne_of_lt hlt⟩
    · exact Nat.lt_of_lt_of_le hlt (by simp [Slice.alloc])
    · rw [hsame]
      exact (hm.valid k' s hs).len_le
  exact ⟨hapart, fun k' => by rw [hlisted, hlist]⟩

omit [Inhabited α] in
/-- Writing to the array of one key leaves the other slices alone. -/
theorem Apart.frame_set (hm : Apart h m) {k : κ} (hs : m.lookup k = some s) (l : List α) :
    ∀ k' s', k' ≠ k → m.lookup k' = some s' →
      Valid (h.set s.arr l) s' ∧ s'.cells (h.set s.arr l) = s'.cells h ∧ s'.arr ≠ s.arr := by
  intro k' s' hk hs'
  have harr : s'.arr ≠ s.arr := fun e => hk (hm.own k' k s' s hs' hs e)
  have hsame : s'.cells (h.set s.arr l) = s'.cells h := by
    rw [cells_set, if_neg fun e => harr e.1]
  refine ⟨⟨?_, ?_⟩, hsame, harr⟩
  · rw [List.length_set]
    exact (hm.valid k' s' hs').arr_lt
  · rw [hsame]
    exact (hm.valid k' s' hs').len_le

/-- **`append` lists an element last under its key.** -/
theorem Apart.append (hm : Apart h m) (grow : Nat → Nat) (k : κ) (x : α) :
    Apart (append grow h (m.lookup k) x).1 (m.insert k (append grow h (m.lookup k) x).2)
      ∧ ∀ k', listed (Slice.append grow h (m.lookup k) x).1
          (m.insert k (Slice.append grow h (m.lookup k) x).2) k'
        = if k' = k then listed h m k ++ [x] else listed h m k' := by
  cases hs : m.lookup k with
  | none =>
    rw [listed_of_lookup_none hs]
    exact hm.alloc grow k [x]
  | some s =>
    rw [listed_of_lookup hs]
    have hv := hm.valid k s hs
    by_cases hroom : s.len < (s.cells h).length
    · have happend : Slice.append grow h (some s) x
          = (h.set s.arr ((s.cells h).set s.len x), ⟨s.arr, s.len + 1⟩) := if_pos hroom
      rw [happend]
      have hcells : (⟨s.arr, s.len + 1⟩ : Slice).cells (h.set s.arr ((s.cells h).set s.len x))
          = (s.cells h).set s.len x := by
        rw [cells_set, if_pos ⟨rfl, hv.arr_lt⟩]
      have hvalid : Valid (h.set s.arr ((s.cells h).set s.len x)) ⟨s.arr, s.len + 1⟩ := by
        refine ⟨?_, ?_⟩
        · rw [List.length_set]
          exact hv.arr_lt
        · rw [hcells, List.length_set]
          exact hroom
      have hlist : (⟨s.arr, s.len + 1⟩ : Slice).toList (h.set s.arr ((s.cells h).set s.len x))
          = s.toList h ++ [x] := by
        rw [toList, hcells, toList, List.take_succ_eq_append_getElem (by rwa [List.length_set]),
          List.take_set_of_le (Nat.le_refl _), List.getElem_set_self]
      obtain ⟨hapart, hlisted⟩ := hm.replace hvalid (hm.frame_set hs _)
      exact ⟨hapart, fun k' => by rw [hlisted, hlist]⟩
    · have happend : Slice.append grow h (some s) x = Slice.alloc grow h (s.toList h ++ [x]) :=
        if_neg hroom
      rw [happend]
      exact hm.alloc grow k (s.toList h ++ [x])

/-- **Building an index**: each entry is appended under its key. -/
theorem Apart.foldl_append {ι : Type} (grow : Nat → Nat) (key : ι → κ) (val : ι → α) (l : List ι) :
    ∀ {h : Heap α} {m : GoMap κ Slice}, Apart h m →
      let r := l.foldl (fun (r : Heap α × GoMap κ Slice) e =>
        let appended := Slice.append grow r.1 (r.2.lookup (key e)) (val e)
        (appended.1, r.2.insert (key e) appended.2)) (h, m)
      Apart r.1 r.2
        ∧ ∀ k, listed r.1 r.2 k = listed h m k ++ (l.filter fun e => key e = k).map val := by
  induction l with
  | nil => exact fun hm => ⟨hm, fun k => (List.append_nil _).symm⟩
  | cons e l ih =>
    intro h m hm
    obtain ⟨hapart, hlisted⟩ := hm.append grow (key e) (val e)
    obtain ⟨hapart', hlisted'⟩ := ih hapart
    refine ⟨hapart', fun k => ?_⟩
    rw [List.foldl_cons, hlisted' k, hlisted k]
    by_cases hk : k = key e
    · subst hk
      simp
    · simp [hk, Ne.symm hk]

end Append

/-! ## Removing -/

theorem Valid.cells_removeAt (hs : Valid h s) (i : Nat) :
    (s.removeAt h i).2.cells (s.removeAt h i).1
      = (s.toList h).eraseIdx i ++ (s.cells h).drop (s.len - 1) := by
  unfold removeAt
  rw [cells_set, if_pos ⟨rfl, hs.arr_lt⟩]

theorem Valid.toList_removeAt (hs : Valid h s) {i : Nat} (hi : i < s.len) :
    (s.removeAt h i).2.toList (s.removeAt h i).1 = (s.toList h).eraseIdx i := by
  have hlen : ((s.toList h).eraseIdx i).length = s.len - 1 := by
    rw [List.length_eraseIdx_of_lt (by rwa [hs.length_toList]), hs.length_toList]
  rw [toList, hs.cells_removeAt]
  exact List.take_left' hlen

/-- **Removing an element from the list of one key**; a list that becomes empty goes. -/
theorem Apart.removeAt (hm : Apart h m) {k : κ} (hs : m.lookup k = some s) {i : Nat}
    (hi : i < s.len) :
    let m' := if (s.removeAt h i).2.len = 0 then m.erase k else m.insert k (s.removeAt h i).2
    Apart (s.removeAt h i).1 m' ∧ ∀ k', listed (s.removeAt h i).1 m' k'
        = if k' = k then (listed h m k).eraseIdx i else listed h m k' := by
  have hv := hm.valid k s hs
  have hframe : ∀ k' s', k' ≠ k → m.lookup k' = some s' →
      Valid (s.removeAt h i).1 s' ∧ s'.cells (s.removeAt h i).1 = s'.cells h
        ∧ s'.arr ≠ (s.removeAt h i).2.arr := hm.frame_set hs _
  have hlist := hv.toList_removeAt hi
  rw [listed_of_lookup hs]
  split
  · next hzero =>
    obtain ⟨hapart, hlisted⟩ := hm.erase (k := k) fun k' s' hk hs' =>
      ⟨(hframe k' s' hk hs').1, (hframe k' s' hk hs').2.1⟩
    refine ⟨hapart, fun k' => ?_⟩
    rw [hlisted, ← hlist, toList, hzero, List.take_zero]
  · have hvalid : Valid (s.removeAt h i).1 (s.removeAt h i).2 := by
      refine ⟨?_, ?_⟩
      · unfold Slice.removeAt
        rw [List.length_set]
        exact hv.arr_lt
      · rw [hv.cells_removeAt, List.length_append,
          List.length_eraseIdx_of_lt (by rwa [hv.length_toList]), hv.length_toList]
        exact Nat.le_add_right _ _
    obtain ⟨hapart, hlisted⟩ := hm.replace hvalid hframe
    exact ⟨hapart, fun k' => by rw [hlisted, hlist]⟩

end Slice
