import Mathlib.Data.List.Nodup
import Mathlib.Data.List.Perm.Subperm

/-!
# Walks along a link

A loop that replaces its current element by a linked one until some test ends it. `walk`
returns the elements visited, the first one included, and what the loop ended with; it
has a bound on the number of elements and returns `none` when the bound is used up.

A loop whose next element depends on the current one only, and that draws its elements from
a finite collection, either ends within as many steps as the collection has elements or
comes back to an element and never ends (`walk_within`). So for a bound of that size `none`
means that the loop does not end; conversely `walk_isSome` says that a walk along which some
rank falls does end within it.
-/

/-- What the body of a walk does with the current element. -/
inductive WalkStep (α β : Type) where
  /-- go on with another element -/
  | next (a : α)
  /-- end the loop -/
  | done (b : β)

/-- The element that a step goes on with. -/
def WalkStep.next? {α β : Type} : WalkStep α β → Option α
  | .next a => some a
  | .done _ => none

theorem WalkStep.eq_next_of_next? {α β : Type} {s : WalkStep α β} {a : α} (h : s.next? = some a) :
    s = .next a := by
  cases s with
  | next b => exact congrArg WalkStep.next (Option.some.inj h)
  | done b => cases h

section Walk

variable {α β : Type} (step : α → WalkStep α β)

/-- Walk from `a`, visiting at most so many elements. -/
def walk : Nat → α → Option (List α × β)
  | 0, _ => none
  | n + 1, a =>
    match step a with
    | .done b => some ([a], b)
    | .next a' => (walk n a').map fun r => (a :: r.1, r.2)

variable {step} {n : Nat} {a : α} {l : List α} {b : β}

/-- The two ways in which a walk goes on from its first element. -/
theorem walk_succ_eq_some :
    walk step (n + 1) a = some (l, b) ↔ (step a = .done b ∧ l = [a])
        ∨ ∃ a' l', step a = .next a' ∧ walk step n a' = some (l', b) ∧ l = a :: l' := by
  simp only [walk]
  cases hs : step a with
  | done b' => simp [eq_comm, and_comm]
  | next a' =>
    simp only [Option.map_eq_some_iff, Prod.exists, Prod.mk.injEq, reduceCtorEq, false_and,
      WalkStep.next.injEq, false_or]
    constructor
    · rintro ⟨l', b', hw, rfl, rfl⟩
      exact ⟨a', l', rfl, hw, rfl⟩
    · rintro ⟨_, l', rfl, hw, rfl⟩
      exact ⟨l', b, hw, rfl, rfl⟩

/-- A walk visits its first element first. -/
theorem walk_eq_cons (h : walk step n a = some (l, b)) : ∃ l', l = a :: l' := by
  cases n with
  | zero => cases h
  | succ n =>
    rcases walk_succ_eq_some.mp h with ⟨_, rfl⟩ | ⟨_, l', _, _, rfl⟩
    · exact ⟨[], rfl⟩
    · exact ⟨l', rfl⟩

theorem walk_ne_nil (h : walk step n a = some (l, b)) : l ≠ [] := by
  obtain ⟨l', rfl⟩ := walk_eq_cons h
  exact List.cons_ne_nil _ _

/-- **Invariant rule.** What holds of the first element and passes along the link holds of
every element visited. -/
theorem walk_forall {P : α → Prop} (hstep : ∀ a a', P a → step a = .next a' → P a') :
    ∀ {n : Nat} {a : α} {l : List α} {b : β}, P a → walk step n a = some (l, b) → ∀ x ∈ l, P x
  | 0, _, _, _, _, h => nomatch h
  | n + 1, a, l, b, ha, h => by
    rcases walk_succ_eq_some.mp h with ⟨_, rfl⟩ | ⟨a', l', hs, hw, rfl⟩
    · simpa using ha
    · intro x hx
      rcases List.mem_cons.mp hx with rfl | hx
      · exact ha
      · exact walk_forall hstep (hstep _ _ ha hs) hw x hx

private theorem countP_lt_of_mem {p q : α → Bool} (hpq : ∀ x, p x → q x) :
    ∀ {l : List α} {a : α}, a ∈ l → q a → ¬ p a → l.countP p < l.countP q
  | b :: l, a, ha, hq, hp => by
    have hle : l.countP p ≤ l.countP q := List.countP_mono_left fun x _ => hpq x
    rcases List.mem_cons.mp ha with rfl | ha
    · rw [List.countP_cons_of_neg hp, List.countP_cons_of_pos hq]
      omega
    · have ih := countP_lt_of_mem hpq ha hq hp
      by_cases hb : p b
      · rw [List.countP_cons_of_pos hb, List.countP_cons_of_pos (hpq b hb)]
        omega
      · rw [List.countP_cons_of_neg hb]
        have : l.countP q ≤ (b :: l).countP q := (List.sublist_cons_self b l).countP_le
        omega

/-- **Termination rule.** If some rank falls along the link, and the link leads into a finite
collection, a walk ends before it has visited more elements than the collection has. -/
theorem walk_isSome (rank : α → Nat) (all : List α) {P : α → Prop}
    (hstep : ∀ a a', P a → step a = .next a' → P a' ∧ a' ∈ all ∧ rank a' < rank a)
    (ha : P a) (hn : all.countP (fun x => rank x < rank a) < n) :
    (walk step n a).isSome := by
  induction n generalizing a with
  | zero => omega
  | succ n ih =>
    simp only [walk]
    cases hs : step a with
    | done b => rfl
    | next a' =>
      obtain ⟨ha', hmem, hlt⟩ := hstep a a' ha hs
      -- `a'` itself is counted below `a` and not below `a'`
      have hcount : all.countP (fun x => rank x < rank a')
          < all.countP (fun x => rank x < rank a) :=
        countP_lt_of_mem (fun x hx => by simp only [decide_eq_true_eq] at hx ⊢; omega) hmem
          (by simpa using hlt) (by simp)
      simpa using ih ha' (by omega)

/-! ## The bound -/

/-- A walk needs no larger bound than the number of the elements it visits. -/
theorem walk_length (h : walk step n a = some (l, b)) :
    ∀ m, l.length ≤ m → walk step m a = some (l, b) := by
  induction n generalizing a l with
  | zero => cases h
  | succ n ih =>
    intro m hm
    rcases walk_succ_eq_some.mp h with ⟨hs, rfl⟩ | ⟨a', l', hs, hw, rfl⟩
    · obtain ⟨m, rfl⟩ := Nat.exists_eq_add_of_le' hm
      exact walk_succ_eq_some.mpr (.inl ⟨hs, rfl⟩)
    · obtain ⟨m, rfl⟩ : ∃ k, m = k + 1 := Nat.exists_eq_add_of_le' (Nat.le_trans (by simp) hm)
      refine walk_succ_eq_some.mpr (.inr ⟨a', l', hs, ih hw m ?_, rfl⟩)
      simpa using hm

/-- What is visited does not depend on the bound. -/
theorem walk_unique {m : Nat} {r r' : List α × β} (h : walk step n a = some r)
    (h' : walk step m a = some r') : r = r' := by
  have hmax := walk_length h (max r.1.length r'.1.length) (Nat.le_max_left _ _)
  have hmax' := walk_length h' (max r.1.length r'.1.length) (Nat.le_max_right _ _)
  exact Option.some.inj (hmax.symm.trans hmax')

/-- From an element that is visited, the walk goes on in the same way. -/
theorem exists_walk_of_mem (h : walk step n a = some (l, b)) :
    ∀ x ∈ l, ∃ m l', walk step m x = some (l', b) ∧ l' <:+ l := by
  induction n generalizing a l with
  | zero => cases h
  | succ n ih =>
    intro x hx
    rcases walk_succ_eq_some.mp h with ⟨_, rfl⟩ | ⟨a', l', _, hw, rfl⟩
    · obtain rfl := List.mem_singleton.mp hx
      exact ⟨n + 1, [x], h, List.suffix_rfl⟩
    · rcases List.mem_cons.mp hx with rfl | hx
      · exact ⟨n + 1, x :: l', h, List.suffix_rfl⟩
      · obtain ⟨m, l'', hm, hsuffix⟩ := ih hw x hx
        exact ⟨m, l'', hm, hsuffix.trans (List.suffix_cons a l')⟩

/-- A walk that ends visits no element twice. -/
theorem walk_nodup (h : walk step n a = some (l, b)) : l.Nodup := by
  induction n generalizing a l with
  | zero => cases h
  | succ n ih =>
    rcases walk_succ_eq_some.mp h with ⟨_, rfl⟩ | ⟨a', l', _, hw, rfl⟩
    · exact List.nodup_singleton a
    · refine List.nodup_cons.mpr ⟨fun ha => ?_, ih hw⟩
      -- the walk from the second visit would be the whole walk
      obtain ⟨m, l'', hm, hsuffix⟩ := exists_walk_of_mem hw a ha
      have hle := hsuffix.length_le
      rw [(Prod.mk.inj (walk_unique hm h)).1, List.length_cons] at hle
      omega

/-- **A walk that ends does so within the bound**: one step more than there are elements to go
to. -/
theorem walk_within (all : List α) (hall : ∀ a a', step a = .next a' → a' ∈ all)
    {r : List α × β} (h : walk step n a = some r) : walk step (all.length + 1) a = some r := by
  obtain ⟨l, b⟩ := r
  obtain ⟨l', rfl⟩ := walk_eq_cons h
  have htail : ∀ x ∈ l', x ∈ all := by
    cases n with
    | zero => cases h
    | succ n =>
      rcases walk_succ_eq_some.mp h with ⟨_, hl⟩ | ⟨a', l'', hs, hw, hl⟩
      · obtain rfl := (List.cons.inj hl).2
        exact nofun
      · obtain rfl := (List.cons.inj hl).2
        exact walk_forall (P := (· ∈ all)) (fun x x' _ hx => hall x x' hx) (hall a a' hs) hw
  have hle := (List.subperm_of_subset (List.nodup_cons.mp (walk_nodup h)).2 htail).length_le
  exact walk_length h _ (by rw [List.length_cons]; omega)

/-! ## Walks that never end -/

/-- **Endless walks.** Where the link leads from elements of a set to elements of the set only,
no bound is enough. -/
theorem walk_eq_none {S : α → Prop} (hstep : ∀ a, S a → ∃ a', step a = .next a' ∧ S a') :
    ∀ (n : Nat) {a : α}, S a → walk step n a = none
  | 0, _, _ => rfl
  | n + 1, a, ha => by
    obtain ⟨a', hs, ha'⟩ := hstep a ha
    simp only [walk, hs, walk_eq_none hstep n ha', Option.map_none]

/-- Two elements that lead to each other are walked along for ever. -/
theorem walk_eq_none_of_pair {a b : α}
    (h : (step a).next? = some b ∧ (step b).next? = some a) (n : Nat) : walk step n a = none := by
  refine walk_eq_none (S := fun x => x = a ∨ x = b) ?_ n (.inl rfl)
  rintro x (rfl | rfl)
  · exact ⟨b, WalkStep.eq_next_of_next? h.1, .inr rfl⟩
  · exact ⟨a, WalkStep.eq_next_of_next? h.2, .inl rfl⟩

end Walk
