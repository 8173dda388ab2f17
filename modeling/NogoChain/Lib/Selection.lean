import Mathlib.Order.Lattice

/-!
# Selecting the best of a list

A loop that keeps the best element so far and replaces it by a newcomer that is better. Where
`better` ranks the elements, what is kept at the end is beaten by none of them; so two orders of
one list end with elements of which neither beats the other.

A ranking is put together from others that decide in turn (`RanksOn.lex`).
-/

/-! ## Rankings -/

section Ranking

variable {α : Type} {P : α → Prop} {r r' : α → α → Prop}

/-- **The elements with `P` are ranked**: `r` is a strict weak order among them. -/
structure RanksOn (P : α → Prop) (r : α → α → Prop) : Prop where
  asymm : ∀ {a b}, P a → P b → r a b → ¬ r b a
  cotrans : ∀ {a b c}, P a → P b → P c → r a c → r a b ∨ r b c

/-- Of two elements neither is ranked above the other. -/
def Level (r : α → α → Prop) (a b : α) : Prop := ¬ r a b ∧ ¬ r b a

theorem RanksOn.congr (h : RanksOn P r) (hiff : ∀ {a b}, P a → P b → (r' a b ↔ r a b)) :
    RanksOn P r' where
  asymm ha hb hab hba := h.asymm ha hb ((hiff ha hb).mp hab) ((hiff hb ha).mp hba)
  cotrans ha hb hc hac :=
    (h.cotrans ha hb hc ((hiff ha hc).mp hac)).imp (hiff ha hb).mpr (hiff hb hc).mpr

/-- The greater key is ranked above the lesser one. -/
theorem ranksOn_key {β : Type} [LinearOrder β] (key : α → β) :
    RanksOn P fun a b => key b < key a where
  asymm _ _ hab hba := lt_asymm hab hba
  cotrans {a b _} _ _ _ hac := by
    rcases lt_or_ge (key b) (key a) with hab | hba
    · exact .inl hab
    · exact .inr (lt_of_lt_of_le hac hba)

namespace RanksOn

variable (h : RanksOn P r)
include h

theorem irrefl {a : α} (ha : P a) : ¬ r a a := fun hself => h.asymm ha ha hself hself

/-- Not to be beaten passes on. -/
theorem unbeaten_trans {a b x : α} (ha : P a) (hb : P b) (hx : P x) (hxa : ¬ r x a)
    (hab : ¬ r a b) : ¬ r x b := fun hxb => (h.cotrans hx ha hb hxb).elim hxa hab

/-- **A second ranking decides** where the first does not. -/
theorem lex (h' : RanksOn P r') : RanksOn P fun a b => r a b ∨ (Level r a b ∧ r' a b) where
  asymm := by
    rintro a b ha hb (hab | ⟨hlevel, hab⟩) (hba | ⟨hlevel', hba⟩)
    · exact h.asymm ha hb hab hba
    · exact hlevel'.2 hab
    · exact hlevel.2 hba
    · exact h'.asymm ha hb hab hba
  cotrans := by
    rintro a b c ha hb hc (hac | ⟨hlevel, hac⟩)
    · exact (h.cotrans ha hb hc hac).imp Or.inl Or.inl
    · by_cases hab : r a b
      · exact .inl (.inl hab)
      · by_cases hbc : r b c
        · exact .inr (.inl hbc)
        · -- all three are level
          have hba : ¬ r b a := h.unbeaten_trans hc ha hb hbc hlevel.2
          have hcb : ¬ r c b := h.unbeaten_trans ha hb hc hlevel.2 hab
          exact (h'.cotrans ha hb hc hac).imp (fun hr => .inr ⟨⟨hab, hba⟩, hr⟩)
            fun hr => .inr ⟨⟨hbc, hcb⟩, hr⟩

end RanksOn

end Ranking

/-! ## The loop -/

section Selection

variable {α : Type} (better : α → α → Prop) [DecidableRel better]

/-- The newcomer, if it is better. -/
def keepBetter (best x : α) : α := if better x best then x else best

/-- What is kept is one of the elements. -/
theorem foldl_keepBetter_mem (l : List α) (a : α) : l.foldl (keepBetter better) a ∈ a :: l := by
  induction l generalizing a with
  | nil => exact List.mem_singleton_self a
  | cons x l ih =>
    rcases List.mem_cons.mp (ih (keepBetter better a x)) with h | h
    · rw [List.foldl_cons, h]
      unfold keepBetter
      split
      · exact List.mem_cons_of_mem a List.mem_cons_self
      · exact List.mem_cons_self
    · exact List.mem_cons_of_mem a (List.mem_cons_of_mem x h)

namespace RanksOn

variable {better} {P : α → Prop} (h : RanksOn P better)
include h

theorem keepBetter_unbeaten {a x : α} (ha : P a) (hx : P x) :
    P (keepBetter better a x) ∧ ¬ better a (keepBetter better a x)
      ∧ ¬ better x (keepBetter better a x) := by
  unfold keepBetter
  split
  · next hxa =>
    exact ⟨hx, h.asymm hx ha hxa, h.irrefl hx⟩
  · next hxa =>
    exact ⟨ha, h.irrefl ha, hxa⟩

/-- **No element beats what is kept.** -/
theorem foldl_unbeaten {l : List α} {a : α} (ha : P a) (hl : ∀ x ∈ l, P x) :
    ∀ x ∈ a :: l, ¬ better x (l.foldl (keepBetter better) a) := by
  induction l generalizing a with
  | nil =>
    intro x hx
    obtain rfl := List.mem_singleton.mp hx
    exact h.irrefl ha
  | cons y l ih =>
    have hy := hl y List.mem_cons_self
    have hl' : ∀ x ∈ l, P x := fun x hx => hl x (List.mem_cons_of_mem y hx)
    obtain ⟨hP, hbeatsa, hbeatsy⟩ := h.keepBetter_unbeaten ha hy
    have hrest := ih hP hl'
    have hend : P (l.foldl (keepBetter better) (keepBetter better a y)) := by
      rcases List.mem_cons.mp (foldl_keepBetter_mem better l (keepBetter better a y)) with
        heq | hmem
      · rw [heq]
        exact hP
      · exact hl' _ hmem
    have hkept := hrest _ List.mem_cons_self
    intro x hx
    rcases List.mem_cons.mp hx with rfl | hx
    · exact h.unbeaten_trans hP hend ha hbeatsa hkept
    · rcases List.mem_cons.mp hx with rfl | hx
      · exact h.unbeaten_trans hP hend hy hbeatsy hkept
      · exact hrest x (List.mem_cons_of_mem _ hx)

/-- **Two orders of one list** end with elements that are level. -/
theorem foldl_perm {l l' : List α} (hperm : l.Perm l') {a : α} (ha : P a) (hl : ∀ x ∈ l, P x) :
    Level better (l.foldl (keepBetter better) a) (l'.foldl (keepBetter better) a) := by
  have hcons : (a :: l).Perm (a :: l') := hperm.cons a
  refine ⟨?_, ?_⟩
  · refine h.foldl_unbeaten ha (fun x hx => hl x (hperm.mem_iff.mpr hx)) _ ?_
    exact hcons.mem_iff.mp (foldl_keepBetter_mem better l a)
  · refine h.foldl_unbeaten ha hl _ ?_
    exact hcons.mem_iff.mpr (foldl_keepBetter_mem better l' a)

end RanksOn

end Selection
