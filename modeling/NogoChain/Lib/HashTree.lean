import Mathlib.Data.List.Chain

/-!
# Blocks linked by hashes

Blocks of an arbitrary type, each with a hash, the hash of its parent and a height. On a set
of blocks that is *honest* – a child is one higher than its parent, and the hash determines
height and parent – the ancestors of a block are determined by their heights, however they
were looked up.
-/

/-- What is read off a block. -/
structure HashTree (β η : Type) where
  hash : β → η
  /-- the hash of its parent -/
  prev : β → η
  height : β → Nat

namespace HashTree

variable {β η : Type} (t : HashTree β η)

/-- **An honest set of blocks.** -/
structure Honest (P : β → Prop) : Prop where
  /-- a child is one higher than its parent -/
  height_succ : ∀ {a b}, P a → P b → t.prev b = t.hash a → t.height b = t.height a + 1
  /-- the hash determines the height and the parent -/
  hash_inj : ∀ {a b}, P a → P b → t.hash a = t.hash b →
    t.height a = t.height b ∧ t.prev a = t.prev b

/-- A list of blocks of a set, each followed by its parent. -/
structure Descends (P : β → Prop) (l : List β) : Prop where
  mem : ∀ b ∈ l, P b
  /-- each is followed by its parent -/
  links : l.IsChain fun b p => t.hash p = t.prev b

variable {t} {P : β → Prop}

theorem Descends.tail {b : β} {l : List β} (h : t.Descends P (b :: l)) : t.Descends P l where
  mem x hx := h.mem x (List.mem_cons_of_mem b hx)
  links := h.links.tail

theorem Descends.height_succ (ht : t.Honest P) {l : List β} {b c : β}
    (h : t.Descends P (b :: c :: l)) : t.height b = t.height c + 1 :=
  ht.height_succ (h.mem c (by simp)) (h.mem b (by simp)) (List.isChain_cons_cons.mp h.links).1.symm

/-- Along ancestors the height falls. -/
theorem Descends.height_lt (ht : t.Honest P) :
    ∀ {l : List β} {b x : β}, t.Descends P (b :: l) → x ∈ l → t.height x < t.height b
  | c :: l, b, x, h, hx => by
    have hc := h.height_succ ht
    rcases List.mem_cons.mp hx with rfl | hx
    · omega
    · have := Descends.height_lt ht h.tail hx
      omega

/-- Along ancestors no height is left out. -/
theorem Descends.exists_height (ht : t.Honest P) :
    ∀ {l : List β} {b x : β} {n : Nat}, t.Descends P (b :: l) → x ∈ b :: l → t.height x ≤ n →
      n ≤ t.height b → ∃ y ∈ b :: l, t.height y = n
  | [], b, x, n, h, hx, hlow, hhigh => by
    obtain rfl := List.mem_singleton.mp hx
    exact ⟨x, hx, Nat.le_antisymm hlow hhigh⟩
  | c :: l, b, x, n, h, hx, hlow, hhigh => by
    by_cases hn : n = t.height b
    · exact ⟨b, List.mem_cons_self, hn.symm⟩
    · have hc := h.height_succ ht
      have hx' : x ∈ c :: l := by
        rcases List.mem_cons.mp hx with rfl | hx
        · omega
        · exact hx
      obtain ⟨y, hy, hheight⟩ := h.tail.exists_height ht hx' hlow (by omega)
      exact ⟨y, List.mem_cons_of_mem b hy, hheight⟩

/-- **Ancestors at one height have one hash**, whichever list of ancestors they are
taken from. -/
theorem Descends.hash_eq (ht : t.Honest P) :
    ∀ {l l' : List β} {b b' x x' : β}, t.Descends P (b :: l) → t.Descends P (b' :: l') →
      t.hash b = t.hash b' → x ∈ b :: l → x' ∈ b' :: l' → t.height x = t.height x' →
      t.hash x = t.hash x' := by
  intro l
  induction l with
  | nil =>
    intro l' b b' x x' h h' hb hx hx' hheight
    obtain rfl := List.mem_singleton.mp hx
    have hsame := (ht.hash_inj (h.mem x (by simp)) (h'.mem b' (by simp)) hb).1
    rcases List.mem_cons.mp hx' with rfl | hx'
    · exact hb
    · have := h'.height_lt ht hx'
      omega
  | cons c l ih =>
    intro l' b b' x x' h h' hb hx hx' hheight
    obtain ⟨hsame, hprev⟩ := ht.hash_inj (h.mem b (by simp)) (h'.mem b' (by simp)) hb
    rcases List.mem_cons.mp hx with rfl | hx
    · rcases List.mem_cons.mp hx' with rfl | hx'
      · exact hb
      · have := h'.height_lt ht hx'
        omega
    · have hlt := h.height_lt ht hx
      cases l' with
      | nil =>
        obtain rfl := List.mem_singleton.mp hx'
        omega
      | cons c' l' =>
        rcases List.mem_cons.mp hx' with rfl | hx'
        · omega
        · have hc : t.hash c = t.hash c' := by
            rw [(List.isChain_cons_cons.mp h.links).1,
              (List.isChain_cons_cons.mp h'.links).1, hprev]
          exact ih h.tail h'.tail hc hx hx' hheight

/-! ## Weights -/

/-- **The weight of a branch**: what the block and its ancestors in the set, down to one of
height 0, weigh together. -/
inductive Weighs (t : HashTree β η) (P : β → Prop) (weight : β → Nat) : β → Nat → Prop
  | root {b : β} (hb : P b) (hheight : t.height b = 0) : Weighs t P weight b (weight b)
  /-- on its parent -/
  | child {b p : β} {n : Nat} (hb : P b) (hlink : t.hash p = t.prev b)
      (hp : Weighs t P weight p n) : Weighs t P weight b (n + weight b)

variable {weight : β → Nat}

theorem Weighs.mem {b : β} {n : Nat} (h : t.Weighs P weight b n) : P b := by
  cases h with
  | root hb _ | child hb _ _ => exact hb

section Unique

variable (ht : t.Honest P)
  (hweight : ∀ {a b}, P a → P b → t.hash a = t.hash b → weight a = weight b)
include ht hweight

/-- **The hash determines the weight of the branch.** -/
theorem Weighs.unique {b b' : β} {n n' : Nat} (h : t.Weighs P weight b n)
    (h' : t.Weighs P weight b' n') (hhash : t.hash b = t.hash b') : n = n' := by
  induction h generalizing b' n' with
  | @root b hb hheight =>
    have hsame := (ht.hash_inj hb h'.mem hhash).1
    cases h' with
    | root hb' _ => exact hweight hb hb' hhash
    | child hb' hlink hp =>
      have hsucc := ht.height_succ hp.mem hb' hlink.symm
      rw [← hsame, hheight] at hsucc
      exact absurd hsucc (Nat.zero_ne_add_one _)
  | @child b p n hb hlink hp ih =>
    obtain ⟨hsame, hprev⟩ := ht.hash_inj hb h'.mem hhash
    cases h' with
    | root hb' hheight =>
      have hsucc := ht.height_succ hp.mem hb hlink.symm
      rw [hsame, hheight] at hsucc
      exact absurd hsucc (Nat.zero_ne_add_one _)
    | child hb' hlink' hp' =>
      rw [ih hp' (hlink.trans (hprev.trans hlink'.symm)), hweight hb hb' hhash]

/-- Blocks with one hash weigh the same. -/
theorem Weighs.of_hash {b b' : β} {n : Nat} (h : t.Weighs P weight b n) (hb' : P b')
    (hhash : t.hash b = t.hash b') : t.Weighs P weight b' n := by
  cases h with
  | root hb hheight =>
    rw [hweight hb hb' hhash]
    exact .root hb' ((ht.hash_inj hb hb' hhash).1 ▸ hheight)
  | child hb hlink hp =>
    rw [hweight hb hb' hhash]
    exact .child hb' (hlink.trans (ht.hash_inj hb hb' hhash).2) hp

end Unique

end HashTree
