import Mathlib.Data.Fintype.Pigeonhole
import Mathlib.Data.Nat.Log

/-!
# Trees that are built level by level

Nodes of an arbitrary type are combined in pairs, level by level, until one is left; a last
node without a neighbour is combined with itself. A node of the level below is reached from the
root by a path of directions, and several paths may reach the same node: those that turn to
the copy of a node that was combined with itself. `position` says which node a path reaches,
and it depends on nothing but the length of the level.

What is combined are hashes in the end, and a hash may collide. The argument does not start
from there: the same construction over the *free* trees `PairTree α` loses nothing, and `digest`
carries a free tree to its hash (`map_root`). So everything about shapes, paths and lengths is
proved of free trees, without a word on hashing, and collisions are spoken of in two places only
– a digest determines its tree (`digest_inj`), and a climb that ends in the digest of a tree has
come up through that tree (`descend_of_climb`).
-/

namespace LevelTree

variable {α δ ε : Type*}

/-! ## Levels -/

variable {n d : Nat} {path : List Bool}

section Levels

variable (node : δ → δ → δ)

/-- **One level up**: neighbours in pairs, a last node without a neighbour with itself. -/
def up : List δ → List δ
  | [] => []
  | [x] => [node x x]
  | x :: y :: rest => node x y :: up rest

/-- The node that is left in the end, for at most so many levels. -/
def root (d : δ) : Nat → List δ → δ
  | _, [] => d
  | _, [x] => x
  | 0, x :: _ => x
  | n + 1, level => root d n (up node level)

theorem length_up (level : List δ) : (up node level).length = (level.length + 1) / 2 := by
  fun_induction up node level with
  | case1 | case2 x => simp
  | case3 x y rest ih =>
    simp only [List.length_cons, ih]
    omega

/-- **Induction on the levels**: with enough of them allowed, what holds of a single node and
is handed down from the level above holds of every level. -/
theorem level_induction {P : Nat → List δ → Prop} (single : ∀ n x, P n [x])
    (step : ∀ n level, 2 ≤ level.length → P n (up node level) → P (n + 1) level) (n : Nat)
    (level : List δ) (hpos : 0 < level.length) (hle : level.length ≤ n + 1) : P n level := by
  induction n generalizing level with
  | zero =>
    obtain ⟨x, rfl⟩ := List.length_eq_one_iff.mp (show level.length = 1 by omega)
    exact single 0 x
  | succ n ih =>
    by_cases hone : level.length = 1
    · obtain ⟨x, rfl⟩ := List.length_eq_one_iff.mp hone
      exact single (n + 1) x
    · have hlength := length_up node level
      exact step n level (by omega) (ih _ (by omega) (by omega))

/-- The nodes of the level above, and what they are combined of. -/
theorem getElem?_up (level : List δ) (p : Nat) (hp : p < (level.length + 1) / 2) :
    ∃ x y, level[2 * p]? = some x ∧ level[min (2 * p + 1) (level.length - 1)]? = some y
      ∧ (up node level)[p]? = some (node x y) := by
  fun_induction up node level generalizing p with
  | case1 => simp at hp
  | case2 x =>
    obtain rfl : p = 0 := by simpa using hp
    exact ⟨x, x, rfl, rfl, rfl⟩
  | case3 x y rest ih =>
    cases p with
    | zero => exact ⟨x, y, rfl, by simp, rfl⟩
    | succ p =>
      simp only [List.length_cons] at hp ⊢
      obtain ⟨a, b, ha, hb, hab⟩ := ih p (by omega)
      refine ⟨a, b, ?_, ?_, ?_⟩
      · rw [show 2 * (p + 1) = 2 * p + 1 + 1 by omega, List.getElem?_cons_succ,
          List.getElem?_cons_succ, ha]
      · rw [show min (2 * (p + 1) + 1) (rest.length + 1 + 1 - 1)
            = min (2 * p + 1) (rest.length - 1) + 1 + 1 by omega,
          List.getElem?_cons_succ, List.getElem?_cons_succ, hb]
      · rw [List.getElem?_cons_succ, hab]

variable {node}

theorem root_succ {d : δ} {level : List δ} (h : 2 ≤ level.length) :
    root node d (n + 1) level = root node d n (up node level) := by
  rw [root]
  · rintro rfl
    simp at h
  · rintro x rfl
    simp at h

section Map

variable {node' : ε → ε → ε} {f : δ → ε} (hf : ∀ x y, f (node x y) = node' (f x) (f y))
include hf

theorem map_up (level : List δ) : (up node level).map f = up node' (level.map f) := by
  fun_induction up node level with
  | case1 => rfl
  | case2 x => simp [up, hf]
  | case3 x y rest ih => simp [up, hf, ih]

/-- **What respects the combination respects the root.** -/
theorem map_root {d : δ} {level : List δ} :
    f (root node d n level) = root node' (f d) n (level.map f) := by
  fun_induction root node d n level with
  | case1 | case2 => simp [root]
  | case3 x rest hne =>
    cases rest with
    | nil => exact absurd rfl hne
    | cons y rest => simp [root]
  | case4 n level hne hone ih =>
    have htwo : 2 ≤ level.length := by
      by_contra hlt
      obtain h | h : level.length = 0 ∨ level.length = 1 := by omega
      · exact hne (List.length_eq_zero_iff.mp h)
      · obtain ⟨x, hx⟩ := List.length_eq_one_iff.mp h
        exact hone x hx
    rw [ih, map_up hf, root_succ (by rwa [List.length_map])]

end Map

end Levels

/-! ## Paths

A path is read from the bottom up: at each level, whether the node is the right one of its
pair. -/

/-- **Which of so many nodes a path reaches.** A turn to the copy of the last node is a turn
to that node. -/
def position : Nat → List Bool → Nat
  | _, [] => 0
  | n, right :: path => min (2 * position ((n + 1) / 2) path + right.toNat) (n - 1)

theorem position_lt (hn : 0 < n) : position n path < n := by
  cases path with
  | nil => exact hn
  | cons right path =>
    rw [position]
    omega

/-- One level more, half as many nodes. -/
theorem clog_half (hn : 2 ≤ n) : Nat.clog 2 n = Nat.clog 2 ((n + 1) / 2) + 1 :=
  Nat.clog_of_two_le (Nat.lt_succ_self 1) hn

/-- Every node is reached, by a path through all levels. -/
theorem exists_path {i : Nat} (hi : i < n) :
    ∃ path : List Bool, path.length = Nat.clog 2 n ∧ position n path = i := by
  induction n using Nat.strong_induction_on generalizing i with
  | _ n ih =>
    by_cases hone : n ≤ 1
    · refine ⟨[], ?_, ?_⟩
      · rw [List.length_nil, Nat.clog_of_right_le_one hone]
      · rw [position]
        omega
    · obtain ⟨path, hlength, hpos⟩ := ih ((n + 1) / 2) (by omega) (i := i / 2) (by omega)
      refine ⟨(i % 2 == 1) :: path, ?_, ?_⟩
      · rw [List.length_cons, hlength, ← clog_half (by omega)]
      · rw [position, hpos]
        rcases Nat.mod_two_eq_zero_or_one i with h | h <;> simp [h] <;> omega

/-! ## Free trees -/

/-- A binary tree with its values at the leaves. -/
inductive PairTree (α : Type*) where
  | leaf (x : α)
  | node (left right : PairTree α)

namespace PairTree

/-- What is reached along a path that is read from the root down. -/
def descend : PairTree α → List Bool → Option (PairTree α)
  | t, [] => some t
  | .leaf _, _ :: _ => none
  | .node left right, turn :: path => if turn then right.descend path else left.descend path

@[simp] theorem descend_nil (t : PairTree α) : t.descend [] = some t := by
  cases t <;> rfl

theorem descend_append (t : PairTree α) (path path' : List Bool) :
    t.descend (path ++ path') = (t.descend path).bind (·.descend path') := by
  induction path generalizing t with
  | nil => simp
  | cons turn path ih =>
    cases t with
    | leaf x => rfl
    | node left right => cases turn <;> simp [descend, ih]

/-- All leaves at one depth. -/
inductive Perfect : Nat → PairTree α → Prop
  | leaf (x : α) : Perfect 0 (.leaf x)
  /-- two trees of one depth -/
  | node {d : Nat} {left right : PairTree α} (hleft : Perfect d left) (hright : Perfect d right) :
      Perfect (d + 1) (.node left right)

/-- A path through a perfect tree ends in a leaf at the full depth only. -/
theorem Perfect.length_of_descend {t : PairTree α} (h : t.Perfect d)
    {x : α} (hpath : t.descend path = some (.leaf x)) : path.length = d := by
  induction h generalizing path with
  | leaf y =>
    cases path with
    | nil => rfl
    | cons turn path => cases hpath
  | node hleft hright ihleft ihright =>
    cases path with
    | nil => cases hpath
    | cons turn path =>
      cases turn with
      | false => exact congrArg (· + 1) (ihleft hpath)
      | true => exact congrArg (· + 1) (ihright hpath)

end PairTree

/-- The level above one of perfect trees. -/
theorem perfect_up {level : List (PairTree α)} (h : ∀ t ∈ level, t.Perfect d) :
    ∀ t ∈ up PairTree.node level, t.Perfect (d + 1) := by
  fun_induction up PairTree.node level with
  | case1 => simp
  | case2 x =>
    have hx := h x (by simp)
    simpa using PairTree.Perfect.node hx hx
  | case3 x y rest ih =>
    intro t ht
    rcases List.mem_cons.mp ht with rfl | ht
    · exact .node (h x (by simp)) (h y (by simp))
    · exact ih (fun t ht => h t (by simp [ht])) t ht

section Free

variable {dflt : PairTree α}

theorem perfect_root {level : List (PairTree α)} (hpos : 0 < level.length)
    (hle : level.length ≤ n + 1) (h : ∀ t ∈ level, t.Perfect d) :
    (root PairTree.node dflt n level).Perfect (d + Nat.clog 2 level.length) := by
  refine level_induction PairTree.node (P := fun n level => ∀ d, (∀ t ∈ level, t.Perfect d) →
    (root PairTree.node dflt n level).Perfect (d + Nat.clog 2 level.length)) ?_ ?_ n level
      hpos hle d h
  · intro n x d h
    simpa [root] using h x (by simp)
  · intro n level htwo ih d h
    have hup := ih (d + 1) (perfect_up h)
    rw [length_up, Nat.add_assoc, Nat.add_comm 1, ← clog_half htwo] at hup
    rwa [root_succ htwo]

/-- **A path of full length reaches the node at its position.** -/
theorem descend_root {level : List (PairTree α)} (hpos : 0 < level.length)
    (hle : level.length ≤ n + 1) (hpath : path.length = Nat.clog 2 level.length) :
    (root PairTree.node dflt n level).descend path.reverse
    = level[position level.length path]? := by
  refine level_induction PairTree.node (P := fun n level => ∀ path : List Bool,
    path.length = Nat.clog 2 level.length → (root PairTree.node dflt n level).descend path.reverse
      = level[position level.length path]?) ?_ ?_ n level hpos hle path hpath
  · intro n x path hpath
    obtain rfl : path = [] := by simpa using hpath
    simp [root, position]
  · intro n level htwo ih path hpath
    rw [clog_half htwo] at hpath
    cases path with
    | nil => exact absurd hpath (by simp)
    | cons right path =>
      have hup := ih path (by rw [length_up]; simpa using hpath)
      have hp : position ((level.length + 1) / 2) path < (level.length + 1) / 2 :=
        position_lt (by omega)
      obtain ⟨x, y, hx, hy, hxy⟩ := getElem?_up PairTree.node level _ hp
      rw [root_succ htwo, List.reverse_cons, PairTree.descend_append, hup, length_up, hxy, position]
      cases right with
      | false =>
        rw [show min (2 * position ((level.length + 1) / 2) path + Bool.toNat false)
          (level.length - 1) = 2 * position ((level.length + 1) / 2) path by simp; omega, hx]
        simp [PairTree.descend]
      | true =>
        rw [show Bool.toNat true = 1 from rfl, hy]
        simp [PairTree.descend]

end Free

/-- The free tree over a list of leaves. -/
def treeOf (d : α) (leaves : List α) : PairTree α :=
  root PairTree.node (.leaf d) leaves.length (leaves.map PairTree.leaf)

section TreeOf

variable {d : α} {l l' : List α}

theorem perfect_treeOf (hl : 0 < l.length) : (treeOf d l).Perfect (Nat.clog 2 l.length) := by
  have hleaves : ∀ t ∈ l.map PairTree.leaf, t.Perfect 0 := by
    intro t ht
    obtain ⟨x, -, rfl⟩ := List.mem_map.mp ht
    exact .leaf x
  have h : (treeOf d l).Perfect (0 + Nat.clog 2 (l.map PairTree.leaf).length) :=
    perfect_root (by simpa using hl) (by simp) hleaves
  simpa using h

theorem descend_treeOf (hl : 0 < l.length) (hpath : path.length = Nat.clog 2 l.length) :
    (treeOf d l).descend path.reverse = (l[position l.length path]?).map PairTree.leaf := by
  have h : (treeOf d l).descend path.reverse
      = (l.map PairTree.leaf)[position (l.map PairTree.leaf).length path]? :=
    descend_root (by simpa using hl) (by simp) (by simpa using hpath)
  simpa using h

/-- **Lists with one tree** are of one depth, and every path reaches the same leaf in both. -/
theorem paths_of_treeOf_eq (hl : 0 < l.length) (hl' : 0 < l'.length)
    (h : treeOf d l = treeOf d l') :
    Nat.clog 2 l.length = Nat.clog 2 l'.length
      ∧ ∀ path : List Bool, path.length = Nat.clog 2 l.length →
          l[position l.length path]? = l'[position l'.length path]? := by
  have hdepth : Nat.clog 2 l.length = Nat.clog 2 l'.length := by
    obtain ⟨path, hlength, hpos⟩ := exists_path hl
    have hleaf := descend_treeOf (d := d) hl hlength
    rw [hpos, List.getElem?_eq_getElem hl, Option.map_some, h] at hleaf
    rw [← (perfect_treeOf hl').length_of_descend hleaf, List.length_reverse, hlength]
  refine ⟨hdepth, fun path hpath => ?_⟩
  refine Option.map_injective (fun _ _ h => PairTree.leaf.inj h) ?_
  rw [← descend_treeOf (d := d) hl hpath, ← descend_treeOf (d := d) hl' (hpath.trans hdepth), h]

/-- Lists of one length with one tree are equal. -/
theorem eq_of_treeOf_eq_of_length (hl : 0 < l.length) (hlength : l.length = l'.length)
    (h : treeOf d l = treeOf d l') : l = l' := by
  obtain ⟨-, hpaths⟩ := paths_of_treeOf_eq hl (hlength ▸ hl) h
  refine List.ext_getElem? fun i => ?_
  by_cases hi : i < l.length
  · obtain ⟨path, hpath, rfl⟩ := exists_path hi
    rw [hpaths path hpath, hlength]
  · rw [List.getElem?_eq_none (not_lt.mp hi), List.getElem?_eq_none (hlength ▸ not_lt.mp hi)]

/-- A list without repetitions is the longest one with its tree. -/
theorem length_le_of_treeOf_eq (hl : 0 < l.length) (hl' : 0 < l'.length) (hnodup : l'.Nodup)
    (h : treeOf d l = treeOf d l') : l'.length ≤ l.length := by
  by_contra hlt
  obtain ⟨hdepth, hpaths⟩ := paths_of_treeOf_eq hl hl' h
  -- the positions of `l'` are more than those of `l`, so two of its paths meet in `l`
  choose path hlength hpos using fun i : Fin l'.length => exists_path i.isLt
  obtain ⟨i, j, hne, hmeet⟩ := Fintype.exists_ne_map_eq_of_card_lt
    (fun i : Fin l'.length => (⟨position l.length (path i), position_lt hl⟩ : Fin l.length))
    (by simpa using hlt)
  have hi := hpaths (path i) ((hlength i).trans hdepth.symm)
  have hj := hpaths (path j) ((hlength j).trans hdepth.symm)
  rw [Fin.mk.injEq] at hmeet
  rw [hmeet, hj, hpos, hpos, List.getElem?_eq_getElem j.isLt, List.getElem?_eq_getElem i.isLt,
    Option.some.injEq] at hi
  exact hne (Fin.ext ((hnodup.getElem_inj_iff).mp hi).symm)

/-- **Lists without repetitions are determined by their trees.** -/
theorem eq_of_treeOf_eq_of_nodup (hl : 0 < l.length) (hl' : 0 < l'.length) (hnodup : l.Nodup)
    (hnodup' : l'.Nodup) (h : treeOf d l = treeOf d l') : l = l' :=
  eq_of_treeOf_eq_of_length hl (le_antisymm (length_le_of_treeOf_eq hl' hl hnodup h.symm)
    (length_le_of_treeOf_eq hl hl' hnodup' h)) h

end TreeOf

/-! ## Climbing -/

section Climb

variable (node : δ → δ → δ)

/-- A node and its sibling combined; the flag says that the sibling is the left one. -/
def combine (x : δ) (step : δ × Bool) : δ := if step.2 then node step.1 x else node x step.1

/-- Up from a node, given the siblings. -/
def climb (x : δ) (steps : List (δ × Bool)) : δ := steps.foldl (combine node) x

theorem climb_append_singleton (x : δ) (steps : List (δ × Bool)) (step : δ × Bool) :
    climb node x (steps ++ [step]) = combine node (climb node x steps) step := by
  simp [climb]

variable {node}

/-- Where the sibling of a node is found among so many: the neighbour, or the node itself. -/
def siblingIndex (n i : Nat) : Nat := if i % 2 = 0 then min (i + 1) (n - 1) else i - 1

/-- A node combined with its sibling is the node above. -/
theorem getElem?_up_half {level : List δ} {i : Nat} {x s : δ} (hx : level[i]? = some x)
    (hs : level[siblingIndex level.length i]? = some s) :
    (up node level)[i / 2]? = some (combine node x (s, i % 2 == 1)) := by
  obtain ⟨hi, -⟩ := List.getElem?_eq_some_iff.mp hx
  obtain ⟨a, b, ha, hb, hab⟩ := getElem?_up node level (i / 2) (by omega)
  rw [hab, combine]
  rcases Nat.mod_two_eq_zero_or_one i with h | h
  · rw [siblingIndex, if_pos h] at hs
    rw [show 2 * (i / 2) = i by omega] at ha hb
    rw [Option.some.inj (ha.symm.trans hx), Option.some.inj (hb.symm.trans hs)]
    simp [h]
  · rw [siblingIndex, if_neg (by omega)] at hs
    rw [show 2 * (i / 2) = i - 1 by omega] at ha
    rw [show min (2 * (i / 2) + 1) (level.length - 1) = i by omega] at hb
    rw [Option.some.inj (ha.symm.trans hs), Option.some.inj (hb.symm.trans hx)]
    simp [h]

end Climb

/-! ## Digests -/

section Digest

variable (leaf : α → δ) (node : δ → δ → δ)

/-- The hash of a free tree. -/
def PairTree.digest : PairTree α → δ
  | .leaf x => leaf x
  | .node left right => node left.digest right.digest

/-- **No collisions** among the leaves `L` and the pairs `N`. -/
structure CollisionFree (L : α → Prop) (N : δ → δ → Prop) : Prop where
  leaf_inj : ∀ {x y}, L x → L y → leaf x = leaf y → x = y
  node_inj : ∀ {a b c d}, N a b → N c d → node a b = node c d → a = c ∧ b = d
  leaf_ne_node : ∀ {x a b}, L x → N a b → leaf x ≠ node a b

variable (L : α → Prop) (N : δ → δ → Prop)

/-- The leaves and pairs of a tree are among those given. -/
inductive PairTree.Hashed : PairTree α → Prop
  | leaf {x : α} (hx : L x) : Hashed (.leaf x)
  | node {left right : PairTree α} (hleft : Hashed left) (hright : Hashed right)
      (hpair : N (left.digest leaf node) (right.digest leaf node)) : Hashed (.node left right)

/-- The pairs of a climb are among those given. -/
def Climbs (x : δ) (steps : List (δ × Bool)) : Prop :=
  match steps with
  | [] => True
  | step :: steps =>
    (if step.2 then N step.1 x else N x step.1) ∧ Climbs (combine node x step) steps

variable {leaf node L N}

theorem climbs_append_singleton {x : δ} {steps : List (δ × Bool)} {step : δ × Bool} :
    Climbs node N x (steps ++ [step])
      ↔ Climbs node N x steps ∧ if step.2 then N step.1 (climb node x steps)
        else N (climb node x steps) step.1 := by
  induction steps generalizing x with
  | nil => simp [Climbs, climb]
  | cons first steps ih =>
    rw [List.cons_append, Climbs, Climbs, ih, and_assoc]
    rfl

variable (h : CollisionFree leaf node L N)
include h

/-- **A digest determines its tree.** -/
theorem digest_inj {s t : PairTree α} (hs : s.Hashed leaf node L N) (ht : t.Hashed leaf node L N)
    (heq : s.digest leaf node = t.digest leaf node) : s = t := by
  induction hs generalizing t with
  | leaf hx =>
    cases ht with
    | leaf hy => rw [h.leaf_inj hx hy heq]
    | node _ _ hpair => exact absurd heq (h.leaf_ne_node hx hpair)
  | node hleft hright hpair ihleft ihright =>
    cases ht with
    | leaf hy => exact absurd heq.symm (h.leaf_ne_node hy hpair)
    | node hleft' hright' hpair' =>
      obtain ⟨hl, hr⟩ := h.node_inj hpair hpair' heq
      rw [ihleft hleft' hl, ihright hright' hr]

/-- **A climb that ends in the digest of a tree has come up through the tree**, whatever
siblings it was given: read backwards, its turns lead from the root to the leaf it started
from. -/
theorem descend_of_climb {x : α} {steps : List (δ × Bool)} {t : PairTree α} (hx : L x)
    (hsteps : Climbs node N (leaf x) steps) (ht : t.Hashed leaf node L N)
    (heq : climb node (leaf x) steps = t.digest leaf node) :
    t.descend (steps.map Prod.snd).reverse = some (.leaf x) := by
  -- the last step is the one at the root, so the induction takes the steps from the end
  induction steps using List.reverseRecOn generalizing t with
  | nil =>
    cases ht with
    | leaf hy => simp [h.leaf_inj hx hy heq]
    | node _ _ hpair => exact absurd heq (h.leaf_ne_node hx hpair)
  | append_singleton steps step ih =>
    obtain ⟨s, left⟩ := step
    obtain ⟨hbelow, hstep⟩ := climbs_append_singleton.mp hsteps
    rw [climb_append_singleton] at heq
    rw [List.map_append, List.map_singleton, List.reverse_append, List.reverse_singleton,
      List.singleton_append]
    cases ht with
    | leaf hy =>
      cases left with
      | false | true => exact absurd heq.symm (h.leaf_ne_node hy hstep)
    | node hleft hright hpair =>
      cases left with
      | false =>
        rw [← ih hbelow hleft (h.node_inj hstep hpair heq).1]
        rfl
      | true =>
        rw [← ih hbelow hright (h.node_inj hstep hpair heq).2]
        rfl

end Digest

end LevelTree
