import NogoChain.Chain.Linked
import NogoChain.Chain.Stock

/-!
# The fork blocks over whole runs

Fork blocks are kept by height and by hash, and both they and the canonical blocks are meant to
be among the known blocks. The limits on their number hold in every state: an insertion is
followed by the removal of what exceeds them (`Chain.ForksBounded`).

That the maps agree is another matter. A rollback drops heights from the map by height and
leaves the map by hash as it is; a block that is refused at the tip is forgotten even if it is
a fork block. `CoreStep.KeepsForks` names the steps for which this does not happen, and
`forkPool_consistent` says that the maps then agree along every run, whatever the limits remove.
Fork blocks stay fork blocks when they become canonical, and are then forgotten with the oldest
of their height: that canonical blocks are known needs `FewBlocks`.
-/

namespace NogoChain

open Prog

variable {env : Env} {P : Block → Prop} {c c' : Chain} {height : UInt64} {b : Block} {w : World}
  {q : Prop}

namespace Chain

/-- A block that is listed among the fork blocks. -/
def IsFork (c : Chain) (b : Block) : Prop := ∃ height l, c.forkBlocks.lookup height = some l ∧ b ∈ l

/-- **The limits**: on the fork blocks of one height and on all of them. -/
structure ForksBounded (c : Chain) : Prop where
  atHeight : ∀ height l, c.forkBlocks.lookup height = some l → l.length ≤ maxForkBlocksPerHeight
  total : (c.forkBlocks.entries.flatMap (·.2)).length ≤ maxForkBlocksTotal

/-- The keys of `forkBlocksByHash` are the hashes of the fork blocks, which are known. -/
structure ForksKnown (c : Chain) : Prop where
  hashes : ∀ h, (c.forkBlocksByHash.lookup h).isSome ↔ ∃ b, c.IsFork b ∧ b.hash = h
  known : ∀ b, c.IsFork b → (c.blocksByHash.lookup b.hash).isSome

/-- **The maps of fork blocks agree**; each is listed under its height. -/
structure ForksAgree (c : Chain) : Prop extends ForksKnown c where
  heights : ∀ height l b, c.forkBlocks.lookup height = some l → b ∈ l → b.height = height

/-- The agreement as it is kept: no height lists a hash twice either, and if `q`, canonical blocks
are known. That heights are right is part of `Chain.Holds`. -/
structure ForksSound (q : Prop) (c : Chain) : Prop extends ForksKnown c where
  once : ∀ height l, c.forkBlocks.lookup height = some l → (l.map (·.hash)).Nodup
  canonical : q → ∀ b ∈ c.blocks, (c.blocksByHash.lookup b.hash).isSome

theorem ForksSound.agree (h : c.ForksSound q) (hP : c.Holds P) : c.ForksAgree :=
  ⟨h.toForksKnown, fun height l b hl hb => (hP.forks height l b hl hb).2⟩

end Chain

/-! ## The limits -/

namespace Chain

theorem ForksBounded.of_lookup (h : c.ForksBounded)
    (hsub : ∀ k l, c'.forkBlocks.lookup k = some l → c.forkBlocks.lookup k = some l) :
    c'.ForksBounded :=
  ⟨fun k l hl => h.atHeight k l (hsub k l hl), (GoMap.listedCount_mono hsub).trans h.total⟩

theorem forkBlocks_of_dropLowestForks :
    ∀ {hs : List UInt64} {total : Nat} {c : Chain} {k : UInt64} {l : List Block},
      (dropLowestForks hs total c).forkBlocks.lookup k = some l → c.forkBlocks.lookup k = some l
  | [], _, _, _, _, h => h
  | height :: hs, total, c, k, l, h => by
    unfold dropLowestForks at h
    split at h
    · exact h
    · exact GoMap.lookup_of_erase (forkBlocks_of_dropLowestForks h)

/-- Once every height has been gone through, or before, three quarters of the limit are left. -/
theorem listedCount_dropLowestForks :
    ∀ (hs : List UInt64) (c : Chain), (∀ k l, c.forkBlocks.lookup k = some l → k ∈ hs) →
      GoMap.listedCount (dropLowestForks hs (GoMap.listedCount c.forkBlocks) c).forkBlocks
        ≤ maxForkBlocksTotal * 3 / 4 := by
  intro hs
  induction hs with
  | nil =>
    intro c hkeys
    have hempty : GoMap.listedCount c.forkBlocks
        ≤ GoMap.listedCount (∅ : GoMap UInt64 (List Block)) :=
      GoMap.listedCount_mono fun k l hl => absurd (hkeys k l hl) List.not_mem_nil
    exact hempty.trans (Nat.zero_le _)
  | cons height hs ih =>
    intro c hkeys
    unfold dropLowestForks
    split
    · next hfew => exact hfew
    · -- the count that the loop keeps is that of the heights that are left
      have hcount : GoMap.listedCount c.forkBlocks - (c.forksAt height).length
          = GoMap.listedCount (c.forkBlocks.erase height) := by
        unfold forksAt
        cases hl : c.forkBlocks.lookup height with
        | none =>
          refine Nat.le_antisymm (GoMap.listedCount_mono fun k l hk => ?_)
            (GoMap.listedCount_mono fun k l hk => GoMap.lookup_of_erase hk)
          rw [GoMap.lookup_erase, if_neg (fun e => by cases (e ▸ hk).symm.trans hl)]
          exact hk
        | some l =>
          rw [GoMap.listedCount_erase hl, Option.getD_some]
          omega
      dsimp only
      rw [hcount]
      refine ih
        { c.forget (c.forksAt height) with forkBlocks := c.forkBlocks.erase height }
          fun k l hk => ?_
      have hne : k ≠ height := by
        rintro rfl
        rw [GoMap.lookup_erase, if_pos rfl] at hk
        cases hk
      exact (List.mem_cons.mp (hkeys k l (GoMap.lookup_of_erase hk))).resolve_left hne

theorem lookup_insertFork (c : Chain) (b : Block) (k : UInt64) :
    (c.insertFork b).forkBlocks.lookup k
      = if k = b.height then some (c.forksAt b.height ++ [b]) else c.forkBlocks.lookup k :=
  GoMap.lookup_insert _ _ _ _

/-- **Insertion keeps the limits**: what exceeds them is removed at once. -/
theorem ForksBounded.enterFork (h : c.ForksBounded) (b : Block) :
    ((c.insertFork b).limitForksAt b.height).limitForksTotal.ForksBounded := by
  have hblocks : (c.insertFork b).forksAt b.height = c.forksAt b.height ++ [b] := by
    rw [forksAt, lookup_insertFork, if_pos rfl, Option.getD_some]
  have hat : ∀ k l, ((c.insertFork b).limitForksAt b.height).forkBlocks.lookup k = some l →
      l.length ≤ maxForkBlocksPerHeight := by
    intro k l hl
    unfold limitForksAt at hl
    dsimp only at hl
    rw [hblocks] at hl
    split at hl
    · rw [GoMap.lookup_insert] at hl
      split at hl
      · cases hl
        rw [List.length_drop]
        omega
      · next hk =>
        rw [lookup_insertFork, if_neg hk] at hl
        exact h.atHeight k l hl
    · next hle =>
      rw [lookup_insertFork] at hl
      split at hl
      · exact Option.some.inj hl ▸ Nat.le_of_not_lt hle
      · exact h.atHeight k l hl
  generalize (c.insertFork b).limitForksAt b.height = c₁ at hat
  unfold limitForksTotal
  dsimp only
  split
  · refine ⟨fun k l hl => hat k l (forkBlocks_of_dropLowestForks hl), ?_⟩
    refine (listedCount_dropLowestForks _ c₁ fun k l hl => ?_).trans (by decide)
    exact (List.mem_insertionSort _).mpr (GoMap.mem_keys_of_lookup hl)
  · next hle => exact ⟨hat, Nat.le_of_not_lt hle⟩

end Chain

/-! ## Agreement -/

/-- Among blocks with `P` the hash says the height. -/
structure Ranked (P : Block → Prop) : Prop where
  height_eq : ∀ {x y : Block}, P x → P y → x.hash = y.hash → x.height = y.height
  hash_ne : ∀ {x : Block}, P x → x.hash ≠ []

/-- **Few blocks**: neither those of one height nor all of them exceed the limits. -/
structure FewBlocks (P : Block → Prop) : Prop extends Ranked P where
  atHeight : ∀ (height : UInt64) (l : List Block), (∀ b ∈ l, P b ∧ b.height = height) →
    (l.map (·.hash)).Nodup → l.length ≤ maxForkBlocksPerHeight
  total : ∀ l : List Block, (∀ b ∈ l, P b) → (l.map (·.hash)).Nodup → l.length ≤ maxForkBlocksTotal

namespace Chain

theorem mem_forksAt : b ∈ c.forksAt height ↔ ∃ l, c.forkBlocks.lookup height = some l ∧ b ∈ l := by
  unfold forksAt
  cases c.forkBlocks.lookup height with
  | none | some l => simp

/-- Fork blocks with one hash stand at one height. -/
theorem Holds.forkHeight_eq (hP : c.Holds P) (hranked : Ranked P) {height' : UInt64}
    {l l' : List Block} {x y : Block} (hl : c.forkBlocks.lookup height = some l) (hx : x ∈ l)
    (hl' : c.forkBlocks.lookup height' = some l') (hy : y ∈ l') (heq : x.hash = y.hash) :
    height = height' := by
  obtain ⟨hPx, hhx⟩ := hP.forks height l x hl hx
  obtain ⟨hPy, hhy⟩ := hP.forks height' l' y hl' hy
  rw [← hhx, ← hhy]
  exact hranked.height_eq hPx hPy heq

theorem ForksSound.nodup_forksAt (h : c.ForksSound q) (height : UInt64) :
    ((c.forksAt height).map (·.hash)).Nodup := by
  unfold forksAt
  cases hl : c.forkBlocks.lookup height with
  | none => exact List.nodup_nil
  | some l => exact h.once height l hl

/-- **Fork blocks go**, and their hashes with them. -/
theorem ForksSound.drop (h : c.ForksSound q) {gone : List Block} {forks : GoMap UInt64 (List Block)}
    (hlists : ∀ k l, forks.lookup k = some l →
      ∃ l', c.forkBlocks.lookup k = some l' ∧ l.Sublist l')
    (hgone : ∀ b, c.IsFork b →
      (b.hash ∈ gone.map (·.hash) ↔ ∀ k l, forks.lookup k = some l → b ∉ l))
    (hcanonical : q → ∀ x ∈ c.blocks, x.hash ∉ gone.map (·.hash)) :
    ForksSound q { c.forget gone with forkBlocks := forks } := by
  have hbyHash : ∀ k, (c.forget gone).forkBlocksByHash.lookup k
      = if k ∈ gone.map (·.hash) then none else c.forkBlocksByHash.lookup k := fun k =>
    GoMap.lookup_foldl_erase _ _ _ _
  have hknown : ∀ k, (c.forget gone).blocksByHash.lookup k
      = if k ∈ gone.map (·.hash) then none else c.blocksByHash.lookup k := fun k =>
    GoMap.lookup_foldl_erase _ _ _ _
  have hfork : ∀ {b : Block}, IsFork { c.forget gone with forkBlocks := forks } b →
      c.IsFork b ∧ b.hash ∉ gone.map (·.hash) := by
    rintro b ⟨k, l, hl, hb⟩
    obtain ⟨l', hl', hsub⟩ := hlists k l hl
    have hb' : c.IsFork b := ⟨k, l', hl', hsub.subset hb⟩
    exact ⟨hb', fun hmem => (hgone b hb').mp hmem k l hl hb⟩
  refine { hashes := fun k => ?_, known := fun b hb => ?_, once := fun k l hl => ?_,
           canonical := fun hq b hb => ?_ }
  · rw [hbyHash]
    split
    · next hmem => exact iff_of_false (by simp) fun ⟨b, hb, hk⟩ => (hfork hb).2 (hk ▸ hmem)
    · next hmem =>
      rw [h.hashes k]
      refine ⟨fun ⟨b, hb, hk⟩ => ⟨b, ?_, hk⟩, fun ⟨b, hb, hk⟩ => ⟨b, (hfork hb).1, hk⟩⟩
      by_contra hnot
      exact hmem (hk ▸ (hgone b hb).mpr fun k l hl hb => hnot ⟨k, l, hl, hb⟩)
  · rw [hknown, if_neg (hfork hb).2]
    exact h.known b (hfork hb).1
  · obtain ⟨l', hl', hsub⟩ := hlists k l hl
    exact (h.once k l' hl').sublist (hsub.map _)
  · rw [hknown, if_neg (hcanonical hq b hb)]
    exact h.canonical hq b hb

/-- **Heights go**, with all their fork blocks. -/
theorem ForksSound.dropHeights (h : c.ForksSound q) (hP : c.Holds P) (hranked : Ranked P)
    {H : UInt64 → Prop} [DecidablePred H] {gone : List Block} {forks : GoMap UInt64 (List Block)}
    (hforks : ∀ k, forks.lookup k = if H k then none else c.forkBlocks.lookup k)
    (hgone : ∀ b, b ∈ gone ↔ ∃ k l, c.forkBlocks.lookup k = some l ∧ b ∈ l ∧ H k)
    (hcanonical : q → ∀ x ∈ c.blocks, x.hash ∉ gone.map (·.hash)) :
    ForksSound q { c.forget gone with forkBlocks := forks } := by
  refine h.drop (fun k l hl => ?_) (fun b hb => ⟨fun hmem k l hl hb => ?_, fun hstay => ?_⟩)
    hcanonical
  · rw [hforks] at hl
    split at hl
    · cases hl
    · exact ⟨l, hl, .refl l⟩
  · obtain ⟨x, hx, heq⟩ := List.mem_map.mp hmem
    obtain ⟨k', l', hl', hx, hH⟩ := (hgone x).mp hx
    rw [hforks] at hl
    split at hl
    · cases hl
    · next hnot => exact hnot (hP.forkHeight_eq hranked hl' hx hl hb heq ▸ hH)
  · obtain ⟨k, l, hl, hb⟩ := hb
    refine List.mem_map_of_mem ((hgone b).mpr ⟨k, l, hl, hb, ?_⟩)
    by_contra hnot
    exact hstay k l (by rw [hforks, if_neg hnot, hl]) hb

/-- **The first of a height go.** -/
theorem ForksSound.dropFirst (h : c.ForksSound q) (hP : c.Holds P) (hranked : Ranked P)
    {gone kept : List Block} (hl : c.forkBlocks.lookup height = some (gone ++ kept))
    (hcanonical : q → ∀ x ∈ c.blocks, x.hash ∉ gone.map (·.hash)) :
    ForksSound q { c.forget gone with forkBlocks := c.forkBlocks.insert height kept } := by
  have hnodup := h.once height _ hl
  rw [List.map_append, List.nodup_append] at hnodup
  refine h.drop (fun k l hk => ?_) (fun b hb => ⟨fun hmem k l hk hb => ?_, fun hstay => ?_⟩)
    hcanonical
  · rw [GoMap.lookup_insert] at hk
    split at hk
    · next heq =>
      cases hk
      exact ⟨_, heq ▸ hl, List.sublist_append_right _ _⟩
    · exact ⟨l, hk, .refl l⟩
  · rw [GoMap.lookup_insert] at hk
    split at hk
    · cases hk
      exact hnodup.2.2 _ hmem _ (List.mem_map_of_mem hb) rfl
    · next hne =>
      obtain ⟨x, hx, heq⟩ := List.mem_map.mp hmem
      exact hne (hP.forkHeight_eq hranked hl (List.mem_append_left _ hx) hk hb heq).symm
  · obtain ⟨k, l, hk, hb⟩ := hb
    have heq : k = height := by
      by_contra hne
      exact hstay k l ((GoMap.lookup_insert ..).trans ((if_neg hne).trans hk)) hb
    subst heq
    obtain rfl := Option.some.inj (hk.symm.trans hl)
    exact List.mem_map_of_mem ((List.mem_append.mp hb).resolve_right
      (hstay k kept ((GoMap.lookup_insert ..).trans (if_pos rfl))))

/-- **The limit for a height**; with few blocks it removes nothing. -/
theorem ForksSound.limitForksAt (h : c.ForksSound q) (hP : c.Holds P) (hranked : Ranked P)
    (hfew : q → FewBlocks P) (height : UInt64) : (c.limitForksAt height).ForksSound q := by
  have hlookup : c.forksAt height ≠ [] →
      c.forkBlocks.lookup height = some (c.forksAt height) := by
    unfold forksAt
    cases c.forkBlocks.lookup height with
    | none | some l => simp
  unfold Chain.limitForksAt
  dsimp only
  split
  · next hover =>
    refine h.dropFirst hP hranked ?_ fun hq => ?_
    · rw [List.take_append_drop]
      exact hlookup (List.ne_nil_of_length_pos (Nat.zero_lt_of_lt hover))
    · have hle := (hfew hq).atHeight height _ (fun _ hb => hP.forksAt hb) (h.nodup_forksAt height)
      exact absurd hover (Nat.not_lt.mpr hle)
  · exact h

theorem ForksSound.dropLowestForks (hranked : Ranked P) (hq : ¬ q) (hs : List UInt64)
    (total : Nat) (h : c.ForksSound q) (hP : c.Holds P) :
    (Chain.dropLowestForks hs total c).ForksSound q := by
  induction hs generalizing total c with
  | nil => exact h
  | cons height hs ih =>
    unfold Chain.dropLowestForks
    split
    · exact h
    · refine ih _ (h.dropHeights hP hranked (H := (· = height))
        (fun k => GoMap.lookup_erase _ _ _) (fun b => ?_) fun h => absurd h hq) ?_
      · rw [mem_forksAt]
        simp
      · exact hP.of_shrinks ((shrinks_forget c _).setForkBlocks fun k l b hl hb =>
          ⟨l, GoMap.lookup_of_erase hl, hb⟩)

/-- **The limit for all**; with few blocks it removes nothing either. -/
theorem ForksSound.limitForksTotal (h : c.ForksSound q) (hP : c.Holds P) (hranked : Ranked P)
    (hfew : q → FewBlocks P) : c.limitForksTotal.ForksSound q := by
  have hnodup : ((c.forkBlocks.entries.flatMap (·.2)).map (·.hash)).Nodup := by
    rw [List.map_flatMap, List.nodup_flatMap]
    refine ⟨fun e he => h.once e.1 e.2 (GoMap.mem_entries_iff.mp he), ?_⟩
    refine (List.nodupKeys_iff_pairwise.mp c.forkBlocks.nodupKeys).imp_of_mem
      fun {e e'} he he' hne k hk hk' => hne ?_
    obtain ⟨x, hx, hxk⟩ := List.mem_map.mp hk
    obtain ⟨y, hy, hyk⟩ := List.mem_map.mp hk'
    exact hP.forkHeight_eq hranked (GoMap.mem_entries_iff.mp he) hx (GoMap.mem_entries_iff.mp he')
      hy (hxk.trans hyk.symm)
  unfold Chain.limitForksTotal
  dsimp only
  split
  · next hover =>
    refine .dropLowestForks hranked (fun hq => ?_) _ _ h hP
    exact absurd hover (Nat.not_lt.mpr ((hfew hq).total _ (fun b hb => hP.mem_entries hb) hnodup))
  · exact h

theorem isFork_insertFork {x : Block} : (c.insertFork b).IsFork x ↔ c.IsFork x ∨ x = b := by
  constructor
  · rintro ⟨height, l, hl, hx⟩
    rw [lookup_insertFork] at hl
    split at hl
    · cases hl
      rcases List.mem_append.mp hx with hx | hx
      · obtain ⟨l, hl, hx⟩ := mem_forksAt.mp hx
        exact .inl ⟨_, l, hl, hx⟩
      · exact .inr (List.mem_singleton.mp hx)
    · exact .inl ⟨height, l, hl, hx⟩
  · rintro (⟨height, l, hl, hx⟩ | rfl)
    · by_cases hk : height = b.height
      · subst hk
        refine ⟨b.height, _, (lookup_insertFork _ _ _).trans (if_pos rfl),
          List.mem_append_left _ ?_⟩
        exact mem_forksAt.mpr ⟨l, hl, hx⟩
      · exact ⟨height, l, (lookup_insertFork _ _ _).trans ((if_neg hk).trans hl), hx⟩
    · exact ⟨x.height, _, (lookup_insertFork _ _ _).trans (if_pos rfl),
        List.mem_append_right _ (List.mem_singleton.mpr rfl)⟩

theorem isSome_lookup_insertFork {k : Bytes} : ((c.insertFork b).blocksByHash.lookup k).isSome
    ↔ k = b.hash ∨ (c.blocksByHash.lookup k).isSome :=
  (isSome_lookup_learn : ((c.learn [b]).blocksByHash.lookup k).isSome ↔ _).trans
    (or_congr_left List.mem_singleton)

/-- **A new fork block** enters all three maps. -/
theorem ForksSound.insertFork (h : c.ForksSound q)
    (hnew : ∀ x ∈ c.forksAt b.height, x.hash ≠ b.hash) : (c.insertFork b).ForksSound q where
  hashes k := by
    have hlookup : (c.insertFork b).forkBlocksByHash.lookup k
        = if k = b.hash then some b else c.forkBlocksByHash.lookup k := GoMap.lookup_insert _ _ _ _
    rw [hlookup]
    split
    · next hk => exact iff_of_true rfl ⟨b, isFork_insertFork.mpr (.inr rfl), hk.symm⟩
    · next hk =>
      rw [h.hashes k]
      constructor
      · rintro ⟨x, hx, hxk⟩
        exact ⟨x, isFork_insertFork.mpr (.inl hx), hxk⟩
      · rintro ⟨x, hx, hxk⟩
        rcases isFork_insertFork.mp hx with hx | rfl
        · exact ⟨x, hx, hxk⟩
        · exact absurd hxk.symm hk
  once height l hl := by
    simp only [Chain.insertFork, GoMap.lookup_insert] at hl
    split at hl
    · cases hl
      rw [List.map_append, List.nodup_append]
      refine ⟨h.nodup_forksAt _, List.nodup_singleton _, fun k hk k' hk' e => ?_⟩
      obtain ⟨x, hx, rfl⟩ := List.mem_map.mp hk
      exact hnew x hx (e.trans (List.mem_singleton.mp hk'))
    · exact h.once height l hl
  known x hx := isSome_lookup_insertFork.mpr
    ((isFork_insertFork.mp hx).symm.imp (congrArg Block.hash) (h.known x))
  canonical hq x hx := isSome_lookup_insertFork.mpr (.inr (h.canonical hq x hx))

/-- The fork blocks stay, they stay known, and the canonical blocks are known. -/
theorem ForksSound.of_known (h : c.ForksSound q) (hf : c'.forkBlocks = c.forkBlocks)
    (hh : c'.forkBlocksByHash = c.forkBlocksByHash)
    (hknown : ∀ b, c.IsFork b → (c'.blocksByHash.lookup b.hash).isSome)
    (hcanonical : q → ∀ b ∈ c'.blocks, (c'.blocksByHash.lookup b.hash).isSome) :
    c'.ForksSound q where
  hashes k := by
    rw [hh]
    unfold IsFork
    rw [hf]
    exact h.hashes k
  once height l hl := h.once height l (hf ▸ hl)
  known b hb := hknown b (by
    obtain ⟨height, l, hl, hb⟩ := hb
    exact ⟨height, l, hf ▸ hl, hb⟩)
  canonical := hcanonical

theorem ForksSound.of_stock {o : Option Orphans} {a : Slice.Heap Bytes} (h : c.ForksSound q)
    (hs : c'.stock = { c.stock with orphans := o, arrays := a }) : c'.ForksSound q := by
  simp only [stock, Stock.mk.injEq] at hs
  obtain ⟨hb, hk, hf, hh, -⟩ := hs
  exact h.of_known hf hh (fun b hfork => hk ▸ h.known b hfork) fun hq b hmem =>
    hk ▸ h.canonical hq b (hb ▸ hmem)

theorem lookup_forkBlocks_of_stock {o : Option Orphans} {a : Slice.Heap Bytes}
    (hs : c'.stock = { c.stock with orphans := o, arrays := a }) (k : UInt64) :
    c.forkBlocks.lookup k = c'.forkBlocks.lookup k :=
  congrArg (fun s : Stock => s.forkBlocks.lookup k) hs.symm

theorem ForksSound.learn (h : c.ForksSound q) (bs : List Block) : (c.learn bs).ForksSound q :=
  h.of_known rfl rfl (fun b hb => isSome_lookup_learn.mpr (.inr (h.known b hb)))
    fun hq b hb => isSome_lookup_learn.mpr (.inr (h.canonical hq b hb))

/-- The new blocks of a reorganisation are known. -/
theorem ForksSound.switchedTo (h : c.ForksSound q) (ancestor : Block) (newBlocks : List Block) :
    (c.switchedTo ancestor newBlocks).ForksSound q := by
  refine h.of_known rfl rfl (fun b hb => isSome_lookup_learn.mpr (.inr (h.known b hb)))
    fun hq b hb => isSome_lookup_learn.mpr ?_
  rcases List.mem_append.mp hb with hb | hb
  · exact .inr (h.canonical hq b (List.mem_of_mem_take hb))
  · exact .inl (List.mem_map_of_mem hb)

theorem lookup_dropForksAbove (c : Chain) (height k : UInt64) :
    (c.dropForksAbove height).forkBlocks.lookup k
      = if height < k then none else c.forkBlocks.lookup k := by
  have hlookup : (c.dropForksAbove height).forkBlocks.lookup k
      = if k ∈ (c.forkBlocks.entries.filter fun e => e.1 > height).map (·.1) then none
        else c.forkBlocks.lookup k := GoMap.lookup_foldl_erase _ _ _ _
  rw [hlookup]
  by_cases hlt : height < k
  · split
    · rfl
    · next hnot =>
      cases hl : c.forkBlocks.lookup k with
      | none => rfl
      | some l =>
        have hmem : (⟨k, l⟩ : (_ : UInt64) × List Block)
            ∈ c.forkBlocks.entries.filter fun e => e.1 > height :=
          List.mem_filter.mpr ⟨GoMap.mem_entries_iff.mpr hl, decide_eq_true hlt⟩
        exact absurd (List.mem_map_of_mem hmem) hnot
  · rw [if_neg hlt, if_neg]
    intro hmem
    obtain ⟨e, he, rfl⟩ := List.mem_map.mp hmem
    exact hlt (of_decide_eq_true (List.mem_filter.mp he).2)

/-- **Fork blocks above a height go**, if none of them is canonical. -/
theorem ForksSound.dropForksAbove (h : c.ForksSound q) (hP : c.Holds P) (hranked : Ranked P)
    (hkeep : ∀ e ∈ c.forkBlocks.entries, height < e.1 → ∀ f ∈ e.2, ∀ x ∈ c.blocks,
      x.hash ≠ f.hash) :
    (c.dropForksAbove height).ForksSound q := by
  refine h.dropHeights hP hranked (c.lookup_dropForksAbove height) (fun b => ?_)
    fun _ x hx hmem => ?_
  · simp only [List.mem_flatMap, List.mem_filter, decide_eq_true_iff]
    constructor
    · rintro ⟨e, ⟨he, hlt⟩, hb⟩
      exact ⟨e.1, e.2, GoMap.mem_entries_iff.mp he, hb, hlt⟩
    · rintro ⟨k, l, hl, hb, hlt⟩
      exact ⟨⟨k, l⟩, ⟨GoMap.mem_entries_iff.mpr hl, hlt⟩, hb⟩
  · obtain ⟨f, hf, heq⟩ := List.mem_map.mp hmem
    obtain ⟨e, he, hf⟩ := List.mem_flatMap.mp hf
    obtain ⟨he, hlt⟩ := List.mem_filter.mp he
    exact hkeep e he (of_decide_eq_true hlt) f hf x hx heq.symm

/-- **A rollback** that drops no fork block and removes none from the known blocks. -/
theorem ForksSound.cutTo (h : c.ForksSound q) (hP : c.Holds P) (hranked : Ranked P)
    (hbelow : ∀ k ∈ c.forkBlocks.keys, k ≤ height)
    (hremoved : ∀ x ∈ c.blocks.drop (height.toNat + 1), c.forkBlocksByHash.lookup x.hash = none) :
    (c.cutTo env height).ForksSound q := by
  have hknown : ∀ k, (c.unlinkAbove env height.toNat).blocksByHash.lookup k
      = if k ∈ (c.blocks.drop (height.toNat + 1)).map (·.hash) then none
        else c.blocksByHash.lookup k := by
    intro k
    have hlookup : (c.unlinkAbove env height.toNat).blocksByHash.lookup k = if k ∈
        (((List.range c.blocks.length).zip c.blocks).drop (height.toNat + 1)).map (·.2.hash)
      then none
        else c.blocksByHash.lookup k := GoMap.lookup_foldr_erase _ _ _ _
    have hmap : (((List.range c.blocks.length).zip c.blocks).drop (height.toNat + 1)).map (·.2.hash)
        = (c.blocks.drop (height.toNat + 1)).map (·.hash) := by
      rw [List.map_drop, List.map_drop]
      congr 1
      rw [show (fun e : Nat × Block => e.2.hash) = (·.hash) ∘ Prod.snd from rfl, ← List.map_map,
        List.map_snd_zip (by simp)]
    rw [hlookup, hmap]
  have hforks : (c.cutTo env height).forkBlocks = c.forkBlocks := by
    have hnone : c.forkBlocks.keys.filter (· > height) = [] := by
      rw [List.filter_eq_nil_iff]
      exact fun k hk => by simpa using hbelow k hk
    change (c.forkBlocks.keys.filter (· > height)).foldl _ c.forkBlocks = c.forkBlocks
    rw [hnone, List.foldl_nil]
  refine h.of_known hforks rfl (fun b hb => ?_) fun _ b hb => ?_
  · refine isSome_lookup_learn.mpr (.inr ?_)
    rw [hknown, if_neg]
    · exact h.known b hb
    · intro hmem
      obtain ⟨x, hx, heq⟩ := List.mem_map.mp hmem
      have hsome := (h.hashes b.hash).mpr ⟨b, hb, rfl⟩
      rw [← heq, hremoved x hx] at hsome
      cases hsome
  · refine isSome_lookup_learn.mpr (.inl (List.mem_map_of_mem (List.mem_filter.mpr ⟨hb, ?_⟩)))
    exact decide_eq_true (hranked.hash_ne (hP.blocks b (List.mem_of_mem_take hb)))

end Chain

/-! ## Steps -/

/-- The store and the state accept a block at the tip. -/
def Chain.Joins (env : Env) (c : Chain) (b : Block) : Prop :=
  (c.appended env b).isOk = true ∧ (c.applied env b).value? = some ()

instance (c : Chain) (b : Block) : Decidable (c.Joins env b) := inferInstanceAs (Decidable (_ ∧ _))

/-- **A step that keeps the maps in agreement.** A block at the tip is known; if it is refused, it
is no fork block and not canonical already. A reorganisation ends above every fork block that
is in the new chain. A rollback leaves no fork block above its height, removes none from the
chain, and enters the blocks that stay without an eviction. -/
def CoreStep.KeepsForks (env : Env) : CoreStep → Prop
  | .extend before b => (before.blocksByHash.lookup b.hash).isSome
      ∧ (before.Joins env b
        ∨ before.forkBlocksByHash.lookup b.hash = none ∧ ∀ x ∈ before.blocks, x.hash ≠ b.hash)
  | .reorganize before ancestor newBlocks =>
    let switched := before.switchedTo ancestor newBlocks
    ∀ tip ∈ switched.tip?, ∀ e ∈ before.forkBlocks.entries, tip.height < e.1 →
      ∀ f ∈ e.2, ∀ x ∈ switched.blocks, x.hash ≠ f.hash
  | .rollback before height =>
    (before.unlinkAbove env height.toNat).relearned.blocksByHash.entries.length
        ≤ maxBlocksByHashSize
      ∧ (∀ k ∈ before.forkBlocks.keys, k ≤ height)
      ∧ ∀ x ∈ before.blocks.drop (height.toNat + 1), before.forkBlocksByHash.lookup x.hash = none

instance (env : Env) : DecidablePred (CoreStep.KeepsForks env)
  | .extend _ _ => inferInstanceAs (Decidable (_ ∧ (_ ∨ _ ∧ ∀ x ∈ _, _)))
  | .reorganize _ _ _ =>
    inferInstanceAs (Decidable (∀ tip ∈ _, ∀ e ∈ _, _ → ∀ f ∈ _, ∀ x ∈ _, _))
  | .rollback before height =>
    -- the heights are those of the list, not all there are
    letI : Decidable (∀ k ∈ before.forkBlocks.keys, k ≤ height) := List.decidableBAll _ _
    inferInstanceAs (Decidable (_ ∧ (∀ k ∈ before.forkBlocks.keys, k ≤ height) ∧ ∀ x ∈ _, _))

/-- **What a call does to the fork blocks**: the limits hold, and the maps stay in agreement if
the steps that are taken allow it; canonical blocks stay known if there are few blocks. -/
def KeepsForkPool (env : Env) (P : Block → Prop) (w w' : World) : Prop :=
  w.chain.Holds P → w'.chain.Holds P ∧ (w.chain.ForksBounded → w'.chain.ForksBounded)
    ∧ ∃ l, w'.steps = l ++ w.steps
      ∧ (Ranked P → (∀ s ∈ l, s.KeepsForks env) → ∀ q : Prop, (q → FewBlocks P) →
        w.chain.ForksSound q → w'.chain.ForksSound q)

instance : IsPreorder World (KeepsForkPool env P) where
  refl w h := ⟨h, id, [], rfl, fun _ _ _ _ h => h⟩
  trans w w' w'' h h' hP := by
    obtain ⟨hP1, hb1, l, hl, hs⟩ := h hP
    obtain ⟨hP2, hb2, l', hl', hs'⟩ := h' hP1
    refine ⟨hP2, fun hb => hb2 (hb1 hb), l' ++ l, by rw [hl', hl, List.append_assoc], ?_⟩
    intro hranked hsteps q hfew hw
    exact hs' hranked (fun s h => hsteps s (List.mem_append_left l h)) q hfew
      (hs hranked (fun s h => hsteps s (List.mem_append_right l' h)) q hfew hw)

/-- Whatever leaves the chain and the maps of blocks alone. -/
theorem keepsForkPool_of_poolOnly {w' : World} (h : PoolOnly w w')
    (hP : w.chain.Holds P → w'.chain.Holds P) : KeepsForkPool env P w w' := fun hw =>
  ⟨hP hw, fun hb => hb.of_lookup fun k _ => (Chain.lookup_forkBlocks_of_stock h.stock k).trans, [],
    h.steps, fun _ _ _ _ hsound => hsound.of_stock h.stock⟩

theorem keepsForkPool_of_cacheOnly {α : Type} {m : ChainM α}
    (h : Errless CacheOnly m w) : Steps (KeepsForkPool env P) m w :=
  steps_mono h.steps fun _ h => keepsForkPool_of_poolOnly h.sameStock.poolOnly h.holds

/-- **A block at the tip.** -/
theorem keepsForkPool_appendToTip (hb : P b) (w : World) :
    Steps (KeepsForkPool env P) (appendToTip env b) w := by
  intro w' h hP
  obtain ⟨hext, -, hholds⟩ := extension_of_appendToTip (P := P) h
  -- a refused block is forgotten
  have hrefused : ∀ {c : Chain} {q : Prop}, c.blocks = w.chain.blocks →
      c.forkBlocks = w.chain.forkBlocks → c.forkBlocksByHash = w.chain.forkBlocksByHash →
      c.blocksByHash = w.chain.blocksByHash.erase b.hash → ¬ w.chain.Joins env b →
      CoreStep.KeepsForks env (.extend w.chain b) → w.chain.ForksSound q → c.ForksSound q := by
    intro c q hblocks hf hh hk hnot hkeeps hw
    obtain ⟨hnofork, hnew⟩ := hkeeps.2.resolve_left hnot
    refine hw.of_known hf hh (fun x hx => ?_) fun hq x hx => ?_
    · rw [hk, GoMap.lookup_erase, if_neg]
      · exact hw.known x hx
      · intro heq
        have hsome := (hw.hashes b.hash).mpr ⟨x, hx, heq⟩
        rw [hnofork] at hsome
        cases hsome
    · rw [hblocks] at hx
      rw [hk, GoMap.lookup_erase, if_neg (hnew x hx)]
      exact hw.canonical hq x hx
  refine ⟨hholds hP hb, ?_⟩
  rw [appendToTip_apply] at h
  have hdrop : ((w.chain.putOn env b).blocks).dropLast = w.chain.blocks := by
    simp [Chain.putOn]
  split at h
  · next happended =>
    cases h
    refine ⟨fun h => h.of_lookup fun _ _ h => h, [_], rfl, fun _ hsteps _ _ hw => ?_⟩
    refine hrefused hdrop rfl rfl rfl (fun hjoins => ?_) (hsteps _ (List.mem_singleton.mpr rfl)) hw
    rw [Chain.Joins, happended] at hjoins
    cases hjoins.1
  · split at h
    · cases h
      refine ⟨fun h => h.of_lookup fun _ _ h => h, [_], rfl, fun _ hsteps _ _ hw => ?_⟩
      have hknown := (hsteps _ (List.mem_singleton.mpr rfl)).1
      refine hw.of_known rfl rfl hw.known fun hq x hx => ?_
      rcases List.mem_append.mp hx with hx | hx
      · exact hw.canonical hq x hx
      · exact List.mem_singleton.mp hx ▸ hknown
    · next happlied =>
      cases h
      refine ⟨fun h => h.of_lookup fun _ _ h => h, [_], rfl, fun _ hsteps _ _ hw => ?_⟩
      refine hrefused hdrop rfl rfl rfl (fun hjoins => ?_)
        (hsteps _ (List.mem_singleton.mpr rfl)) hw
      rw [Chain.Joins, happlied] at hjoins
      cases hjoins.2

/-- **A reorganisation.** -/
theorem keepsForkPool_reorganizeChainLocked {newTip : Block} (hnew : P newTip) (ancestor : Block)
    (w : World) :
    Steps (KeepsForkPool env P) (reorganizeChainLocked env ancestor newTip) w := by
  intro w' h hP
  have hP' : w'.chain.Holds P := by
    rcases reorganizes_reorganizeChainLocked (P := P) ancestor newTip w w' h with
      haside | ⟨_, _, _, _, hholds⟩
    · exact hP.of_shrinks haside.shrinks
    · exact hholds hP hnew
  rcases reshelves_reorganizeChainLocked ancestor newTip w w' h with
    hsame | ⟨visited, hbranch, hswitch⟩
  · exact keepsForkPool_of_poolOnly hsame.poolOnly (fun _ => hP') hP
  · refine ⟨hP', ?_⟩
    have hswitched : (w.chain.switchedTo ancestor visited.dropLast.reverse).Holds P :=
      hP.splice (hbranch.newBlocks_holds hP hnew) _
    cases hswitch with
    | stopped hsame =>
      have hforks := Chain.lookup_forkBlocks_of_stock hsame.poolOnly.stock
      exact ⟨fun h => h.of_lookup fun k _ hl => (hforks k).trans hl, [_], hsame.steps,
        fun _ _ _ _ hw => (hw.switchedTo _ _).of_stock hsame.poolOnly.stock⟩
    | cleaned tip t t' htip ht hclean hend =>
      -- the clean-up of the pool leaves the maps of blocks alone
      have hend : PoolOnly ⟨(w.chain.switchedTo ancestor visited.dropLast.reverse).dropForksAbove
          tip.height, .reorganize w.chain ancestor visited.dropLast.reverse :: w.steps⟩ w' :=
        trans_of PoolOnly ht.poolOnly (trans_of PoolOnly
          (poolOnly_cleanOrphanPoolAboveHeight _ t t' hclean) hend.poolOnly)
      refine ⟨fun h => h.of_lookup fun k l hl => ?_, [_], hend.steps,
        fun hranked hsteps _ _ hw => ?_⟩
      · have hl'' := (Chain.lookup_dropForksAbove _ _ k).symm.trans
          ((Chain.lookup_forkBlocks_of_stock hend.stock k).trans hl)
        split at hl''
        · cases hl''
        · exact hl''
      · have hkeeps := hsteps _ (List.mem_singleton.mpr rfl) tip htip
        exact ((hw.switchedTo _ _).dropForksAbove hswitched hranked hkeeps).of_stock hend.stock

/-- **A rollback.** -/
theorem keepsForkPool_rollbackToHeight (height : UInt64) (w : World) :
    Steps (KeepsForkPool env P) (rollbackToHeight env height) w := by
  refine steps_chain_bind ?_
  split
  · exact steps_throw _ w
  · split
    · exact steps_pure () w
    · next hlt hne =>
      intro w' h hP
      refine ⟨(cut_of_cutChain (P := P) (by omega) h).2 hP, ?_⟩
      obtain ⟨t, t', hcut⟩ := exists_cutTo h
      have hindex := (knownOnly_initCanonicalIndexesLocked _).of_ret hcut.index
      have hend : PoolOnly ⟨t.chain.dropForkHeightsAbove height, t.steps⟩ w' :=
        trans_of PoolOnly (poolOnly_cleanOrphanPoolAboveHeight _ _ t' hcut.clean)
          hcut.finish.poolOnly
      refine ⟨fun h => h.of_lookup fun k l hl => ?_, [_], hend.steps.trans hindex.steps,
        fun hranked hsteps q _ hw => ?_⟩
      · have hl' := (Chain.lookup_forkBlocks_of_stock hend.stock k).trans hl
        have hl'' := GoMap.lookup_of_foldl_erase (fun h : UInt64 => h) hl'
        exact (congrArg (fun s : Stock => s.forkBlocks.lookup k) hindex.stock).symm.trans hl''
      · obtain ⟨hfit, hbelow, hremoved⟩ := hsteps _ (List.mem_singleton.mpr rfl)
        have hsound : (w.chain.cutTo env height).ForksSound q :=
          hw.cutTo hP hranked hbelow hremoved
        have hall := hend.stock
        rw [hcut.stock hfit] at hall
        exact hsound.of_stock hall

/-! ## Calls -/

theorem reorgs_keepsForkPool :
    Reorgs env (KeepsForkPool env P) (fun w => w.chain.Holds P) (fun _ b => P b) where
  assume h w' hw' hP := h hP w' hw' hP
  better w := keepsForkPool_of_cacheOnly (errless_betterTip w)
  best {w _ _} hP h :=
    (((errless_betterTip w).steps.of_ret h).holds hP).mem_entries (betterTip_ret h).1
  weigh _ := keepsForkPool_of_cacheOnly (errless_calculateCumulativeWorkLocked _ _)
  keep hb _ := hb
  reorganize hb _ := keepsForkPool_reorganizeChainLocked hb _ _

/-- **A fork block is entered**, and others make room for it. -/
theorem keepsForkPool_enterFork (w : World) (hb : P b)
    (hnew : ∀ x ∈ w.chain.forksAt b.height, x.hash ≠ b.hash) : KeepsForkPool env P w
      ⟨((w.chain.insertFork b).limitForksAt b.height).limitForksTotal, w.steps⟩ := by
  intro hP
  have hinserted := hP.insertFork hb
  have hlimited := hinserted.of_shrinks (Chain.shrinks_limitForksAt _ b.height)
  refine ⟨hlimited.of_shrinks (Chain.shrinks_limitForksTotal _), fun h => h.enterFork b, [], rfl,
    fun hranked _ q hfew hw => ?_⟩
  exact ((hw.insertFork hnew).limitForksAt hinserted hranked hfew b.height).limitForksTotal hlimited
    hranked hfew

theorem keepsForkPool_putOrphan (hb : P b) (now : Int) (w : World) :
    KeepsForkPool env P w ⟨w.chain.putOrphan env b.hash b now, w.steps⟩ :=
  keepsForkPool_of_poolOnly (poolOnly_putOrphan env w b.hash b now) fun hP => hP.putOrphan hb now

theorem keepsForkPool_removeOrphanLocked (w : World) (k : Bytes) :
    KeepsForkPool env P w ⟨w.chain.removeOrphanLocked k, w.steps⟩ :=
  keepsForkPool_of_poolOnly (poolOnly_removeOrphanLocked w k) fun hP =>
    hP.of_shrinks (Chain.shrinks_removeOrphanLocked _ k)

theorem discards_keepsForkPool : Discards (KeepsForkPool env P) where
  ticks w := keepsForkPool_of_poolOnly ⟨rfl, rfl⟩ fun hP =>
    hP.of_shrinks (discards_aside.ticks w).shrinks
  remove := keepsForkPool_removeOrphanLocked

theorem keepsForkPool_storeOrphan (hb : P b) (w : World) :
    Steps (KeepsForkPool env P) (storeOrphan env b) w := by
  refine steps_storeOrphan discards_keepsForkPool (fun w => ?_) fun w now =>
    keepsForkPool_putOrphan hb now w
  exact keepsForkPool_of_poolOnly (poolOnly_makeOrphanPool w) fun hP =>
    hP.of_shrinks (Chain.shrinks_makeOrphanPool _)

theorem admits_keepsForkPool : Admits env P (KeepsForkPool env P) (KeepsForkPool env P) where
  orphan ho h w' hw' hP := h (hP.orphans _ _ ho).1 (hP.orphans _ _ ho).2 w' hw' hP
  clerical h := keepsForkPool_of_poolOnly h.sameStock.poolOnly fun hP =>
    hP.of_shrinks h.aside.shrinks
  remove := keepsForkPool_removeOrphanLocked
  putBack {w t k b} now _ hb hk h := by
    subst hk
    exact trans_of (KeepsForkPool env P) (keepsForkPool_removeOrphanLocked w b.hash)
      (trans_of (KeepsForkPool env P) h (keepsForkPool_putOrphan hb now t))
  learn w hb hP := ⟨hP.learn fun _ hx => List.mem_singleton.mp hx ▸ hb,
    fun h => h.of_lookup fun _ _ hl => hl, [], rfl, fun _ _ _ _ hw => hw.learn _⟩
  enterFork := keepsForkPool_enterFork
  append hb _ := keepsForkPool_appendToTip hb _
  compare w := keepsForkPool_of_cacheOnly (errless_shouldReorgToHeaviestLocked w)
  heaviest := reorgs_keepsForkPool.reorganizeToHeaviestLocked
  auto := reorgs_keepsForkPool.autoReorgIfNeededLocked
  weaken h := h
  store hb _ := keepsForkPool_storeOrphan hb _

/-! ## Runs -/

theorem keepsForkPool_exec {op : Operation} (hop : ∀ call, op = .call call → call.Brings P)
    (w : World) : Steps (KeepsForkPool env P) (op.exec env) w := by
  cases op with
  | cleanup =>
    exact (errless_cleanupExpiredOrphansLocked discards_keepsForkPool w).steps
  | call c =>
    have hbrings := hop c rfl
    cases c with
    | addBlock b =>
      exact steps_bind_all (admits_addBlock admits_keepsForkPool (fun _ => hbrings) w) fun _ t =>
        steps_pure () t
    | rollbackToHeight height => exact keepsForkPool_rollbackToHeight height w
    | reorganizeToKnownFork ancestor newTip =>
      exact keepsForkPool_reorganizeChainLocked hbrings ancestor w

/-- What holds of the fork blocks at the end of a run by blocks with `P`. -/
theorem keepsForkPool_of_run {ops : List Operation}
    (hgenesis : P (createGenesisBlock env)) (hops : ∀ call, .call call ∈ ops → call.Brings P)
    (h : operateFromStart env ops = some w) :
    w.chain.Holds P ∧ w.chain.ForksBounded
      ∧ (Ranked P → (∀ step ∈ w.steps, step.KeepsForks env) →
        w.chain.ForksSound (FewBlocks P)) := by
  obtain ⟨w₀, hfresh, hrun⟩ := exists_fresh_rel (R := KeepsForkPool env P)
    (fun op hop t => keepsForkPool_exec (fun call hcall => hops call (hcall ▸ hop)) t) h
  have hnofork : ∀ {height l}, w₀.chain.forkBlocks.lookup height ≠ some l := by
    intro height l hl
    rw [hfresh.forkBlocks] at hl
    cases hl
  have hbounded : w₀.chain.ForksBounded :=
    ⟨fun height l hl => (hnofork hl).elim, by rw [hfresh.forkBlocks]; exact Nat.zero_le _⟩
  have hsound : w₀.chain.ForksSound (FewBlocks P) := {
    hashes := fun k => by
      rw [hfresh.forkBlocksByHash]
      exact iff_of_false nofun fun ⟨b, ⟨height, l, hl, _⟩, _⟩ => hnofork hl
    once := fun height l hl => (hnofork hl).elim
    known := fun b ⟨height, l, hl, _⟩ => (hnofork hl).elim
    canonical := fun _ b hb => by
      rw [hfresh.blocks, List.mem_singleton] at hb
      rw [hfresh.known, hb, GoMap.lookup_insert, if_pos rfl]
      rfl }
  obtain ⟨hP, hb, l, hl, hs⟩ := hrun (hfresh.holds hgenesis)
  rw [hfresh.steps, List.append_nil] at hl
  exact ⟨hP, hb hbounded, fun hranked hsteps => hs hranked (hl ▸ hsteps) _ id hsound⟩

/-- **The fork blocks over whole runs.** The limits hold in every state. If the hash says the height
and every step keeps them, the keys of `forkBlocksByHash` are the hashes of the fork blocks, and
each of these is listed under its height and known. If few blocks are ever brought in, canonical
blocks are known too. -/
theorem forkPool_consistent {ops : List Operation} {w : World}
    (h : operateFromStart env ops = some w) :
    w.chain.ForksBounded ∧ ∀ P : Block → Prop, Ranked P → P (createGenesisBlock env) →
        (∀ call, .call call ∈ ops → call.Brings P) →
        (∀ step ∈ w.steps, step.KeepsForks env) → w.chain.ForksAgree
          ∧ (FewBlocks P → ∀ b ∈ w.chain.blocks, (w.chain.blocksByHash.lookup b.hash).isSome) := by
  constructor
  · have htrue : ∀ call, Operation.call call ∈ ops → call.Brings fun _ => True := by
      intro call _
      cases call <;> exact trivial
    exact (keepsForkPool_of_run (P := fun _ => True) trivial htrue h).2.1
  · intro P hranked hgenesis hops hsteps
    obtain ⟨hP, -, hsound⟩ := keepsForkPool_of_run hgenesis hops h
    exact ⟨(hsound hranked hsteps).agree hP, (hsound hranked hsteps).canonical⟩

/-- A short list of blocks is few. -/
theorem FewBlocks.of_list {bs : List Block}
    (hheight : ∀ x ∈ bs, ∀ y ∈ bs, x.hash = y.hash → x.height = y.height)
    (hhash : ∀ x ∈ bs, x.hash ≠ []) (hlength : bs.length ≤ maxForkBlocksPerHeight) :
    FewBlocks (· ∈ bs) := by
  have hle : ∀ l : List Block, (∀ b ∈ l, b ∈ bs) → (l.map (·.hash)).Nodup →
      l.length ≤ bs.length := by
    intro l hl hnodup
    have hsubset : l.map (·.hash) ⊆ bs.map (·.hash) := List.map_subset _ hl
    simpa using (hnodup.subperm hsubset).length_le
  refine { height_eq := fun hx hy => hheight _ hx _ hy, hash_ne := hhash _,
           atHeight := fun height l hl hnodup => ?_, total := fun l hl hnodup => ?_ }
  · exact (hle l (fun b hb => (hl b hb).1) hnodup).trans hlength
  · exact (hle l hl hnodup).trans (hlength.trans (by decide))

/-- The chain switches to `rivalBranch`, grows, and is cut again. -/
def rivalBranchCut : List Operation :=
  (rivalBranch ++ [numberedBlock 4 3 3 10]).map (fun b => .call (.addBlock b))
    ++ [.call (.rollbackToHeight 2), .cleanup]

/-- `forkPool_consistent` at `rivalBranchCut`, with a fork block at the end. -/
theorem forkPool_consistent_rivalBranchCut :
    ∃ w, operateFromStart sampleEnv rivalBranchCut = some w
      ∧ (w.chain.forkBlocksByHash.lookup (numberedBlock 2 0 1 20).hash).isSome
      ∧ w.chain.ForksBounded ∧ w.chain.ForksAgree
      ∧ ∀ b ∈ w.chain.blocks, (w.chain.blocksByHash.lookup b.hash).isSome := by
  refine exists_and_of (fun w => (∀ step ∈ w.steps, step.KeepsForks sampleEnv)
      ∧ (w.chain.forkBlocksByHash.lookup (numberedBlock 2 0 1 20).hash).isSome)
    (by decide +kernel) fun w hw h => ?_
  obtain ⟨hsteps, hthere⟩ := h
  let bs := createGenesisBlock sampleEnv :: (rivalBranch ++ [numberedBlock 4 3 3 10])
  have hfew : FewBlocks (· ∈ bs) := .of_list (by decide +kernel) (by decide +kernel) (by decide)
  have hbrings : ∀ call, Operation.call call ∈ rivalBranchCut → call.Brings (· ∈ bs) := by
    intro call hcall
    rcases List.mem_append.mp hcall with hcall | hcall
    · obtain ⟨b, hb, heq⟩ := List.mem_map.mp hcall
      obtain rfl := Operation.call.inj heq
      exact List.mem_cons_of_mem _ hb
    · obtain rfl : call = .rollbackToHeight 2 := by simpa using hcall
      exact trivial
  obtain ⟨hbounded, hagree⟩ := forkPool_consistent hw
  obtain ⟨hforks, hknown⟩ := hagree _ hfew.toRanked List.mem_cons_self hbrings hsteps
  exact ⟨hthere, hbounded, hforks, hknown hfew⟩

/-- **A hash without a fork block.** A fork block of height 2 is dropped by a rollback to height
1, and its hash stays in `forkBlocksByHash`. -/
theorem forkPool_hash_without_block :
    ∃ w, operateFromStart sampleEnv ([numberedBlock 1 0 1 10, numberedBlock 2 1 2 10,
        numberedBlock 9 1 2 5].map (fun b => .call (.addBlock b))
          ++ [.call (.rollbackToHeight 1)]) = some w
      ∧ (w.chain.forkBlocksByHash.lookup (numberedBlock 9 1 2 5).hash).isSome
      ∧ w.chain.forkBlocks.entries = [] ∧ ¬ w.chain.ForksAgree := by
  refine exists_and_of (fun w =>
    (w.chain.forkBlocksByHash.lookup (numberedBlock 9 1 2 5).hash).isSome
      ∧ w.chain.forkBlocks.entries.isEmpty) (by decide +kernel) fun w hw h => ?_
  obtain ⟨hthere, hempty⟩ := h
  have hnil : w.chain.forkBlocks.entries = [] := List.isEmpty_iff.mp hempty
  refine ⟨hthere, hnil, fun hagree => ?_⟩
  obtain ⟨b, ⟨height, l, hl, -⟩, -⟩ := (hagree.hashes _).mp hthere
  have hmem := GoMap.mem_entries_iff.mpr hl
  rw [hnil] at hmem
  cases hmem

end NogoChain
