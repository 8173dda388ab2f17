import NogoChain.Lib.Prog
import NogoChain.Storage.BoltStore

/-!
# The canonical chain in the database

The canonical chain is spread over three buckets: the blocks by hash, the hashes by height,
and the hash and the height of the tip in the `meta` bucket. `AppendCanonical` and
`RewriteCanonical` write all three in one transaction; `ReadCanonical` looks at the first two
only.

What the chain is meant to be is said by `CanonCall.abstract`, on lists of blocks: a rewrite
replaces the list, and an append at some height cuts the list there and puts the block at its
end. The database does not cut, and does not overwrite a block that it has under the same
hash; `CanonCall.Keeps` is when neither is noticed.
-/

namespace NogoChain

/-- What a block holds, as the database gives it back: everything but the identity of the
object. -/
def Block.contents (b : Block) : Block := { b.stored with ptr := 0 }

theorem gobSlice_gobSlice (s : Option Bytes) : gobSlice (gobSlice s) = gobSlice s := by
  unfold gobSlice
  split
  · rfl
  · rfl

theorem Transaction.stored_stored (t : Transaction) : t.stored.stored = t.stored := by
  unfold Transaction.stored
  rw [gobSlice_gobSlice, gobSlice_gobSlice]

theorem Block.stored_stored (b : Block) : b.stored.stored = b.stored := by
  unfold Block.stored
  simp only [gobSlice_gobSlice, List.map_map, Option.map_map, Function.comp_def,
    Transaction.stored_stored]

theorem Block.contents_stored (b : Block) : b.stored.contents = b.contents := by
  unfold Block.contents
  rw [Block.stored_stored]

/-! ## The keys of the tip -/

/-- The database with the two keys of the `meta` bucket that name the tip. -/
structure TipStore where
  /-- the buckets of blocks and of canonical hashes -/
  store : BoltStore
  tipHash : Option Bytes
  tipHeight : Option UInt64

namespace TipStore

/-- The database before the first start. -/
def empty : TipStore := ⟨BoltStore.empty, none, none⟩

/-- `AppendCanonical`: the block becomes the tip. -/
def appendCanonical (t : TipStore) (b : Block) : Except GoError TipStore :=
  match t.store.appendCanonical b with
  | .error e => .error e
  | .ok store => .ok ⟨store, some b.hash, some b.height⟩

/-- `RewriteCanonical`: the last block becomes the tip; without one, the keys are deleted. -/
def rewriteCanonical (t : TipStore) (bs : List Block) : Except GoError TipStore :=
  match t.store.rewriteCanonical bs with
  | .error e => .error e
  | .ok store => .ok ⟨store, bs.getLast?.map (·.hash), bs.getLast?.map (·.height)⟩

end TipStore

/-- A call that writes the canonical chain. -/
inductive CanonCall where
  | append (b : Block)
  | rewrite (bs : List Block)

/-- What a call does to the database. -/
def CanonCall.exec (t : TipStore) : CanonCall → Except GoError TipStore
  | .append b => t.appendCanonical b
  | .rewrite bs => t.rewriteCanonical bs

/-- The calls one after the other, as long as each returns nil. -/
def runCanonCalls : TipStore → List CanonCall → Except GoError TipStore
  | t, [] => .ok t
  | t, call :: calls =>
    match call.exec t with
    | .error e => .error e
    | .ok t' => runCanonCalls t' calls

/-! ## The abstract chain -/

/-- **What a call is for**: a rewrite replaces the chain, an append cuts it below the height of
the block and puts the block at its end. -/
def CanonCall.abstract (chain : List Block) : CanonCall → List Block
  | .append b => chain.filter (fun a => a.height < b.height) ++ [b]
  | .rewrite bs => bs

/-- The abstract chain after some calls. -/
def abstractChain (chain : List Block) (calls : List CanonCall) : List Block :=
  calls.foldl CanonCall.abstract chain

/-- Each block is one above the block before it. -/
def Consecutive (chain : List Block) : Prop :=
  chain.IsChain fun a b => b.height.toNat = a.height.toNat + 1

instance (chain : List Block) : Decidable (Consecutive chain) :=
  inferInstanceAs (Decidable (chain.IsChain _))

/-- **The database has the abstract chain**: that is what it reads, the heights are
consecutive, and the tip is the last block. -/
structure TipStore.Represents (t : TipStore) (chain : List Block) : Prop where
  /-- `ReadCanonical` returns the chain -/
  read : ∃ blocks, t.store.readCanonical = .ok blocks
    ∧ blocks.map Block.contents = chain.map Block.contents
  consecutive : Consecutive chain
  tipHash : t.tipHash = chain.getLast?.map (·.hash)
  tipHeight : t.tipHeight = chain.getLast?.map (·.height)

/-- The database has no other block under the hash of this one. -/
def BoltStore.Admits (s : BoltStore) (b : Block) : Prop :=
  ∀ x ∈ s.blocks.lookup b.hash, x.contents = b.contents

instance (s : BoltStore) (b : Block) : Decidable (s.Admits b) :=
  inferInstanceAs (Decidable (∀ x ∈ s.blocks.lookup b.hash, _))

/-- **The condition under which the database does what the call is for.** Appending: there is
no canonical entry above the block. Rewriting: the heights are consecutive, and equal hashes
mean equal blocks. In both cases the database has no other block under one of the hashes. -/
def CanonCall.Keeps (s : BoltStore) : CanonCall → Prop
  | .append b => (∀ h ∈ s.canon.keys, h ≤ b.height) ∧ s.Admits b
  | .rewrite bs => Consecutive bs ∧ (∀ b ∈ bs, s.Admits b)
      ∧ ∀ a ∈ bs, ∀ b ∈ bs, a.hash = b.hash → a.contents = b.contents

instance (s : BoltStore) : DecidablePred (CanonCall.Keeps s)
  | .append b =>
    -- the heights are those of the list, not all there are
    letI : Decidable (∀ h ∈ s.canon.keys, h ≤ b.height) := List.decidableBAll _ _
    inferInstanceAs (Decidable (_ ∧ _))
  | .rewrite _ => inferInstanceAs (Decidable (_ ∧ _ ∧ _))

/-- Every call of a sequence meets the condition, in the database that it finds. -/
def KeepsAll : TipStore → List CanonCall → Prop
  | _, [] => True
  | t, call :: calls => call.Keeps t.store
      ∧ match call.exec t with
        | .error _ => True
        | .ok t' => KeepsAll t' calls

instance KeepsAll.decide : ∀ (t : TipStore) (calls : List CanonCall), Decidable (KeepsAll t calls)
  | _, [] => .isTrue trivial
  | t, call :: calls =>
    match h : call.exec t with
    | .error _ => decidable_of_iff (call.Keeps t.store) (by simp only [KeepsAll, h, and_true])
    | .ok t' =>
      have := KeepsAll.decide t' calls
      decidable_of_iff (call.Keeps t.store ∧ KeepsAll t' calls) (by simp only [KeepsAll, h])

/-! ## Ascending heights -/

variable {chain : List Block}

theorem Consecutive.pairwise (h : Consecutive chain) :
    chain.Pairwise fun a b => a.height < b.height := by
  have hlt : chain.IsChain fun a b => a.height < b.height := by
    refine List.IsChain.imp (fun a b hab => ?_) h
    rw [UInt64.lt_iff_toNat_lt, hab]
    exact Nat.lt_succ_self _
  exact hlt.pairwise

theorem Consecutive.lt_getLast {l : List Block} {a : Block} (h : Consecutive (l ++ [a])) :
    ∀ x ∈ l, x.height < a.height := by
  intro x hx
  exact (List.pairwise_append.mp h.pairwise).2.2 x hx a List.mem_cons_self

/-- Where the heights are consecutive and none is above that of `b`, cutting below `b` takes
off the last block or nothing. -/
theorem Consecutive.filter_eq {l : List Block} {a b : Block} (h : Consecutive (l ++ [a]))
    (hle : a.height ≤ b.height) :
    (l ++ [a]).filter (fun x => x.height < b.height)
      = if a.height < b.height then l ++ [a] else l := by
  have hbelow : ∀ x ∈ l, x.height < b.height := fun x hx =>
    UInt64.lt_of_lt_of_le (h.lt_getLast x hx) hle
  have hl : l.filter (fun x => x.height < b.height) = l :=
    List.filter_eq_self.mpr fun x hx => decide_eq_true (hbelow x hx)
  rw [List.filter_append, hl]
  split
  · next hlt => simp [hlt]
  · next hlt => simp [hlt]

/-- **An append keeps the heights consecutive**, if the block below is there. -/
theorem Consecutive.append {b : Block} (h : Consecutive chain)
    (hle : ∀ a ∈ chain, a.height ≤ b.height)
    (hparent : b.height > 0 → ∃ p ∈ chain, p.height = b.height - 1) :
    Consecutive (chain.filter (fun a => a.height < b.height) ++ [b]) := by
  rcases List.eq_nil_or_concat' chain with rfl | ⟨l, a, rfl⟩
  · exact .singleton _
  · have ha : a.height ≤ b.height := hle a (by simp)
    rw [h.filter_eq ha]
    split
    · next hlt =>
      -- the last block is the highest, so it is the block below
      refine List.isChain_append.mpr ⟨h, .singleton _, ?_⟩
      intro x hx y hy
      rw [List.getLast?_concat] at hx
      cases hx
      cases hy
      have hlt' := UInt64.lt_iff_toNat_lt.mp hlt
      have hpos : b.height > 0 := by
        exact Nat.lt_of_le_of_lt (Nat.zero_le _) hlt'
      obtain ⟨p, hp, hheight⟩ := hparent hpos
      have hpa : p.height.toNat ≤ a.height.toNat := by
        rcases List.mem_append.mp hp with hp | hp
        · exact (UInt64.lt_iff_toNat_lt.mp (h.lt_getLast p hp)).le
        · rw [List.mem_singleton.mp hp]
      have hone : (1 : UInt64) ≤ b.height := by
        exact Nat.lt_of_le_of_lt (Nat.zero_le _) hlt'
      rw [hheight, UInt64.toNat_sub_of_le _ _ hone] at hpa
      have h1 : (1 : UInt64).toNat = 1 := rfl
      omega
    · next hge =>
      -- the last block has the height of `b`, which takes its place
      have heq : a.height.toNat = b.height.toNat := by
        have h1 := UInt64.le_iff_toNat_le.mp ha
        have h2 : ¬ a.height.toNat < b.height.toNat := fun h => hge (UInt64.lt_iff_toNat_lt.mpr h)
        omega
      obtain ⟨hl, -, hlast⟩ := List.isChain_append.mp h
      refine List.isChain_append.mpr ⟨hl, .singleton _, fun x hx y hy => ?_⟩
      cases hy
      rw [← heq]
      exact hlast x hx a rfl

/-! ## What the buckets hold -/

namespace BoltStore

variable {s s' : BoltStore} {b : Block} {chain : List Block}

@[simp] theorem putIfAbsent_canon (s : BoltStore) (b : Block) :
    (s.putIfAbsent b).canon = s.canon := by
  unfold putIfAbsent
  split <;> rfl

/-- A block that is there stays. -/
theorem lookup_putIfAbsent_of_some {h : Bytes} {x : Block} (hx : s.blocks.lookup h = some x) :
    (s.putIfAbsent b).blocks.lookup h = some x := by
  unfold putIfAbsent
  split
  · exact hx
  · next hnone =>
    rw [GoMap.lookup_insert, if_neg]
    · exact hx
    · rintro rfl
      exact nomatch hnone.symm.trans hx

/-- Under its hash there is the block, unless there was one before. -/
theorem lookup_putIfAbsent_self (s : BoltStore) (b : Block) :
    (s.putIfAbsent b).blocks.lookup b.hash = some ((s.blocks.lookup b.hash).getD b.stored) := by
  unfold putIfAbsent
  cases hx : s.blocks.lookup b.hash with
  | some x => exact hx
  | none => exact AList.lookup_insert _

theorem lookup_of_putIfAbsent {h : Bytes} {x : Block}
    (hx : (s.putIfAbsent b).blocks.lookup h = some x) :
    s.blocks.lookup h = some x ∨ (h = b.hash ∧ x = b.stored) := by
  unfold putIfAbsent at hx
  split at hx
  · exact .inl hx
  · rw [GoMap.lookup_insert] at hx
    split at hx
    · next hh => exact .inr ⟨hh, (Option.some.inj hx).symm⟩
    · exact .inl hx

/-- A database admits a block after another one that does not differ from it. -/
theorem Admits.putIfAbsent {a : Block} (h : s.Admits b)
    (hab : a.hash = b.hash → a.contents = b.contents) : (s.putIfAbsent a).Admits b := by
  intro x hx
  rcases lookup_of_putIfAbsent hx with hx | ⟨hhash, rfl⟩
  · exact h x hx
  · rw [Block.contents_stored]
    exact hab hhash.symm

/-- A block is put under its hash, which is entered at its height. -/
def enter (s : BoltStore) (b : Block) : BoltStore :=
  { s.putIfAbsent b with canon := (s.putIfAbsent b).canon.insert b.height b.hash }

theorem appendCanonical_eq_ok (h : s.appendCanonical b = .ok s') :
    s' = s.enter b ∧ (b.height > 0 → s.canon.lookup (b.height - 1) = some b.header.prevHash) := by
  refine ⟨?_, fun hheight => canon_of_appendCanonical hheight h⟩
  unfold appendCanonical at h
  split at h
  · cases h
  · split at h
    · split at h
      · cases h
      · split at h
        · cases h
        · exact (Except.ok.inj h).symm
    · exact (Except.ok.inj h).symm

/-- **The buckets hold a chain**: the canonical entries are the heights and hashes of its
blocks, and every block is found under its hash. -/
structure Mirrors (s : BoltStore) (chain : List Block) : Prop where
  /-- the canonical entries -/
  canon : ∀ h x, s.canon.lookup h = some x ↔ ∃ b ∈ chain, b.height = h ∧ b.hash = x
  blocks : ∀ b ∈ chain, ∃ x, s.blocks.lookup b.hash = some x ∧ x.contents = b.contents

/-- **Entering a block at the end.** -/
theorem Mirrors.enter (hs : s.Mirrors chain) (hle : ∀ a ∈ chain, a.height ≤ b.height)
    (hb : s.Admits b) :
    (s.enter b).Mirrors (chain.filter (fun a => a.height < b.height) ++ [b]) where
  canon h x := by
    have hlookup : (s.enter b).canon.lookup h
        = if h = b.height then some b.hash else s.canon.lookup h := by
      unfold BoltStore.enter
      rw [GoMap.lookup_insert, putIfAbsent_canon]
    rw [hlookup]
    constructor
    · intro hx
      split at hx
      · next hh => exact ⟨b, by simp, hh.symm, Option.some.inj hx⟩
      · next hh =>
        obtain ⟨a, ha, rfl, rfl⟩ := (hs.canon h x).mp hx
        have hlt : a.height < b.height := UInt64.lt_of_le_of_ne (hle a ha) hh
        refine ⟨a, List.mem_append_left _ (List.mem_filter.mpr ⟨ha, ?_⟩), rfl, rfl⟩
        exact decide_eq_true hlt
    · rintro ⟨a, ha, rfl, rfl⟩
      rcases List.mem_append.mp ha with ha | ha
      · obtain ⟨ha, hlt⟩ := List.mem_filter.mp ha
        rw [if_neg (UInt64.ne_of_lt (of_decide_eq_true hlt))]
        exact (hs.canon _ _).mpr ⟨a, ha, rfl, rfl⟩
      · rw [List.mem_singleton.mp ha, if_pos rfl]
  blocks a ha := by
    rcases List.mem_append.mp ha with ha | ha
    · obtain ⟨x, hx, hcontents⟩ := hs.blocks a (List.mem_filter.mp ha).1
      exact ⟨x, lookup_putIfAbsent_of_some hx, hcontents⟩
    · rw [List.mem_singleton.mp ha]
      refine ⟨_, lookup_putIfAbsent_self s b, ?_⟩
      cases hx : s.blocks.lookup b.hash with
      | none => exact b.contents_stored
      | some x => exact hb x hx

/-- **The loop of `RewriteCanonical`** adds its blocks to the chain that is there. -/
theorem Mirrors.rewriteFrom {bs : List Block} {i : Nat} (hs : s.Mirrors chain)
    (hconsecutive : Consecutive (chain ++ bs)) (hadmits : ∀ b ∈ bs, s.Admits b)
    (hsame : ∀ a ∈ bs, ∀ b ∈ bs, a.hash = b.hash → a.contents = b.contents)
    (h : s.rewriteFrom i bs = .ok s') : s'.Mirrors (chain ++ bs) := by
  induction bs generalizing s chain i with
  | nil =>
    rw [List.append_nil]
    exact Except.ok.inj h ▸ hs
  | cons b bs ih =>
    unfold BoltStore.rewriteFrom at h
    split at h
    · cases h
    · have hbelow : ∀ a ∈ chain, a.height < b.height := by
        intro a ha
        exact (List.pairwise_append.mp hconsecutive.pairwise).2.2 a ha b List.mem_cons_self
      have hkept : chain.filter (fun a => a.height < b.height) = chain :=
        List.filter_eq_self.mpr fun a ha => decide_eq_true (hbelow a ha)
      have hentered := hs.enter (fun a ha => UInt64.le_of_lt (hbelow a ha))
        (hadmits b List.mem_cons_self)
      rw [hkept] at hentered
      rw [List.append_cons] at hconsecutive ⊢
      refine ih hentered hconsecutive (fun a ha => ?_) (fun a ha c hc => ?_) h
      · exact (hadmits a (List.mem_cons_of_mem _ ha)).putIfAbsent
          (hsame b List.mem_cons_self a (List.mem_cons_of_mem _ ha))
      · exact hsame a (List.mem_cons_of_mem _ ha) c (List.mem_cons_of_mem _ hc)

/-- **`ReadCanonical` returns the chain that the buckets hold.** -/
theorem Mirrors.read (hs : s.Mirrors chain) (hconsecutive : Consecutive chain) :
    ∃ blocks, s.readCanonical = .ok blocks
      ∧ blocks.map Block.contents = chain.map Block.contents := by
  have hsorted : s.canon.entries.insertionSort (fun x y => x.1 ≤ y.1)
      = chain.map fun b => ⟨b.height, b.hash⟩ := by
    refine GoMap.sorted_entries_eq ?_ fun h x => ?_
    · refine List.pairwise_map.mpr (hconsecutive.pairwise.imp fun hlt => ?_)
      exact ⟨UInt64.le_of_lt hlt, UInt64.ne_of_lt hlt⟩
    · rw [hs.canon, List.mem_map]
      constructor
      · rintro ⟨b, hb, rfl, rfl⟩
        exact ⟨b, hb, rfl⟩
      · rintro ⟨b, hb, hbx⟩
        exact ⟨b, hb, congrArg Sigma.fst hbx, eq_of_heq (Sigma.ext_iff.mp hbx).2⟩
  unfold readCanonical
  rw [hsorted]
  have hblocks := hs.blocks
  clear hsorted hconsecutive hs
  induction chain with
  | nil => exact ⟨[], rfl, rfl⟩
  | cons b chain ih =>
    obtain ⟨blocks, hread, hcontents⟩ := ih fun a ha => hblocks a (List.mem_cons_of_mem _ ha)
    obtain ⟨x, hx, hxb⟩ := hblocks b List.mem_cons_self
    refine ⟨x :: blocks, ?_, by rw [List.map_cons, List.map_cons, hxb, hcontents]⟩
    refine Except.mapM_eq_ok.mpr ?_
    refine .cons ?_ (Except.mapM_eq_ok.mp hread)
    rw [hx]

end BoltStore

/-! ## Runs -/

/-- The database holds the abstract chain, and its keys name the tip. -/
structure TipStore.Mirrors (t : TipStore) (chain : List Block) : Prop where
  /-- the buckets hold the chain -/
  store : t.store.Mirrors chain
  consecutive : Consecutive chain
  tipHash : t.tipHash = chain.getLast?.map (·.hash)
  tipHeight : t.tipHeight = chain.getLast?.map (·.height)

theorem TipStore.Mirrors.represents {t : TipStore} (h : t.Mirrors chain) : t.Represents chain :=
  ⟨h.store.read h.consecutive, h.consecutive, h.tipHash, h.tipHeight⟩

/-- **One call** that meets the condition does to the database what it is for. -/
theorem TipStore.Mirrors.exec {t t' : TipStore} (ht : t.Mirrors chain)
    {call : CanonCall} (hkeeps : call.Keeps t.store) (h : call.exec t = .ok t') :
    t'.Mirrors (call.abstract chain) := by
  cases call with
  | append b =>
    obtain ⟨habove, hadmits⟩ := hkeeps
    change t.appendCanonical b = .ok t' at h
    unfold TipStore.appendCanonical at h
    split at h
    · cases h
    · next store hstore =>
      cases h
      obtain ⟨rfl, hparent⟩ := BoltStore.appendCanonical_eq_ok hstore
      have hle : ∀ a ∈ chain, a.height ≤ b.height := fun a ha =>
        habove _ (AList.mem_keys.mp (AList.lookup_isSome.mp (Option.isSome_of_eq_some
            ((ht.store.canon _ _).mpr ⟨a, ha, rfl, rfl⟩))))
      have hlast : ((CanonCall.append b).abstract chain).getLast? = some b := List.getLast?_concat
      refine ⟨ht.store.enter hle hadmits, ht.consecutive.append hle fun hpos => ?_, ?_, ?_⟩
      · obtain ⟨p, hp, hheight, -⟩ := (ht.store.canon _ _).mp (hparent hpos)
        exact ⟨p, hp, hheight⟩
      · rw [hlast]
        rfl
      · rw [hlast]
        rfl
  | rewrite bs =>
    obtain ⟨hconsecutive, hadmits, hsame⟩ := hkeeps
    change t.rewriteCanonical bs = .ok t' at h
    unfold TipStore.rewriteCanonical at h
    split at h
    · cases h
    · next store hstore =>
      cases h
      have hcleared : BoltStore.Mirrors { t.store with canon := ∅ } [] :=
        ⟨fun _ _ => ⟨nofun, fun ⟨_, hb, _⟩ => nomatch hb⟩, nofun⟩
      exact ⟨hcleared.rewriteFrom hconsecutive hadmits hsame hstore, hconsecutive, rfl, rfl⟩

theorem TipStore.Mirrors.run {calls : List CanonCall} {t t' : TipStore}
    (ht : t.Mirrors chain) (hkeeps : KeepsAll t calls) (h : runCanonCalls t calls = .ok t') :
    t'.Mirrors (abstractChain chain calls) := by
  induction calls generalizing t chain with
  | nil => exact Except.ok.inj h ▸ ht
  | cons call calls ih =>
    unfold runCanonCalls at h
    cases hcall : call.exec t with
    | error e =>
      rw [hcall] at h
      cases h
    | ok t₁ =>
      unfold KeepsAll at hkeeps
      rw [hcall] at h hkeeps
      exact ih (ht.exec hkeeps.1 hcall) hkeeps.2 h

theorem TipStore.mirrors_empty : TipStore.empty.Mirrors [] :=
  ⟨⟨fun _ _ => ⟨nofun, fun ⟨_, hb, _⟩ => nomatch hb⟩, nofun⟩, .nil, rfl, rfl⟩

/-- **The database has the abstract chain** after every sequence of calls that return nil and
meet the condition. -/
theorem canonical_store_represents {calls : List CanonCall} {t : TipStore}
    (h : runCanonCalls TipStore.empty calls = .ok t) (hkeeps : KeepsAll TipStore.empty calls) :
    t.Represents (abstractChain [] calls) :=
  (TipStore.mirrors_empty.run hkeeps h).represents

/-- A block with hash `hash` on the block with hash `prev`. -/
def linkedBlock (hash prev : UInt8) (height : UInt64) : Block where
  ptr := hash.toNat
  hash := [hash]
  height := height
  header := ⟨1, [prev], 0, 10, 10, 0, [], none, 0, []⟩
  transactions := []
  coinbaseTx := none
  minerAddress := []
  totalWork := []

/-- The tip is replaced by another block of its height, and the chain is then cut back and
extended. -/
theorem canonical_store_represents_replaced :
    ∃ t, runCanonCalls TipStore.empty [.append (linkedBlock 1 0 0), .append (linkedBlock 2 1 1),
        .append (linkedBlock 3 1 1), .rewrite [linkedBlock 1 0 0], .append (linkedBlock 2 1 1)]
          = .ok t
      ∧ t.Represents [linkedBlock 1 0 0, linkedBlock 2 1 1] := by
  exact Prog.exists_and_of (fun _ => True) (by decide) fun t ht _ =>
    canonical_store_represents ht (by decide)

/-- **An append below the tip leaves the blocks above it.** The chain that is read has the old
block of height 2 on the new block of height 1, although the keys name the new block as the
tip. -/
theorem append_below_tip_keeps_old :
    ∃ t, runCanonCalls TipStore.empty [.append (linkedBlock 1 0 0), .append (linkedBlock 2 1 1),
        .append (linkedBlock 3 2 2), .append (linkedBlock 4 1 1)] = .ok t
      ∧ abstractChain [] [.append (linkedBlock 1 0 0), .append (linkedBlock 2 1 1),
        .append (linkedBlock 3 2 2), .append (linkedBlock 4 1 1)]
          = [linkedBlock 1 0 0, linkedBlock 4 1 1]
      ∧ t.tipHash = some [4]
      ∧ t.store.readCanonical.toOption
        = some [linkedBlock 1 0 0, linkedBlock 4 1 1, linkedBlock 3 2 2] := by
  decide +kernel

end NogoChain
