import NogoChain.Storage.BoltStore

/-!
# State snapshots in the database

A snapshot at some height is two keys of the `snapshots` bucket – the eight bytes of the height
with a record of when it was taken, and the same bytes followed by `:root` with the state root
– and a bucket of its own, named by the height and `:accounts`, with one key per account. The
module keeps these keys; `SnapshotDb.Holds` says what they amount to: at every height the
account maps saved there since its last deletion, the later over the earlier.

What the store is for is less: the last map saved at a height. The two differ where an
earlier map of the height has an account that the last one lacks, since saving a snapshot does
not empty the bucket of accounts.
-/

namespace NogoChain

/-! ## The database -/

def u64be (v : UInt64) : Bytes := bigEndian 8 v.toNat

/-- `binary.BigEndian.Uint64`: the first eight bytes. -/
def beUint64 (k : Bytes) : UInt64 := UInt64.ofNat (ofBigEndian (k.take 8))

/-- The key of the state root. -/
def rootKey (height : UInt64) : Bytes := u64be height ++ ascii ":root"

/-- The name of the bucket of accounts. -/
def accountBucketName (height : UInt64) : Bytes := u64be height ++ ascii ":accounts"

/-- The buckets of the database that hold snapshots. -/
structure SnapshotDb where
  /-- the bucket `snapshots`, made by the first snapshot -/
  snapshots : Option (GoMap Bytes Bytes)
  accounts : GoMap Bytes Ledger

namespace SnapshotDb

/-- The database before the first snapshot. -/
def empty : SnapshotDb := ⟨none, ∅⟩

/-- The keys of the `snapshots` bucket. -/
def bucket (db : SnapshotDb) : GoMap Bytes Bytes := db.snapshots.getD ∅

/-- `Snapshot`. `metadata` is the record of the height and the time of the call, which nothing
reads; a nil map is `none`. The accounts are put into the bucket of the height, which may have
accounts already. The database has no empty keys, and a failed transaction writes nothing. -/
def snapshot (db : SnapshotDb) (metadata : Bytes) (height : UInt64) (stateRoot : Bytes)
    (state : Option Ledger) : Except GoError SnapshotDb :=
  match state with
  | none => .error (.new "snapshot: state cannot be nil")
  | some state =>
    if stateRoot = [] then .error (.new "snapshot: state root cannot be empty")
    else
      let snapB := (db.bucket.insert (u64be height) metadata).insert (rootKey height) stateRoot
      let accountB := (db.accounts.lookup (accountBucketName height)).getD ∅
      if (state.lookup []).isSome then
        .error (.wrap "put account %s: %w" [.str []] (.new "key required"))
      else
        .ok ⟨some snapB, db.accounts.insert (accountBucketName height) (state ∪ accountB)⟩

/-- The loop of `LoadSnapshot` over the keys: the greatest height of a metadata key that is at
most `height`, or 0. -/
def bestHeight (height : UInt64) (keys : List Bytes) : UInt64 :=
  keys.foldl (fun best k =>
    if k.length ≠ 8 then best
    else if beUint64 k ≤ height ∧ beUint64 k > best then beUint64 k
    else best) 0

/-- The keys of a bucket in the order of its cursor. -/
def cursor (b : GoMap Bytes Bytes) : List Bytes := b.keys.insertionSort (· ≤ ·)

/-- `LoadSnapshot`: the height, the state root and the accounts of the highest snapshot at or
below `height`; one at height 0 is not found. -/
def loadSnapshot (db : SnapshotDb) (height : UInt64) : Except GoError (UInt64 × Bytes × Ledger) :=
  match db.snapshots with
  | none =>
    .error (.wrap "load snapshot: %w" [] (.new "load snapshot: snapshots bucket not found"))
  | some snapB =>
    let best := bestHeight height (cursor snapB)
    if best = 0 then
      .error (.wrap "load snapshot: %w" []
        (.errorf "load snapshot: no snapshot found at or before height %d" [.num height.toNat]))
    else
      match snapB.lookup (rootKey best) with
      | none =>
        .error (.wrap "load snapshot: %w" []
          (.errorf "load snapshot: state root not found for height %d" [.num best.toNat]))
      | some stateRoot =>
        .ok (best, stateRoot, (db.accounts.lookup (accountBucketName best)).getD ∅)

/-- `LatestSnapshot`: the height that the last key of the bucket starts with, 0 without
one. -/
def latestSnapshot (db : SnapshotDb) : UInt64 :=
  match db.snapshots with
  | none => 0
  | some snapB =>
    match (cursor snapB).getLast? with
    | none => 0
    | some lastK => beUint64 lastK

def deleteSnapshot (db : SnapshotDb) (height : UInt64) : SnapshotDb :=
  match db.snapshots with
  | none => db
  | some snapB =>
    ⟨some ((snapB.erase (u64be height)).erase (rootKey height)),
      db.accounts.erase (accountBucketName height)⟩

end SnapshotDb

/-- A call that writes snapshots. -/
inductive SnapshotCall where
  | snapshot (metadata : Bytes) (height : UInt64) (stateRoot : Bytes) (state : Option Ledger)
  | delete (height : UInt64)

/-- What a call does to the database: nothing, if it returns an error. -/
def SnapshotCall.exec (db : SnapshotDb) : SnapshotCall → SnapshotDb
  | .snapshot metadata height stateRoot state =>
    match db.snapshot metadata height stateRoot state with
    | .error _ => db
    | .ok db' => db'
  | .delete height => db.deleteSnapshot height

/-- The database after some calls. -/
def runSnapshotCalls (db : SnapshotDb) (calls : List SnapshotCall) : SnapshotDb :=
  calls.foldl SnapshotCall.exec db

/-! ## What is saved -/

/-- The account maps saved at each height since its last deletion, the latest first. -/
abbrev Saved := UInt64 → List Ledger

/-- What a call saves. A snapshot without a state, without a root or with an account without
an address is refused. -/
def SnapshotCall.save (saved : Saved) : SnapshotCall → Saved
  | .snapshot _ _ _ none => saved
  | .snapshot _ height stateRoot (some state) =>
    if stateRoot = [] ∨ (state.lookup []).isSome then saved
    else Function.update saved height (state :: saved height)
  | .delete height => Function.update saved height []

/-- What some calls save. -/
def savedBy (calls : List SnapshotCall) : Saved := calls.foldl SnapshotCall.save fun _ => []

/-- The accounts that putting the maps one over the other leaves, the first on top. -/
def overlay : List Ledger → Option Ledger
  | [] => none
  | state :: states => some (state ∪ (overlay states).getD ∅)

/-- **No account is left over**: the last map has the accounts of all maps. -/
def NoLeftover (states : List Ledger) : Prop :=
  ∀ last ∈ states.head?, ∀ state ∈ states, ∀ address ∈ state, address ∈ last

theorem mem_overlay {states : List Ledger} {address : Bytes} :
    address ∈ (overlay states).getD ∅ ↔ ∃ state ∈ states, address ∈ state := by
  induction states with
  | nil => exact ⟨fun h => absurd h Finmap.notMem_empty, fun ⟨_, h, _⟩ => nomatch h⟩
  | cons state states ih =>
    change address ∈ state ∪ (overlay states).getD ∅ ↔ _
    rw [Finmap.mem_union, ih]
    simp only [List.mem_cons, exists_eq_or_imp]

variable {state : Ledger} {h h' height : UInt64} {s : BoltStore} {saved : Saved}

/-- A map over others is the map itself if it has all their accounts. -/
theorem union_eq_left_iff {old : Ledger} :
    state ∪ old = state ↔ ∀ address ∈ old, address ∈ state := by
  constructor
  · intro h address haddress
    rw [← h]
    exact Finmap.mem_union.mpr (.inr haddress)
  · intro h
    refine Finmap.ext_lookup fun address => ?_
    by_cases hmem : address ∈ state
    · exact Finmap.lookup_union_left hmem
    · rw [Finmap.lookup_union_right hmem, Finmap.lookup_eq_none.mpr hmem]
      exact Finmap.lookup_eq_none.mpr fun hold => hmem (h address hold)

/-- **The overlay is the last map** exactly if no account is left over. -/
theorem overlay_eq_head_iff (states : List Ledger) :
    overlay states = states.head? ↔ NoLeftover states := by
  cases states with
  | nil => exact ⟨fun _ => nofun, fun _ => rfl⟩
  | cons state states =>
    change some _ = some state ↔ _
    rw [Option.some_inj, union_eq_left_iff]
    constructor
    · intro h last hlast earlier hearlier address haddress
      obtain rfl : state = last := Option.some.inj hlast
      rcases List.mem_cons.mp hearlier with rfl | hmem
      · exact haddress
      · exact h address (mem_overlay.mpr ⟨earlier, hmem, haddress⟩)
    · intro h address haddress
      obtain ⟨earlier, hmem, haddress⟩ := mem_overlay.mp haddress
      exact h state rfl earlier (List.mem_cons_of_mem _ hmem) address haddress

/-! ## Keys -/

theorem beUint64_append (h : UInt64) (s : Bytes) : beUint64 (u64be h ++ s) = h := by
  have hlength : (u64be h).length = 8 := bigEndian_length 8 _
  have h64 : h.toNat < 256 ^ 8 := h.toNat_lt
  unfold beUint64
  rw [List.take_append_of_le_length hlength.ge, List.take_of_length_le hlength.le, u64be,
    ofBigEndian_bigEndian 8 h64, UInt64.ofNat_toNat]

theorem beUint64_u64be (h : UInt64) : beUint64 (u64be h) = h := by
  have := beUint64_append h []
  rwa [List.append_nil] at this

theorem beUint64_rootKey (h : UInt64) : beUint64 (rootKey h) = h := beUint64_append h _

theorem u64be_inj : u64be h = u64be h' ↔ h = h' :=
  ⟨fun heq => by rw [← beUint64_u64be h, heq, beUint64_u64be], fun heq => heq ▸ rfl⟩

theorem rootKey_inj : rootKey h = rootKey h' ↔ h = h' := by
  rw [rootKey, rootKey, List.append_cancel_right_eq, u64be_inj]

theorem accountBucketName_inj : accountBucketName h = accountBucketName h' ↔ h = h' := by
  rw [accountBucketName, accountBucketName, List.append_cancel_right_eq, u64be_inj]

theorem u64be_length (h : UInt64) : (u64be h).length = 8 := bigEndian_length 8 _

theorem rootKey_length (h : UInt64) : (rootKey h).length = 13 := by
  rfl

theorem u64be_ne_rootKey (h h' : UInt64) : u64be h ≠ rootKey h' := by
  intro heq
  have := congrArg List.length heq
  rw [u64be_length, rootKey_length] at this
  omega

/-- The heights that two keys start with are ordered as the keys are. -/
theorem beUint64_le {k k' : Bytes} (hk : 8 ≤ k.length) (hk' : 8 ≤ k'.length) (h : k ≤ k') :
    beUint64 k ≤ beUint64 k' := by
  have hlength : (k.take 8).length = (k'.take 8).length := by
    rw [List.length_take, List.length_take]
    omega
  have hle : ofBigEndian (k.take 8) ≤ ofBigEndian (k'.take 8) := by
    have hsplit : k.take 8 ++ k.drop 8 ≤ k'.take 8 ++ k'.drop 8 := by
      rwa [List.take_append_drop, List.take_append_drop]
    exact ofBigEndian_le_of_append_le hlength hsplit
  have hlt : ∀ {l : Bytes}, ofBigEndian (l.take 8) < 2 ^ 64 := by
    intro l
    refine (ofBigEndian_lt _).trans_le ?_
    calc 256 ^ (l.take 8).length ≤ 256 ^ 8 :=
          Nat.pow_le_pow_right (by decide) (List.length_take_le 8 l)
      _ = 2 ^ 64 := by decide
  unfold beUint64
  rw [UInt64.le_iff_toNat_le, UInt64.toNat_ofNat_of_lt' hlt, UInt64.toNat_ofNat_of_lt' hlt]
  exact hle

namespace SnapshotDb

variable {db : SnapshotDb}

/-- **What the buckets hold.** -/
structure Holds (db : SnapshotDb) (saved : Saved) : Prop where
  /-- every key of the bucket belongs to a height at which something is saved -/
  keys : ∀ k ∈ db.bucket, ∃ h, saved h ≠ [] ∧ (k = u64be h ∨ k = rootKey h)
  /-- both keys of such a height are there -/
  found : ∀ h, saved h ≠ [] → u64be h ∈ db.bucket ∧ rootKey h ∈ db.bucket
  /-- the accounts of a height -/
  accounts : ∀ h, db.accounts.lookup (accountBucketName h) = overlay (saved h)

theorem bucket_of_some {snapB : GoMap Bytes Bytes} (h : db.snapshots = some snapB) :
    db.bucket = snapB := by
  rw [bucket, h, Option.getD_some]

theorem holds_empty : empty.Holds fun _ => [] where
  keys _ hk := absurd hk (AList.notMem_empty _)
  found _ h := absurd rfl h
  accounts _ := rfl

theorem Holds.snapshot (hdb : db.Holds saved) (metadata : Bytes) (height : UInt64)
    (stateRoot : Bytes) (state : Ledger) :
    Holds ⟨some ((db.bucket.insert (u64be height) metadata).insert (rootKey height) stateRoot),
        db.accounts.insert (accountBucketName height)
          (state ∪ (db.accounts.lookup (accountBucketName height)).getD ∅)⟩
      (Function.update saved height (state :: saved height)) where
  keys k hk := by
    change k ∈ AList.insert _ _ (AList.insert _ _ _) at hk
    rw [AList.mem_insert, AList.mem_insert] at hk
    rcases hk with rfl | hk
    · exact ⟨height, by rw [Function.update_self]; exact nofun, .inr rfl⟩
    · rcases hk with rfl | hk
      · exact ⟨height, by rw [Function.update_self]; exact nofun, .inl rfl⟩
      · obtain ⟨h, hsaved, hkey⟩ := hdb.keys k hk
        refine ⟨h, ?_, hkey⟩
        rw [Function.update_apply]
        split
        · exact nofun
        · exact hsaved
  found h hsaved := by
    change _ ∈ AList.insert _ _ (AList.insert _ _ _) ∧ _ ∈ AList.insert _ _ (AList.insert _ _ _)
    rw [AList.mem_insert, AList.mem_insert, AList.mem_insert, AList.mem_insert]
    by_cases heq : h = height
    · rw [heq]
      exact ⟨.inr (.inl rfl), .inl rfl⟩
    · rw [Function.update_of_ne heq] at hsaved
      obtain ⟨hmeta, hroot⟩ := hdb.found h hsaved
      exact ⟨.inr (.inr hmeta), .inr (.inr hroot)⟩
  accounts h := by
    rw [GoMap.lookup_insert]
    by_cases heq : h = height
    · rw [heq, if_pos rfl, Function.update_self, hdb.accounts]
      rfl
    · rw [if_neg (fun hname => heq (accountBucketName_inj.mp hname)), Function.update_of_ne heq,
        hdb.accounts]

theorem Holds.deleteSnapshot (hdb : db.Holds saved) (height : UInt64) :
    (db.deleteSnapshot height).Holds (Function.update saved height []) := by
  unfold SnapshotDb.deleteSnapshot
  cases hb : db.snapshots with
  | none =>
    -- nothing is saved at any height
    have hnone : saved height = [] := by
      by_contra hsaved
      have hmem := (hdb.found height hsaved).1
      unfold bucket at hmem
      rw [hb] at hmem
      exact AList.notMem_empty _ hmem
    rw [← hnone, Function.update_eq_self]
    exact hdb
  | some snapB =>
    have hbucket := bucket_of_some hb
    refine ⟨fun k hk => ?_, fun h hsaved => ?_, fun h => ?_⟩
    · change k ∈ AList.erase _ (AList.erase _ snapB) at hk
      rw [AList.mem_erase, AList.mem_erase] at hk
      obtain ⟨hroot, hmeta, hk⟩ := hk
      obtain ⟨h, hsaved, hkey⟩ := hdb.keys k (hbucket ▸ hk)
      have hne : h ≠ height := by
        rintro rfl
        rcases hkey with rfl | rfl
        · exact hmeta rfl
        · exact hroot rfl
      exact ⟨h, by rwa [Function.update_of_ne hne], hkey⟩
    · have hne : h ≠ height := by
        rintro rfl
        rw [Function.update_self] at hsaved
        exact hsaved rfl
      rw [Function.update_of_ne hne] at hsaved
      obtain ⟨hmeta, hroot⟩ := hdb.found h hsaved
      rw [hbucket] at hmeta hroot
      change _ ∈ AList.erase _ (AList.erase _ snapB) ∧ _ ∈ AList.erase _ (AList.erase _ snapB)
      rw [AList.mem_erase, AList.mem_erase, AList.mem_erase, AList.mem_erase]
      exact ⟨⟨u64be_ne_rootKey _ _, fun heq => hne (u64be_inj.mp heq), hmeta⟩,
        ⟨fun heq => hne (rootKey_inj.mp heq), (u64be_ne_rootKey _ _).symm, hroot⟩⟩
    · rw [GoMap.lookup_erase]
      by_cases heq : h = height
      · rw [heq, if_pos rfl, Function.update_self]
        rfl
      · rw [if_neg (fun hname => heq (accountBucketName_inj.mp hname)), Function.update_of_ne heq,
          hdb.accounts]

/-- **One call.** -/
theorem Holds.exec (hdb : db.Holds saved) (call : SnapshotCall) :
    (call.exec db).Holds (call.save saved) := by
  cases call with
  | delete height => exact hdb.deleteSnapshot height
  | snapshot metadata height stateRoot state =>
    cases state with
    | none => exact hdb
    | some state =>
      unfold SnapshotCall.exec SnapshotCall.save SnapshotDb.snapshot
      dsimp only
      by_cases hroot : stateRoot = []
      · rw [if_pos hroot, if_pos (.inl hroot)]
        exact hdb
      · by_cases haddress : (state.lookup []).isSome
        · rw [if_neg hroot, if_pos haddress, if_pos (.inr haddress)]
          exact hdb
        · rw [if_neg hroot, if_neg haddress, if_neg (not_or.mpr ⟨hroot, haddress⟩)]
          exact hdb.snapshot metadata height stateRoot state

theorem Holds.run (calls : List SnapshotCall) (hdb : db.Holds saved) :
    (runSnapshotCalls db calls).Holds (calls.foldl SnapshotCall.save saved) := by
  induction calls generalizing db saved with
  | nil => exact hdb
  | cons call calls ih => exact ih (hdb.exec call)

/-! ## What is loaded -/

theorem mem_cursor {b : GoMap Bytes Bytes} {k : Bytes} : k ∈ cursor b ↔ k ∈ b := by
  unfold cursor
  rw [List.mem_insertionSort]
  exact AList.mem_keys.symm

/-- The search for a height at or below another one, from any height on. -/
theorem foldl_best (height : UInt64) (heights : List UInt64) (best : UInt64) :
    ∃ r, heights.foldl (fun best h => if h ≤ height ∧ h > best then h else best) best = r
      ∧ best ≤ r
      ∧ (r = best ∨ r ∈ heights ∧ r ≤ height)
      ∧ ∀ h ∈ heights, h ≤ height → h ≤ r := by
  induction heights generalizing best with
  | nil => exact ⟨best, rfl, UInt64.le_refl _, .inl rfl, nofun⟩
  | cons h heights ih =>
    rw [List.foldl_cons]
    split
    · next hbetter =>
      obtain ⟨r, hr, hle, horigin, hmax⟩ := ih h
      refine ⟨r, hr, UInt64.le_trans (UInt64.le_of_lt hbetter.2) hle, .inr ?_, ?_⟩
      · rcases horigin with rfl | ⟨hmem, hheight⟩
        · exact ⟨List.mem_cons_self, hbetter.1⟩
        · exact ⟨List.mem_cons_of_mem _ hmem, hheight⟩
      · exact List.forall_mem_cons.mpr ⟨fun _ => hle, hmax⟩
    · next hworse =>
      obtain ⟨r, hr, hle, horigin, hmax⟩ := ih best
      refine ⟨r, hr, hle, ?_, ?_⟩
      · exact horigin.imp_right fun h => ⟨List.mem_cons_of_mem _ h.1, h.2⟩
      · refine List.forall_mem_cons.mpr ⟨fun hheight => ?_, hmax⟩
        have hnot : ¬ best < h := fun hlt => hworse ⟨hheight, hlt⟩
        exact UInt64.le_trans (UInt64.not_lt.mp hnot) hle

/-- `LoadSnapshot` looks at the heights of the metadata keys. -/
theorem bestHeight_eq (height : UInt64) (keys : List Bytes) :
    SnapshotDb.bestHeight height keys = ((keys.filter (·.length = 8)).map beUint64).foldl
      (fun best h => if h ≤ height ∧ h > best then h else best) 0 := by
  rw [List.foldl_map, List.foldl_filter]
  unfold SnapshotDb.bestHeight
  congr 1
  funext best k
  by_cases hk : k.length = 8 <;> simp [hk]

/-- A height is the greatest one at or below `height` at which something is saved, or 0. -/
def IsBest (saved : Saved) (height r : UInt64) : Prop :=
  (r ≠ 0 → saved r ≠ [] ∧ r ≤ height) ∧ ∀ h, saved h ≠ [] → h ≤ height → h ≤ r

/-- The search over the heights at which something is saved. -/
theorem isBest_foldl {heights : List UInt64} (h : ∀ h, h ∈ heights ↔ saved h ≠ [])
    (height : UInt64) :
    IsBest saved height
      (heights.foldl (fun best h => if h ≤ height ∧ h > best then h else best) 0) := by
  obtain ⟨r, hr, -, horigin, hmax⟩ := foldl_best height heights 0
  rw [hr]
  refine ⟨fun hne => ?_, fun h' hsaved hle => hmax h' ((h h').mpr hsaved) hle⟩
  obtain ⟨hmem, hle⟩ := horigin.resolve_left hne
  exact ⟨(h r).mp hmem, hle⟩

/-- **The height that `LoadSnapshot` chooses.** -/
theorem Holds.bestHeight (hdb : db.Holds saved) (height : UInt64) :
    IsBest saved height (SnapshotDb.bestHeight height (cursor db.bucket)) := by
  rw [bestHeight_eq]
  refine isBest_foldl (fun h => ?_) height
  rw [List.mem_map]
  constructor
  · rintro ⟨k, hk, rfl⟩
    obtain ⟨hk, hlength⟩ := List.mem_filter.mp hk
    obtain ⟨h, hsaved, rfl | rfl⟩ := hdb.keys k (mem_cursor.mp hk)
    · rwa [beUint64_u64be]
    · cases hlength
  · intro hsaved
    refine ⟨u64be h, List.mem_filter.mpr ⟨mem_cursor.mpr (hdb.found h hsaved).1, ?_⟩,
      beUint64_u64be h⟩
    exact decide_eq_true (u64be_length h)

theorem loadSnapshot_eq_ok {stateRoot : Bytes} :
    db.loadSnapshot height = .ok (h, stateRoot, state)
      ↔ h = SnapshotDb.bestHeight height (cursor db.bucket) ∧ h ≠ 0
        ∧ db.bucket.lookup (rootKey h) = some stateRoot
        ∧ state = (db.accounts.lookup (accountBucketName h)).getD ∅ := by
  unfold SnapshotDb.loadSnapshot
  cases hb : db.snapshots with
  | none =>
    refine ⟨nofun, fun ⟨hbest, hne, _⟩ => absurd ?_ hne⟩
    rw [hbest, bucket, hb]
    rfl
  | some snapB =>
    rw [bucket_of_some hb]
    dsimp only
    split
    · next hzero => exact ⟨nofun, fun ⟨hbest, hne, _⟩ => absurd (hbest.trans hzero) hne⟩
    · next hne =>
      split
      · next hnone =>
        refine ⟨nofun, ?_⟩
        rintro ⟨rfl, -, hroot, -⟩
        exact nomatch hnone.symm.trans hroot
      · next root hroot =>
        rw [Except.ok.injEq, Prod.mk.injEq, Prod.mk.injEq]
        constructor
        · rintro ⟨rfl, rfl, rfl⟩
          exact ⟨rfl, hne, hroot, rfl⟩
        · rintro ⟨rfl, -, hroot', rfl⟩
          exact ⟨rfl, Option.some.inj (hroot.symm.trans hroot'), rfl⟩

/-- **What `LoadSnapshot` returns.** -/
theorem Holds.loadSnapshot_eq (hdb : db.Holds saved) {stateRoot : Bytes}
    (hload : db.loadSnapshot height = .ok (h, stateRoot, state)) :
    saved h ≠ [] ∧ h ≤ height ∧ (∀ h', saved h' ≠ [] → h' ≤ height → h' ≤ h)
      ∧ overlay (saved h) = some state := by
  obtain ⟨hbest, hmax⟩ := hdb.bestHeight height
  obtain ⟨rfl, hne, -, rfl⟩ := loadSnapshot_eq_ok.mp hload
  obtain ⟨hsaved, hle⟩ := hbest hne
  refine ⟨hsaved, hle, hmax, ?_⟩
  rw [hdb.accounts]
  obtain ⟨last, states, heq⟩ := List.exists_cons_of_ne_nil hsaved
  rw [heq]
  rfl

/-- **When `LoadSnapshot` finds a snapshot.** -/
theorem Holds.exists_loadSnapshot (hdb : db.Holds saved) (height : UInt64) :
    (∃ r, db.loadSnapshot height = .ok r) ↔ ∃ h, 0 < h ∧ h ≤ height ∧ saved h ≠ [] := by
  obtain ⟨hbest, hmax⟩ := hdb.bestHeight height
  constructor
  · rintro ⟨⟨h, stateRoot, state⟩, hload⟩
    obtain ⟨rfl, hne, -⟩ := loadSnapshot_eq_ok.mp hload
    obtain ⟨hsaved, hle⟩ := hbest hne
    exact ⟨_, UInt64.pos_iff_ne_zero.mpr hne, hle, hsaved⟩
  · rintro ⟨h, hpos, hle, hsaved⟩
    have hne : SnapshotDb.bestHeight height (cursor db.bucket) ≠ 0 :=
      UInt64.pos_iff_ne_zero.mp (UInt64.lt_of_lt_of_le hpos (hmax h hsaved hle))
    have hroot := (hdb.found _ (hbest hne).1).2
    obtain ⟨stateRoot, hroot⟩ := Option.isSome_iff_exists.mp (AList.lookup_isSome.mpr hroot)
    exact ⟨_, loadSnapshot_eq_ok.mpr ⟨rfl, hne, hroot, rfl⟩⟩

/-- **`LatestSnapshot` is the greatest height at which something is saved**, or 0. -/
theorem Holds.latestSnapshot (hdb : db.Holds saved) : (∀ h, saved h ≠ [] → h ≤ db.latestSnapshot)
      ∧ (db.latestSnapshot ≠ 0 → saved db.latestSnapshot ≠ []) := by
  have hlong : ∀ k ∈ db.bucket, 8 ≤ k.length := by
    intro k hk
    obtain ⟨h, -, rfl | rfl⟩ := hdb.keys k hk
    · exact (u64be_length h).ge
    · rw [rootKey_length]
      omega
  have hlast : db.latestSnapshot = ((cursor db.bucket).getLast?.map beUint64).getD 0 := by
    unfold SnapshotDb.latestSnapshot bucket
    cases db.snapshots with
    | none => rfl
    | some snapB =>
      dsimp only [Option.getD_some]
      cases (cursor snapB).getLast? <;> rfl
  rw [hlast]
  cases hk : (cursor db.bucket).getLast? with
  | none =>
    rw [List.getLast?_eq_none_iff] at hk
    refine ⟨fun h hsaved => ?_, fun hne => absurd rfl hne⟩
    have hmem := mem_cursor.mpr (hdb.found h hsaved).1
    rw [hk] at hmem
    cases hmem
  | some lastK =>
    have hlastK : lastK ∈ db.bucket := mem_cursor.mp (List.mem_of_getLast? hk)
    refine ⟨fun h hsaved => ?_, fun _ => ?_⟩
    · have hmem := (hdb.found h hsaved).1
      have hle : u64be h ≤ lastK := by
        have hsorted : (cursor db.bucket).Pairwise (· ≤ ·) := List.pairwise_insertionSort _ _
        obtain ⟨l, hl⟩ := List.getLast?_eq_some_iff.mp hk
        have hmem' := mem_cursor.mpr hmem
        rw [hl] at hsorted hmem'
        rcases List.mem_append.mp hmem' with hin | hin
        · exact (List.pairwise_append.mp hsorted).2.2 _ hin _ List.mem_cons_self
        · rw [List.mem_singleton.mp hin]
          exact Std.le_refl _
      have hheight := beUint64_le (hlong _ hmem) (hlong _ hlastK) hle
      rwa [beUint64_u64be] at hheight
    · obtain ⟨h, hsaved, rfl | rfl⟩ := hdb.keys lastK hlastK
      · change saved (beUint64 (u64be h)) ≠ []
        rwa [beUint64_u64be]
      · change saved (beUint64 (rootKey h)) ≠ []
        rwa [beUint64_rootKey]

end SnapshotDb

/-! ## The store of the chain

The chain's view of the database keeps one account map per height. -/

/-- The chain's store has what is saved. -/
def BoltStore.Saves (s : BoltStore) (saved : Saved) : Prop :=
  ∀ h, s.snapshots.lookup h = overlay (saved h)

theorem BoltStore.Saves.snapshot {s' : BoltStore} (hs : s.Saves saved)
    (h : s.snapshot height state = .ok s') :
    s'.Saves (Function.update saved height (state :: saved height)) := by
  unfold BoltStore.snapshot at h
  split at h
  · cases h
  · cases h
    intro h'
    rw [GoMap.lookup_insert]
    by_cases heq : h' = height
    · rw [heq, if_pos rfl, Function.update_self, hs]
      rfl
    · rw [if_neg heq, Function.update_of_ne heq, hs]

theorem BoltStore.Saves.mem_keys (hs : s.Saves saved) (h : UInt64) :
    h ∈ s.snapshots.keys ↔ saved h ≠ [] := by
  rw [← AList.mem_keys, ← AList.lookup_isSome, hs]
  cases saved h with
  | nil => exact ⟨nofun, fun hne => absurd rfl hne⟩
  | cons state states => exact ⟨fun _ => nofun, fun _ => rfl⟩

/-- **The chain's store loads what the keys hold.** -/
theorem SnapshotDb.Holds.loadSnapshot_agrees {db : SnapshotDb}
    (hdb : db.Holds saved) (hs : s.Saves saved) (height : UInt64) :
    (db.loadSnapshot height).toOption.map (fun r => (r.1, r.2.2)) = s.loadSnapshot height := by
  have hbest := SnapshotDb.isBest_foldl hs.mem_keys height
  unfold BoltStore.loadSnapshot
  dsimp only
  generalize s.snapshots.keys.foldl _ (0 : UInt64) = best at hbest ⊢
  cases hload : db.loadSnapshot height with
  | error e =>
    split
    · rfl
    · next hne =>
      obtain ⟨hsaved, hle⟩ := hbest.1 hne
      obtain ⟨r, hr⟩ := (hdb.exists_loadSnapshot height).mpr
        ⟨_, UInt64.pos_iff_ne_zero.mpr hne, hle, hsaved⟩
      exact nomatch hload.symm.trans hr
  | ok r =>
    obtain ⟨h, stateRoot, state⟩ := r
    obtain ⟨hsaved, hle, hmax, hstate⟩ := hdb.loadSnapshot_eq hload
    obtain ⟨h', hpos, hle', hsaved'⟩ := (hdb.exists_loadSnapshot height).mp ⟨_, hload⟩
    have hne : best ≠ 0 :=
      UInt64.pos_iff_ne_zero.mp (UInt64.lt_of_lt_of_le hpos (hbest.2 h' hsaved' hle'))
    obtain ⟨hthere, hbelow⟩ := hbest.1 hne
    obtain rfl : best = h := UInt64.le_antisymm (hmax best hthere hbelow) (hbest.2 h hsaved hle)
    rw [if_neg hne, hs, hstate]
    rfl

/-- A snapshot with an account at height 1, looked for from height 5. -/
theorem loadSnapshot_agrees_one : ∃ (db : SnapshotDb) (s : BoltStore),
    s.loadSnapshot 5 = some (1, Finmap.singleton [97] ⟨9, 0⟩)
      ∧ (db.loadSnapshot 5).toOption.map (fun r => (r.1, r.2.2)) = s.loadSnapshot 5 := by
  have hs := @BoltStore.Saves.snapshot (Finmap.singleton [97] ⟨9, 0⟩) 1 .empty (fun _ => []) _
    (fun _ => rfl) rfl
  exact ⟨_, _, rfl, (SnapshotDb.holds_empty.snapshot [] 1 [7] _).loadSnapshot_agrees hs 5⟩

/-! ## Runs -/

/-- **The snapshots of every run.** `LatestSnapshot` is the greatest height at which a snapshot
is saved. `LoadSnapshot` finds the greatest at or below the given height unless that is 0, and
what it returns is the last map saved there exactly if no account is left over. -/
theorem snapshots_of_run (calls : List SnapshotCall) :
    ((∀ h, savedBy calls h ≠ [] → h ≤ (runSnapshotCalls .empty calls).latestSnapshot)
        ∧ ((runSnapshotCalls .empty calls).latestSnapshot ≠ 0 →
          savedBy calls (runSnapshotCalls .empty calls).latestSnapshot ≠ []))
      ∧ ∀ height, ((∃ r, (runSnapshotCalls .empty calls).loadSnapshot height = .ok r)
            ↔ ∃ h, 0 < h ∧ h ≤ height ∧ savedBy calls h ≠ [])
          ∧ ∀ h stateRoot state,
            (runSnapshotCalls .empty calls).loadSnapshot height = .ok (h, stateRoot, state) →
              (h ≤ height ∧ ∀ h', savedBy calls h' ≠ [] → h' ≤ height → h' ≤ h)
                ∧ ((savedBy calls h).head? = some state ↔ NoLeftover (savedBy calls h)) := by
  have hdb : (runSnapshotCalls .empty calls).Holds (savedBy calls) :=
    SnapshotDb.holds_empty.run calls
  refine ⟨hdb.latestSnapshot, fun height => ⟨hdb.exists_loadSnapshot height, ?_⟩⟩
  intro h stateRoot state hload
  obtain ⟨-, hle, hmax, hstate⟩ := hdb.loadSnapshot_eq hload
  refine ⟨⟨hle, hmax⟩, ?_⟩
  rw [← overlay_eq_head_iff, hstate]
  exact eq_comm

/-- Two snapshots at height 1, the second without the account of the first. -/
def shrinkingSnapshots : List SnapshotCall :=
  [.snapshot [] 1 [7] (some (Finmap.singleton (ascii "b") ⟨5, 0⟩)),
    .snapshot [] 1 [8] (some (Finmap.singleton (ascii "a") ⟨9, 0⟩))]

/-- **An account of an earlier snapshot is left over**: it is loaded with the accounts of the
second snapshot, which does not have it. -/
theorem old_account_loaded : (runSnapshotCalls .empty shrinkingSnapshots).loadSnapshot 1
        = .ok (1, [8], Finmap.singleton (ascii "a") ⟨9, 0⟩ ∪ Finmap.singleton (ascii "b") ⟨5, 0⟩)
      ∧ (savedBy shrinkingSnapshots 1).head? = some (Finmap.singleton (ascii "a") ⟨9, 0⟩)
      ∧ ascii "b" ∉ (Finmap.singleton (ascii "a") ⟨9, 0⟩ : Ledger) := by
  refine ⟨rfl, rfl, ?_⟩
  decide

end NogoChain
