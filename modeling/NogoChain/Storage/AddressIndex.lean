import NogoChain.Core.Encoding
import NogoChain.Lib.GoMap

/-!
# The persistent address index

`index.AddressIndex` is a database of its own with two buckets: entries under an address and
a sequence number, and statistics for each address, whose count gives the sequence number
of the next entry. An entry is put before the statistics are updated; where the update is
refused – a total does not fit in 64 bits – the entry stays without being counted, and the
next one takes its place.

The key of an entry is the address followed by eight bytes, so that it determines both; the
model keeps it as a pair. The database stores what it is given: keys and values are within
its limits.
-/

namespace NogoChain

structure AddressIndexEntry where
  txId : Bytes
  height : UInt64
  blockHash : Bytes
  /-- position among the entries of the block -/
  index : Int64
  fromAddr : Bytes
  toAddress : Bytes
  amount : UInt64
  fee : UInt64
  nonce : UInt64
  timestamp : Int64
  type : TransactionType
deriving DecidableEq

/-- The sender and the recipient. -/
def AddressIndexEntry.Touches (e : AddressIndexEntry) (addr : Bytes) : Prop :=
  e.fromAddr = addr ∨ e.toAddress = addr

instance (e : AddressIndexEntry) (addr : Bytes) : Decidable (e.Touches addr) :=
  inferInstanceAs (Decidable (_ ∨ _))

structure AddressStats where
  txCount : UInt64
  totalReceived : UInt64
  totalSent : UInt64
  firstTxHeight : UInt64
  lastTxHeight : UInt64
  firstTxTime : Int64
  lastTxTime : Int64
deriving DecidableEq

/-- The statistics of an address without entries. -/
def AddressStats.zero : AddressStats := ⟨0, 0, 0, 0, 0, 0, 0⟩

/-- The database. -/
structure AddressIndex where
  /-- `address_index`: address and sequence number to entry -/
  entries : GoMap (Bytes × UInt64) AddressIndexEntry
  /-- `address_meta`: address to statistics -/
  stats : GoMap Bytes AddressStats

namespace AddressStats

/-- The part of `updateStats` that adds an entry for `addr` up. -/
def addAmount (stats : AddressStats) (addr : Bytes) (entry : AddressIndexEntry) :
    Except GoError AddressStats :=
  if entry.fromAddr = addr then
    if stats.totalSent + entry.amount < stats.totalSent then .error (.new "total sent overflow")
    else .ok { stats with totalSent := stats.totalSent + entry.amount }
  else if stats.totalReceived + entry.amount < stats.totalReceived then
    .error (.new "total received overflow")
  else .ok { stats with totalReceived := stats.totalReceived + entry.amount }

/-- The part of `updateStats` that keeps the first and the last height. -/
def addHeight (stats : AddressStats) (entry : AddressIndexEntry) : AddressStats :=
  let stats := if stats.firstTxHeight = 0 ∨ entry.height < stats.firstTxHeight then
      { stats with firstTxHeight := entry.height, firstTxTime := entry.timestamp }
    else stats
  if entry.height > stats.lastTxHeight then
    { stats with lastTxHeight := entry.height, lastTxTime := entry.timestamp }
  else stats

end AddressStats

variable {entry : AddressIndexEntry} {x : AddressIndex} {addr : Bytes}

namespace AddressIndex

/-- The database before the first entry. -/
def empty : AddressIndex := ⟨∅, ∅⟩

/-- The statistics of an address. -/
def statsOf (x : AddressIndex) (addr : Bytes) : AddressStats := (x.stats.lookup addr).getD .zero

def getNextSequence (x : AddressIndex) (addr : Bytes) : Except GoError UInt64 :=
  if (x.statsOf addr).txCount ≥ 0xFFFFFFFFFFFFFFFF then .error (.new "sequence overflow")
  else .ok ((x.statsOf addr).txCount + 1)

def updateStats (x : AddressIndex) (addr : Bytes) (entry : AddressIndexEntry) :
    Except GoError AddressIndex :=
  if (x.statsOf addr).txCount ≥ 0xFFFFFFFFFFFFFFFF then .error (.new "tx count overflow")
  else
    match AddressStats.addAmount { x.statsOf addr with txCount := (x.statsOf addr).txCount + 1 }
        addr entry with
    | .error e => .error e
    | .ok stats => .ok { x with stats := x.stats.insert addr (stats.addHeight entry) }

/-- `indexAddressEntry`: the database after it, and how it ended. -/
def indexAddressEntry (x : AddressIndex) (addr : Bytes) (entry : AddressIndexEntry) :
    AddressIndex × Except GoError Unit :=
  match x.getNextSequence addr with
  | .error e => (x, .error (.wrap "get sequence: %w" [] e))
  | .ok seq =>
    let put := { x with entries := x.entries.insert (addr, seq) entry }
    match put.updateStats addr entry with
    | .error e => (put, .error (.wrap "update stats: %w" [] e))
    | .ok x' => (x', .ok ())

/-- The body of the loop of `IndexBlockSimple`: an entry goes to its sender and, unless that
fails, to a recipient who is another one. -/
def indexEntry (x : AddressIndex) (entry : AddressIndexEntry) : AddressIndex :=
  match x.indexAddressEntry entry.fromAddr entry with
  | (x', .error _) => x'
  | (x', .ok ()) =>
    if entry.toAddress ≠ entry.fromAddr then (x'.indexAddressEntry entry.toAddress entry).1 else x'

/-- `IndexBlockSimple`. The hash of a block that is added is not nil. -/
def indexBlockSimple (x : AddressIndex) (hash : Bytes) (height : UInt64) (timestamp : Int64)
    (txs : List AddressIndexEntry) : AddressIndex :=
  (txs.mapIdx fun i entry =>
    { entry with
      height := height, blockHash := hash, index := .ofNat i, timestamp := timestamp }).foldl
    indexEntry x

/-- The entries stored for an address. -/
def entriesOf (x : AddressIndex) (addr : Bytes) : List AddressIndexEntry :=
  (x.entries.entries.filter fun e => e.1.1 = addr).map (·.2)

/-! ## Exactly the entries that were indexed -/

/-- The amounts of entries, added up. -/
def total (l : List AddressIndexEntry) : Nat := (l.map (·.amount.toNat)).sum

/-- **The database holds the entries of `l`** for each address, each once, and the statistics
count them and add them up. -/
structure Tracks (x : AddressIndex) (l : Bytes → List AddressIndexEntry) : Prop where
  entries : ∀ addr, (x.entriesOf addr).Perm (l addr)
  /-- sequence numbers are in use up to the count -/
  used : ∀ addr seq, (addr, seq) ∈ x.entries → seq ≤ (x.statsOf addr).txCount
  count : ∀ addr, (x.statsOf addr).txCount.toNat = (l addr).length
  /-- the two totals -/
  totals : ∀ addr, (x.statsOf addr).totalSent.toNat + (x.statsOf addr).totalReceived.toNat
    = total (l addr)

theorem tracks_empty : empty.Tracks fun _ => [] where
  entries _ := .nil
  used _ _ h := absurd h (AList.notMem_empty _)
  count _ := rfl
  totals _ := rfl

/-- A 64-bit sum that fits is not below its first term. -/
theorem not_add_lt_self {a b : UInt64} (h : a.toNat + b.toNat < 2 ^ 64) : ¬ a + b < a := by
  rw [UInt64.lt_iff_toNat_lt, UInt64.toNat_add, Nat.mod_eq_of_lt h]
  omega

/-- The statistics after an entry whose amount fits. -/
theorem addAmount_eq_ok {s : AddressStats} (addr : Bytes)
    (h : s.totalSent.toNat + s.totalReceived.toNat + entry.amount.toNat < 2 ^ 64) :
    ∃ stats', s.addAmount addr entry = .ok stats' ∧ stats'.txCount = s.txCount
      ∧ stats'.totalSent.toNat + stats'.totalReceived.toNat
        = s.totalSent.toNat + s.totalReceived.toNat + entry.amount.toNat := by
  have hsent : s.totalSent.toNat + entry.amount.toNat < 2 ^ 64 := by omega
  have hreceived : s.totalReceived.toNat + entry.amount.toNat < 2 ^ 64 := by omega
  unfold AddressStats.addAmount
  split
  · rw [if_neg (not_add_lt_self hsent)]
    refine ⟨_, rfl, rfl, ?_⟩
    dsimp only
    rw [UInt64.toNat_add, Nat.mod_eq_of_lt hsent]
    omega
  · rw [if_neg (not_add_lt_self hreceived)]
    refine ⟨_, rfl, rfl, ?_⟩
    dsimp only
    rw [UInt64.toNat_add, Nat.mod_eq_of_lt hreceived]
    omega

/-- The heights leave count and totals alone. -/
theorem addHeight_spec (stats : AddressStats) (entry : AddressIndexEntry) :
    (stats.addHeight entry).txCount = stats.txCount
      ∧ (stats.addHeight entry).totalSent = stats.totalSent
      ∧ (stats.addHeight entry).totalReceived = stats.totalReceived := by
  unfold AddressStats.addHeight
  split <;> dsimp only <;> split <;> exact ⟨rfl, rfl, rfl⟩

/-- **One entry for one address**, where count and totals have room: it is put under the next
sequence number and counted. -/
theorem indexAddressEntry_eq_ok (hcount : (x.statsOf addr).txCount.toNat + 1 < 2 ^ 64)
    (hroom : (x.statsOf addr).totalSent.toNat + (x.statsOf addr).totalReceived.toNat
      + entry.amount.toNat < 2 ^ 64) :
    ∃ stats, x.indexAddressEntry addr entry
        = (⟨x.entries.insert (addr, (x.statsOf addr).txCount + 1) entry, x.stats.insert addr stats⟩,
            .ok ())
      ∧ stats.txCount = (x.statsOf addr).txCount + 1
      ∧ stats.totalSent.toNat + stats.totalReceived.toNat
        = (x.statsOf addr).totalSent.toNat + (x.statsOf addr).totalReceived.toNat
          + entry.amount.toNat := by
  have hmax : ¬ (x.statsOf addr).txCount ≥ 0xFFFFFFFFFFFFFFFF := by
    rw [ge_iff_le, UInt64.le_iff_toNat_le]
    simp only [UInt64.reduceToNat]
    omega
  obtain ⟨stats, hadd, htx, htotals⟩ :=
    addAmount_eq_ok (s := { x.statsOf addr with txCount := (x.statsOf addr).txCount + 1 })
      addr hroom
  obtain ⟨hheight, hsent, hreceived⟩ := addHeight_spec stats entry
  refine ⟨stats.addHeight entry, ?_, hheight.trans htx, ?_⟩
  · unfold indexAddressEntry getNextSequence
    rw [if_neg hmax]
    dsimp only
    have hupdate : (AddressIndex.mk (x.entries.insert (addr, (x.statsOf addr).txCount + 1) entry)
        x.stats).updateStats addr entry
        = .ok ⟨x.entries.insert (addr, (x.statsOf addr).txCount + 1) entry,
            x.stats.insert addr (stats.addHeight entry)⟩ := by
      change (if (x.statsOf addr).txCount ≥ 0xFFFFFFFFFFFFFFFF then _ else _) = _
      rw [if_neg hmax]
      change (match AddressStats.addAmount
        { x.statsOf addr with txCount := (x.statsOf addr).txCount + 1 } addr entry with
        | .error e => _ | .ok stats => _) = _
      rw [hadd]
    rw [hupdate]
  · rw [hsent, hreceived]
    exact htotals

/-- The entries of an address after one is put under a key that was free. -/
theorem entriesOf_insert {seq : UInt64}
    (hfree : (addr, seq) ∉ x.entries) (stats : GoMap Bytes AddressStats) (addr' : Bytes) :
    (AddressIndex.mk (x.entries.insert (addr, seq) entry) stats).entriesOf addr'
      = if addr' = addr then entry :: x.entriesOf addr' else x.entriesOf addr' := by
  unfold entriesOf
  rw [AList.entries_insert_of_notMem hfree]
  split
  · next h =>
    rw [List.filter_cons_of_pos (by simp [h]), List.map_cons]
  · next h =>
    rw [List.filter_cons_of_neg (by simpa [eq_comm] using h)]

theorem statsOf_insert (entries : GoMap (Bytes × UInt64) AddressIndexEntry)
    (m : GoMap Bytes AddressStats) (addr addr' : Bytes) (stats : AddressStats) :
    (AddressIndex.mk entries (m.insert addr stats)).statsOf addr'
      = if addr' = addr then stats else (AddressIndex.mk entries m).statsOf addr' := by
  unfold statsOf
  rw [GoMap.lookup_insert]
  split <;> rfl

/-- **One entry for one address keeps the database exact.** -/
theorem Tracks.indexAddressEntry {l : Bytes → List AddressIndexEntry} (h : x.Tracks l)
    (hcount : (l addr).length + 1 < 2 ^ 64)
    (hroom : total (l addr ++ [entry]) < 2 ^ 64) :
    ∃ x', x.indexAddressEntry addr entry = (x', .ok ())
      ∧ x'.Tracks (Function.update l addr (l addr ++ [entry])) := by
  have htotal : total (l addr ++ [entry]) = total (l addr) + entry.amount.toNat := by
    simp [total]
  rw [htotal, ← h.totals] at hroom
  rw [← h.count] at hcount
  obtain ⟨stats, hindex, htx, htotals⟩ := indexAddressEntry_eq_ok hcount hroom
  have hnext : ((x.statsOf addr).txCount + 1).toNat = (x.statsOf addr).txCount.toNat + 1 := by
    exact Nat.mod_eq_of_lt hcount
  have hfree : (addr, (x.statsOf addr).txCount + 1) ∉ x.entries := by
    intro hmem
    have hle := UInt64.le_iff_toNat_le.mp (h.used addr _ hmem)
    omega
  refine ⟨_, hindex, ?_, ?_, ?_, ?_⟩
  · intro addr'
    rw [entriesOf_insert hfree, Function.update_apply]
    split
    · next haddr =>
      rw [haddr]
      exact ((h.entries addr).cons entry).trans (List.perm_append_singleton entry (l addr)).symm
    · exact h.entries addr'
  · intro addr' seq hmem
    rw [statsOf_insert]
    rw [AList.mem_insert] at hmem
    split
    · next haddr =>
      rw [htx, UInt64.le_iff_toNat_le, hnext]
      cases hmem with
      | inl hnew => rw [(Prod.mk.inj hnew).2, hnext]
      | inr hold =>
        rw [haddr] at hold
        have hle := UInt64.le_iff_toNat_le.mp (h.used addr seq hold)
        omega
    · next haddr =>
      cases hmem with
      | inl hnew => exact absurd (Prod.mk.inj hnew).1 haddr
      | inr hold => exact h.used addr' seq hold
  · intro addr'
    rw [statsOf_insert, Function.update_apply]
    split
    · rw [htx, hnext, h.count, List.length_append, List.length_singleton]
    · exact h.count addr'
  · intro addr'
    rw [statsOf_insert, Function.update_apply]
    split
    · rw [htotals, htotal, h.totals]
    · exact h.totals addr'

/-- The entries of a list that touch an address. -/
def touching (l : List AddressIndexEntry) (addr : Bytes) : List AddressIndexEntry :=
  l.filter (·.Touches addr)

/-- The entries that touch an address after one more. -/
theorem touching_append_singleton (l : List AddressIndexEntry) (entry : AddressIndexEntry) :
    touching (l ++ [entry]) = Function.update
      (Function.update (touching l) entry.fromAddr (touching l entry.fromAddr ++ [entry]))
      entry.toAddress (touching l entry.toAddress ++ [entry]) := by
  funext addr
  rw [Function.update_apply, Function.update_apply]
  unfold touching
  rw [List.filter_append]
  by_cases hto : addr = entry.toAddress
  · rw [if_pos hto, List.filter_cons_of_pos (by simp [AddressIndexEntry.Touches, hto]), hto]
    rfl
  · by_cases hfrom : addr = entry.fromAddr
    · rw [if_neg hto, if_pos hfrom,
        List.filter_cons_of_pos (by simp [AddressIndexEntry.Touches, hfrom]), hfrom]
      rfl
    · simp [AddressIndexEntry.Touches, eq_comm, hto, hfrom]

/-- There is room for one more entry of an address. -/
def Room (l : List AddressIndexEntry) (addr : Bytes) : Prop :=
  (touching l addr).length < 2 ^ 64 ∧ total (touching l addr) < 2 ^ 64

/-- **One entry keeps the database exact**, if the statistics of sender and recipient have
room for it. -/
theorem Tracks.indexEntry {l : List AddressIndexEntry} (h : x.Tracks (touching l))
    (hfrom : Room (l ++ [entry]) entry.fromAddr) (hto : Room (l ++ [entry]) entry.toAddress) :
    (x.indexEntry entry).Tracks (touching (l ++ [entry])) := by
  have hroom : ∀ addr, entry.Touches addr → Room (l ++ [entry]) addr →
      (touching l addr).length + 1 < 2 ^ 64 ∧ total (touching l addr ++ [entry]) < 2 ^ 64 := by
    intro addr htouches hroom
    have happend : touching (l ++ [entry]) addr = touching l addr ++ [entry] := by
      unfold touching
      rw [List.filter_append, List.filter_cons_of_pos (by simpa using htouches), List.filter_nil]
    unfold Room at hroom
    rw [happend, List.length_append, List.length_singleton] at hroom
    exact hroom
  obtain ⟨hcount, htotal⟩ := hroom _ (.inl rfl) hfrom
  obtain ⟨x', hx', htracks⟩ := h.indexAddressEntry hcount htotal
  unfold AddressIndex.indexEntry
  rw [hx', touching_append_singleton]
  dsimp only
  by_cases hself : entry.toAddress = entry.fromAddr
  · rw [if_neg (not_not.mpr hself), hself, Function.update_idem]
    exact htracks
  · rw [if_pos hself]
    have hother : Function.update (touching l) entry.fromAddr
        (touching l entry.fromAddr ++ [entry]) entry.toAddress = touching l entry.toAddress :=
      Function.update_of_ne hself _ _
    obtain ⟨hcount', htotal'⟩ := hroom _ (.inr rfl) hto
    rw [← hother] at hcount' htotal' ⊢
    obtain ⟨x'', hx'', htracks'⟩ := htracks.indexAddressEntry hcount' htotal'
    rw [hx'']
    exact htracks'

/-- The entries that touch an address in two parts of a list. -/
theorem touching_append (xs ys : List AddressIndexEntry) (addr : Bytes) :
    touching (xs ++ ys) addr = touching xs addr ++ touching ys addr :=
  List.filter_append xs ys

theorem total_append (xs ys : List AddressIndexEntry) : total (xs ++ ys) = total xs + total ys := by
  unfold total
  rw [List.map_append, List.sum_append]

theorem Room.of_append {xs ys : List AddressIndexEntry}
    (h : Room (xs ++ ys) addr) : Room xs addr := by
  unfold Room at h ⊢
  rw [touching_append, List.length_append, total_append] at h
  omega

/-- Entries that are worth something are no more than their amounts, so that the totals have
room only if the count has. -/
theorem room_of_total_lt {l : List AddressIndexEntry}
    (hpos : ∀ e ∈ l, e.amount ≠ 0) (h : total (touching l addr) < 2 ^ 64) : Room l addr := by
  have hle : (touching l addr).length ≤ total (touching l addr) := by
    rw [← List.length_map (·.amount.toNat)]
    refine List.length_le_sum_of_one_le _ fun n hn => ?_
    obtain ⟨e, he, rfl⟩ := List.mem_map.mp hn
    have hne : e.amount.toNat ≠ 0 := fun h0 => hpos e (List.mem_of_mem_filter he)
      (UInt64.toNat_inj.mp h0)
    omega
  exact ⟨hle.trans_lt h, h⟩

/-- **A list of entries keeps the database exact**, if there is room for all of them. -/
theorem Tracks.foldl_indexEntry :
    ∀ {entries l : List AddressIndexEntry} {x : AddressIndex}, x.Tracks (touching l) →
      (∀ e ∈ entries, Room (l ++ entries) e.fromAddr ∧ Room (l ++ entries) e.toAddress) →
      (entries.foldl AddressIndex.indexEntry x).Tracks (touching (l ++ entries))
  | [], l, x, h, _ => by
    rw [List.append_nil]
    exact h
  | entry :: entries, l, x, h, hroom => by
    rw [List.append_cons] at hroom ⊢
    have hentry := hroom entry List.mem_cons_self
    refine Tracks.foldl_indexEntry
      (h.indexEntry (Room.of_append hentry.1) (Room.of_append hentry.2)) ?_
    exact fun e he => hroom e (List.mem_cons_of_mem entry he)

end AddressIndex

end NogoChain
