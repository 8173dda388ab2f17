import NogoChain.Core.Ledger

/-!
# Downloads of a range of blocks

`BatchDownloadBlocks` asks for ten heights at a time and hands every block it is sent to the store
function. It succeeds if as many blocks were stored as heights were asked for; of which heights
they are it does not ask. `batchDownloadBlocks` has the store function of the sync loop; here it
is any. The count says that all heights are there if the store function takes blocks of the range
only and none of a height it has taken before, whatever else the peers send.
-/

namespace NogoChain

/-- What `BatchDownloadBlocks` is given. -/
structure DownloadEnv where
  /-- `ctx.Err()` before a request -/
  ctxErr : Nat → Option GoError
  /-- `FetchBlocksByHeightRange`, by the number of the request -/
  fetch : Nat → UInt64 → UInt64 → Except GoError (List Block)
  /-- `storeFunc`, after the blocks that were handed to it before -/
  store : List Block → Block → Option GoError

namespace DownloadEnv

variable (env : DownloadEnv)

/-- The requests of a batch, the first of them with number `n`. -/
def fetchBatch (batchStart batchEnd : UInt64) : Nat → Nat → Except GoError (List Block × Nat)
  | 0, n => .ok ([], n)
  | retries + 1, n =>
    match env.ctxErr n with
    | some e => .error e
    | none =>
      match env.fetch n batchStart (batchEnd - batchStart + 1) with
      | .ok blocks => .ok (blocks, n + 1)
      | .error e =>
        if retries = 0 then
          .error (.wrap "failed to fetch blocks %d-%d after %d retries: %w"
            [.num batchStart.toNat, .num batchEnd.toNat, .num 3] e)
        else fetchBatch batchStart batchEnd retries (n + 1)

/-- The blocks handed to the store function and those it took, with a batch added. -/
def storeBatch (s : List Block × List Block) (blocks : List Block) : List Block × List Block :=
  blocks.foldl (fun s b =>
    (s.1 ++ [b], if (env.store s.1 b).isNone then s.2 ++ [b] else s.2)) s

/-- The loop of `BatchDownloadBlocks`, for at most `fuel` batches. The height may run over. -/
def downloadLoop (stop : UInt64) : Nat → UInt64 → Nat → List Block × List Block →
    Option (Except GoError (List Block))
  | 0, _, _, _ => none
  | fuel + 1, batchStart, n, s =>
    if batchStart < stop then
      let batchEnd := if batchStart + 10 - 1 ≥ stop then stop - 1 else batchStart + 10 - 1
      match env.fetchBatch batchStart batchEnd 3 n with
      | .error e => some (.error e)
      | .ok (blocks, n) => downloadLoop stop fuel (batchStart + 10) n (env.storeBatch s blocks)
    else some (.ok s.2)

/-- `BatchDownloadBlocks`; the result is the list of the blocks that were stored. -/
def batchDownloadBlocks (fuel : Nat) (startHeight count : UInt64) :
    Option (Except GoError (List Block)) :=
  (env.downloadLoop (startHeight + count) fuel startHeight 0 ([], [])).map fun r =>
    r.bind fun stored =>
      if UInt64.ofNat stored.length < count then
        .error (.errorf "incomplete sync: %d/%d blocks stored"
          [.num stored.length, .num count.toNat])
      else .ok stored

/-- **Answers of honest peers**: blocks of the heights asked for, none of them twice. -/
def Exact : Prop :=
  ∀ n start count blocks, env.fetch n start count = .ok blocks → (blocks.map (·.height.toNat)).Nodup
    ∧ ∀ b ∈ blocks, start ≤ b.height ∧ b.height.toNat < start.toNat + count.toNat

variable {env}

theorem fetchBatch_exact (h : env.Exact) {batchStart batchEnd : UInt64} {retries n n' : Nat}
    {blocks : List Block} (hr : env.fetchBatch batchStart batchEnd retries n = .ok (blocks, n')) :
    (blocks.map (·.height.toNat)).Nodup ∧ ∀ b ∈ blocks, batchStart ≤ b.height
      ∧ b.height.toNat < batchStart.toNat + (batchEnd - batchStart + 1).toNat := by
  induction retries generalizing n with
  | zero =>
    cases hr
    simp
  | succ retries ih =>
    unfold fetchBatch at hr
    split at hr
    · cases hr
    · split at hr
      · cases hr
        exact h _ _ _ _ ‹_›
      · split at hr
        · cases hr
        · exact ih hr

/-- What is stored of a batch is a part of it. -/
theorem storeBatch_stored (s : List Block × List Block) (blocks : List Block) :
    ∃ l, l.Sublist blocks ∧ (env.storeBatch s blocks).2 = s.2 ++ l := by
  induction blocks generalizing s with
  | nil => exact ⟨[], .slnil, (List.append_nil _).symm⟩
  | cons b blocks ih =>
    obtain ⟨l, hl, heq⟩ := ih (s.1 ++ [b], if (env.store s.1 b).isNone then s.2 ++ [b] else s.2)
    by_cases hb : (env.store s.1 b).isNone = true
    · refine ⟨b :: l, hl.cons_cons b, heq.trans ?_⟩
      simp [hb]
    · exact ⟨l, hl.cons b, heq.trans (by simp [hb])⟩

/-- **Blocks stored once**: of heights of the range, no two of them the same. -/
structure StoredOnce (start stop : Nat) (stored : List Block) : Prop where
  nodup : (stored.map (·.height.toNat)).Nodup
  range : ∀ b ∈ stored, start ≤ b.height.toNat ∧ b.height.toNat < stop

/-- A batch does not go past the end of the range, or into the next one. -/
theorem batch_le {batchStart stop : UInt64} (hlt : batchStart < stop)
    (hroom : batchStart.toNat + 10 < 2 ^ 64) :
    let batchEnd := if batchStart + 10 - 1 ≥ stop then stop - 1 else batchStart + 10 - 1
    (batchStart + 10).toNat = batchStart.toNat + 10
      ∧ batchStart.toNat + (batchEnd - batchStart + 1).toNat ≤ stop.toNat
      ∧ batchStart.toNat + (batchEnd - batchStart + 1).toNat ≤ batchStart.toNat + 10 := by
  have h1 : (1 : UInt64).toNat = 1 := rfl
  have h10 : (10 : UInt64).toNat = 10 := rfl
  simp only [ge_iff_le, UInt64.lt_iff_toNat_lt, UInt64.le_iff_toNat_le] at hlt ⊢
  split <;> next hge =>
    simp only [UInt64.toNat_add, UInt64.toNat_sub, h1, h10] at hge ⊢
    omega

/-- What honest peers send is stored once. The loop has come to the batch after the `k`-th, which
does not wrap around. -/
theorem downloadLoop_storedOnce (h : env.Exact) {start count k : Nat} {stop : UInt64}
    (hstop : stop.toNat = start + count) (hroom : start + (count + 9) / 10 * 10 < 2 ^ 64)
    {fuel n : Nat} {batchStart : UInt64} {s : List Block × List Block} {stored : List Block}
    (hstart : batchStart.toNat = start + 10 * k) (hs : StoredOnce start stop.toNat s.2)
    (hbelow : ∀ b ∈ s.2, b.height.toNat < batchStart.toNat)
    (hr : env.downloadLoop stop fuel batchStart n s = some (.ok stored)) :
    StoredOnce start stop.toNat stored := by
  induction fuel generalizing batchStart n s k with
  | zero => cases hr
  | succ fuel ih =>
    unfold downloadLoop at hr
    split at hr
    · next hlt =>
      dsimp only at hr
      split at hr
      · cases hr
      · next blocks n' hfetch =>
        have hroom' : batchStart.toNat + 10 < 2 ^ 64 := by
          rw [UInt64.lt_iff_toNat_lt] at hlt
          omega
        obtain ⟨hadd, hstop', hnext⟩ := batch_le hlt hroom'
        obtain ⟨hnodup, hrange⟩ := fetchBatch_exact h hfetch
        obtain ⟨l, hl, heq⟩ : ∃ l, l.Sublist blocks ∧ (env.storeBatch s blocks).2 = s.2 ++ l :=
          storeBatch_stored s blocks
        have hbatch : ∀ b ∈ l, batchStart.toNat ≤ b.height.toNat ∧ b.height.toNat < stop.toNat
            ∧ b.height.toNat < batchStart.toNat + 10 := by
          intro b hb
          obtain ⟨h₁, h₂⟩ := hrange b (hl.subset hb)
          exact ⟨h₁, h₂.trans_le hstop', h₂.trans_le hnext⟩
        refine ih (k := k + 1) (by omega) ⟨?_, ?_⟩ ?_ hr
        · rw [heq, List.map_append, List.nodup_append]
          refine ⟨hs.nodup, hnodup.sublist (hl.map _), ?_⟩
          -- what was stored before is below the batch
          simp only [List.mem_map]
          rintro _ ⟨a, ha, rfl⟩ _ ⟨b, hb, rfl⟩ heq
          have hlt := hbelow a ha
          rw [heq] at hlt
          exact absurd hlt (Nat.not_lt.mpr (hbatch b hb).1)
        · rw [heq]
          refine List.forall_mem_append.mpr ⟨hs.range, fun b hb => ?_⟩
          obtain ⟨h₁, h₂, -⟩ := hbatch b hb
          exact ⟨by omega, h₂⟩
        · rw [heq, hadd]
          refine List.forall_mem_append.mpr ⟨fun b hb => ?_, fun b hb => (hbatch b hb).2.2⟩
          exact (hbelow b hb).trans_le (Nat.le_add_right _ _)
    · cases hr
      exact hs

/-- Blocks stored once that are as many as the heights are of all heights. -/
theorem StoredOnce.complete {start count : Nat} {stored : List Block}
    (h : StoredOnce start (start + count) stored) (hcount : count ≤ stored.length) {height : Nat}
    (hlow : start ≤ height) (hhigh : height < start + count) :
    ∃ b ∈ stored, b.height.toNat = height := by
  have hsub : stored.map (·.height.toNat) ⊆ List.range' start count := by
    intro k hk
    obtain ⟨b, hb, rfl⟩ := List.mem_map.mp hk
    exact List.mem_range'_1.mpr (h.range b hb)
  have hperm := (List.subperm_of_subset h.nodup hsub).perm_of_length_le
    (by rwa [List.length_range', List.length_map])
  exact List.mem_map.mp (hperm.mem_iff.mpr (List.mem_range'_1.mpr ⟨hlow, hhigh⟩))

/-- As many blocks as there are heights that are of all heights are stored once. -/
theorem storedOnce_of_complete {start count : Nat} {stored : List Block}
    (hcount : stored.length = count)
    (h : ∀ height, start ≤ height → height < start + count →
      ∃ b ∈ stored, b.height.toNat = height) :
    StoredOnce start (start + count) stored := by
  have hsub : List.range' start count ⊆ stored.map (·.height.toNat) := by
    intro k hk
    obtain ⟨hlow, hhigh⟩ := List.mem_range'_1.mp hk
    exact List.mem_map.mpr (h k hlow hhigh)
  have hperm := (List.subperm_of_subset (List.nodup_range' 1) hsub).perm_of_length_le
    (by rw [List.length_range', List.length_map, hcount])
  exact ⟨hperm.nodup_iff.mp (List.nodup_range' 1), fun b hb =>
    List.mem_range'_1.mp (hperm.mem_iff.mpr (List.mem_map_of_mem hb))⟩

/-- **The download is complete** if the store function takes blocks of the range only, and none of a
height it has taken before: when it succeeds, a block of every height of the range has been
stored. Where no more blocks are stored than were asked for there is no other way, and what honest
peers send is stored once as long as the last batch does not wrap around. -/
theorem batchDownloadBlocks_complete (env : DownloadEnv) (fuel : Nat)
    (startHeight count : UInt64) (hroom : startHeight.toNat + count.toNat < 2 ^ 64)
    {stored : List Block}
    (hr : env.batchDownloadBlocks fuel startHeight count = some (.ok stored)) :
    let stop := startHeight.toNat + count.toNat
    (StoredOnce startHeight.toNat stop stored → ∀ height, startHeight.toNat ≤ height →
        height < stop → ∃ b ∈ stored, b.height.toNat = height)
      ∧ (stored.length = count.toNat → (∀ height, startHeight.toNat ≤ height → height < stop →
          ∃ b ∈ stored, b.height.toNat = height) → StoredOnce startHeight.toNat stop stored)
      ∧ (env.Exact → startHeight.toNat + (count.toNat + 9) / 10 * 10 < 2 ^ 64 →
          StoredOnce startHeight.toNat stop stored) := by
  have hstop : (startHeight + count).toNat = startHeight.toNat + count.toNat := by
    rw [UInt64.toNat_add, Nat.mod_eq_of_lt hroom]
  obtain ⟨r, hloop, hr⟩ := Option.map_eq_some_iff.mp hr
  cases r with
  | error e => cases hr
  | ok all =>
    change (if UInt64.ofNat all.length < count then _ else Except.ok all) = _ at hr
    split at hr
    · cases hr
    · next hcount =>
      cases hr
      rw [UInt64.lt_iff_toNat_lt, UInt64.toNat_ofNat'] at hcount
      have hle : count.toNat ≤ stored.length := by
        have := Nat.mod_le stored.length (2 ^ 64)
        omega
      refine ⟨fun h _ => h.complete hle, fun hlength => storedOnce_of_complete hlength, ?_⟩
      intro h hlast
      rw [← hstop]
      have hnone : StoredOnce startHeight.toNat (startHeight + count).toNat [] :=
        ⟨List.nodup_nil, List.forall_mem_nil _⟩
      exact downloadLoop_storedOnce h (k := 0) hstop hlast rfl hnone (List.forall_mem_nil _) hloop

/-- A peer that answers the request for heights 1 and 2 with these blocks, of which those up to
height 2 are stored. -/
def peerWith (blocks : List Block) : DownloadEnv where
  ctxErr _ := none
  fetch _ start count := if start = 1 ∧ count = 2 then .ok blocks else .error (.new "not found")
  store _ b := if b.height > 2 then some (.new "unknown parent") else none

/-- Blocks 1 and 2, with one of height 7 between them. -/
def spacedBlocks : List Block :=
  [sampleBlock [1] [] 1 1 [], sampleBlock [7] [6] 7 1 [], sampleBlock [2] [1] 2 1 []]

/-- The block of height 7 does no harm, as it is not stored. -/
theorem batchDownloadBlocks_complete_two :
    ∃ stored, (peerWith spacedBlocks).batchDownloadBlocks 2 1 2 = some (.ok stored)
      ∧ ∃ b ∈ stored, b.height.toNat = 2 :=
  ⟨_, rfl, (batchDownloadBlocks_complete (peerWith spacedBlocks) 2 1 2 (by decide) rfl).1
    ⟨by decide +kernel, by decide +kernel⟩ 2 (by decide) (by decide)⟩

/-- **One block twice**: block 1 is sent and stored two times, and the download of heights 1 and 2
succeeds. -/
theorem batchDownloadBlocks_incomplete :
    ∃ stored, (peerWith (List.replicate 2 (sampleBlock [1] [] 1 1 []))).batchDownloadBlocks 2 1 2
        = some (.ok stored) ∧ ∀ b ∈ stored, b.height ≠ 2 :=
  ⟨_, rfl, by decide +kernel⟩

end DownloadEnv

end NogoChain
