import NogoChain.Checkpoint.Voting

/-!
# What a call does to the votes

A call signs or receives at most one vote, and finalises at most one record. This module says
so once for each of the two calls – `voterAfter_signCheckpoint` and
`voterAfter_receiveVote` –, and what a record that is finalised is made of: all votes of its
height for its hash, at least two of them.

The threshold of 67 % plays no part in that. It is only looked at when no hash has two
votes, and one vote out of two or more does not reach it.
-/

namespace NogoChain

open Prog

variable (env : VoterEnv)

/-- The votes of a height with their identifiers, as a list. -/
def CheckpointVoter.voteList (cv : CheckpointVoter) (height : UInt64) :
    List (Bytes × CheckpointVote) :=
  (cv.votesAt height).entries.map fun e => (e.1, e.2)

/-- `cv'` has the votes, records and keys of `cv`; the clock and the store may differ. -/
structure SameVotes (cv cv' : CheckpointVoter) : Prop where
  votes : cv'.votes = cv.votes
  finalized : cv'.finalized = cv.finalized
  publicKey : cv'.publicKey = cv.publicKey
  validatorID : cv'.validatorID = cv.validatorID

/-- **A record is finalised** at `height` from the votes of `cv`. If the text of its hash is
too short for the log line, the votes of the height stay. -/
structure Finalizes (cv cv' : CheckpointVoter) (height : UInt64) (record : CheckpointRecord) :
    Prop where
  height_eq : record.height = height
  /-- it has the signatures of all votes for its hash -/
  signatures : record.signatures.Perm (signaturesFor record.blockHash (cv.voteList height))
  /-- it is the last record -/
  finalized : cv'.finalized = record :: cv.finalized
  /-- the votes of the height are dropped -/
  votes : cv'.votes = if record.blockHash.length < 16 then cv.votes else cv.votes.erase height
  publicKey : cv'.publicKey = cv.publicKey
  validatorID : cv'.validatorID = cv.validatorID

/-- The vote under an identifier. -/
def CheckpointVoter.Holds (cv : CheckpointVoter) (height : UInt64) (id : Bytes)
    (vote : CheckpointVote) : Prop :=
  (cv.votesAt height).lookup id = some vote

/-! ## Finalising -/

section After

variable {α β : Type} {m : VoterM α} {cv cv' : CheckpointVoter} {a : α}

theorem voterAfter_of_ret (h : m cv = .ret a cv') : voterAfter m cv = cv' := by
  rw [voterAfter, h]

theorem voterAfter_bind (f : α → VoterM β) (h : m cv = .ret a cv') :
    voterAfter (m >>= f) cv = voterAfter (f a) cv' := by
  rw [voterAfter, bind_apply, h]
  rfl

/-- A log line changes nothing, whether it panics or not. -/
theorem voterAfter_textPrefix16 (expr : String) (s : Bytes) (h : voterAfter m cv = cv) :
    voterAfter (textPrefix16 expr s >>= fun _ => m) cv = cv := by
  unfold textPrefix16
  split
  · rfl
  · rw [voterAfter_bind _ (pure_apply _ _)]
    exact h

end After

theorem askVoter_apply (cv : CheckpointVoter) :
    askVoter cv = .ret cv.tick { cv with tick := cv.tick + 1 } := rfl

theorem rangeOver_apply {κ ν : Type} (m : GoMap κ ν) (cv : CheckpointVoter) :
    rangeOver env m cv = .ret (env.order cv.tick (m.entries.map fun e => (e.1, e.2)))
      { cv with tick := cv.tick + 1 } := rfl

/-- Writing to the store leaves the votes alone, and returns. -/
theorem persistRecord_ret (record : CheckpointRecord) (cv : CheckpointVoter) :
    ∃ cv', persistRecord env record cv = .ret () cv' ∧ SameVotes cv cv' := by
  unfold persistRecord
  rw [get_bind_apply]
  cases cv.store with
  | none => exact ⟨cv, rfl, ⟨rfl, rfl, rfl, rfl⟩⟩
  | some saved =>
    dsimp only
    rw [bind_apply, askVoter_apply]
    dsimp only
    cases env.writeOk cv.tick with
    | false | true => exact ⟨_, rfl, ⟨rfl, rfl, rfl, rfl⟩⟩

theorem voterAfter_finalizeLocked (height : UInt64) (blockHash : Bytes) (cv : CheckpointVoter) :
    ∃ record, record.blockHash = blockHash
      ∧ Finalizes cv (voterAfter (finalizeLocked env height blockHash) cv) height record := by
  unfold voterAfter finalizeLocked
  simp only [bind_apply, get_apply, rangeOver_apply, askVoter_apply,
    modify_apply]
  generalize hrecord : CheckpointRecord.mk height blockHash _ _ _ _ = record
  obtain ⟨cv', hpersist, hsame⟩ := persistRecord_ret env record { cv with
      latestCheckpoint := some record
      pendingRecords := cv.pendingRecords.insert height record
      finalized := record :: cv.finalized
      tick := cv.tick + 1 + 1 }
  rw [hpersist]
  have hhash : record.blockHash = blockHash := by rw [← hrecord]
  have hsignatures : record.signatures.Perm
      (signaturesFor record.blockHash (cv.voteList height)) := by
    rw [hhash, ← hrecord]
    exact ((env.order_perm _ _).filter _).map _
  refine ⟨record, hhash, ?_⟩
  dsimp only
  unfold textPrefix16
  rw [← hhash]
  by_cases hshort : record.blockHash.length < 16
  · rw [if_pos hshort, throw_apply]
    refine ⟨by rw [← hrecord], hsignatures, hsame.finalized, ?_, hsame.publicKey,
      hsame.validatorID⟩
    rw [if_pos hshort]
    exact hsame.votes
  · rw [if_neg hshort, pure_apply]
    refine ⟨by rw [← hrecord], hsignatures, hsame.finalized, ?_, hsame.publicKey,
      hsame.validatorID⟩
    rw [if_neg hshort]
    exact congrArg (fun m => m.erase height) hsame.votes

/-! ## Counting -/

/-- The number of votes for a hash. -/
def votesFor (blockHash : Bytes) (votes : List (Bytes × CheckpointVote)) : Nat :=
  (votes.filter (·.2.blockHash = blockHash)).length

theorem length_signaturesFor (blockHash : Bytes) (votes : List (Bytes × CheckpointVote)) :
    (signaturesFor blockHash votes).length = votesFor blockHash votes := by
  rw [signaturesFor, List.length_map, votesFor]

/-- The hash at which the loop stops has the quorum: the counts are those of the votes seen
before. -/
theorem countVotes_eq_inl {blockHash : Bytes} :
    ∀ {votes seen : List (Bytes × CheckpointVote)} {hashCounts : GoMap Bytes Nat},
      (∀ h, (hashCounts.lookup h).getD 0 = votesFor h seen) →
      countVotes votes hashCounts = .inl blockHash →
      checkpointMinVotes ≤ votesFor blockHash (seen ++ votes) := by
  intro votes
  induction votes with
  | nil => exact fun _ h => nomatch h
  | cons v votes ih =>
    intro seen hashCounts hcounts h
    rw [countVotes] at h
    have hsnoc : ∀ k, votesFor k (seen ++ [v])
        = votesFor k seen + if v.2.blockHash = k then 1 else 0 := by
      intro k
      by_cases hk : v.2.blockHash = k <;> simp [hk, votesFor]
    rw [List.append_cons]
    split at h
    · next hquorum =>
      rw [hcounts] at hquorum
      cases h
      have hmono : votesFor v.2.blockHash (seen ++ [v])
          ≤ votesFor v.2.blockHash (seen ++ [v] ++ votes) :=
        ((List.sublist_append_left _ _).filter _).length_le
      rw [hsnoc, if_pos rfl] at hmono
      exact Nat.le_trans hquorum hmono
    · refine ih ?_ h
      intro k
      rw [GoMap.lookup_insert, hsnoc]
      split
      · next hk =>
        rw [if_pos hk.symm, hk, ← hcounts]
        rfl
      · next hk =>
        rw [if_neg (Ne.symm hk), hcounts, Nat.add_zero]

/-- If the loop does not stop, no hash has two votes. -/
theorem countVotes_eq_inr {hashCounts' : GoMap Bytes Nat} :
    ∀ {votes : List (Bytes × CheckpointVote)} {hashCounts : GoMap Bytes Nat},
      (∀ e ∈ hashCounts.entries, e.2 ≤ 1) → countVotes votes hashCounts = .inr hashCounts' →
      ∀ e ∈ hashCounts'.entries, e.2 ≤ 1 := by
  intro votes
  induction votes with
  | nil =>
    intro hashCounts hle h
    cases h
    exact hle
  | cons v votes ih =>
    intro hashCounts hle h
    rw [countVotes] at h
    split at h
    · cases h
    · next hquorum =>
      refine ih ?_ h
      rintro ⟨k, c⟩ he
      have hlookup := GoMap.mem_entries_iff.mp he
      rw [GoMap.lookup_insert] at hlookup
      split at hlookup
      · rw [← Option.some.inj hlookup]
        exact Nat.le_of_lt_succ (Nat.not_le.mp hquorum)
      · exact hle ⟨k, c⟩ (GoMap.mem_entries_iff.mpr hlookup)

theorem bestCount_le {counts : List (Bytes × Nat)} {n : Nat} (h : ∀ e ∈ counts, e.2 ≤ n) :
    (bestCount counts).2 ≤ n := by
  refine List.foldlRecOn (motive := fun best : Bytes × Nat => best.2 ≤ n) counts _
    (Nat.zero_le n) ?_
  intro best hbest e he
  split
  · exact h e he
  · exact hbest

/-- One vote out of two or more is below the threshold. -/
theorem below_thresholdOf {k n : Nat} (hk : k ≤ 1) (hn : 2 ≤ n) :
    ¬ Float64.nearest k * 2 ^ 53 ≥ thresholdOf n := by
  have hnearest : Float64.nearest k ≤ 1 := by
    match k, hk with
    | 0, _ => decide
    | 1, _ => decide
  have hcount := Float64.le_nearest n
  have hproduct := Float64.le_nearest (Float64.nearest n * checkpointThreshold)
  have hlow : 2 * checkpointThreshold ≤ Float64.nearest n * checkpointThreshold :=
    Nat.mul_le_mul_right _ (by omega)
  unfold thresholdOf
  simp only [checkpointThreshold] at hlow hproduct ⊢
  omega

/-! ## The two calls -/

theorem voterAfter_checkQuorumLocked (height : UInt64) (cv : CheckpointVoter) :
    SameVotes cv (voterAfter (checkQuorumLocked env height) cv)
      ∨ ∃ record, checkpointMinVotes ≤ votesFor record.blockHash (cv.voteList height)
        ∧ Finalizes cv (voterAfter (checkQuorumLocked env height) cv) height record := by
  unfold checkQuorumLocked
  rw [voterAfter_bind _ (get_apply cv)]
  by_cases hfew : (cv.votesAt height).entries.length < checkpointMinVotes
  · rw [if_pos hfew, voterAfter_of_ret (pure_apply _ _)]
    exact .inl ⟨rfl, rfl, rfl, rfl⟩
  rw [if_neg hfew, voterAfter_bind _ (rangeOver_apply env _ cv)]
  have hperm := env.order_perm cv.tick (cv.voteList height)
  cases hcount : countVotes (env.order cv.tick (cv.voteList height)) ∅ with
  | inl blockHash =>
    have hquorum : checkpointMinVotes
        ≤ votesFor blockHash ([] ++ env.order cv.tick (cv.voteList height)) :=
      countVotes_eq_inl (fun _ => rfl) hcount
    rw [List.nil_append, votesFor, (hperm.filter _).length_eq] at hquorum
    obtain ⟨record, hhash, hfinal⟩ := voterAfter_finalizeLocked env height blockHash
      { cv with tick := cv.tick + 1 }
    right
    refine ⟨record, hhash ▸ hquorum, ?_⟩
    unfold CheckpointVoter.voteList at hcount
    simp only [hcount]
    exact ⟨hfinal.height_eq, hfinal.signatures, hfinal.finalized, hfinal.votes,
      hfinal.publicKey, hfinal.validatorID⟩
  | inr hashCounts =>
    left
    unfold CheckpointVoter.voteList at hcount
    simp only [hcount]
    rw [voterAfter_bind _ (rangeOver_apply env _ _)]
    -- one vote out of two or more is below the threshold
    have hone : ∀ e ∈ env.order (cv.tick + 1) (hashCounts.entries.map fun e => (e.1, e.2)),
        e.2 ≤ 1 := by
      intro e he
      obtain ⟨e', he', rfl⟩ := List.mem_map.mp ((env.order_perm _ _).mem_iff.mp he)
      exact countVotes_eq_inr (by simp) hcount e' he'
    have hbelow := below_thresholdOf (bestCount_le hone) (Nat.not_lt.mp hfew)
    rw [if_neg hbelow, voterAfter_of_ret (pure_apply _ _)]
    exact ⟨rfl, rfl, rfl, rfl⟩

/-- **Receiving a vote** leaves everything as it is, or puts the vote under the identifier of
its key and perhaps finalises a record of its height. A vote that is put there verifies. -/
theorem voterAfter_receiveVote (vote : Option CheckpointVote) (cv : CheckpointVoter) :
    voterAfter (receiveVote env vote) cv = cv ∨ ∃ v, vote = some v
        ∧ env.cr.ed25519Verify v.pubKey (buildVotePayload env.cr v.height v.blockHash)
            v.signature = true
        ∧ (SameVotes (cv.putVote v.height (voteID env.cr v.pubKey) v)
              (voterAfter (receiveVote env vote) cv)
          ∨ ∃ record, checkpointMinVotes ≤ votesFor record.blockHash
                ((cv.putVote v.height (voteID env.cr v.pubKey) v).voteList v.height)
            ∧ Finalizes (cv.putVote v.height (voteID env.cr v.pubKey) v)
                (voterAfter (receiveVote env vote) cv) v.height record) := by
  cases vote with
  | none => exact .inl rfl
  | some v =>
    rw [receiveVote]
    by_cases hinvalid : v.height = 0 ∨ v.blockHash = []
    · rw [if_pos hinvalid]
      exact .inl rfl
    rw [if_neg hinvalid]
    by_cases hlength : v.pubKey.length ≠ pubKeySize
    · rw [if_pos hlength]
      exact .inl rfl
    rw [if_neg hlength]
    cases hverify : env.cr.ed25519Verify v.pubKey
        (buildVotePayload env.cr v.height v.blockHash) v.signature with
    | false =>
      left
      exact voterAfter_textPrefix16 _ _ rfl
    | true =>
      right
      exact ⟨v, rfl, hverify, voterAfter_checkQuorumLocked env v.height _⟩

/-! ### Signing -/

variable {cv : CheckpointVoter} {height h : UInt64} {i : Bytes} {v : CheckpointVote}

theorem CheckpointVoter.holds_iff {id : Bytes} {vote : CheckpointVote} :
    cv.Holds height id vote
      ↔ ∃ votes, cv.votes.lookup height = some votes ∧ votes.lookup id = some vote := by
  unfold Holds votesAt
  cases cv.votes.lookup height with
  | none | some votes => simp

theorem CheckpointVoter.holds_putVote {id : Bytes} {vote : CheckpointVote}
    (hv : (cv.putVote height id vote).Holds h i v) :
    (h = height ∧ i = id ∧ v = vote) ∨ cv.Holds h i v := by
  unfold Holds votesAt putVote at hv
  rw [GoMap.lookup_insert] at hv
  split at hv
  · next hh =>
    rw [Option.getD_some, GoMap.lookup_insert] at hv
    split at hv
    · next hi => exact .inl ⟨hh, hi, (Option.some.inj hv).symm⟩
    · exact .inr (hh ▸ hv)
  · exact .inr hv

/-- Dropping heights adds no vote. -/
theorem CheckpointVoter.holds_of_foldl_erase {cv' : CheckpointVoter} {old : List UInt64}
    (hvotes : cv'.votes = old.foldl (fun m h => m.erase h) cv.votes)
    (hv : cv'.Holds h i v) : cv.Holds h i v := by
  obtain ⟨votes, hlookup, hi⟩ := holds_iff.mp hv
  rw [hvotes] at hlookup
  exact holds_iff.mpr ⟨votes, GoMap.lookup_of_foldl_erase id hlookup, hi⟩

theorem CheckpointVoter.holds_openHeight
    (hv : (cv.openHeight height).Holds h i v) : cv.Holds h i v := by
  unfold openHeight at hv
  split at hv
  · exact hv
  · next hnone =>
    have hopened : ∀ {h i v}, Holds { cv with votes := cv.votes.insert height ∅ } h i v →
        cv.Holds h i v := by
      intro h i v hv
      obtain ⟨votes, hlookup, hi⟩ := holds_iff.mp hv
      rw [GoMap.lookup_insert] at hlookup
      split at hlookup
      · rw [← Option.some.inj hlookup] at hi
        cases hi
      · exact holds_iff.mpr ⟨votes, hlookup, hi⟩
    dsimp only at hv
    split at hv
    · exact hopened (holds_of_foldl_erase rfl hv)
    · exact hopened hv

/-- **Signing** changes no record and adds at most the node's own vote, under the node's own
identifier. -/
theorem voterAfter_signCheckpoint (height : UInt64) (blockHash : Bytes) (cv : CheckpointVoter) :
    (voterAfter (signCheckpoint env height blockHash) cv).finalized = cv.finalized
      ∧ (voterAfter (signCheckpoint env height blockHash) cv).publicKey = cv.publicKey
      ∧ (voterAfter (signCheckpoint env height blockHash) cv).validatorID = cv.validatorID
      ∧ ∀ {h i v}, (voterAfter (signCheckpoint env height blockHash) cv).Holds h i v →
          cv.Holds h i v
            ∨ (h = height ∧ i = cv.validatorID ∧ v.height = height ∧ v.blockHash = blockHash
              ∧ v.pubKey = cv.publicKey
              ∧ v.signature = env.sign (buildVotePayload env.cr height blockHash)) := by
  unfold signCheckpoint
  rw [voterAfter_bind _ (askVoter_apply cv), voterAfter_bind _ (get_apply _),
    voterAfter_bind _ (modify_apply _ _), voterAfter_bind _ (get_apply _)]
  generalize hcv₁ : CheckpointVoter.openHeight { cv with tick := cv.tick + 1 } height = cv₁
  have hopen : ∀ {h i v}, cv₁.Holds h i v → cv.Holds h i v := by
    intro h i v hv
    rw [← hcv₁] at hv
    have hbefore := CheckpointVoter.holds_openHeight hv
    exact hbefore
  have hsame : cv₁.finalized = cv.finalized ∧ cv₁.publicKey = cv.publicKey
      ∧ cv₁.validatorID = cv.validatorID := by
    rw [← hcv₁]
    unfold CheckpointVoter.openHeight
    split
    · exact ⟨rfl, rfl, rfl⟩
    · dsimp only
      split <;> exact ⟨rfl, rfl, rfl⟩
  split
  · exact ⟨hsame.1, hsame.2.1, hsame.2.2, fun hv => .inl (hopen hv)⟩
  · rw [voterAfter_bind _ (modify_apply _ _)]
    rw [voterAfter_textPrefix16 _ _ rfl]
    refine ⟨hsame.1, hsame.2.1, hsame.2.2, fun hv => ?_⟩
    rcases CheckpointVoter.holds_putVote hv with ⟨rfl, rfl, rfl⟩ | hv
    · exact .inr ⟨rfl, hsame.2.2, rfl, rfl, rfl, rfl⟩
    · exact .inl (hopen hv)

end NogoChain
