import NogoChain.Checkpoint.Quorum

/-!
# Checkpoint records

Two questions about the records a voter finalises: do the signatures of a record come from
as many different keys as the quorum asks for, and can a height get two records that
disagree?

Neither holds without a condition. The node's own vote stands under another identifier than
the same vote when a peer sends it back, and then counts twice; and
`VerifyCheckpointRecord` tells validators apart by the identifier they state, which nobody
checks against the key. Once a record is finalised its votes are dropped and nothing
remembers the hash – `pendingRecords` is written and never read –, so that two more votes
finalise another one.
-/

namespace NogoChain

variable (env : VoterEnv)

/-! ## Runs under a condition -/

/-- Each call of a run meets `cond` in the state before it. -/
def VoterRun (cond : CheckpointVoter → VoterCall → Prop) :
    List VoterCall → CheckpointVoter → Prop
  | [], _ => True
  | call :: calls, cv => cond cv call ∧ VoterRun cond calls (call.exec env cv)

/-- **Run induction.** What every call that meets the condition keeps holds at the end. -/
theorem runVoter_induction {cond : CheckpointVoter → VoterCall → Prop} {I : CheckpointVoter → Prop}
    (hstep : ∀ cv call, cond cv call → I cv → I (call.exec env cv)) :
    ∀ {calls : List VoterCall} {cv : CheckpointVoter},
      VoterRun env cond calls cv → I cv → I (runVoter env calls cv) := by
  intro calls
  induction calls with
  | nil => exact fun _ hI => hI
  | cons call calls ih =>
    intro cv hrun hI
    exact ih hrun.2 (hstep cv call hrun.1 hI)

/-! ## Distinct signers -/

/-- **The quorum**: signatures over height and hash of the record that verify, under `n`
different public keys. -/
def CheckpointRecord.CarriesQuorum (cr : Crypto) (record : CheckpointRecord) (n : Nat) : Prop :=
  ∃ keys : Finset Bytes, n ≤ keys.card ∧ ∀ key ∈ keys, ∃ sig ∈ record.signatures,
    sig.pubKey = key
      ∧ cr.ed25519Verify key (buildVotePayload cr record.height record.blockHash) sig.signature
        = true

/-- Every signature of the record verifies. -/
def CheckpointRecord.Verifies (cr : Crypto) (record : CheckpointRecord) : Prop :=
  ∀ sig ∈ record.signatures, cr.ed25519Verify sig.pubKey
    (buildVotePayload cr record.height record.blockHash) sig.signature = true

/-- The public keys of a record. -/
def CheckpointRecord.pubKeys (record : CheckpointRecord) : List Bytes :=
  record.signatures.map (·.pubKey)

/-- No key stands under two identifiers. -/
def CheckpointRecord.OneName (record : CheckpointRecord) : Prop :=
  ∀ sig ∈ record.signatures, ∀ sig' ∈ record.signatures,
    sig.pubKey = sig'.pubKey → sig.validatorID = sig'.validatorID

/-- A quorum needs as many different keys. -/
theorem CheckpointRecord.CarriesQuorum.le_dedup {cr : Crypto} {record : CheckpointRecord}
    {n : Nat} (h : record.CarriesQuorum cr n) : n ≤ record.pubKeys.dedup.length := by
  obtain ⟨keys, hcard, hkeys⟩ := h
  refine hcard.trans ?_
  have hsub : keys ⊆ record.pubKeys.toFinset := by
    intro key hkey
    obtain ⟨sig, hsig, hpub, _⟩ := hkeys key hkey
    exact List.mem_toFinset.mpr (List.mem_map.mpr ⟨sig, hsig, hpub⟩)
  exact Finset.card_le_card hsub

variable {cr : Crypto} {record : CheckpointRecord} {cv cv' : CheckpointVoter} {height k : UInt64}
  {i : Bytes} {v : CheckpointVote}

/-- If all signatures verify, the different keys are the quorum. -/
theorem CheckpointRecord.Verifies.carriesQuorum_iff (h : record.Verifies cr) (n : Nat) :
    record.CarriesQuorum cr n ↔ n ≤ record.pubKeys.dedup.length := by
  refine ⟨CarriesQuorum.le_dedup, fun hn => ⟨record.pubKeys.toFinset, ?_, ?_⟩⟩
  · exact hn
  · intro key hkey
    obtain ⟨sig, hsig, rfl⟩ := List.mem_map.mp (List.mem_toFinset.mp hkey)
    exact ⟨sig, hsig, rfl, h sig hsig⟩

/-! ### Records that are verified -/

theorem verifies_of_verifySignatures {cr : Crypto} {payload : Bytes} :
    ∀ {sigs : List ValidatorSignature} {seen : List Bytes},
      verifySignatures cr payload sigs seen = .ok () →
      (∀ sig ∈ sigs, cr.ed25519Verify sig.pubKey payload sig.signature = true)
        ∧ sigs.Pairwise (·.validatorID ≠ ·.validatorID)
        ∧ ∀ sig ∈ sigs, sig.validatorID ∉ seen := by
  intro sigs
  induction sigs with
  | nil => exact fun _ => ⟨nofun, .nil, nofun⟩
  | cons s sigs ih =>
    intro seen h
    rw [verifySignatures] at h
    split at h
    · split at h <;> cases h
    next hnew =>
    split at h
    · cases h
    split at h
    · split at h <;> cases h
    next hverify =>
    obtain ⟨hrest, hapart, hunseen⟩ := ih h
    simp only [List.mem_cons, not_or] at hunseen
    exact ⟨List.forall_mem_cons.mpr ⟨by simpa using hverify, hrest⟩,
      hapart.cons fun sig hsig heq => (hunseen sig hsig).1 heq.symm,
      List.forall_mem_cons.mpr ⟨hnew, fun sig hsig => (hunseen sig hsig).2⟩⟩

/-- **What `VerifyCheckpointRecord` establishes**: enough signatures, all of which verify, under
different identifiers. -/
theorem verified_record (h : verifyCheckpointRecord cr (some record) = .ok ()) :
    record.minRequired ≤ record.signatures.length ∧ record.Verifies cr
      ∧ record.signatures.Pairwise (·.validatorID ≠ ·.validatorID) := by
  rw [verifyCheckpointRecord] at h
  split at h
  · cases h
  split at h
  · cases h
  split at h
  · cases h
  next henough =>
  split at h
  · cases h
  · next hsigs =>
    obtain ⟨hverifies, hapart, -⟩ := verifies_of_verifySignatures hsigs
    exact ⟨Nat.not_lt.mp henough, hverifies, hapart⟩

/-- Under different identifiers, the keys are different if none stands under two. -/
theorem CheckpointRecord.oneName_iff
    (h : record.signatures.Pairwise (·.validatorID ≠ ·.validatorID)) :
    record.OneName ↔ record.pubKeys.Nodup := by
  constructor
  · intro hone
    refine List.pairwise_map.mpr (h.imp_of_mem fun {a b} ha hb hne heq => ?_)
    exact hne (hone a ha b hb heq)
  · intro hnodup sig hsig sig' hsig' heq
    rw [List.inj_on_of_nodup_map hnodup hsig hsig' heq]

/-! ### Records that are finalised -/

theorem CheckpointVoter.mem_voteList {id : Bytes}
    {vote : CheckpointVote} : (id, vote) ∈ cv.voteList height ↔ cv.Holds height id vote := by
  unfold voteList Holds
  rw [← GoMap.mem_entries_iff, List.mem_map]
  constructor
  · rintro ⟨⟨i, v⟩, he, heq⟩
    cases heq
    exact he
  · exact fun he => ⟨⟨id, vote⟩, he, rfl⟩

theorem CheckpointVoter.nodup_voteList (cv : CheckpointVoter) (height : UInt64) :
    ((cv.voteList height).map Prod.fst).Nodup := by
  unfold voteList
  rw [List.map_map]
  exact (cv.votesAt height).nodupKeys

/-- After a record is finalised there are no other votes than before. -/
theorem Finalizes.holds (h : Finalizes cv cv' height record)
    (hv : cv'.Holds k i v) : cv.Holds k i v := by
  obtain ⟨votes, hlookup, hi⟩ := CheckpointVoter.holds_iff.mp hv
  rw [h.votes] at hlookup
  split at hlookup
  · exact CheckpointVoter.holds_iff.mpr ⟨votes, hlookup, hi⟩
  · exact CheckpointVoter.holds_iff.mpr ⟨votes, GoMap.lookup_of_erase hlookup, hi⟩

theorem SameVotes.holds (h : SameVotes cv cv') (hv : cv'.Holds k i v) : cv.Holds k i v := by
  obtain ⟨votes, hlookup, hi⟩ := CheckpointVoter.holds_iff.mp hv
  exact CheckpointVoter.holds_iff.mpr ⟨votes, h.votes ▸ hlookup, hi⟩

/-- The identifier of the votes of a key: the node's own one, or the hash of the key. -/
def slot (cr : Crypto) (publicKey validatorID pubKey : Bytes) : Bytes :=
  if pubKey = publicKey then validatorID else voteID cr pubKey

/-- **The votes are attributed**: each verifies, for the height it stands at, and stands under
the one identifier of its key. -/
def Attributed (cr : Crypto) (publicKey validatorID : Bytes) (cv : CheckpointVoter) : Prop :=
  ∀ {h i v}, cv.Holds h i v → v.height = h
    ∧ cr.ed25519Verify v.pubKey (buildVotePayload cr h v.blockHash) v.signature = true
    ∧ i = slot cr publicKey validatorID v.pubKey

/-- **A record made of attributed votes** has signatures that verify, under different keys. -/
theorem Finalizes.distinct {publicKey validatorID : Bytes}
    (h : Finalizes cv cv' height record) (hvotes : Attributed cr publicKey validatorID cv) :
    record.Verifies cr ∧ record.pubKeys.Nodup := by
  constructor
  · intro sig hsig
    obtain ⟨⟨i, v⟩, hv, rfl⟩ := List.mem_map.mp (h.signatures.mem_iff.mp hsig)
    obtain ⟨hmem, hhash⟩ := List.mem_filter.mp hv
    have hhash : v.blockHash = record.blockHash := of_decide_eq_true hhash
    obtain ⟨_, hverify, _⟩ := hvotes (CheckpointVoter.mem_voteList.mp hmem)
    rw [h.height_eq, ← hhash]
    exact hverify
  · have hkeys : record.pubKeys.Perm
        (((cv.voteList height).filter (·.2.blockHash = record.blockHash)).map (·.2.pubKey)) := by
      have hmap := h.signatures.map (·.pubKey)
      rw [signaturesFor, List.map_map] at hmap
      exact hmap
    rw [hkeys.nodup_iff]
    -- the identifiers are different, and the key determines the identifier
    have hids : (((cv.voteList height).filter (·.2.blockHash = record.blockHash)).map
        Prod.fst).Nodup :=
      (cv.nodup_voteList height).sublist ((List.filter_sublist).map Prod.fst)
    have hslots : ((cv.voteList height).filter (·.2.blockHash = record.blockHash)).map Prod.fst
        = (((cv.voteList height).filter (·.2.blockHash = record.blockHash)).map
            (·.2.pubKey)).map (slot cr publicKey validatorID) := by
      rw [List.map_map]
      refine List.map_congr_left fun e he => ?_
      exact (hvotes (CheckpointVoter.mem_voteList.mp (List.mem_filter.mp he).1)).2.2
    rw [hslots] at hids
    exact hids.of_map

/-- The invariant: keys unchanged, votes attributed, records with a quorum of different keys. -/
structure DistinctSigners (cr : Crypto) (publicKey validatorID : Bytes) (cv : CheckpointVoter) :
    Prop where
  publicKey_eq : cv.publicKey = publicKey
  validatorID_eq : cv.validatorID = validatorID
  votes : Attributed cr publicKey validatorID cv
  /-- the records are made of different signers -/
  records : ∀ record ∈ cv.finalized, record.Verifies cr ∧ record.pubKeys.Nodup
    ∧ checkpointMinVotes ≤ record.signatures.length

/-- **No echo**: a vote that is received does not carry the node's own key, unless both ways
to compute its identifier agree. -/
def NoEcho (cr : Crypto) (cv : CheckpointVoter) : VoterCall → Prop
  | .receiveVote (some vote) =>
    vote.pubKey ≠ cv.publicKey ∨ voteID cr cv.publicKey = cv.validatorID
  | _ => True

theorem DistinctSigners.exec {publicKey validatorID : Bytes}
    (hkey : ∀ m, env.cr.ed25519Verify publicKey m (env.sign m) = true) (cv : CheckpointVoter)
    (call : VoterCall) (hcond : NoEcho env.cr cv call)
    (hI : DistinctSigners env.cr publicKey validatorID cv) :
    DistinctSigners env.cr publicKey validatorID (call.exec env cv) := by
  cases call with
  | signCheckpoint height blockHash =>
    obtain ⟨hrecords, hpub, hid, hvotes⟩ := voterAfter_signCheckpoint env height blockHash cv
    refine ⟨hpub.trans hI.publicKey_eq, hid.trans hI.validatorID_eq, fun hv => ?_,
      fun record hr => hI.records record (hrecords ▸ hr)⟩
    rcases hvotes hv with hv | ⟨rfl, rfl, hheight, hhash, hown, hsig⟩
    · exact hI.votes hv
    · rw [hheight, hhash, hown, hsig, hI.publicKey_eq, slot, if_pos rfl]
      exact ⟨rfl, hkey _, hI.validatorID_eq⟩
  | receiveVote vote =>
    rcases voterAfter_receiveVote env vote cv with hsame | ⟨v, rfl, hverify, hafter⟩
    · show DistinctSigners env.cr publicKey validatorID (voterAfter (receiveVote env vote) cv)
      rw [hsame]
      exact hI
    · -- the vote stands under the identifier of its key
      have hput : Attributed env.cr publicKey validatorID
          (cv.putVote v.height (voteID env.cr v.pubKey) v) := by
        intro h i w hw
        rcases CheckpointVoter.holds_putVote hw with ⟨rfl, rfl, rfl⟩ | hw
        · refine ⟨rfl, hverify, ?_⟩
          unfold slot
          split
          · next hown =>
            rcases hcond with hne | heq
            · exact absurd (hown.trans hI.publicKey_eq.symm) hne
            · rw [hown, ← hI.publicKey_eq, heq, hI.validatorID_eq]
          · rfl
        · exact hI.votes hw
      rcases hafter with hsame | ⟨record, hquorum, hfinal⟩
      · exact ⟨hsame.publicKey.trans hI.publicKey_eq, hsame.validatorID.trans hI.validatorID_eq,
          fun hv => hput (hsame.holds hv),
          fun record hr => hI.records record (hsame.finalized ▸ hr)⟩
      · refine ⟨hfinal.publicKey.trans hI.publicKey_eq, hfinal.validatorID.trans hI.validatorID_eq,
          fun hv => hput (hfinal.holds hv), fun r hr => ?_⟩
        have hr : r ∈ (voterAfter (receiveVote env (some v)) cv).finalized := hr
        rw [hfinal.finalized] at hr
        rcases List.mem_cons.mp hr with rfl | hr
        · obtain ⟨hverifies, hnodup⟩ := hfinal.distinct hput
          refine ⟨hverifies, hnodup, ?_⟩
          rw [hfinal.signatures.length_eq, length_signaturesFor]
          exact hquorum
        · exact hI.records r hr

/-- **Distinct signers.** In a run without echoes every record that is finalised has a quorum
of different keys, and all its signatures count. A record that `VerifyCheckpointRecord`
accepts has one if no key stands under two identifiers; and where every signature is needed,
only then. -/
theorem carriesQuorum_of_noEcho (publicKey validatorID : Bytes) (store : Option (Option Bytes))
    (hkey : ∀ m, env.cr.ed25519Verify publicKey m (env.sign m) = true) (calls : List VoterCall)
    (hrun : VoterRun env (NoEcho env.cr) calls (newCheckpointVoter publicKey validatorID store)) :
    (∀ record ∈ (runVoter env calls (newCheckpointVoter publicKey validatorID store)).finalized,
        record.CarriesQuorum env.cr checkpointMinVotes
          ∧ record.CarriesQuorum env.cr record.signatures.length)
      ∧ ∀ record, verifyCheckpointRecord env.cr (some record) = .ok () →
          (record.OneName → record.CarriesQuorum env.cr record.minRequired)
            ∧ (record.signatures.length = record.minRequired →
              record.CarriesQuorum env.cr record.minRequired → record.OneName) := by
  constructor
  · have hstart : DistinctSigners env.cr publicKey validatorID
        (newCheckpointVoter publicKey validatorID store) :=
      ⟨rfl, rfl, (fun hv => nomatch hv), (fun _ hr => nomatch hr)⟩
    have hend := runVoter_induction env (DistinctSigners.exec env hkey) hrun hstart
    intro record hr
    obtain ⟨hverifies, hnodup, hquorum⟩ := hend.records record hr
    rw [hverifies.carriesQuorum_iff, hverifies.carriesQuorum_iff, hnodup.dedup,
      CheckpointRecord.pubKeys, List.length_map]
    exact ⟨hquorum, Nat.le_refl _⟩
  · intro record haccepted
    obtain ⟨henough, hverifies, hapart⟩ := verified_record haccepted
    have hlength : record.pubKeys.length = record.signatures.length := List.length_map _
    rw [hverifies.carriesQuorum_iff, CheckpointRecord.oneName_iff hapart]
    refine ⟨fun hnodup => ?_, fun hall hquorum => ?_⟩
    · rw [hnodup.dedup, hlength]
      exact henough
    · -- as many different keys as there are keys
      rw [← hall, ← hlength] at hquorum
      rw [← (List.dedup_sublist _).eq_of_length_le hquorum]
      exact List.nodup_dedup _

/-! ### Concrete votes

Every digest is zero and every signature verifies, so that the votes of all peers stand under
one identifier; the node itself is `validator`. -/

/-- A node whose signatures are zero. -/
def sampleVoterEnv : VoterEnv where
  cr := Crypto.constant
  sign _ := List.replicate 64 0
  now n := Int64.ofNat n
  order _ l := l
  order_perm _ _ := .refl _
  readOk _ := true
  writeOk _ := true
  marshal _ := []
  unmarshal _ := []

/-- Thirty-two equal bytes. -/
def sampleKey (c : UInt8) : Bytes := List.replicate 32 c

/-- The node with the key `sampleKey 1`. -/
def sampleVoter : CheckpointVoter := newCheckpointVoter (sampleKey 1) (ascii "validator") none

/-- A vote for height 1000 under a key. -/
def sampleVote (key : UInt8) (blockHash : Bytes) : CheckpointVote where
  height := 1000
  blockHash := blockHash
  validatorID := ascii "validator"
  pubKey := sampleKey key
  signature := List.replicate 64 0
  timestamp := 0

/-- Sixteen equal characters. -/
def sampleHash (c : UInt8) : Bytes := List.replicate 16 c

/-- The node votes for a hash, and a vote for it under a key arrives. -/
def sampleRound (key : UInt8) (blockHash : Bytes) : List VoterCall :=
  [.signCheckpoint 1000 blockHash, .receiveVote (some (sampleVote key blockHash))]

/-- `carriesQuorum_of_noEcho` when a peer with another key confirms the node's own vote. -/
theorem carriesQuorum_of_peer_vote :
    (runVoter sampleVoterEnv (sampleRound 2 (sampleHash 97)) sampleVoter).finalized.length = 1
      ∧ ∀ record ∈ (runVoter sampleVoterEnv (sampleRound 2 (sampleHash 97))
          sampleVoter).finalized,
        record.CarriesQuorum Crypto.constant checkpointMinVotes := by
  have hquorum := carriesQuorum_of_noEcho sampleVoterEnv (sampleKey 1) (ascii "validator") none
    (fun _ => rfl) (sampleRound 2 (sampleHash 97)) ⟨trivial, .inl (by decide +kernel), trivial⟩
  exact ⟨by decide +kernel, fun record hr => (hquorum.1 record hr).1⟩

/-- The record of a validator that signs under two identifiers. -/
def doubleRecord : CheckpointRecord where
  height := 1000
  blockHash := sampleHash 97
  timestamp := 0
  prevCheckpointHash := []
  signatures := [⟨ascii "first", sampleKey 1, List.replicate 64 0, 0⟩,
    ⟨ascii "second", sampleKey 1, List.replicate 64 0, 0⟩]
  activeValidatorCount := 2

/-- **One key makes a quorum.** A peer that sends the node's own vote back makes it finalise a
record, and a record with two signatures of one key is accepted: in both only one key has
signed. -/
theorem one_key_makes_quorum :
    (∃ record ∈ (runVoter sampleVoterEnv (sampleRound 1 (sampleHash 97))
          sampleVoter).finalized,
        ¬ record.CarriesQuorum Crypto.constant checkpointMinVotes)
      ∧ verifyCheckpointRecord Crypto.constant (some doubleRecord) = .ok ()
      ∧ ¬ doubleRecord.CarriesQuorum Crypto.constant doubleRecord.minRequired := by
  refine ⟨?_, by decide +kernel, fun h => absurd h.le_dedup (by decide +kernel)⟩
  have hone : (runVoter sampleVoterEnv (sampleRound 1 (sampleHash 97)) sampleVoter).finalized.any
      (fun record => record.pubKeys.dedup.length < 2) = true := by
    decide +kernel
  obtain ⟨record, hr, hlt⟩ := List.any_eq_true.mp hone
  refine ⟨record, hr, fun h => ?_⟩
  exact absurd (of_decide_eq_true hlt) (Nat.not_lt.mpr h.le_dedup)

/-! ## Agreement -/

/-- **No late dissent**: a vote that is signed or received names the hash of every record its
height has already got, and the text of the hash has the sixteen characters the log line
takes. -/
def NoLateDissent (cv : CheckpointVoter) : VoterCall → Prop
  | .signCheckpoint height blockHash =>
    16 ≤ blockHash.length
      ∧ ∀ record ∈ cv.finalized, record.height = height → record.blockHash = blockHash
  | .receiveVote (some vote) =>
    16 ≤ vote.blockHash.length
      ∧ ∀ record ∈ cv.finalized, record.height = vote.height → record.blockHash = vote.blockHash
  | .receiveVote none => True

instance (cv : CheckpointVoter) (call : VoterCall) : Decidable (NoLateDissent cv call) :=
  match call with
  | .signCheckpoint _ _ => inferInstanceAs (Decidable (_ ∧ _))
  | .receiveVote (some _) => inferInstanceAs (Decidable (_ ∧ _))
  | .receiveVote none => inferInstanceAs (Decidable True)

/-- The invariant: the records of a height agree, and so do the votes that are kept for it. -/
structure Agrees (cv : CheckpointVoter) : Prop where
  /-- records of one height have one hash -/
  records : ∀ r ∈ cv.finalized, ∀ r' ∈ cv.finalized, r.height = r'.height →
    r.blockHash = r'.blockHash
  /-- votes for a height that has a record name its hash -/
  votes : ∀ {h i v}, cv.Holds h i v → 16 ≤ v.blockHash.length
    ∧ ∀ r ∈ cv.finalized, r.height = h → r.blockHash = v.blockHash

/-- The hash of a record is that of one of the votes. -/
theorem Finalizes.exists_vote
    (h : checkpointMinVotes ≤ votesFor record.blockHash (cv.voteList height)) :
    ∃ i v, cv.Holds height i v ∧ v.blockHash = record.blockHash := by
  have hpos : 0 < votesFor record.blockHash (cv.voteList height) :=
    Nat.lt_of_lt_of_le (by decide) h
  obtain ⟨⟨i, v⟩, hv⟩ := List.exists_mem_of_length_pos hpos
  obtain ⟨hmem, hhash⟩ := List.mem_filter.mp hv
  exact ⟨i, v, CheckpointVoter.mem_voteList.mp hmem, of_decide_eq_true hhash⟩

/-- The votes of the height are gone, if its hash has enough characters. -/
theorem Finalizes.ne_height (h : Finalizes cv cv' height record)
    (hlong : 16 ≤ record.blockHash.length)
    (hv : cv'.Holds k i v) : k ≠ height := by
  obtain ⟨votes, hlookup, _⟩ := CheckpointVoter.holds_iff.mp hv
  rw [h.votes, if_neg (Nat.not_lt.mpr hlong), GoMap.lookup_erase] at hlookup
  split at hlookup
  · cases hlookup
  · next hne => exact hne

theorem Agrees.exec (cv : CheckpointVoter) (call : VoterCall) (hcond : NoLateDissent cv call)
    (hI : Agrees cv) : Agrees (call.exec env cv) := by
  cases call with
  | signCheckpoint height blockHash =>
    obtain ⟨hrecords, _, _, hvotes⟩ := voterAfter_signCheckpoint env height blockHash cv
    obtain ⟨hlong, hagree⟩ := hcond
    show Agrees (voterAfter (signCheckpoint env height blockHash) cv)
    refine ⟨by rw [hrecords]; exact hI.records, fun hv => ?_⟩
    rw [hrecords]
    rcases hvotes hv with hv | ⟨rfl, -, -, hhash, -, -⟩
    · exact hI.votes hv
    · rw [hhash]
      exact ⟨hlong, hagree⟩
  | receiveVote vote =>
    show Agrees (voterAfter (receiveVote env vote) cv)
    rcases voterAfter_receiveVote env vote cv with hsame | ⟨v, rfl, -, hafter⟩
    · rw [hsame]
      exact hI
    · obtain ⟨hlong, hagree⟩ := hcond
      have hput : ∀ {h i w}, (cv.putVote v.height (voteID env.cr v.pubKey) v).Holds h i w →
          16 ≤ w.blockHash.length
            ∧ ∀ r ∈ cv.finalized, r.height = h → r.blockHash = w.blockHash := by
        intro h i w hw
        rcases CheckpointVoter.holds_putVote hw with ⟨rfl, -, rfl⟩ | hw
        · exact ⟨hlong, hagree⟩
        · exact hI.votes hw
      rcases hafter with hsame | ⟨record, hquorum, hfinal⟩
      · have hrecords : (voterAfter (receiveVote env (some v)) cv).finalized = cv.finalized :=
          hsame.finalized
        refine ⟨by rw [hrecords]; exact hI.records, fun hv => ?_⟩
        rw [hrecords]
        exact hput (hsame.holds hv)
      · -- the hash of the new record is that of a vote, which agrees with the older records
        obtain ⟨i, w, hw, hhash⟩ := Finalizes.exists_vote hquorum
        obtain ⟨hwlong, hwagree⟩ := hput hw
        rw [hhash] at hwlong hwagree
        have hrecords : (voterAfter (receiveVote env (some v)) cv).finalized
            = record :: cv.finalized := hfinal.finalized
        constructor
        · intro r hr r' hr' hheight
          rw [hrecords] at hr hr'
          rcases List.mem_cons.mp hr with rfl | hold
          · rcases List.mem_cons.mp hr' with rfl | hold'
            · rfl
            · exact (hwagree r' hold' (hheight.symm.trans hfinal.height_eq)).symm
          · rcases List.mem_cons.mp hr' with rfl | hold'
            · exact hwagree r hold (hheight.trans hfinal.height_eq)
            · exact hI.records r hold r' hold' hheight
        · intro h i u hu
          obtain ⟨hulong, huagree⟩ := hput (hfinal.holds hu)
          refine ⟨hulong, fun r hr hheight => ?_⟩
          rw [hrecords] at hr
          rcases List.mem_cons.mp hr with rfl | hr
          · exact absurd (hheight.symm.trans hfinal.height_eq) (hfinal.ne_height hwlong hu)
          · exact huagree r hr hheight

/-- **Agreement.** In a run without late dissent all records of a height have one hash. -/
theorem finalized_agree (publicKey validatorID : Bytes) (store : Option (Option Bytes))
    (calls : List VoterCall)
    (hrun : VoterRun env NoLateDissent calls (newCheckpointVoter publicKey validatorID store)) :
    ∀ r ∈ (runVoter env calls (newCheckpointVoter publicKey validatorID store)).finalized,
      ∀ r' ∈ (runVoter env calls (newCheckpointVoter publicKey validatorID store)).finalized,
        r.height = r'.height → r.blockHash = r'.blockHash := by
  have hstart : Agrees (newCheckpointVoter publicKey validatorID store) :=
    ⟨(fun _ hr => nomatch hr), (fun hv => nomatch hv)⟩
  exact (runVoter_induction env (Agrees.exec env) hrun hstart).records

/-- `finalized_agree` when a height is finalised twice with one hash. -/
theorem finalized_agree_repeated_round :
    (runVoter sampleVoterEnv (sampleRound 2 (sampleHash 97) ++ sampleRound 2 (sampleHash 97))
        sampleVoter).finalized.length = 2
      ∧ ∀ r ∈ (runVoter sampleVoterEnv
            (sampleRound 2 (sampleHash 97) ++ sampleRound 2 (sampleHash 97))
            sampleVoter).finalized,
          ∀ r' ∈ (runVoter sampleVoterEnv
              (sampleRound 2 (sampleHash 97) ++ sampleRound 2 (sampleHash 97))
              sampleVoter).finalized,
            r.height = r'.height → r.blockHash = r'.blockHash := by
  refine ⟨by decide +kernel, finalized_agree sampleVoterEnv (sampleKey 1)
    (ascii "validator") none _ ?_⟩
  exact ⟨by decide +kernel, by decide +kernel, by decide +kernel, by decide +kernel, trivial⟩

/-- **A height gets two records.** The node and a peer vote for one hash, and, after the record
is finalised, for another one. -/
theorem two_records_disagree :
    ∃ r ∈ (runVoter sampleVoterEnv
          (sampleRound 2 (sampleHash 97) ++ sampleRound 2 (sampleHash 98))
          sampleVoter).finalized,
      ∃ r' ∈ (runVoter sampleVoterEnv
            (sampleRound 2 (sampleHash 97) ++ sampleRound 2 (sampleHash 98))
            sampleVoter).finalized,
        r.height = r'.height ∧ r.blockHash ≠ r'.blockHash := by
  decide +kernel

end NogoChain
