import NogoChain.Chain.State

/-!
# The tally of a proposal

`Vote` adds the power of a vote to one of two 64-bit sums, and `FinalizeVoting` computes the
quorum, the votes cast and the share of those in favour from them, again in 64 bits. The outcome
is the one that exact arithmetic gives as long as none of these sums and products is `2 ^ 64` or
more; beyond, the divisor may be zero.
-/

namespace NogoChain

inductive ProposalStatus where
  | active
  | passed
  | rejected
  | executed
  | expired
deriving DecidableEq

structure Vote where
  support : Bool
  votingPower : UInt64

structure Proposal where
  votingEndTime : Int64
  votesFor : UInt64
  votesAgainst : UInt64
  voters : GoMap Bytes Vote
  status : ProposalStatus

structure CommunityFundGovernanceContract where
  proposals : GoMap Bytes Proposal
  quorumPercent : UInt8
  approvalThreshold : UInt8
  totalVotingPower : UInt64

/-- Programs over the contract. -/
abbrev FundM := Prog CommunityFundGovernanceContract GoError Fault

/-- The proposals are behind pointers: what a call assigns is in the map. -/
def putProposal (id : Bytes) (p : Proposal) : FundM Unit :=
  Prog.modify fun c => { c with proposals := c.proposals.insert id p }

/-- The proposal with a vote that is accepted. -/
def Proposal.accept (p : Proposal) (voter : Bytes) (v : Vote) : Proposal :=
  { p with
    voters := p.voters.insert voter v
    votesFor := if v.support then p.votesFor + v.votingPower else p.votesFor
    votesAgainst := if v.support then p.votesAgainst else p.votesAgainst + v.votingPower }

/-- `Vote`, at the time `now`. A vote that comes too late ends the proposal. -/
def castVote (now : Int64) (id voter : Bytes) (v : Vote) : FundM Unit := do
  let c ← Prog.get
  match c.proposals.lookup id with
  | none => Prog.throw (.new "proposal not found")
  | some p =>
    if p.status ≠ .active then Prog.throw (.new "voting is not active for this proposal")
    else if now > p.votingEndTime then do
      putProposal id { p with status := .expired }
      Prog.throw (.new "voting period has ended")
    else if (p.voters.lookup voter).isSome then Prog.throw (.new "voter has already voted")
    else if v.votingPower = 0 then Prog.throw (.new "voting power must be greater than 0")
    else putProposal id (p.accept voter v)

/-- `FinalizeVoting`, at the time `now`. -/
def finalizeVoting (now : Int64) (id : Bytes) : FundM Unit := do
  let c ← Prog.get
  match c.proposals.lookup id with
  | none => Prog.throw (.new "proposal not found")
  | some p =>
    if now ≤ p.votingEndTime then Prog.throw (.new "voting period has not ended yet")
    else if p.status ≠ .active then Prog.throw (.new "proposal already finalized")
    else
      let totalVotes := p.votesFor + p.votesAgainst
      let quorumVotes := c.totalVotingPower * c.quorumPercent.toUInt64 / 100
      if totalVotes < quorumVotes then putProposal id { p with status := .rejected }
      else if p.votesFor = 0 then putProposal id { p with status := .rejected }
      else if totalVotes = 0 then Prog.crash (.panic "(proposal.VotesFor * 100) / totalVotes")
      else if p.votesFor * 100 / totalVotes ≥ c.approvalThreshold.toUInt64 then
        putProposal id { p with status := .passed }
      else putProposal id { p with status := .rejected }

/-! ## Exact sums -/

/-- The power of the votes cast on one side, exactly. -/
def Proposal.cast (p : Proposal) (support : Bool) : Nat :=
  ((p.voters.entries.filter (·.2.support = support)).map (·.2.votingPower.toNat)).sum

/-- **When a proposal is to pass.** -/
def Proposal.Approved (p : Proposal) (c : CommunityFundGovernanceContract) : Prop :=
  c.totalVotingPower.toNat * c.quorumPercent.toNat / 100 ≤ p.cast true + p.cast false
    ∧ 0 < p.cast true
    ∧ c.approvalThreshold.toNat ≤ 100 * p.cast true / (p.cast true + p.cast false)

/-- The sums of a proposal are those of its votes, in 64 bits. -/
def Proposal.Tallied (p : Proposal) : Prop :=
  p.votesFor = UInt64.ofNat (p.cast true) ∧ p.votesAgainst = UInt64.ofNat (p.cast false)

/-- A call of `Vote`. -/
structure VoteCall where
  now : Int64
  id : Bytes
  voter : Bytes
  vote : Vote

/-- The contract after some calls of `Vote`. -/
def afterVotes (calls : List VoteCall) (c : CommunityFundGovernanceContract) :
    CommunityFundGovernanceContract :=
  calls.foldl (fun c v => ((castVote v.now v.id v.voter v.vote c).state?).getD c) c

/-- All proposals are tallied. -/
def AllTallied (c : CommunityFundGovernanceContract) : Prop :=
  ∀ id p, c.proposals.lookup id = some p → p.Tallied

theorem Proposal.Tallied.accept {p : Proposal} (h : p.Tallied) {voter : Bytes}
    (hnew : p.voters.lookup voter = none) (v : Vote) : (p.accept voter v).Tallied := by
  have hcast : ∀ support, (p.accept voter v).cast support
      = (if v.support = support then v.votingPower.toNat else 0) + p.cast support := by
    intro support
    show ((AList.entries (p.voters.insert voter v)).filter _ |>.map _).sum = _
    rw [AList.entries_insert_of_notMem (AList.lookup_eq_none.mp hnew)]
    simp only [List.filter_cons, decide_eq_true_eq]
    split <;> simp [cast]
  unfold Tallied
  rw [hcast, hcast]
  cases hv : v.support <;>
    simp [Proposal.accept, hv, h.1, h.2, UInt64.ofNat_add, UInt64.add_comm]

/-- **A vote keeps the tally**, whether it is accepted or not. -/
theorem AllTallied.castVote {c : CommunityFundGovernanceContract} (h : AllTallied c)
    (v : VoteCall) : AllTallied ((castVote v.now v.id v.voter v.vote c).state?.getD c) := by
  have hput : ∀ p : Proposal, p.Tallied →
      AllTallied { c with proposals := c.proposals.insert v.id p } := by
    intro p hp id q hq
    rw [GoMap.lookup_insert] at hq
    split at hq
    · cases hq
      exact hp
    · exact h id q hq
  cases hp : c.proposals.lookup v.id with
  | none =>
    simp only [NogoChain.castVote, Prog.bind_apply, Prog.get_apply, hp]
    exact h
  | some p =>
    have htallied := h v.id p hp
    simp only [NogoChain.castVote, Prog.bind_apply, Prog.get_apply, hp]
    split
    · exact h
    · split
      · exact hput _ htallied
      · split
        · exact h
        · next hnone =>
          split
          · exact h
          · exact hput _ (htallied.accept (by simpa using hnone) v.vote)

theorem AllTallied.afterVotes {c : CommunityFundGovernanceContract} (h : AllTallied c)
    (calls : List VoteCall) : AllTallied (afterVotes calls c) := by
  induction calls generalizing c with
  | nil => exact h
  | cons v calls ih => exact ih (h.castVote v)

/-- Sums of less than `2 ^ 64` are exact. -/
theorem Proposal.Tallied.toNat_votes {p : Proposal} (h : p.Tallied)
    (hcast : p.cast true + p.cast false < 2 ^ 64) :
    p.votesFor.toNat = p.cast true ∧ p.votesAgainst.toNat = p.cast false := by
  rw [h.1, h.2]
  exact ⟨UInt64.toNat_ofNat_of_lt' (lt_of_le_of_lt (Nat.le_add_right _ _) hcast),
    UInt64.toNat_ofNat_of_lt' (lt_of_le_of_lt (Nat.le_add_left _ _) hcast)⟩

/-- **The tally is exact** as long as no sum or product takes more than 64 bits: after any votes on
new proposals, an active one whose time is over is settled, and passes if and only if it is to. -/
theorem finalizeVoting_exact (c₀ : CommunityFundGovernanceContract)
    (hnew : ∀ id p, c₀.proposals.lookup id = some p →
      p.votesFor = 0 ∧ p.votesAgainst = 0 ∧ p.voters = ∅)
    (calls : List VoteCall) (c : CommunityFundGovernanceContract) (hc : c = afterVotes calls c₀)
    (id : Bytes) (p : Proposal) (hp : c.proposals.lookup id = some p) (hactive : p.status = .active)
    (now : Int64) (hend : p.votingEndTime < now)
    (hquorum : c.totalVotingPower.toNat * c.quorumPercent.toNat < 2 ^ 64)
    (hcast : p.cast true + p.cast false < 2 ^ 64) (hfor : p.cast true * 100 < 2 ^ 64) :
    ∃ status, finalizeVoting now id c
        = .ret () { c with proposals := c.proposals.insert id { p with status := status } }
      ∧ (status = .passed ↔ p.Approved c) := by
  have htallied : p.Tallied := by
    subst hc
    refine AllTallied.afterVotes (fun id p hp => ?_) calls id p hp
    obtain ⟨hf, ha, hv⟩ := hnew id p hp
    simp [Proposal.Tallied, Proposal.cast, hf, ha, hv]
  obtain ⟨hf, ha⟩ := htallied.toNat_votes hcast
  have htotal : (p.votesFor + p.votesAgainst).toNat = p.cast true + p.cast false := by
    rw [UInt64.toNat_add, hf, ha, Nat.mod_eq_of_lt hcast]
  have hhundred : (p.votesFor * 100).toNat = p.cast true * 100 := by
    rw [UInt64.toNat_mul, hf]
    exact Nat.mod_eq_of_lt hfor
  have hneed : (c.totalVotingPower * c.quorumPercent.toUInt64).toNat
      = c.totalVotingPower.toNat * c.quorumPercent.toNat := by
    rw [UInt64.toNat_mul, UInt8.toNat_toUInt64, Nat.mod_eq_of_lt hquorum]
  unfold finalizeVoting Proposal.Approved
  simp only [Prog.bind_apply, Prog.get_apply, hp, hactive, Int64.not_le.mpr hend, ne_eq,
    not_true_eq_false, if_false, UInt64.lt_iff_toNat_lt, UInt64.le_iff_toNat_le, ge_iff_le,
    ← UInt64.toNat_inj, UInt64.toNat_div, htotal, hneed, hhundred, hf, UInt8.toNat_toUInt64,
    show UInt64.toNat 100 = 100 from rfl, UInt64.toNat_zero, Nat.mul_comm 100]
  split
  · exact ⟨.rejected, rfl, by simp; omega⟩
  · split
    · next hnone => exact ⟨.rejected, rfl, by simp [hnone]⟩
    · rw [if_neg (by omega)]
      split
      · exact ⟨.passed, rfl, by simp; omega⟩
      · exact ⟨.rejected, rfl, by simp; omega⟩

/-- The values that the constructor gives, and one proposal whose time is over at 0. -/
def newContract : CommunityFundGovernanceContract :=
  ⟨(∅ : GoMap Bytes Proposal).insert [] ⟨0, 0, 0, ∅, .active⟩, 10, 60, 0⟩

theorem newContract_new : ∀ id p, newContract.proposals.lookup id = some p →
    p.votesFor = 0 ∧ p.votesAgainst = 0 ∧ p.voters = ∅ := by
  intro id p hp
  rw [newContract, GoMap.lookup_insert] at hp
  split at hp
  · cases hp
    exact ⟨rfl, rfl, rfl⟩
  · cases hp

/-- Two votes on it, for and against. -/
def twoVotes (support : UInt64) : List VoteCall :=
  [⟨0, [], [1], true, support⟩, ⟨0, [], [2], false, 1⟩]

theorem finalizeVoting_exact_two :
    ∃ p, (afterVotes (twoVotes 2) newContract).proposals.lookup [] = some p
      ∧ ∃ status, finalizeVoting 1 [] (afterVotes (twoVotes 2) newContract)
        = .ret () { newContract with
          proposals := (afterVotes (twoVotes 2) newContract).proposals.insert []
            { p with status := status } }
      ∧ (status = .passed ↔ p.Approved newContract) :=
  ⟨_, rfl, finalizeVoting_exact newContract newContract_new (twoVotes 2) _ rfl [] _ rfl rfl 1
    (by decide) (by decide) (by decide +kernel) (by decide +kernel)⟩

/-- **The divisor wraps to zero**: two votes, together `2 ^ 64`. -/
theorem finalizeVoting_panics :
    ∃ p x, (afterVotes (twoVotes 18446744073709551615) newContract).proposals.lookup [] = some p
      ∧ p.status = .active ∧ p.votingEndTime < 1
      ∧ finalizeVoting 1 [] (afterVotes (twoVotes 18446744073709551615) newContract) = .fault x :=
  ⟨_, _, rfl, rfl, by decide, rfl⟩

end NogoChain
