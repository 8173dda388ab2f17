import NogoChain.Chain.Accept

/-!
# Synchronisation in batches

`regularBlockSync` asks for up to a hundred blocks above the tip, adds what it is sent and goes on
above the new tip. It stops if the tip is where it was at the start of the call, but looks at this
only after a batch: not after a single block that it fell back to, and not if the tip has risen
before. On a chain without forks and orphans the loop ends if the peers send what continues it.
-/

namespace NogoChain

variable (env : Env)

/-- What the peers answer in an iteration of the loop. -/
structure RoundAnswers where
  /-- `fetchBlocksBatch` -/
  batch : Except GoError (List Block)
  /-- `requireBlock` -/
  requireBlock : UInt64 → Except GoError Block

def requireBlocksBatch (blocks : List Block) : GoMap UInt64 Block :=
  blocks.foldl (fun m b => m.insert b.height b) ∅

/-- The heights that the inner loop goes through. -/
def batchHeights (i batchSize targetHeight : UInt64) : List UInt64 :=
  ((List.range ((i + batchSize).toNat - i.toNat)).map fun k => i + UInt64.ofNat k).takeWhile
    (· ≤ targetHeight)

/-- What an iteration adds, with the heights asked for, and whether it comes from a batch. The size
of a batch that is not full is computed from the greatest height in it. -/
def RoundAnswers.planned (a : RoundAnswers) (targetHeight i : UInt64) :
    List (UInt64 × Except GoError Block) × Bool :=
  let batchSize := targetHeight - i + 1
  let batchSize := if batchSize > 100 then 100 else batchSize
  match a.batch with
  | .error _ => ([(i, a.requireBlock i)], false)
  | .ok blocks =>
    let blocks := requireBlocksBatch blocks
    if blocks.keys = [] then ([(i, a.requireBlock i)], false)
    else
      let batchSize := if blocks.keys.length < batchSize.toNat
        then blocks.keys.foldl (fun highest h => if h > highest then h else highest) 0 - i + 1
        else batchSize
      ((batchHeights i batchSize targetHeight).map fun h =>
        (h, (blocks.lookup h).elim (a.requireBlock h) .ok), true)

/-- The blocks are added one after the other. -/
def addPlanned : List (UInt64 × Except GoError Block) → ChainM Unit
  | [] => pure ()
  | (h, .error e) :: _ =>
    Prog.throw (.wrap "regularBlockSync requireBlock at height %d: %w" [.num h.toNat] e)
  | (_, .ok block) :: rest => do
    let _ ← wrapping "regularBlockSync add block at height %d: %w" [.num block.height.toNat]
      (addBlock env block)
    addPlanned rest

/-- One iteration. The result is the next height, or `none` if the loop is left. -/
def batchRound (a : RoundAnswers) (targetHeight startHeight i : UInt64) :
    ChainM (Option UInt64) := do
  addPlanned env (a.planned targetHeight i).1
  let c ← chain
  match c.tip? with
  | none => Prog.crash (.panic "bk.chain.LatestBlock().GetHeight()")
  | some newTip =>
    pure (if (a.planned targetHeight i).2 ∧ newTip.height + 1 = startHeight then none
      else some (newTip.height + 1))

/-- `regularBlockSync`, from the height above the tip up to iteration `n` of its loop: the height
and the state it begins with, or `none` if the call has ended. -/
def regularBlockSync (answers : Nat → RoundAnswers) (targetHeight startHeight : UInt64)
    (w : World) : Nat → Option (UInt64 × World)
  | 0 => if startHeight ≤ targetHeight then some (startHeight, w) else none
  | n + 1 =>
    (regularBlockSync answers targetHeight startHeight w n).bind fun s =>
      match batchRound env (answers n) targetHeight startHeight s.1 s.2 with
      | .ret (some i) w' => if i ≤ targetHeight then some (i, w') else none
      | _ => none

/-! ## Iterations that advance -/

/-- The chain has neither forks nor orphans, and ends with a block at its place. -/
structure Ready (w : World) (tip : Block) : Prop where
  quiet : w.chain.Quiet
  ends : w.chain.tip? = some tip
  indexed : tip.height + 1 = w.chain.length64
  room : tip.height.toNat + 1 < 2 ^ 64

/-- The blocks that are sent continue the chain from a block on, and do not go past the target. -/
def Continues (targetHeight : UInt64) : Block → List (UInt64 × Except GoError Block) → Prop
  | tip, (_, .ok block) :: rest =>
    block.header.prevHash = tip.hash ∧ block.height = tip.height + 1 ∧ block.height ≤ targetHeight
      ∧ Continues targetHeight block rest
  | _, _ => True

/-- A batch that is not empty reaches the height `i` and does not go past the target. -/
def RoundAnswers.Reaches (a : RoundAnswers) (targetHeight i : UInt64) : Prop :=
  ∀ blocks, a.batch = .ok blocks → blocks ≠ [] →
    (∃ b ∈ blocks, i ≤ b.height) ∧ ∀ b ∈ blocks, b.height ≤ targetHeight

variable {env} {targetHeight : UInt64}

theorem mem_keys_requireBlocksBatch {blocks : List Block} {h : UInt64} :
    h ∈ (requireBlocksBatch blocks).keys ↔ ∃ b ∈ blocks, b.height = h := by
  rw [← AList.mem_keys, ← AList.lookup_isSome]
  refine (GoMap.isSome_lookup_foldl_insert Block.height id blocks ∅ h).trans ?_
  simp

theorem foldl_highest_le (heights : List UInt64) (highest bound : UInt64) :
    heights.foldl (fun highest h => if h > highest then h else highest) highest ≤ bound
      ↔ highest ≤ bound ∧ ∀ h ∈ heights, h ≤ bound := by
  induction heights generalizing highest with
  | nil => simp
  | cons h heights ih =>
    rw [List.foldl_cons, ih, List.forall_mem_cons]
    split
    · next hgt =>
      refine ⟨fun ⟨hh, hrest⟩ => ⟨?_, hh, hrest⟩, fun ⟨_, hh, hrest⟩ => ⟨hh, hrest⟩⟩
      exact UInt64.le_trans (UInt64.le_of_lt hgt) hh
    · next hle =>
      refine ⟨fun ⟨hh, hrest⟩ => ⟨hh, ?_, hrest⟩, fun ⟨hh, _, hrest⟩ => ⟨hh, hrest⟩⟩
      exact UInt64.le_trans (UInt64.not_lt.mp hle) hh

theorem batchHeights_ne_nil {i batchSize : UInt64} (hi : i ≤ targetHeight)
    (hlt : i.toNat < (i + batchSize).toNat) : batchHeights i batchSize targetHeight ≠ [] := by
  unfold batchHeights
  obtain ⟨n, hn⟩ := Nat.exists_eq_succ_of_ne_zero (Nat.sub_ne_zero_of_lt hlt)
  rw [hn, List.range_succ_eq_map, List.map_cons, List.takeWhile_cons_of_pos]
  · exact List.cons_ne_nil _ _
  · simpa using hi

/-- An iteration has something to add. -/
theorem planned_ne_nil {a : RoundAnswers} {i : UInt64} (hi : i ≤ targetHeight)
    (htarget : targetHeight.toNat + 1 < 2 ^ 64) (h : a.Reaches targetHeight i) :
    (a.planned targetHeight i).1 ≠ [] := by
  have h1 : (1 : UInt64).toNat = 1 := rfl
  have h100 : (100 : UInt64).toNat = 100 := rfl
  have hle := UInt64.le_iff_toNat_le.mp hi
  unfold RoundAnswers.planned
  split
  · exact List.cons_ne_nil _ _
  · next blocks hbatch =>
    dsimp only
    split
    · exact List.cons_ne_nil _ _
    · next hkeys =>
      have hne : blocks ≠ [] := by
        rintro rfl
        exact hkeys rfl
      obtain ⟨⟨b, hb, hib⟩, hall⟩ := h blocks hbatch hne
      -- the greatest height is between `i` and the target
      have hhighest : i.toNat < (i + ((requireBlocksBatch blocks).keys.foldl
          (fun highest h => if h > highest then h else highest) 0 - i + 1)).toNat := by
        have hhigh := (foldl_highest_le (requireBlocksBatch blocks).keys 0 targetHeight).mpr
          ⟨UInt64.zero_le, fun k hk => by
            obtain ⟨b', hb', rfl⟩ := mem_keys_requireBlocksBatch.mp hk
            exact hall b' hb'⟩
        have hlow := ((foldl_highest_le _ 0 _).mp (UInt64.le_refl _)).2 _
          (mem_keys_requireBlocksBatch.mpr ⟨b, hb, rfl⟩)
        generalize (requireBlocksBatch blocks).keys.foldl
          (fun highest h => if h > highest then h else highest) 0 = highest at hhigh hlow ⊢
        simp only [UInt64.le_iff_toNat_le] at hhigh hlow hib
        simp only [UInt64.toNat_add, UInt64.toNat_sub, h1]
        omega
      have hsize : i.toNat
          < (i + if targetHeight - i + 1 > 100 then 100 else targetHeight - i + 1).toNat := by
        split
        · next hlarge =>
          rw [gt_iff_lt, UInt64.lt_iff_toNat_lt] at hlarge
          simp only [UInt64.toNat_add, UInt64.toNat_sub, h1, h100] at hlarge ⊢
          omega
        · simp only [UInt64.toNat_add, UInt64.toNat_sub, h1]
          omega
      generalize (if targetHeight - i + 1 > 100 then 100 else targetHeight - i + 1) = batchSize
        at hsize ⊢
      rw [ne_eq, List.map_eq_nil_iff]
      refine batchHeights_ne_nil hi ?_
      split
      · exact hhighest
      · exact hsize

theorem Ready.toNat_succ {w : World} {tip : Block} (h : Ready w tip) :
    (tip.height + 1).toNat = tip.height.toNat + 1 := by
  rw [UInt64.toNat_add]
  exact Nat.mod_eq_of_lt h.room

/-- What continues the chain and is added raises its tip. -/
theorem ready_of_addPlanned (htarget : targetHeight.toNat + 1 < 2 ^ 64)
    {planned : List (UInt64 × Except GoError Block)} {w w' : World} {tip : Block}
    (hready : Ready w tip) (hcontinues : Continues targetHeight tip planned)
    (h : addPlanned env planned w = .ret () w') :
    ∃ tip', Ready w' tip' ∧ tip'.height.toNat = tip.height.toNat + planned.length := by
  induction planned generalizing w tip with
  | nil =>
    cases h
    exact ⟨tip, hready, rfl⟩
  | cons p rest ih =>
    obtain ⟨height, answer⟩ := p
    cases answer with
    | error e => cases h
    | ok block =>
      obtain ⟨hprev, hheight, hle, hcontinues⟩ := hcontinues
      obtain ⟨added, u, hadd, hrest⟩ := Prog.bind_eq_ret.mp h
      obtain ⟨hquiet, hblocks⟩ :=
        hready.quiet.of_addBlock (hheight.trans hready.indexed) hready.ends
        hprev (wrapping_eq_ret.mp hadd)
      have hroom : block.height.toNat + 1 < 2 ^ 64 :=
        (Nat.succ_le_succ (UInt64.le_iff_toNat_le.mp hle)).trans_lt htarget
      have hindexed : block.height + 1 = u.chain.length64 := by
        unfold Chain.length64
        rw [hblocks, hheight, hready.indexed, List.length_append, UInt64.ofNat_add]
        rfl
      have htip : u.chain.tip? = some block := by
        unfold Chain.tip?
        rw [hblocks]
        exact List.getLast?_concat
      obtain ⟨tip', hready', hcount⟩ := ih ⟨hquiet, htip, hindexed, hroom⟩ hcontinues hrest
      refine ⟨tip', hready', ?_⟩
      rw [hcount, hheight, hready.toNat_succ, List.length_cons]
      omega

/-- The loop is at the height above the tip. -/
theorem above_of_batchRound {a : RoundAnswers} {targetHeight startHeight i i' : UInt64}
    {w w' : World} (h : batchRound env a targetHeight startHeight i w = .ret (some i') w') :
    addPlanned env (a.planned targetHeight i).1 w = .ret () w'
      ∧ ∃ tip, w'.chain.tip? = some tip ∧ i' = tip.height + 1 := by
  obtain ⟨u, hadd, h⟩ := Prog.bind_unit_eq_ret.mp h
  rw [chain_bind_apply] at h
  cases htip : u.chain.tip? with
  | none =>
    rw [htip] at h
    cases h
  | some tip =>
    rw [htip] at h
    obtain ⟨hi, rfl⟩ := Outcome.ret.inj h
    split at hi
    · cases hi
    · cases hi
      exact ⟨hadd, tip, htip, rfl⟩

/-- An iteration that continues the chain raises its tip. -/
theorem ready_of_batchRound {a : RoundAnswers} {startHeight i i' : UInt64} {w w' : World}
    {tip : Block} (htarget : targetHeight.toNat + 1 < 2 ^ 64) (hi : i ≤ targetHeight)
    (hready : Ready w tip) (hreaches : a.Reaches targetHeight i)
    (hcontinues : Continues targetHeight tip (a.planned targetHeight i).1)
    (h : batchRound env a targetHeight startHeight i w = .ret (some i') w') :
    ∃ tip', Ready w' tip' ∧ i' = tip'.height + 1 ∧ tip.height.toNat < tip'.height.toNat := by
  obtain ⟨hadd, newTip, htip, rfl⟩ := above_of_batchRound h
  obtain ⟨tip', hready', hcount⟩ := ready_of_addPlanned htarget hready hcontinues hadd
  obtain rfl := Option.some.inj (hready'.ends.symm.trans htip)
  refine ⟨tip', hready', rfl, ?_⟩
  have hpos := List.length_pos_iff.mpr (planned_ne_nil hi htarget hreaches)
  omega

/-- **Every iteration raises the tip or ends the call**, and so there are at most as many as heights
to be reached, on a chain without forks and orphans, if the blocks that are sent continue the
chain and a batch reaches the height that is asked for. -/
theorem regularBlockSync_advances (answers : Nat → RoundAnswers) (targetHeight : UInt64) (w : World)
    (tip : Block) (htarget : targetHeight.toNat + 1 < 2 ^ 64) (hready : Ready w tip)
    (hsent : ∀ n i u newTip,
      regularBlockSync env answers targetHeight (tip.height + 1) w n = some (i, u) →
      u.chain.tip? = some newTip → (answers n).Reaches targetHeight i
        ∧ Continues targetHeight newTip ((answers n).planned targetHeight i).1)
    (n : Nat) (i : UInt64) (u : World)
    (h : regularBlockSync env answers targetHeight (tip.height + 1) w n = some (i, u)) :
    (∀ i' u', batchRound env (answers n) targetHeight (tip.height + 1) i u = .ret (some i') u' →
        ∃ newTip newTip', u.chain.tip? = some newTip ∧ u'.chain.tip? = some newTip'
          ∧ newTip.height < newTip'.height)
      ∧ (tip.height + 1).toNat + n ≤ targetHeight.toNat := by
  -- the loop is at the height above the tip, at least `n` above the start
  have hinv : ∀ n i u,
      regularBlockSync env answers targetHeight (tip.height + 1) w n = some (i, u) →
      i ≤ targetHeight ∧ ∃ newTip, Ready u newTip ∧ i = newTip.height + 1
        ∧ tip.height.toNat + n ≤ newTip.height.toNat := by
    intro n
    induction n with
    | zero =>
      intro i u h
      unfold regularBlockSync at h
      split at h
      · cases h
        exact ⟨‹_›, tip, hready, rfl, le_rfl⟩
      · cases h
    | succ n ih =>
      intro i u h
      obtain ⟨⟨j, v⟩, hprev, h⟩ := Option.bind_eq_some_iff.mp h
      split at h
      · next i' w' hround =>
        split at h
        · next hle =>
          cases h
          obtain ⟨hj, newTip, hv, -, hcount⟩ := ih j v hprev
          obtain ⟨hreaches, hcontinues⟩ := hsent n j v newTip hprev hv.ends
          obtain ⟨tip', hready', hi, hlt⟩ :=
            ready_of_batchRound htarget hj hv hreaches hcontinues hround
          exact ⟨hle, tip', hready', hi, by omega⟩
        · cases h
      · cases h
  obtain ⟨hi, newTip, hu, rfl, hcount⟩ := hinv n i u h
  constructor
  · intro i' u' hround
    obtain ⟨hreaches, hcontinues⟩ := hsent n _ u newTip h hu.ends
    obtain ⟨tip', hready', -, hlt⟩ := ready_of_batchRound htarget hi hu hreaches hcontinues hround
    exact ⟨newTip, tip', hu.ends, hready'.ends, hlt⟩
  · have hle := UInt64.le_iff_toNat_le.mp hi
    rw [hu.toNat_succ] at hle
    rw [hready.toNat_succ]
    omega

/-- Blocks 2 and 3, sent in two batches of which the first is short. -/
def shortBatches : Nat → RoundAnswers
  | 0 => ⟨.ok [numberedBlock 2 1 2 10], fun _ => .error (.new "timeout")⟩
  | 1 => ⟨.ok [numberedBlock 3 2 3 10], fun _ => .error (.new "timeout")⟩
  | _ => ⟨.error (.new "timeout"), fun _ => .error (.new "timeout")⟩

/-- The second iteration begins at the last height. -/
theorem regularBlockSync_advances_shortBatches :
    ∃ w, runFromStart sampleEnv [.addBlock (numberedBlock 1 0 1 10)] = some w
      ∧ (regularBlockSync sampleEnv shortBatches 3 2 w 1).isSome = true
      ∧ (1 + 1 : UInt64).toNat + 1 ≤ (3 : UInt64).toNat := by
  have hblock : (numberedBlock 1 0 1 10).height = 1 := rfl
  refine Prog.exists_and_of (fun w => w.chain.tip? = some (numberedBlock 1 0 1 10)
      ∧ w.chain.length64 = 2 ∧ w.chain.forkBlocks.entries = []
      ∧ (∀ o ∈ w.chain.orphans, o.timestamps.entries = [] ∧ o.byParent.entries = [])
      ∧ (regularBlockSync sampleEnv shortBatches 3 2 w 1).any fun s =>
        s.1 = 3 ∧ s.2.chain.tip? = some (numberedBlock 2 1 2 10))
    (by decide +kernel) fun w hrun ⟨htip, hlength, hforks, horphans, hsecond⟩ => ?_
  obtain ⟨⟨i, u⟩, hsecond, hat⟩ := (Option.any_eq_true _ _).mp hsecond
  obtain ⟨rfl, hutip⟩ := of_decide_eq_true hat
  refine ⟨by rw [hsecond]; rfl, (@regularBlockSync_advances sampleEnv shortBatches 3 w _ (by decide)
    ⟨⟨hforks, horphans⟩, htip, by rw [hlength]; rfl, by decide⟩ ?_ 1 3 u hsecond).2⟩
  rintro (_ | _ | n) j v newTip hn hv
  · cases hn
    obtain rfl := Option.some.inj (htip.symm.trans hv)
    exact ⟨fun blocks hb _ => by cases hb; decide +kernel, by decide +kernel, rfl, by decide,
      trivial⟩
  · obtain ⟨rfl, rfl⟩ := Prod.mk.inj (Option.some.inj (hsecond.symm.trans hn))
    obtain rfl := Option.some.inj (hutip.symm.trans hv)
    exact ⟨fun blocks hb _ => by cases hb; decide +kernel, by decide +kernel, rfl, by decide,
      trivial⟩
  · exact ⟨nofun, trivial⟩

/-- **A call that does not end.** The peers answer with a fork block of height 1 whenever they are
asked for a single block. The only height to be reached is 2. -/
theorem regularBlockSync_goes_on :
    ∃ w, runFromStart sampleEnv [.addBlock (numberedBlock 1 0 1 10)] = some w
      ∧ w.chain.tip? = some (numberedBlock 1 0 1 10)
      ∧ (regularBlockSync sampleEnv (fun _ => ⟨.error (.new "timeout"),
          fun _ => .ok (numberedBlock 2 0 1 5)⟩) 2 2 w 3).isSome := by
  decide +kernel

end NogoChain
