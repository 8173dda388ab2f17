import NogoChain.Lib.GoMap
import NogoChain.Nogopow.Adjuster

/-!
# The engine and its ancestors

The controller computes everything anew from the chain – but which chain is decided once. The
first call of `CalcDifficulty` with a chain walks back from its parent, keeps the headers it
meets in a map by height, and sets the look-up in that map as the ancestor function. Every
later call finds an ancestor function set and keeps it, whatever chain and parent it is called
with; the map knows neither another branch nor a block above the first parent.

`calcDifficulty_same_as_fresh` is what is left: along a run in which each call finds an
ancestor function that shows it the times its own walk would have found, each result is that
of a fresh engine.
-/

namespace NogoChain.Nogopow

/-! ## The engine -/

/-- `ChainHeaderReader`: `GetHeaderByHash`. -/
abbrev ChainHeaderReader := Bytes → Option Header

/-- `NogopowEngine`, with what `CalcDifficulty` reads and writes. -/
structure Engine where
  /-- `config.ConsensusParams`, which may be nil -/
  consensusParams : Option AdjusterParams
  diffAdjuster : DifficultyAdjuster

def Engine.new (consensusParams : Option AdjusterParams) : Engine :=
  ⟨consensusParams, newDifficultyAdjuster consensusParams⟩

/-- The loop of `initAncestorFuncWithGetter`. It takes a new height in each round, of which
there are `2 ^ 64`. -/
def walkBack (getHeader : ChainHeaderReader) :
    (rounds : Nat) → GoMap Nat Header → Option Header → GoMap Nat Header
  | 0, cache, _ => cache
  | rounds + 1, cache, current =>
    match current.bind fun header => header.height?.map fun h => (header, h) with
    | none => cache
    | some (header, h) =>
      if h ∈ cache then cache
      else if h = 0 then cache.insert h header
      else walkBack getHeader rounds (cache.insert h header) (getHeader header.parentHash)

/-- The headers by height that the walk from a parent finds. -/
def ancestorCache (getHeader : ChainHeaderReader) (parent : Header) : GoMap Nat Header :=
  walkBack getHeader (2 ^ 64 + 1) ∅ (some parent)

/-- The ancestor function that the walk from a parent sets. -/
def ancestorFunc (getHeader : ChainHeaderReader) (parent : Header) : GetAncestorFunc :=
  fun height => (ancestorCache getHeader parent).lookup height

variable {R : Type} [Add R] [Sub R] [Mul R] [Div R] [Neg R] [LT R] [DecidableLT R]
  [OfScientific R] [FactorArith R]

namespace Engine

/-- `initAncestorFunc`, where no ancestor function is set. -/
def initAncestorFunc (t : Engine) (chain : ChainHeaderReader) (parent : Header) : Engine :=
  { t with
    diffAdjuster := { t.diffAdjuster with getAncestor := some (ancestorFunc chain parent) } }

/-- What `CalcDifficulty` makes of the engine before it asks the controller. -/
def prepare (t : Engine) (chain : Option ChainHeaderReader) (parent : Header) : Engine :=
  match t.diffAdjuster.getAncestor, chain, parent.number with
  | none, some chain, some _ => t.initAncestorFunc chain parent
  | _, _, _ => t

variable (R)

/-- `NogopowEngine.CalcDifficulty`: the result – `none` for a panic – and the engine after the
call. The line of the log reads `parent.Number`, nil or not. -/
def calcDifficulty (t : Engine) (chain : Option ChainHeaderReader) (time : UInt64)
    (parent : Option Header) : Option Int × Engine :=
  match parent with
  | none => (some (t.consensusParams.elim 1 fun p => p.minDifficulty.toNat), t)
  | some parent =>
    if parent.difficulty = none then
      (some (t.consensusParams.elim 1 fun p => p.minDifficulty.toNat), t)
    else
      let t := t.prepare chain parent
      ((t.diffAdjuster.calcDifficulty R time (some parent)).bind fun newDifficulty =>
        parent.number.map fun _ => newDifficulty, t)

end Engine

/-! ## What a call sees of the ancestors -/

/-- Two ancestor functions show the same times, as far back from `height` as the controller
looks. -/
def SeenAlike (height : Nat) (f g : GetAncestorFunc) : Prop :=
  ∀ k ≤ scanDepth, f.timeAt (height - k) = g.timeAt (height - k)

section Congruence

variable {height : Nat} {f g : GetAncestorFunc}

/-- The scan reads heights from `height - i` to `height - (i + n)`. -/
theorem scanBack_congr {n i : Nat} (h : SeenAlike height f g) (hdepth : i + n ≤ scanDepth) :
    scanBack f.timeAt height n i = scanBack g.timeAt height n i := by
  induction n generalizing i with
  | zero => rfl
  | succ n ih =>
    rw [scanBack, scanBack, Nat.sub_sub, h i (by omega), h (i + 1) (by omega), ih (by omega)]

variable {da : DifficultyAdjuster} {parent : Header}

/-- At most 50 blocks, for the median and for the smoothing. -/
theorem toNat_le_of_not_gt {w : Int64} (h : ¬ w > 50) : w.toInt.toNat ≤ 50 := by
  have hle : w.toInt ≤ 50 := Int64.le_iff_toInt_le.mp (Int64.not_lt.mp h)
  omega

variable (h : SeenAlike height f g) (hheight : parent.height? = some height)
include h hheight

theorem computeAverageBlockTime_congr (time : UInt64) :
    (da.withAncestors f).computeAverageBlockTime time parent
      = (da.withAncestors g).computeAverageBlockTime time parent := by
  have hwindow : da.medianWindow.toInt.toNat ≤ 50 := by
    unfold DifficultyAdjuster.medianWindow
    split
    · decide
    · next hw => exact toNat_le_of_not_gt hw
  have hdiffs : timeDiffs f.timeAt height da.medianWindow.toInt.toNat
      = timeDiffs g.timeAt height da.medianWindow.toInt.toNat := by
    refine List.filterMap_congr fun k hk => ?_
    have hlt := List.mem_range.mp hk
    rw [h k (by rw [scanDepth]; omega), h (k + 1) (by rw [scanDepth]; omega)]
  simp only [DifficultyAdjuster.computeAverageBlockTime, hheight]
  have hsame := congrArg (fun diffs => if da.medianWindow < 0 then none else
    some (if diffs.length > 0 then median diffs else da.singleInterval time parent)) hdiffs
  exact hsame

theorem multiplier_congr (avgTime targetTime : Int64) :
    ((da.withAncestors f).multiplier avgTime targetTime parent : R)
      = (da.withAncestors g).multiplier avgTime targetTime parent := by
  have hsmooth : da.smoothingWindow ≤ scanDepth := by
    unfold DifficultyAdjuster.smoothingWindow
    split
    · decide
    · split
      · decide
      · next hw => exact (toNat_le_of_not_gt hw).trans (by decide)
  have hintegral : ((da.withAncestors f).computeChainIntegral parent : R)
      = (da.withAncestors g).computeChainIntegral parent := by
    simp only [DifficultyAdjuster.computeChainIntegral, hheight]
    have hsame := congrArg (fun times => if height = 0 then (0.0 : R) else clampFloat64 (times.foldl
        (integralStep da.consensusParams.blockTimeTargetSeconds) (0.0, 0)).1 (-3.0) 3.0)
      (scanBack_congr h (Nat.zero_add scanDepth).le)
    exact hsame
  have hsmoothed : ((da.withAncestors f).calculateDoubleExponentialSmoothing avgTime targetTime
        parent : R)
      = (da.withAncestors g).calculateDoubleExponentialSmoothing avgTime targetTime parent := by
    simp only [DifficultyAdjuster.calculateDoubleExponentialSmoothing, hheight]
    have hsame := congrArg (fun times => if targetTime ≤ 0 then
          if avgTime > 0 then timeError avgTime targetTime else (0.0 : R)
        else DifficultyAdjuster.smoothed (times.filterMap (smoothingError targetTime)))
      (scanBack_congr h ((Nat.zero_add _).trans_le hsmooth))
    exact hsame
  simp only [DifficultyAdjuster.multiplier, hintegral, hsmoothed]

/-- **The difficulty depends on the times it looks at.** -/
theorem calcDifficulty_congr (time : UInt64) :
    (da.withAncestors f).calcDifficulty R time (some parent)
      = (da.withAncestors g).calcDifficulty R time (some parent) := by
  cases hdiff : parent.difficulty with
  | none => simp only [DifficultyAdjuster.calcDifficulty, Option.bind_some, hdiff]; rfl
  | some p =>
    simp only [DifficultyAdjuster.calcDifficulty, Option.bind_some, hdiff, Option.map_some,
      computeAverageBlockTime_congr h hheight]
    congr 1
    funext avgTime
    have hnext : (da.withAncestors f).calculateDeterministicDifficulty R avgTime
          da.consensusParams.blockTimeTargetSeconds p parent
        = (da.withAncestors g).calculateDeterministicDifficulty R avgTime
          da.consensusParams.blockTimeTargetSeconds p parent := by
      simp only [DifficultyAdjuster.calculateDeterministicDifficulty,
        multiplier_congr (R := R) h hheight]
    exact congrArg (fun n => (da.withAncestors g).enforceBoundaryConditions R n p) hnext

end Congruence

/-! ## Runs -/

/-- A call of `CalcDifficulty`. -/
structure DiffCall where
  /-- the chain, which may be nil -/
  chain : Option ChainHeaderReader
  time : UInt64
  parent : Option Header

/-- A call finds no ancestor function, or does not look at it, or finds one that shows it the
times that a walk from its own parent along its own chain finds. -/
def Undisturbed (t : Engine) (c : DiffCall) : Prop :=
  ∀ installed parent height, t.diffAdjuster.getAncestor = some installed → c.parent = some parent →
    parent.difficulty ≠ none → parent.height? = some height →
    ∃ chain, c.chain = some chain ∧ SeenAlike height installed (ancestorFunc chain parent)

section Runs

variable (R)

/-- The result of a call. -/
def Engine.result (t : Engine) (c : DiffCall) : Option Int :=
  (t.calcDifficulty R c.chain c.time c.parent).1

/-- The engine after a call. -/
def Engine.after (t : Engine) (c : DiffCall) : Engine :=
  (t.calcDifficulty R c.chain c.time c.parent).2

/-- The results of a sequence of calls. -/
def Engine.results (t : Engine) : List DiffCall → List (Option Int)
  | [] => []
  | c :: cs => t.result R c :: (t.after R c).results cs

/-- Every call of a sequence is undisturbed. -/
def UndisturbedRun (t : Engine) : List DiffCall → Prop
  | [] => True
  | c :: cs => Undisturbed t c ∧ UndisturbedRun (t.after R c) cs

end Runs

/-- All that calls change of a fresh engine is the ancestor function. -/
structure Engine.Stems (consensusParams : Option AdjusterParams) (t : Engine) : Prop where
  /-- the parameters stay -/
  params : t.consensusParams = consensusParams
  /-- and so does the rest of the controller -/
  adjuster : { t.diffAdjuster with getAncestor := none } = newDifficultyAdjuster consensusParams

namespace Engine.Stems

variable {consensusParams : Option AdjusterParams} {t : Engine}

theorem new (consensusParams : Option AdjusterParams) :
    (Engine.new consensusParams).Stems consensusParams :=
  ⟨rfl, rfl⟩

theorem after (h : t.Stems consensusParams) (c : DiffCall) :
    (t.after R c).Stems consensusParams := by
  unfold Engine.after Engine.calcDifficulty
  cases c.parent with
  | none => exact h
  | some parent =>
    dsimp only
    split
    · exact h
    · show (t.prepare c.chain parent).Stems consensusParams
      unfold Engine.prepare
      split
      · exact ⟨h.params, h.adjuster⟩
      · exact h

/-- **One call.** An undisturbed call gives what a fresh engine gives. -/
theorem result_eq (h : t.Stems consensusParams) {c : DiffCall} (hc : Undisturbed t c) :
    t.result R c = (Engine.new consensusParams).result R c := by
  obtain ⟨chain, time, parent⟩ := c
  have hparams : t.consensusParams = (Engine.new consensusParams).consensusParams := h.params
  unfold Engine.result Engine.calcDifficulty
  cases parent with
  | none => simp only [hparams]
  | some parent =>
    by_cases hdiff : parent.difficulty = none
    · simp only [if_pos hdiff, hparams]
    · simp only [if_neg hdiff]
      cases hnum : parent.number with
      | none => simp only [Option.map_none, Option.bind_fun_none]
      | some n =>
        have hheight : parent.height? = some (n.natAbs % 2 ^ 64) := by
          rw [Header.height?, hnum, Option.map_some]
        have hsame : (t.prepare chain parent).diffAdjuster.calcDifficulty R time (some parent)
            = ((Engine.new consensusParams).prepare chain parent).diffAdjuster.calcDifficulty R time
              (some parent) := by
          cases hanc : t.diffAdjuster.getAncestor with
          | none =>
            -- nothing is set yet: the engine is a fresh one
            have hfresh : t = Engine.new consensusParams := by
              obtain ⟨params, da⟩ := t
              obtain ⟨rfl, hda⟩ := h
              rw [Engine.new, ← hda]
              rw [← hanc]
            rw [hfresh]
          | some installed =>
            obtain ⟨reader, rfl, hseen⟩ := hc installed parent _ hanc rfl hdiff hheight
            have hkeep : t.prepare (some reader) parent = t := by
              unfold Engine.prepare
              rw [hanc]
            have hleft : (t.prepare (some reader) parent).diffAdjuster
                = (newDifficultyAdjuster consensusParams).withAncestors installed := by
              rw [hkeep, ← h.adjuster, DifficultyAdjuster.withAncestors, ← hanc]
            have hright : ((Engine.new consensusParams).prepare (some reader) parent).diffAdjuster
                = (newDifficultyAdjuster consensusParams).withAncestors
                    (ancestorFunc reader parent) := by
              unfold Engine.prepare
              rw [hnum]
              rfl
            rw [hleft, hright]
            exact calcDifficulty_congr hseen hheight time
        rw [hsame]

end Engine.Stems

/-- **The difficulty is that of a fresh engine**, for every call of a sequence in which each call
is undisturbed. The sequence is arbitrary, and so is the arithmetic. -/
theorem calcDifficulty_same_as_fresh (R : Type) [Add R] [Sub R] [Mul R] [Div R] [Neg R] [LT R]
    [DecidableLT R] [OfScientific R] [FactorArith R] (consensusParams : Option AdjusterParams)
    (calls : List DiffCall) (hcalls : UndisturbedRun R (Engine.new consensusParams) calls) :
    (Engine.new consensusParams).results R calls
      = calls.map fun c => (Engine.new consensusParams).result R c := by
  have hrun : ∀ t : Engine, t.Stems consensusParams → UndisturbedRun R t calls →
      t.results R calls = calls.map fun c => (Engine.new consensusParams).result R c := by
    clear hcalls
    induction calls with
    | nil => intro t _ _; rfl
    | cons c cs ih =>
      intro t hstems hcs
      rw [Engine.results, List.map_cons, hstems.result_eq hcs.1, ih _ (hstems.after c) hcs.2]
  exact hrun _ (Engine.Stems.new consensusParams) hcalls

/-- A header on a chain with so many seconds between blocks; its hash is its height. -/
def spacedHeader (seconds : UInt64) (height : UInt8) : Header :=
  ⟨some height.toNat, 1000 + seconds * height.toUInt64, some 1000, [height - 1]⟩

/-- The reader of such a chain. -/
def spacedChain (seconds : UInt64) : ChainHeaderReader
  | [height] => some (spacedHeader seconds height)
  | _ => none

/-- A call at a height of such a chain. -/
def spacedCall (seconds : UInt64) (height : UInt8) : DiffCall :=
  ⟨some (spacedChain seconds), 100000, some (spacedHeader seconds height)⟩

/-- Two calls for the same parent, the second one with the ancestors of the first. -/
theorem calcDifficulty_same_as_fresh_repeated :
    UndisturbedRun ℚ (Engine.new none) [spacedCall 30 12, spacedCall 30 12]
      ∧ (Engine.new none).results ℚ [spacedCall 30 12, spacedCall 30 12]
        = [spacedCall 30 12, spacedCall 30 12].map fun c => (Engine.new none).result ℚ c := by
  have hrun : UndisturbedRun ℚ (Engine.new none) [spacedCall 30 12, spacedCall 30 12] := by
    refine ⟨nofun, ?_, trivial⟩
    intro installed parent height hinst hparent _ _
    obtain rfl : spacedHeader 30 12 = parent := Option.some.inj hparent
    obtain rfl : ancestorFunc (spacedChain 30) (spacedHeader 30 12) = installed :=
      Option.some.inj hinst
    exact ⟨spacedChain 30, rfl, fun _ _ => rfl⟩
  exact ⟨hrun, calcDifficulty_same_as_fresh ℚ none _ hrun⟩

/-- **An earlier call decides.** On a chain with 5 minutes between blocks the difficulty after
block 12 goes down to 750; after a call for a chain with 5 seconds between blocks it goes up to
1250, and after a call for block 5 of the very same chain it is 922. -/
theorem earlier_call_decides : (Engine.new none).results ℚ [spacedCall 300 12] = [some 750]
      ∧ (Engine.new none).results ℚ [spacedCall 5 12, spacedCall 300 12] = [some 1250, some 1250]
      ∧ (Engine.new none).results ℚ [spacedCall 300 5, spacedCall 300 12]
        = [some 750, some 922] := by
  refine ⟨by decide +kernel, by decide +kernel, by decide +kernel⟩

end NogoChain.Nogopow
