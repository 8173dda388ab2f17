import NogoChain.Chain.Lifecycle

/-!
# Runs

A run starts a node on an empty store and makes a sequence of calls. A call that returns an
error is part of the run; a call that faults ends it.
-/

namespace NogoChain

variable (env : Env)

/-- The calls that change the chain. -/
inductive Call where
  | addBlock (block : Block)
  | rollbackToHeight (height : UInt64)
  | reorganizeToKnownFork (ancestor newTip : Block)

/-- The program of a call. -/
def Call.exec : Call → ChainM Unit
  | .addBlock block => do
    let _ ← NogoChain.addBlock env block
  | .rollbackToHeight height => NogoChain.rollbackToHeight env height
  | .reorganizeToKnownFork ancestor newTip => NogoChain.reorganizeToKnownFork env ancestor newTip

/-- The state after a sequence of calls, unless one of them faults. -/
def runCalls : List Call → World → Option World
  | [], w => some w
  | call :: calls, w => (call.exec env w).state?.bind (runCalls calls)

/-- The state after a start on an empty store and a sequence of calls. -/
def runFromStart (calls : List Call) : Option World :=
  match start env BoltStore.empty 0 with
  | .ret () w => runCalls env calls w
  | _ => none

/-- **Run induction.** A relation that the start establishes and every call keeps holds at
the end of every run. -/
theorem runFromStart_induction {I : World → Prop} {ok : Call → Prop}
    (hstart : ∀ w, start env BoltStore.empty 0 = .ret () w → I w)
    (hcall : ∀ call w w', ok call → I w → (call.exec env w).state? = some w' → I w')
    {calls : List Call} {w : World} (hok : ∀ call ∈ calls, ok call)
    (h : runFromStart env calls = some w) : I w := by
  have hrun : ∀ (calls : List Call) (w w' : World), (∀ call ∈ calls, ok call) → I w →
      runCalls env calls w = some w' → I w' := by
    intro calls
    induction calls with
    | nil =>
      intro w w' _ hw h
      exact Option.some.inj h ▸ hw
    | cons call calls ih =>
      intro w w' hok hw h
      obtain ⟨w1, h1, h2⟩ := Option.bind_eq_some_iff.mp h
      exact ih w1 w' (fun x hx => hok x (List.mem_cons_of_mem call hx))
        (hcall call w w1 (hok call List.mem_cons_self) hw h1) h2
  unfold runFromStart at h
  split at h
  · next w0 hw0 => exact hrun calls w0 w hok (hstart w0 hw0) h
  · cases h

/-! ## A concrete node

The default configuration with the constant cryptographic functions: every digest is zero,
every signature and every seal passes. The clock advances by a second with every reading,
every store write succeeds, maps are ranged over in the order of their lists. -/

/-- The environment in which concrete runs are evaluated. -/
def sampleEnv : Env where
  cr := Crypto.constant
  chainId := 1
  consensus := ConsensusParams.default
  monetaryPolicy := MonetaryPolicy.default
  genesis := { timestamp := 1, genesisMinerAddress := zeroAddress 0, initialSupply := 1000
               genesisMessage := [] }
  rulesHash := List.replicate 32 0
  powFake := false
  now n := n * 1000000000
  storeOk _ := true
  order _ l := l
  order_perm _ _ := .refl _
  grow n := n
  grow_le _ := le_refl _
  hashCap _ := 0
  prevHashCap _ := 0

end NogoChain
