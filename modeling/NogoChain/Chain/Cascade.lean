import NogoChain.Chain.OrphanPool

/-!
# Reconnecting the orphans that wait for a block

`processOrphanDescendantsLocked` tries to add every orphan that waits for a parent, and those
that wait for one that was added. The recursion is bounded in the model by the size of the pool.
It never gets there, since an orphan leaves the pool before its descendants are turned to
(`processOrphanDescendantsLocked_eq_of_le`).
-/

namespace NogoChain

open Chain Prog

variable {env : Env} {c : Chain} {k : Bytes} {b : Block} {w w' : World}

/-- A pool that fades does not grow. -/
theorem Fades.orphanCount_le (h : Fades w w') :
    w'.chain.orphanCount ≤ w.chain.orphanCount := by
  unfold orphanCount
  cases ho' : w'.chain.orphans with
  | none => exact Nat.zero_le _
  | some o' =>
    have hle : ∀ m : GoMap Bytes Block, (∀ k, w.chain.orphan? k = m.lookup k) →
        o'.pool.entries.length ≤ m.entries.length := by
      intro m hm
      refine GoMap.length_le_of_lookup fun k hk => ?_
      obtain ⟨b, hb⟩ := Option.isSome_iff_exists.mp hk
      rw [← hm, h.pool k b (by rw [orphan?_eq ho', hb])]
      rfl
    cases ho : w.chain.orphans with
    | none => exact hle ∅ fun k => by rw [orphan?, ho]; rfl
    | some o => exact hle o.pool (orphan?_eq ho)

/-- An orphan that leaves the pool makes it smaller. -/
theorem orphanCount_removeOrphanLocked_lt (hk : c.orphan? k = some b) :
    (c.removeOrphanLocked k).orphanCount < c.orphanCount := by
  obtain ⟨o, ho, -⟩ := Option.bind_eq_some_iff.mp hk
  unfold orphanCount
  cases ho' : (c.removeOrphanLocked k).orphans with
  | none =>
    rw [ho]
    rw [orphan?_eq ho] at hk
    exact List.length_pos_of_mem (GoMap.mem_entries_iff.mpr hk)
  | some o' =>
    rw [ho]
    exact length_pool_lt ho ho' hk fun _ h => h

section Bound

variable {cascade cascade' : Slice → Nat → ChainM (Nat × Nat)} {n : Nat}
  (hsteps : ∀ s total w, Steps (Reconnected env) (cascade s total) w)
  (hagree : ∀ s total w, w.chain.OrphansKeyed → w.chain.orphanCount < n →
    cascade s total w = cascade' s total w)
include hagree

omit hsteps in
theorem processOrphanDescendantsWith_congr (h : Bytes) (hkeyed : w.chain.OrphansKeyed)
    (hcount : w.chain.orphanCount < n) :
    processOrphanDescendantsWith cascade h w = processOrphanDescendantsWith cascade' h w := by
  refine bind_congr_at rfl fun c t hc => ?_
  cases hc
  cases w.chain.orphanChildren? h with
  | none => rfl
  | some s =>
    dsimp only
    split
    · rfl
    · exact bind_congr_at (hagree s 0 w hkeyed hcount) fun _ _ _ => rfl

theorem addBlockReconnectLocked_congr (hb : b.hash ≠ [])
    (hkeyed : w.chain.OrphansKeyed) (hcount : w.chain.orphanCount < n) :
    addBlockReconnectLocked env (processOrphanDescendantsWith cascade) b w
      = addBlockReconnectLocked env (processOrphanDescendantsWith cascade') b w := by
  rw [addBlockReconnectLocked_eq, addBlockReconnectLocked_eq]
  refine bind_congr_at rfl fun standing t ht => ?_
  have hfades : Fades w t := ((threads_reconnectHead threads_reconnected hb w).of_ret ht
    hkeyed).1
  have hdescend := processOrphanDescendantsWith_congr hagree b.hash (hfades.keyed hkeyed)
    (Nat.lt_of_le_of_lt hfades.orphanCount_le hcount)
  cases standing with
  | returned accepted => rfl
  | onTip | onFork => exact bind_congr_at hdescend fun _ _ _ => rfl

include hsteps in
theorem cascadeLoop_congr (s : Slice) : ∀ (left i connected total : Nat) {w : World},
    w.chain.OrphansKeyed → w.chain.orphanCount ≤ n →
    cascadeLoop env cascade s left i connected total w
      = cascadeLoop env cascade' s left i connected total w := by
  intro left
  induction left with
  | zero => exact fun _ _ _ _ _ _ => rfl
  | succ left ih =>
    intro i connected total w hkeyed hcount
    have hnext : ∀ {t : World}, Fades w t → ∀ connected total,
        cascadeLoop env cascade s left (i + 1) connected total t
          = cascadeLoop env cascade' s left (i + 1) connected total t := fun h _ _ =>
      ih _ _ _ (h.keyed hkeyed) (h.orphanCount_le.trans hcount)
    unfold cascadeLoop
    split
    · rfl
    · refine bind_congr_at rfl fun c t hc => ?_
      obtain ⟨rfl, rfl⟩ := Outcome.ret.inj hc
      cases hk : w.chain.orphan? (s.read w.chain.arrays i) with
      | none => exact ih _ _ _ hkeyed hcount
      | some b =>
        obtain ⟨-, hne⟩ := hkeyed _ b hk
        refine bind_congr_at rfl fun _ w₀ hw₀ => ?_
        obtain ⟨-, rfl⟩ := Outcome.ret.inj hw₀
        have hfades₀ := fades_removeOrphanLocked w (s.read w.chain.arrays i)
        have hkeyed₀ := hfades₀.keyed hkeyed
        have hcount₀ := Nat.lt_of_lt_of_le (orphanCount_removeOrphanLocked_lt hk) hcount
        refine bind_congr_at ?_ fun added t ht => ?_
        · unfold Prog.attempt
          rw [addBlockReconnectLocked_congr hagree hne hkeyed₀ hcount₀]
        · have hfades : Fades _ t := ((steps_attempt (threads_addBlockReconnectLocked
            threads_reconnected (threads_processOrphanDescendantsWith hsteps) hne _)).of_ret ht
            hkeyed₀).1
          have hpool := trans_of Fades hfades₀ hfades
          rcases added with e | _ | _
          · refine bind_congr_at rfl fun _ t' ht' => ?_
            obtain rfl := hexPrefix16_ret ht'
            exact hnext hpool _ _
          · refine bind_congr_at rfl fun _ t' ht' => ?_
            obtain rfl := hexPrefix16_ret ht'
            have hnow : Fades t ⟨t.chain.ticked, t.steps⟩ := .of_pool rfl rfl
            exact hnext ((trans_of Fades hfades hnow).putBack _ hk) _ _
          · refine bind_congr_at rfl fun c t' hc => ?_
            obtain ⟨rfl, rfl⟩ := Outcome.ret.inj hc
            cases t.chain.orphanChildren? (s.read w.chain.arrays i) with
            | none => exact hnext hpool _ _
            | some g =>
              dsimp only
              split
              · exact hnext hpool _ _
              · have hkeyed₁ := hfades.keyed hkeyed₀
                refine bind_congr_at (hagree g _ t hkeyed₁
                  (Nat.lt_of_le_of_lt hfades.orphanCount_le hcount₀)) fun r t' hr => ?_
                exact hnext (trans_of Fades hpool ((hsteps g _ t).of_ret hr hkeyed₁).1) _ _

end Bound

/-- `cascade` with any program in the place where it runs out of depth. -/
def cascadeOver (env : Env) (bottom : Slice → Nat → ChainM (Nat × Nat)) :
    Nat → Slice → Nat → ChainM (Nat × Nat)
  | 0 => bottom
  | depth + 1 => fun orphanHashes total =>
    cascadeLoop env (cascadeOver env bottom depth) orphanHashes orphanHashes.len 0 0 total

theorem cascade_congr (bottom : Slice → Nat → ChainM (Nat × Nat)) : ∀ (n : Nat) {d d' : Nat},
    n ≤ d → n ≤ d' → ∀ (s : Slice) (total : Nat) (w : World), w.chain.OrphansKeyed →
    w.chain.orphanCount ≤ n →
    cascade env (d + 1) s total w = cascadeOver env bottom (d' + 1) s total w
  | 0, _, _, _, _, s, _, _, hkeyed, hcount =>
    cascadeLoop_congr (threads_cascade threads_reconnected _)
      (fun _ _ _ _ hlt => absurd hlt (Nat.not_lt_zero _)) s _ _ _ _ hkeyed hcount
  | n + 1, _ + 1, _ + 1, hd, hd', s, _, _, hkeyed, hcount =>
    cascadeLoop_congr (threads_cascade threads_reconnected _) (fun s total w hkeyed hlt =>
      cascade_congr bottom n (Nat.le_of_succ_le_succ hd) (Nat.le_of_succ_le_succ hd') s total w
        hkeyed (Nat.le_of_lt_succ hlt)) s _ _ _ _ hkeyed hcount

/-- **The recursion ends before the bound**: the call does the same whatever stands at the bottom
of the recursion, at this bound and at any larger one, so that the bottom is never reached. -/
theorem processOrphanDescendantsLocked_eq_of_le (p : Bytes)
    (hkeyed : w.chain.OrphansKeyed) {depth : Nat} (hdepth : w.chain.orphanCount ≤ depth)
    (bottom : Slice → Nat → ChainM (Nat × Nat)) :
    processOrphanDescendantsLocked env p w
      = processOrphanDescendantsWith (cascadeOver env bottom (depth + 1)) p w := by
  refine processOrphanDescendantsWith_congr (n := w.chain.orphanCount + 1)
    (fun s total t ht hlt => ?_) p hkeyed (Nat.lt_succ_self _)
  exact cascade_congr bottom w.chain.orphanCount (Nat.le_refl _) hdepth s total t ht
    (Nat.le_of_lt_succ hlt)

/-- The state in which the orphans that wait for block 1 are turned to: block 1 has been put on
the tip after `bs` were added. -/
def parentOnTip (bs : List Block) : Option World :=
  (operateFromStart sampleEnv (bs.map fun b => .call (.addBlock b))).bind fun w =>
    (appendToTip sampleEnv (numberedBlock 1 0 1 10) w).state?

/-- The pool of that state is as in every run. -/
theorem indexed_of_parentOnTip {bs : List Block} (h : parentOnTip bs = some w) :
    w.chain.OrphansIndexed ∧ w.chain.OrphansKeyed := by
  obtain ⟨w₀, hw₀, h⟩ := Option.bind_eq_some_iff.mp h
  obtain ⟨hkeyed, hindexed, -⟩ := admitted_of_run hw₀
  have hfades : Fades w₀ w := (reconnected_appendToTip _ w₀ w h hkeyed).1
  exact ⟨hfades.indexed hindexed, hfades.keyed hkeyed⟩

/-- Blocks 2, 3 and 4, each on the one before it. -/
def orphansInLine : List Block :=
  [numberedBlock 2 1 2 10, numberedBlock 3 2 3 10, numberedBlock 4 3 4 10]

/-- Three orphans, a bound of 3, and a bottom that returns. -/
theorem processOrphanDescendantsLocked_eq_of_le_inLine :
    ∃ w, parentOnTip orphansInLine = some w ∧ w.chain.orphanCount = 3
      ∧ ∀ p, processOrphanDescendantsLocked sampleEnv p w
        = processOrphanDescendantsWith (cascadeOver sampleEnv (fun _ _ => pure (0, 0)) 4) p w :=
  exists_and_of (fun w => w.chain.orphanCount = 3) (by decide +kernel) fun w hw h => ⟨h, fun p =>
    processOrphanDescendantsLocked_eq_of_le p (indexed_of_parentOnTip hw).2 (by omega) _⟩

end NogoChain
