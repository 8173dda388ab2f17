import Mathlib.Tactic.Common

/-!
# A cache with one slot

A computation is remembered in a single slot, under a key that need not determine its input.
An input whose key is in the slot gets the value in the slot; any other is computed and takes
the slot.

The cache goes unnoticed along a sequence of inputs exactly if each input has another key than
the one before it, or the same value (`answers_eq_map_iff`): what is in the slot is then
always the value of the last input. The key and the value that the slot starts with count as
an input before the first one, which is where an uninitialised slot shows.
-/

/-- The slot: a key and the value remembered for it. -/
structure Slot (κ ν : Type) where
  key : κ
  value : ν
deriving DecidableEq

namespace Slot

variable {ι κ ν : Type} [DecidableEq κ] (key : ι → κ) (compute : ι → ν)

/-- One input: the answer and the slot afterwards. -/
def ask (s : Slot κ ν) (x : ι) : ν × Slot κ ν :=
  if key x = s.key then (s.value, s) else (compute x, ⟨key x, compute x⟩)

/-- The answers to a sequence of inputs. -/
def answers (s : Slot κ ν) : List ι → List ν
  | [] => []
  | x :: xs => (s.ask key compute x).1 :: (s.ask key compute x).2.answers xs

/-- Each input has another key than what was before it, or the same value. -/
def Unnoticed (s : Slot κ ν) : List ι → Prop
  | [] => True
  | x :: xs => (key x ≠ s.key ∨ compute x = s.value) ∧ Unnoticed ⟨key x, compute x⟩ xs

variable {key compute} {s : Slot κ ν} {x : ι}

/-- **One input.** The answer is right exactly if the key is another one or the value the
same; and then the slot holds the input's own key and value. -/
theorem ask_eq_compute_iff :
    (s.ask key compute x).1 = compute x ↔ key x ≠ s.key ∨ compute x = s.value := by
  unfold ask
  split
  · next hhit => simp [hhit, eq_comm]
  · next hmiss => simp [hmiss]

theorem ask_slot (h : key x ≠ s.key ∨ compute x = s.value) :
    (s.ask key compute x).2 = ⟨key x, compute x⟩ := by
  unfold ask
  split
  · next hhit =>
    have hvalue : compute x = s.value := h.resolve_left (not_not.mpr hhit)
    rw [hhit, hvalue]
  · rfl

/-- **A whole sequence.** -/
theorem answers_eq_map_iff {l : List ι} :
    s.answers key compute l = l.map compute ↔ s.Unnoticed key compute l := by
  induction l generalizing s with
  | nil => simp [answers, Unnoticed]
  | cons x xs ih =>
    rw [answers, List.map_cons, List.cons.injEq, ask_eq_compute_iff, Unnoticed]
    refine and_congr_right fun hx => ?_
    rw [ask_slot hx]
    exact ih

end Slot
