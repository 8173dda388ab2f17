import Mathlib.Algebra.BigOperators.Group.List.Basic
import Mathlib.Algebra.GroupWithZero.Nat
import Mathlib.Tactic.Common

/-!
# Transfers between accounts, in exact arithmetic

A list of transfers is carried out one after another: each takes its cost from the account
of its sender and then adds its amount to the account of its recipient. `Affordable` says
what that takes in terms of the balances at the start and of sums over the transfers before
– every sender has enough when its turn comes, and no account outgrows the capacity –, and
`affordable_cons` is the same read one transfer at a time, as a program carries it out.
-/

namespace Transfers

variable {α τ : Type} [DecidableEq α]

/-- What a transfer moves: from whom, at which cost, to whom, how much. -/
structure Reading (α τ : Type) where
  sender : τ → α
  /-- what it costs the sender -/
  cost : τ → Nat
  recipient : τ → α
  amount : τ → Nat

variable (r : Reading α τ)

/-- What the transfers of a list cost an account. -/
def debits (l : List τ) (a : α) : Nat := (l.map fun t => if a = r.sender t then r.cost t else 0).sum

/-- What the transfers of a list bring an account. -/
def credits (l : List τ) (a : α) : Nat :=
  (l.map fun t => if a = r.recipient t then r.amount t else 0).sum

/-- **The transfers can be carried out in this order**, from these balances, by accounts that
hold less than `cap`. -/
def Affordable (cap : Nat) (start : α → Nat) (l : List τ) : Prop :=
  ∀ pre t post, l = pre ++ t :: post →
    debits r pre (r.sender t) + r.cost t ≤ start (r.sender t) + credits r pre (r.sender t)
      ∧ start (r.recipient t) + credits r pre (r.recipient t) + r.amount t
        < cap + debits r (pre ++ [t]) (r.recipient t)

/-- The balance of an account after one transfer. -/
def after (start : α → Nat) (t : τ) (a : α) : Nat :=
  start a - (if a = r.sender t then r.cost t else 0) + (if a = r.recipient t then r.amount t else 0)

theorem after_recipient (start : α → Nat) (t : τ) :
    after r start t (r.recipient t)
      = start (r.recipient t) - (if r.recipient t = r.sender t then r.cost t else 0)
        + r.amount t := by
  rw [after, if_pos (rfl : r.recipient t = r.recipient t)]

theorem debits_cons (t : τ) (l : List τ) (a : α) :
    debits r (t :: l) a = (if a = r.sender t then r.cost t else 0) + debits r l a := by
  unfold debits
  rw [List.map_cons, List.sum_cons]

theorem credits_cons (t : τ) (l : List τ) (a : α) :
    credits r (t :: l) a = (if a = r.recipient t then r.amount t else 0) + credits r l a := by
  unfold credits
  rw [List.map_cons, List.sum_cons]

theorem debits_nil (a : α) : debits r [] a = 0 := rfl

theorem credits_nil (a : α) : credits r [] a = 0 := rfl

theorem affordable_nil (cap : Nat) (start : α → Nat) : Affordable r cap start [] := by
  intro pre t post h
  exact absurd h.symm (List.append_ne_nil_of_right_ne_nil pre (List.cons_ne_nil t post))

/-- What is spent and received later, seen from the balances after the first transfer. -/
theorem start_add {start : α → Nat} {t : τ} (h : r.cost t ≤ start (r.sender t)) (a : α) :
    after r start t a + (if a = r.sender t then r.cost t else 0)
      = start a + if a = r.recipient t then r.amount t else 0 := by
  unfold after
  split
  · next ha =>
    rw [← ha] at h
    omega
  · omega

/-- **One transfer at a time**: the sender has enough, the recipient has room, and the rest
can be carried out from the balances after it. -/
theorem affordable_cons {cap : Nat} {start : α → Nat} {t : τ} {l : List τ} :
    Affordable r cap start (t :: l)
      ↔ r.cost t ≤ start (r.sender t) ∧ after r start t (r.recipient t) < cap
        ∧ Affordable r cap (after r start t) l := by
  constructor
  · intro h
    have hfirst := h [] t l rfl
    rw [debits_nil, credits_nil, credits_nil, List.nil_append, debits_cons, debits_nil] at hfirst
    have hcost : r.cost t ≤ start (r.sender t) := by omega
    refine ⟨hcost, ?_, ?_⟩
    · have hrecipient := start_add r hcost (r.recipient t)
      rw [if_pos rfl] at hrecipient
      omega
    · intro pre t' post hl
      have hlater := h (t :: pre) t' post (by rw [hl, List.cons_append])
      have hsender := start_add r hcost (r.sender t')
      have hrecipient := start_add r hcost (r.recipient t')
      rw [List.cons_append, debits_cons, credits_cons, credits_cons, debits_cons] at hlater
      omega
  · rintro ⟨hcost, hroom, hrest⟩ pre t' post hl
    cases pre with
    | nil =>
      cases hl
      have hrecipient := start_add r hcost (r.recipient t)
      rw [if_pos rfl] at hrecipient
      rw [debits_nil, credits_nil, credits_nil, List.nil_append, debits_cons, debits_nil]
      omega
    | cons u pre =>
      cases hl
      have hlater := hrest pre t' post rfl
      have hsender := start_add r hcost (r.sender t')
      have hrecipient := start_add r hcost (r.recipient t')
      rw [List.cons_append, debits_cons, credits_cons, credits_cons, debits_cons]
      omega

end Transfers
