import NogoChain.Core.Encoding

/-!
# Integers of variable length

`writeULEB128` writes a 64-bit integer in groups of seven bits, the lowest first, and
`readULEB128` puts them together in a word of 64 bits. Ten groups are seventy bits. Of the tenth
only the lowest bit has a place in the word, and the reader does not look at the others: ten
groups of which the last is above 1 are read modulo `2 ^ 64` (`readULEB128_exact`).
-/

namespace NogoChain

def writeULEB128 (n : UInt64) : Bytes := uleb128 9 n.toNat

/-- `result |= uint64(b&0x7F) << shift`. -/
def addGroup (result : UInt64) (b : UInt8) (shift : Nat) : UInt64 :=
  result ||| (b &&& 0x7F).toUInt64 <<< UInt64.ofNat shift

/-- The loop of `readULEB128`, with so many of its ten rounds left. -/
def readULEB128Loop : Nat → UInt64 → Nat → Bytes → Except GoError (UInt64 × Bytes)
  | 0, _, _, _ => .error (.new "ULEB128 too long")
  | _ + 1, _, _, [] => .error (.wrap "read ULEB128 byte: %w" [] (.new "EOF"))
  | left + 1, result, shift, b :: buf =>
    if b &&& 0x80 = 0 then .ok (addGroup result b shift, buf)
    else if shift + 7 ≥ 64 then .error (.new "ULEB128 overflow")
    else readULEB128Loop left (addGroup result b shift) (shift + 7) buf

def readULEB128 (buf : Bytes) : Except GoError (UInt64 × Bytes) := readULEB128Loop 10 0 0 buf

/-- The number that is denoted by the groups up to the first without the continuation bit. -/
def ulebValue : Bytes → Nat
  | [] => 0
  | b :: buf => b.toNat % 128 + if b.toNat < 128 then 0 else 128 * ulebValue buf

/-- **Bits are lost**: after so many groups that are continued comes a last one above 1. -/
def Overflows : Nat → Bytes → Prop
  | _, [] => False
  | 0, b :: _ => 1 < b.toNat ∧ b.toNat < 128
  | more + 1, b :: buf => 128 ≤ b.toNat ∧ Overflows more buf

variable {left shift n : Nat} {r : UInt64} {b : UInt8} {buf : Bytes}

theorem and_0x80_eq_zero : b &&& 0x80 = 0 ↔ b.toNat < 128 := by
  have hall : ∀ n < 2 ^ 8, (n &&& 0x80 = 0 ↔ n < 128) := by decide +kernel
  rw [← UInt8.toNat_inj, UInt8.toNat_and]
  exact hall _ b.toNat_lt

/-- A group goes above the bits that are there, as far as there is room for it. -/
theorem toNat_addGroup (hr : r.toNat < 2 ^ shift) (hs : shift < 64) : (addGroup r b shift).toNat
    = 2 ^ shift * (b.toNat % 128 % 2 ^ (64 - shift)) + r.toNat := by
  have hlow : (b &&& 0x7F).toNat = b.toNat % 128 := by
    rw [UInt8.toNat_and]
    exact Nat.and_two_pow_sub_one_eq_mod _ 7
  have hshift : (UInt64.ofNat shift).toNat % 64 = shift := by
    rw [UInt64.toNat_ofNat']
    omega
  have hpow : 2 ^ 64 = 2 ^ shift * 2 ^ (64 - shift) := by
    rw [← Nat.pow_add, Nat.add_sub_of_le hs.le]
  rw [addGroup, UInt64.toNat_or, UInt64.toNat_shiftLeft, UInt8.toNat_toUInt64, hlow, hshift,
    Nat.shiftLeft_eq, Nat.mul_comm, hpow, Nat.mul_mod_mul_left, Nat.or_comm,
    Nat.two_pow_add_eq_or_of_lt hr]

/-- Before the tenth group there is room. -/
theorem toNat_addGroup_of_le (hr : r.toNat < 2 ^ shift) (hs : shift ≤ 56) :
    (addGroup r b shift).toNat = 2 ^ shift * (b.toNat % 128) + r.toNat
      ∧ 2 ^ shift * (b.toNat % 128) + r.toNat < 2 ^ (shift + 7) := by
  have hfits : 2 ^ 7 ≤ 2 ^ (64 - shift) := Nat.pow_le_pow_right (by decide) (by omega)
  have hmul : 2 ^ shift * (b.toNat % 128) ≤ 2 ^ shift * 127 := Nat.mul_le_mul_left _ (by omega)
  rw [toNat_addGroup hr (by omega), Nat.mod_eq_of_lt (by omega : b.toNat % 128 < 2 ^ (64 - shift)),
    Nat.pow_add]
  exact ⟨rfl, by omega⟩

/-- **What the loop reads**, by induction on the rounds that are left. -/
theorem readULEB128Loop_exact_iff (hs : 7 * left + shift = 63) (hr : r.toNat < 2 ^ shift) :
    (∀ v rest, readULEB128Loop (left + 1) r shift buf = .ok (v, rest) →
        v.toNat = r.toNat + 2 ^ shift * ulebValue buf) ↔ ¬Overflows left buf := by
  induction left generalizing shift r buf with
  | zero =>
    obtain rfl : shift = 63 := by omega
    cases buf with
    | nil => simp [readULEB128Loop, Overflows]
    | cons b buf =>
      simp only [readULEB128Loop, and_0x80_eq_zero, Overflows, ulebValue]
      split
      · simp only [Except.ok.injEq, Prod.mk.injEq, and_imp, forall_apply_eq_imp_iff, forall_eq',
          toNat_addGroup hr (by decide : 63 < 64)]
        omega
      · simp_all
  | succ left ih =>
    cases buf with
    | nil => simp [readULEB128Loop, Overflows]
    | cons b buf =>
      obtain ⟨hgroup, hlt⟩ := toNat_addGroup_of_le (b := b) hr (by omega)
      simp only [readULEB128Loop, and_0x80_eq_zero, Overflows, ulebValue]
      split
      · simp only [Except.ok.injEq, Prod.mk.injEq, and_imp, forall_apply_eq_imp_iff, forall_eq',
          hgroup, Nat.add_zero]
        omega
      · have hvalue : r.toNat + 2 ^ shift * (b.toNat % 128 + 128 * ulebValue buf)
            = (addGroup r b shift).toNat + 2 ^ (shift + 7) * ulebValue buf := by
          simp only [hgroup, Nat.pow_add, Nat.mul_add, Nat.mul_assoc, Nat.reducePow]
          omega
        rw [if_neg (by omega), hvalue, ih (by omega) (hgroup ▸ hlt), and_iff_right (by omega)]

/-- What is written is read to its end, denotes what was written and has no bits to lose. -/
theorem uleb128_read (hs : 7 * left + shift = 63) (hn : n < 2 ^ (7 * left + 1)) (rest : Bytes) :
    (∃ v, readULEB128Loop (left + 1) r shift (uleb128 left n ++ rest) = .ok (v, rest))
      ∧ ulebValue (uleb128 left n ++ rest) = n ∧ ¬Overflows left (uleb128 left n ++ rest) := by
  have hlow (n : Nat) : (UInt8.ofNat (n % 128)).toNat = n % 128 := by
    rw [UInt8.toNat_ofNat']
    omega
  have hhigh (n : Nat) : (UInt8.ofNat (n % 128 + 128)).toNat = n % 128 + 128 := by
    rw [UInt8.toNat_ofNat']
    omega
  have hlt (n : Nat) : n % 128 < 128 := Nat.mod_lt n (by decide)
  induction left generalizing n shift r with
  | zero =>
    simp [uleb128, readULEB128Loop, and_0x80_eq_zero, ulebValue, Overflows, hlow, hlt]
    omega
  | succ left ih =>
    unfold uleb128
    split
    · simp [readULEB128Loop, and_0x80_eq_zero, ulebValue, Overflows, hlow, hlt]
      omega
    · rw [show 7 * (left + 1) + 1 = 7 + (7 * left + 1) by omega, Nat.pow_add] at hn
      obtain ⟨hread, hvalue, hkept⟩ := @ih (shift + 7) (n / 128) (addGroup r _ shift) (by omega)
        (by omega)
      simp only [List.cons_append, readULEB128Loop, and_0x80_eq_zero, ulebValue, Overflows, hhigh]
      rw [if_neg (by omega), if_neg (by omega), if_neg (by omega), hvalue]
      exact ⟨hread, by omega, fun h => hkept h.2⟩

/-- **The reader is exact up to the tenth group.** It reads what the writer writes. The value it
returns for a text is the number that the text denotes, unless nine groups that are continued
come before a last one above 1; then bits of that one are lost. -/
theorem readULEB128_exact (v : UInt64) (suffix buf : Bytes) :
    readULEB128 (writeULEB128 v ++ suffix) = .ok (v, suffix)
    ∧ ((∀ v rest, readULEB128 buf = .ok (v, rest) → v.toNat = ulebValue buf)
      ↔ ¬Overflows 9 buf) := by
  have hexact (buf : Bytes) := @readULEB128Loop_exact_iff 9 0 0 buf rfl (by decide)
  refine ⟨?_, by simpa [readULEB128] using hexact buf⟩
  obtain ⟨⟨v', hread⟩, hvalue, hkept⟩ := @uleb128_read 9 0 v.toNat 0 rfl v.toNat_lt suffix
  have heq := (hexact _).mpr hkept v' suffix hread
  rw [hvalue, UInt64.toNat_zero, Nat.zero_add, Nat.pow_zero, Nat.one_mul, UInt64.toNat_inj] at heq
  rwa [heq] at hread

/-- Nine groups of zeros and the group 2 denote `2 ^ 64`, and are read as 0. -/
theorem readULEB128_overflow :
    let buf := List.replicate 9 0x80 ++ [2]
    readULEB128 buf = .ok (0, []) ∧ ulebValue buf = 2 ^ 64 := by
  decide

end NogoChain
