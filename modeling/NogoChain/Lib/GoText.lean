import Mathlib.Data.List.TakeWhile
import NogoChain.Lib.Json

/-!
# Text of the Go standard library

`strings.TrimSpace`, `strings.Split` and `strings.Join` – the last two are `List.splitOn` and
`List.intercalate` – and decimal numbers: what `%d` prints, `fmt.Sscanf` reads back. A scan
takes the digits it finds in front and leaves what follows them unread.
-/

/-! ## White space -/

/-- The encodings of the characters that `unicode.IsSpace` holds of. -/
def whiteSpace : List Bytes :=
  [[9], [10], [11], [12], [13], [32], [0xC2, 0x85], [0xC2, 0xA0], [0xE1, 0x9A, 0x80],
    [0xE2, 0x80, 0x80], [0xE2, 0x80, 0x81], [0xE2, 0x80, 0x82], [0xE2, 0x80, 0x83],
    [0xE2, 0x80, 0x84], [0xE2, 0x80, 0x85], [0xE2, 0x80, 0x86], [0xE2, 0x80, 0x87],
    [0xE2, 0x80, 0x88], [0xE2, 0x80, 0x89], [0xE2, 0x80, 0x8A], [0xE2, 0x80, 0xA8],
    [0xE2, 0x80, 0xA9], [0xE2, 0x80, 0xAF], [0xE2, 0x81, 0x9F], [0xE3, 0x80, 0x80]]

/-- The text without the given pieces at its front, of which there are at most `n`. -/
def dropPieces (pieces : List Bytes) : Nat → Bytes → Bytes
  | 0, s => s
  | n + 1, s =>
    match pieces.find? (fun piece => piece.isPrefixOf s) with
    | none => s
    | some piece => dropPieces pieces n (s.drop piece.length)

/-- `strings.TrimSpace`: a piece has at least one byte, so that there are no more pieces than
bytes. -/
def trimSpace (s : Bytes) : Bytes :=
  let front := dropPieces whiteSpace s.length s
  (dropPieces (whiteSpace.map List.reverse) front.length front.reverse).reverse

/-- The bytes of ASCII text without blanks. -/
def Visible (s : Bytes) : Prop := ∀ b ∈ s, 33 ≤ b ∧ b ≤ 126

instance (s : Bytes) : Decidable (Visible s) :=
  List.decidableBAll (fun b => 33 ≤ b ∧ b ≤ 126) s

theorem Visible.append {s t : Bytes} (hs : Visible s) (ht : Visible t) : Visible (s ++ t) := by
  intro b hb
  rcases List.mem_append.mp hb with h | h
  · exact hs b h
  · exact ht b h

theorem dropPieces_of_visible {pieces : List Bytes} (n : Nat) {s : Bytes} (hs : Visible s)
    (hpieces : ∀ piece ∈ pieces, ∃ b ∈ piece, ¬(33 ≤ b ∧ b ≤ 126)) :
    dropPieces pieces n s = s := by
  cases n with
  | zero => rfl
  | succ n =>
    have hnone : pieces.find? (fun piece => piece.isPrefixOf s) = none := by
      rw [List.find?_eq_none]
      intro piece hpiece hlead
      obtain ⟨b, hb, hblank⟩ := hpieces piece hpiece
      have hin : b ∈ s := (List.isPrefixOf_iff_prefix.mp hlead).subset hb
      exact hblank (hs b hin)
    rw [dropPieces, hnone]

/-- Text without blanks is left as it is. -/
theorem trimSpace_of_visible {s : Bytes} (hs : Visible s) : trimSpace s = s := by
  have hreverse : Visible s.reverse := fun b hb => hs b (List.mem_reverse.mp hb)
  have hfront : dropPieces whiteSpace s.length s = s := dropPieces_of_visible _ hs (by decide)
  unfold trimSpace
  rw [hfront]
  show (dropPieces (whiteSpace.map List.reverse) s.length s.reverse).reverse = s
  rw [dropPieces_of_visible _ hreverse (by decide), List.reverse_reverse]

/-! ## Decimal numbers -/

/-- The value of a decimal digit. -/
def decimalDigit? (b : UInt8) : Option Nat :=
  if 48 ≤ b ∧ b ≤ 57 then some (b - 48).toNat else none

/-- The value of a text of decimal digits. -/
def decimalValue (s : Bytes) : Option Nat :=
  if s = [] then none
  else s.foldl (fun v b => v.bind fun n => (decimalDigit? b).map fun d => n * 10 + d) (some 0)

/-- `fmt.Sscanf(s, "%d", &v)` for a `v` of 32 bits without sign and a text that does not begin
with white space; `none` where it reports an error. -/
def sscanfUint32 (s : Bytes) : Option UInt32 :=
  match decimalValue (s.takeWhile fun b => (decimalDigit? b).isSome) with
  | none => none
  | some n => if n < 2 ^ 32 then some (UInt32.ofNat n) else none

namespace Json

theorem digit_byte {d : Nat} (h : d < 10) :
    UInt8.ofNat d.digitChar.toNat = UInt8.ofNat (48 + d) := by
  rw [Nat.toNat_digitChar_of_lt_ten h]

/-- The last digit comes off the end. -/
theorem decimal_natCast (n : Nat) :
    decimal n = (if n < 10 then [] else decimal ((n / 10 : Nat) : Int))
      ++ [UInt8.ofNat (48 + n % 10)] := by
  show (Nat.toDigits 10 n).map _ = _
  rw [Nat.toDigits_eq_if (by omega)]
  split
  · rename_i h
    rw [List.map_singleton, digit_byte h, Nat.mod_eq_of_lt h, List.nil_append]
  · rw [List.map_append, List.map_singleton, digit_byte (Nat.mod_lt n (by omega))]
    rfl

end Json

/-- A printed digit is read as its value. -/
theorem decimalDigit?_ofNat {d : Nat} (h : d < 10) :
    decimalDigit? (UInt8.ofNat (48 + d)) = some d := by
  have hall : ∀ d < 10, decimalDigit? (UInt8.ofNat (48 + d)) = some d := by decide
  exact hall d h

theorem decimalValue_concat {s : Bytes} {n d : Nat} (hs : s = [] ∧ n = 0 ∨ decimalValue s = some n)
    {b : UInt8} (hb : decimalDigit? b = some d) :
    decimalValue (s ++ [b]) = some (n * 10 + d) := by
  have hfold : s.foldl (fun v b => v.bind fun n => (decimalDigit? b).map fun d => n * 10 + d)
      (some 0) = some n := by
    rcases hs with ⟨rfl, rfl⟩ | hs
    · rfl
    · unfold decimalValue at hs
      split at hs
      · cases hs
      · exact hs
  unfold decimalValue
  rw [if_neg (by simp), List.foldl_append, hfold, List.foldl_cons, List.foldl_nil,
    Option.bind_some, hb]
  rfl

/-- **A printed number is read back.** -/
theorem decimalValue_decimal (n : Nat) : decimalValue (Json.decimal n) = some n := by
  induction n using Nat.strong_induction_on with
  | _ n ih =>
    rw [Json.decimal_natCast]
    have hdigit := decimalDigit?_ofNat (Nat.mod_lt n (show 0 < 10 by omega))
    split
    · next h =>
      rw [decimalValue_concat (Or.inl ⟨rfl, rfl⟩) hdigit, Nat.mod_eq_of_lt h]
      simp
    · rw [decimalValue_concat (Or.inr (ih (n / 10) (by omega))) hdigit]
      congr 1
      omega

/-- Only digits are printed. -/
theorem digit_of_mem_decimal {n : Nat} {b : UInt8} (h : b ∈ Json.decimal n) : 48 ≤ b ∧ b ≤ 57 := by
  induction n using Nat.strong_induction_on with
  | _ n ih =>
    rw [Json.decimal_natCast] at h
    rcases List.mem_append.mp h with h | h
    · split at h
      · cases h
      · rename_i hn
        exact ih (n / 10) (by omega) h
    · obtain rfl := List.mem_singleton.mp h
      have hall : ∀ d < 10, 48 ≤ UInt8.ofNat (48 + d) ∧ UInt8.ofNat (48 + d) ≤ 57 := by decide
      exact hall (n % 10) (Nat.mod_lt n (by omega))

theorem visible_decimal (n : Nat) : Visible (Json.decimal n) := by
  intro b hb
  have h := digit_of_mem_decimal hb
  exact ⟨UInt8.le_trans (by decide) h.1, UInt8.le_trans h.2 (by decide)⟩

theorem decimal_ne_nil (n : Nat) : Json.decimal n ≠ [] := by
  rw [Json.decimal_natCast]
  exact List.append_ne_nil_of_right_ne_nil _ (List.cons_ne_nil _ _)

/-- **What `%d` prints, `%d` scans.** -/
theorem sscanfUint32_decimal (n : UInt32) : sscanfUint32 (Json.decimal n.toNat) = some n := by
  have hdigits : (Json.decimal n.toNat).takeWhile (fun b => (decimalDigit? b).isSome)
      = Json.decimal n.toNat := by
    rw [List.takeWhile_eq_self_iff]
    intro b hb
    rw [decimalDigit?, if_pos (digit_of_mem_decimal hb)]
    rfl
  unfold sscanfUint32
  rw [hdigits, decimalValue_decimal]
  dsimp only
  rw [if_pos n.toNat_lt, UInt32.ofNat_toNat]

/-! ## Parts -/

theorem Visible.intercalate {sep : Bytes} (hsep : Visible sep) {parts : List Bytes}
    (hparts : ∀ part ∈ parts, Visible part) : Visible (sep.intercalate parts) := by
  induction parts with
  | nil => exact nofun
  | cons part parts ih =>
    have hrest := ih fun p hp => hparts p (List.mem_cons_of_mem _ hp)
    have hpart := hparts part List.mem_cons_self
    cases parts with
    | nil =>
      rw [List.intercalate_singleton]
      exact hpart
    | cons part' parts =>
      rw [List.intercalate_cons_cons]
      exact (hpart.append hsep).append hrest

/-- Parts without the separator are told apart after they are joined. -/
theorem intercalate_inj {α : Type*} [DecidableEq α] {x : α} {ls ls' : List (List α)}
    (h : ∀ l ∈ ls, x ∉ l) (h' : ∀ l ∈ ls', x ∉ l) (hne : ls ≠ []) (hne' : ls' ≠ [])
    (heq : [x].intercalate ls = [x].intercalate ls') : ls = ls' := by
  rw [← List.splitOn_intercalate x h hne, heq, List.splitOn_intercalate x h' hne']
