import NogoChain.Lib.GoBytes

/-!
# JSON text as `encoding/json` writes it

The text a Go program gets from `json.Marshal`, for the values that occur in consensus
data: strings, integers, byte slices (base64), `null`, arrays, and objects given as a list
of members in the order they are written. `Json.text` is the compact text, with the
escapes of the standard encoder: `"`, `\`, the control characters, the three HTML
characters, the two Unicode line separators, and `\ufffd` for a byte that is not part
of valid UTF-8.
-/

/-- A JSON value; `object` keeps its members in writing order. -/
inductive Json where
  | null
  | num (n : Int)
  /-- a string, as the bytes before escaping -/
  | str (s : Bytes)
  | arr (xs : List Json)
  | obj (members : List (String × Json))

namespace Json

/-! ## Strings -/

/-- A continuation byte of UTF-8. -/
def isTail (b : UInt8) : Bool := 0x80 ≤ b && b ≤ 0xBF

/-- Second byte of a three-byte sequence: no overlong forms, no surrogates. -/
def secondOf3 (a b : UInt8) : Bool :=
  if a = 0xE0 then 0xA0 ≤ b && b ≤ 0xBF
  else if a = 0xED then 0x80 ≤ b && b ≤ 0x9F
  else isTail b

/-- Second byte of a four-byte sequence: no overlong forms, nothing above U+10FFFF. -/
def secondOf4 (a b : UInt8) : Bool :=
  if a = 0xF0 then 0x90 ≤ b && b ≤ 0xBF
  else if a = 0xF4 then 0x80 ≤ b && b ≤ 0x8F
  else isTail b

/-- Number of bytes of the valid UTF-8 sequence at the front, whose first byte is not
ASCII; `0` if there is none. -/
def runeLength : Bytes → Nat
  | a :: b :: rest =>
    if 0xC2 ≤ a ∧ a ≤ 0xDF then
      if isTail b then 2 else 0
    else if 0xE0 ≤ a ∧ a ≤ 0xEF then
      match rest with
      | c :: _ => if secondOf3 a b ∧ isTail c then 3 else 0
      | [] => 0
    else if 0xF0 ≤ a ∧ a ≤ 0xF4 then
      match rest with
      | c :: d :: _ => if secondOf4 a b ∧ isTail c ∧ isTail d then 4 else 0
      | _ => 0
    else 0
  | _ => 0

/-- The text written for an ASCII byte. -/
def escapeAscii (b : UInt8) : Bytes :=
  if b = 0x22 ∨ b = 0x5C then [0x5C, b]
  else if b = 0x08 then ascii "\\b"
  else if b = 0x0C then ascii "\\f"
  else if b = 0x0A then ascii "\\n"
  else if b = 0x0D then ascii "\\r"
  else if b = 0x09 then ascii "\\t"
  else if b < 0x20 ∨ b = 0x3C ∨ b = 0x3E ∨ b = 0x26 then
    ascii "\\u00" ++ [Hex.digit (b / 16), Hex.digit (b % 16)]
  else [b]

/-- The escaped text of a string. `skip` bytes at the front belong to a sequence that has
been dealt with: they are copied if `copy`, dropped otherwise. -/
def escape (skip : Nat) (copy : Bool) : Bytes → Bytes
  | [] => []
  | b :: rest =>
    match skip with
    | k + 1 => if copy then b :: escape k copy rest else escape k copy rest
    | 0 =>
      if b < 0x80 then escapeAscii b ++ escape 0 true rest
      else
        match runeLength (b :: rest) with
        | 0 => ascii "\\ufffd" ++ escape 0 true rest
        | n + 1 =>
          -- U+2028 and U+2029 are E2 80 A8 and E2 80 A9
          if b = 0xE2 ∧ rest.take 1 = [0x80] ∧ (rest.drop 1).take 1 = [0xA8] then
            ascii "\\u2028" ++ escape n false rest
          else if b = 0xE2 ∧ rest.take 1 = [0x80] ∧ (rest.drop 1).take 1 = [0xA9] then
            ascii "\\u2029" ++ escape n false rest
          else b :: escape n true rest

/-- A quoted string. -/
def quote (s : Bytes) : Bytes := 0x22 :: escape 0 true s ++ [0x22]

/-! ## Values -/

/-- Decimal text of an integer. -/
def decimal (n : Int) : Bytes :=
  match n with
  | .ofNat k => (Nat.toDigits 10 k).map (fun c => UInt8.ofNat c.toNat)
  | .negSucc k => 0x2D :: (Nat.toDigits 10 (k + 1)).map (fun c => UInt8.ofNat c.toNat)

/-- The base64 character of a six-bit value. -/
def base64Char (n : UInt8) : UInt8 :=
  if n < 26 then 65 + n
  else if n < 52 then 71 + n
  else if n < 62 then n - 4
  else if n = 62 then 0x2B
  else 0x2F

/-- Standard base64 with padding. -/
def base64 : Bytes → Bytes
  | [] => []
  | [a] => [base64Char (a / 4), base64Char (a % 4 * 16), 0x3D, 0x3D]
  | [a, b] =>
    [base64Char (a / 4), base64Char (a % 4 * 16 + b / 16), base64Char (b % 16 * 4), 0x3D]
  | a :: b :: c :: rest =>
    base64Char (a / 4) :: base64Char (a % 4 * 16 + b / 16)
      :: base64Char (b % 16 * 4 + c / 64) :: base64Char (c % 64) :: base64 rest

mutual

/-- The compact text of a value. -/
def text : Json → Bytes
  | null => ascii "null"
  | num n => decimal n
  | str s => quote s
  | arr [] => ascii "[]"
  | arr (x :: xs) => 0x5B :: text x ++ textTail xs
  | obj [] => ascii "\x7b\x7d"
  | obj (m :: ms) => 0x7B :: memberText m ++ membersTail ms

/-- The rest of an array after its first element, with the closing bracket. -/
def textTail : List Json → Bytes
  | [] => [0x5D]
  | x :: xs => 0x2C :: text x ++ textTail xs

/-- One member of an object. -/
def memberText : String × Json → Bytes
  | (key, v) => quote (ascii key) ++ 0x3A :: text v

/-- The rest of an object after its first member, with the closing brace. -/
def membersTail : List (String × Json) → Bytes
  | [] => [0x7D]
  | m :: ms => 0x2C :: memberText m ++ membersTail ms

end

/-! ## Hexadecimal text -/

/-- A hexadecimal digit is written as it is. -/
theorem escapeAscii_digit {n : UInt8} (h : n < 16) : escapeAscii (Hex.digit n) = [Hex.digit n] :=
  Hex.forall_byte_lt (P := fun n => escapeAscii (Hex.digit n) = [Hex.digit n]) (by decide)
    (UInt8.lt_iff_toNat_lt.mp h)

theorem escape_encodeToString (s : Bytes) :
    escape 0 true (Hex.encodeToString s) = Hex.encodeToString s := by
  induction s with
  | nil => rfl
  | cons b bs ih =>
    obtain ⟨h1, h2, -⟩ := Hex.nibbles b
    rw [Hex.encodeToString, escape, if_pos (Hex.value?_digit h1).2, escape,
      if_pos (Hex.value?_digit h2).2, escapeAscii_digit h1, escapeAscii_digit h2, ih]
    rfl

/-- Quoted hexadecimal text is as long as the number of bytes says. -/
theorem quote_encodeToString_length (s : Bytes) :
    (quote (Hex.encodeToString s)).length = 2 * s.length + 2 := by
  have hhex : (Hex.encodeToString s).length = 2 * s.length := by
    induction s with
    | nil => rfl
    | cons b bs ih =>
      rw [Hex.encodeToString, List.length_cons, List.length_cons, ih, List.length_cons]
      omega
  rw [quote, escape_encodeToString, List.length_append, List.length_cons, hhex,
    List.length_singleton]

end Json
