import Mathlib.Data.UInt

/-!
# Byte strings, hexadecimal text and errors of the Go standard library

Go strings and byte slices are both sequences of bytes; `Bytes` stands for either. The
module has the encodings of them that the standard library fixes – `encoding/hex`,
little-endian integers, ULEB128 – and `GoError`, the values `errors.New` and `fmt.Errorf`
build. An error keeps its format text and its arguments apart instead of the rendered
text, so that two errors are equal exactly when they carry the same text and the same data.
-/

/-- A Go string or byte slice. -/
abbrev Bytes := List UInt8

instance : LawfulBEq Bytes := inferInstance

/-- The bytes of an ASCII text literal. -/
def ascii (s : String) : Bytes := s.toList.map (fun c => UInt8.ofNat c.toNat)

/-- `strings.TrimSpace(s) == ""`: the text is made of white space, which beyond ASCII is
U+0085, U+00A0, U+1680, U+2000 to U+200A, U+2028, U+2029, U+202F, U+205F and U+3000. -/
def isBlank : Bytes → Bool
  | [] => true
  | 0xC2 :: b :: s => (b == 0x85 || b == 0xA0) && isBlank s
  | 0xE1 :: 0x9A :: 0x80 :: s => isBlank s
  | 0xE2 :: 0x80 :: b :: s =>
    ((0x80 ≤ b && b ≤ 0x8A) || b == 0xA8 || b == 0xA9 || b == 0xAF) && isBlank s
  | 0xE2 :: 0x81 :: 0x9F :: s => isBlank s
  | 0xE3 :: 0x80 :: 0x80 :: s => isBlank s
  | b :: s => ((9 ≤ b && b ≤ 13) || b == 32) && isBlank s

/-! ## Errors -/

/-- An argument of a format text. -/
inductive FmtArg where
  | str (s : Bytes)
  | quoted (s : Bytes)
  /-- `%x` -/
  | hex (s : Bytes)
  /-- `%d` -/
  | num (n : Int)
deriving DecidableEq, Repr

/-- An error value. -/
inductive GoError where
  /-- `errors.New(text)` -/
  | new (text : String)
  /-- `fmt.Errorf(format, args…)` without `%w` -/
  | errorf (format : String) (args : List FmtArg)
  /-- `fmt.Errorf(format, args…, cause)` where the last verb is `%w` -/
  | wrap (format : String) (args : List FmtArg) (cause : GoError)
  /-- `hex.InvalidByteError` -/
  | hexInvalidByte (b : UInt8)
  /-- `hex.ErrLength` -/
  | hexOddLength
deriving DecidableEq, Repr

/-! ## Hexadecimal text -/

namespace Hex

/-- The lower-case digit of a value below 16. -/
def digit (n : UInt8) : UInt8 := if n < 10 then 48 + n else 87 + n

/-- The value of a digit, of either case. -/
def value? (c : UInt8) : Option UInt8 :=
  if 48 ≤ c ∧ c ≤ 57 then some (c - 48)
  else if 97 ≤ c ∧ c ≤ 102 then some (c - 87)
  else if 65 ≤ c ∧ c ≤ 70 then some (c - 55)
  else none

/-- `hex.EncodeToString`. -/
def encodeToString : Bytes → Bytes
  | [] => []
  | b :: bs => digit (b / 16) :: digit (b % 16) :: encodeToString bs

theorem encodeToString_length (bytes : Bytes) :
    (encodeToString bytes).length = 2 * bytes.length := by
  induction bytes with
  | nil => rfl
  | cons b bs ih =>
    rw [encodeToString, List.length_cons, List.length_cons, ih, List.length_cons]
    rfl

/-- `hex.DecodeString`: pairs of digits from the left; a trailing single byte is an invalid
digit or an odd length. -/
def decodeString : Bytes → Except GoError Bytes
  | [] => .ok []
  | [c] => match value? c with
    | none => .error (.hexInvalidByte c)
    | some _ => .error .hexOddLength
  | p :: q :: rest => match value? p with
    | none => .error (.hexInvalidByte p)
    | some a => match value? q with
      | none => .error (.hexInvalidByte q)
      | some b => match decodeString rest with
        | .error e => .error e
        | .ok bs => .ok ((16 * a + b) :: bs)

theorem forall_byte_lt {m : Nat} {P : UInt8 → Prop} (hall : ∀ k : Fin m, P (UInt8.ofNat k))
    {n : UInt8} (h : n.toNat < m) : P n := by
  simpa using hall ⟨n.toNat, h⟩

theorem value?_digit {n : UInt8} (h : n < 16) : value? (digit n) = some n ∧ digit n < 0x80 :=
  forall_byte_lt (P := fun n => value? (digit n) = some n ∧ digit n < 0x80) (by decide)
    (UInt8.lt_iff_toNat_lt.mp h)

/-- The two digits of a byte, and the byte they make. -/
theorem nibbles (b : UInt8) : b / 16 < 16 ∧ b % 16 < 16 ∧ 16 * (b / 16) + b % 16 = b := by
  have hb := b.toNat_lt
  simp only [← UInt8.toNat_inj, UInt8.lt_iff_toNat_lt, UInt8.toNat_add, UInt8.toNat_mul,
    UInt8.toNat_div, UInt8.toNat_mod, UInt8.reduceToNat]
  omega

/-- Hexadecimal text is read back. -/
theorem decodeString_encodeToString (s : Bytes) : decodeString (encodeToString s) = .ok s := by
  induction s with
  | nil => rfl
  | cons b bs ih =>
    obtain ⟨h1, h2, hb⟩ := nibbles b
    rw [encodeToString, decodeString, (value?_digit h1).1, (value?_digit h2).1]
    simp only [ih, hb]

theorem encodeToString_ascii (s : Bytes) : ∀ c ∈ encodeToString s, c < 0x80 := by
  induction s with
  | nil => exact fun c hc => nomatch hc
  | cons b bs ih =>
    obtain ⟨h1, h2, -⟩ := nibbles b
    simpa [encodeToString, (value?_digit h1).2, (value?_digit h2).2] using ih

@[simp] theorem encodeToString_eq_nil {s : Bytes} : encodeToString s = [] ↔ s = [] := by
  cases s <;> simp [encodeToString]

/-- An upper-case digit. -/
def isUpper (c : UInt8) : Bool := 65 ≤ c ∧ c ≤ 70

/-- The digit of a value in either case. -/
def spell (upper : Bool) (n : UInt8) : UInt8 := if upper then 55 + n else digit n

/-- Hexadecimal text with the case of each digit given. -/
def encodeWith : List Bool → Bytes → Bytes
  | u :: v :: us, b :: bs => spell u (b / 16) :: spell v (b % 16) :: encodeWith us bs
  | _, _ => []

/-- A digit is given by its value and its case. -/
theorem spell_of_value? {c n : UInt8} (h : value? c = some n) : n < 16 ∧ c = spell (isUpper c) n :=
  forall_byte_lt (P := fun c => ∀ m ∈ value? c, m < 16 ∧ c = spell (isUpper c) m)
    (by decide +kernel) c.toNat_lt n h

theorem nibbles_of_pair {a b : UInt8} (ha : a < 16) (hb : b < 16) :
    (16 * a + b) / 16 = a ∧ (16 * a + b) % 16 = b := by
  have ha' := UInt8.lt_iff_toNat_lt.mp ha
  have hb' := UInt8.lt_iff_toNat_lt.mp hb
  simp only [UInt8.reduceToNat] at ha' hb'
  simp only [← UInt8.toNat_inj, UInt8.toNat_add, UInt8.toNat_mul, UInt8.toNat_div, UInt8.toNat_mod,
    UInt8.reduceToNat]
  omega

theorem decodeString_singleton_ne_ok (c : UInt8) (d : Bytes) : decodeString [c] ≠ .ok d := by
  unfold decodeString
  cases value? c with
  | none | some n => exact nofun

theorem decodeString_cons_cons_eq_ok {p q : UInt8} {rest d : Bytes}
    (h : decodeString (p :: q :: rest) = .ok d) :
    ∃ a b bs, value? p = some a ∧ value? q = some b ∧ decodeString rest = .ok bs
      ∧ d = (16 * a + b) :: bs := by
  unfold decodeString at h
  split at h
  · cases h
  · next a hp =>
    split at h
    · cases h
    · next b hq =>
      split at h
      · cases h
      · next bs hrest => exact ⟨a, b, bs, hp, hq, hrest, (Except.ok.inj h).symm⟩

/-- **What hexadecimal text leaves open**: the bytes it stands for and the case of its digits
determine it. -/
theorem eq_encodeWith_of_decodeString : ∀ {s d : Bytes}, decodeString s = .ok d →
    s = encodeWith (s.map isUpper) d
  | [], _, _ => rfl
  | [c], d, h => absurd h (decodeString_singleton_ne_ok c d)
  | p :: q :: rest, d, h => by
    obtain ⟨a, b, bs, hp, hq, hrest, rfl⟩ := decodeString_cons_cons_eq_ok h
    obtain ⟨ha, hpa⟩ := spell_of_value? hp
    obtain ⟨hb, hqb⟩ := spell_of_value? hq
    obtain ⟨hhigh, hlow⟩ := nibbles_of_pair ha hb
    rw [List.map_cons, List.map_cons, encodeWith, hhigh, hlow,
      ← eq_encodeWith_of_decodeString hrest, ← hpa, ← hqb]

theorem length_of_decodeString : ∀ {s d : Bytes}, decodeString s = .ok d → s.length = 2 * d.length
  | [], _, h => by
    cases h
    rfl
  | [c], d, h => absurd h (decodeString_singleton_ne_ok c d)
  | p :: q :: rest, d, h => by
    obtain ⟨a, b, bs, -, -, hrest, rfl⟩ := decodeString_cons_cons_eq_ok h
    rw [List.length_cons, List.length_cons, List.length_cons, length_of_decodeString hrest]
    omega

theorem isUpper_digit {n : UInt8} (h : n < 16) : isUpper (digit n) = false :=
  forall_byte_lt (P := fun n => isUpper (digit n) = false) (by decide) (UInt8.lt_iff_toNat_lt.mp h)

theorem isUpper_encodeToString (d : Bytes) : ∀ c ∈ encodeToString d, isUpper c = false := by
  induction d with
  | nil => exact nofun
  | cons b bs ih =>
    obtain ⟨h1, h2, -⟩ := nibbles b
    refine List.forall_mem_cons.mpr ⟨isUpper_digit h1, ?_⟩
    exact List.forall_mem_cons.mpr ⟨isUpper_digit h2, ih⟩

/-- **Lower-case text is what the encoder writes.** -/
theorem eq_encodeToString_of_lower {s d : Bytes} (h : decodeString s = .ok d)
    (hlower : ∀ c ∈ s, isUpper c = false) : s = encodeToString d := by
  have hcase : s.map isUpper = (encodeToString d).map isUpper := by
    refine List.ext_getElem ?_ fun i hi hi' => ?_
    · rw [List.length_map, List.length_map, length_of_decodeString h,
        length_of_decodeString (decodeString_encodeToString d)]
    · rw [List.getElem_map, List.getElem_map, hlower _ (List.getElem_mem _),
        isUpper_encodeToString _ _ (List.getElem_mem _)]
  rw [eq_encodeWith_of_decodeString h, hcase,
    ← eq_encodeWith_of_decodeString (decodeString_encodeToString d)]

end Hex

/-! ## Integers as bytes -/

/-- `binary.Write(&buf, binary.LittleEndian, n)` of `k` bytes. -/
def littleEndian : Nat → Nat → Bytes
  | 0, _ => []
  | k + 1, n => UInt8.ofNat (n % 256) :: littleEndian k (n / 256)

/-- `binary.BigEndian.PutUint64` of `k` bytes. -/
def bigEndian (k n : Nat) : Bytes := (littleEndian k n).reverse

/-- ULEB128 with at most `fuel + 1` bytes; ten of them hold every 64-bit value. -/
def uleb128 : Nat → Nat → Bytes
  | 0, n => [UInt8.ofNat (n % 128)]
  | fuel + 1, n =>
    if n / 128 = 0 then [UInt8.ofNat (n % 128)]
    else UInt8.ofNat (n % 128 + 128) :: uleb128 fuel (n / 128)

@[simp] theorem littleEndian_length (k n : Nat) : (littleEndian k n).length = k := by
  induction k generalizing n with
  | zero => rfl
  | succ k ih => simp only [littleEndian, List.length_cons, ih]

/-- A value below `256 ^ k` is read back from its `k` bytes. -/
theorem littleEndian_inj (k : Nat) : ∀ {m n : Nat}, m < 256 ^ k → n < 256 ^ k →
    littleEndian k m = littleEndian k n → m = n := by
  induction k with
  | zero => intro m n hm hn _; simp at hm hn; omega
  | succ k ih =>
    intro m n hm hn h
    simp only [littleEndian, List.cons.injEq] at h
    have hlow : m % 256 = n % 256 := by
      have h1 := congrArg UInt8.toNat h.1
      simpa [UInt8.toNat_ofNat'] using h1
    have hhigh : m / 256 = n / 256 :=
      ih (by rw [pow_succ] at hm; omega) (by rw [pow_succ] at hn; omega) h.2
    omega

theorem littleEndian_uint64_inj {m n : UInt64}
    (h : littleEndian 8 m.toNat = littleEndian 8 n.toNat) : m = n := by
  have hm := m.toNat_lt
  have hn := n.toNat_lt
  exact UInt64.toNat_inj.mp (littleEndian_inj 8 (by omega) (by omega) h)

theorem littleEndian_uint32_inj {m n : UInt32}
    (h : littleEndian 4 m.toNat = littleEndian 4 n.toNat) : m = n := by
  have hm := m.toNat_lt
  have hn := n.toNat_lt
  exact UInt32.toNat_inj.mp (littleEndian_inj 4 (by omega) (by omega) h)

/-! ## Big endian

The byte order of big-endian texts is the order of the numbers, whatever follows them. -/

/-- The number whose big-endian text is given. -/
def ofBigEndian : Bytes → Nat
  | [] => 0
  | b :: bs => b.toNat * 256 ^ bs.length + ofBigEndian bs

@[simp] theorem bigEndian_length (k n : Nat) : (bigEndian k n).length = k := by
  rw [bigEndian, List.length_reverse, littleEndian_length]

theorem ofBigEndian_concat (bs : Bytes) (b : UInt8) :
    ofBigEndian (bs ++ [b]) = ofBigEndian bs * 256 + b.toNat := by
  induction bs with
  | nil => simp [ofBigEndian]
  | cons a bs ih =>
    rw [List.cons_append, ofBigEndian, ofBigEndian, ih, List.length_append, List.length_singleton,
      pow_succ, Nat.add_mul, Nat.mul_assoc, Nat.add_assoc]

theorem bigEndian_succ (k n : Nat) :
    bigEndian (k + 1) n = bigEndian k (n / 256) ++ [UInt8.ofNat (n % 256)] := by
  rw [bigEndian, littleEndian, List.reverse_cons, bigEndian]

/-- A value below `256 ^ k` is read back from its `k` bytes. -/
theorem ofBigEndian_bigEndian (k : Nat) {n : Nat} (h : n < 256 ^ k) :
    ofBigEndian (bigEndian k n) = n := by
  induction k generalizing n with
  | zero =>
    rw [pow_zero, Nat.lt_one_iff] at h
    rw [h]
    rfl
  | succ k ih =>
    have hhigh : n / 256 < 256 ^ k := by
      exact Nat.div_lt_of_lt_mul (by omega)
    rw [bigEndian_succ, ofBigEndian_concat, ih hhigh, UInt8.toNat_ofNat']
    omega

theorem bigEndian_ofBigEndian (bs : Bytes) : bigEndian bs.length (ofBigEndian bs) = bs := by
  induction bs using List.reverseRecOn with
  | nil => rfl
  | append_singleton bs b ih =>
    have hdiv : (ofBigEndian bs * 256 + b.toNat) / 256 = ofBigEndian bs := by
      have hb := b.toNat_lt
      omega
    rw [List.length_append, List.length_singleton, bigEndian_succ, ofBigEndian_concat, hdiv, ih]
    simp

theorem ofBigEndian_lt (bs : Bytes) : ofBigEndian bs < 256 ^ bs.length := by
  induction bs with
  | nil => exact Nat.one_pos
  | cons b bs ih =>
    have hb := b.toNat_lt
    calc ofBigEndian (b :: bs) < b.toNat * 256 ^ bs.length + 256 ^ bs.length :=
          Nat.add_lt_add_left ih _
      _ = (b.toNat + 1) * 256 ^ bs.length := (Nat.succ_mul _ _).symm
      _ ≤ 256 * 256 ^ bs.length := Nat.mul_le_mul_right _ (by omega)
      _ = 256 ^ (b :: bs).length := by rw [List.length_cons, pow_succ, mul_comm]

/-- **Keys that start with big-endian numbers** are ordered as the numbers are. -/
theorem ofBigEndian_le_of_append_le {as bs as' bs' : Bytes} (hlength : as.length = bs.length)
    (h : as ++ as' ≤ bs ++ bs') : ofBigEndian as ≤ ofBigEndian bs := by
  induction as generalizing bs with
  | nil => exact Nat.zero_le _
  | cons a as ih =>
    cases bs with
    | nil => cases hlength
    | cons b bs =>
      have hlength' : as.length = bs.length := Nat.succ.inj hlength
      rw [List.cons_append, List.cons_append, List.cons_le_cons_iff] at h
      rcases h with hab | ⟨rfl, hle⟩
      · have hlt := UInt8.lt_iff_toNat_lt.mp hab
        calc ofBigEndian (a :: as) ≤ a.toNat * 256 ^ as.length + 256 ^ as.length :=
              Nat.add_le_add_left (ofBigEndian_lt as).le _
          _ = (a.toNat + 1) * 256 ^ bs.length := by rw [hlength', Nat.succ_mul]
          _ ≤ b.toNat * 256 ^ bs.length := Nat.mul_le_mul_right _ hlt
          _ ≤ ofBigEndian (b :: bs) := Nat.le_add_right _ _
      · rw [ofBigEndian, ofBigEndian, hlength']
        exact Nat.add_le_add_left (ih hlength' hle) _

theorem ofBigEndian_append (as bs : Bytes) :
    ofBigEndian (as ++ bs) = ofBigEndian as * 256 ^ bs.length + ofBigEndian bs := by
  induction as with
  | nil => rw [List.nil_append, ofBigEndian, Nat.zero_mul, Nat.zero_add]
  | cons a as ih =>
    rw [List.cons_append, ofBigEndian, ofBigEndian, ih, List.length_append, Nat.add_mul,
      Nat.pow_add,
      Nat.mul_assoc, Nat.add_assoc]

theorem ofBigEndian_dropWhile (bs : Bytes) :
    ofBigEndian (bs.dropWhile (· == 0)) = ofBigEndian bs := by
  induction bs with
  | nil => rfl
  | cons b bs ih => by_cases hb : b = 0 <;> simp [hb, ih, ofBigEndian]

/-- A number after a gap that is no shorter is found at the end of the text. -/
theorem ofBigEndian_mod_of_gap (x : Bytes) {d : Bytes} {n : Nat} (hd : d.length ≤ n) :
    ofBigEndian (x ++ List.replicate n 0 ++ d) % 256 ^ n = ofBigEndian d := by
  have hzeros : ofBigEndian (List.replicate n 0) = 0 := by
    rw [← ofBigEndian_dropWhile]
    simp [ofBigEndian]
  rw [ofBigEndian_append, ofBigEndian_append, hzeros, List.length_replicate, Nat.add_zero,
    Nat.mul_right_comm, Nat.mul_add_mod_self_right]
  exact Nat.mod_eq_of_lt ((ofBigEndian_lt d).trans_le (Nat.pow_le_pow_right (by decide) hd))

/-! ## Reading from a connection -/

/-- What reading from a connection gives: the value and what follows it, an error, or nothing
before more bytes arrive. -/
inductive ReadResult (α : Type) where
  /-- the bytes do not suffice yet -/
  | more
  /-- the bytes are refused -/
  | error (e : GoError)
  /-- a value and the rest of the bytes -/
  | ok (a : α) (rest : Bytes)

/-- `io.ReadFull` of `n` bytes, once they have arrived. -/
def readFull (n : Nat) (input : Bytes) : Option (Bytes × Bytes) :=
  if input.length < n then none else some (input.take n, input.drop n)

theorem readFull_eq_some {n : Nat} {input a rest : Bytes} :
    readFull n input = some (a, rest) ↔ a.length = n ∧ input = a ++ rest := by
  unfold readFull
  constructor
  · intro h
    split at h
    · cases h
    · next hlong =>
      obtain ⟨rfl, rfl⟩ := Prod.mk.inj (Option.some.inj h)
      exact ⟨List.length_take_of_le (Nat.not_lt.mp hlong), (List.take_append_drop n input).symm⟩
  · rintro ⟨rfl, rfl⟩
    rw [if_neg (by rw [List.length_append]; omega), List.take_left, List.drop_left]

/-- Bytes that arrive later do not change what has been read. -/
theorem readFull_append {n : Nat} {input a rest : Bytes} (h : readFull n input = some (a, rest))
    (later : Bytes) : readFull n (input ++ later) = some (a, rest ++ later) := by
  obtain ⟨hlen, rfl⟩ := readFull_eq_some.mp h
  exact readFull_eq_some.mpr ⟨hlen, List.append_assoc _ _ _⟩
