import NogoChain.Lib.Json

/-!
# Reading JSON back

What `json.Unmarshal` finds in the text that `json.Marshal` wrote, member by member, for the
types that occur in consensus data. The standard library is taken to be right: reading the
text of a value gives the value back, except that a string comes back as the valid UTF-8 that
was written for it, in which `U+FFFD` stands for every byte that is not part of a valid
sequence. Strings are therefore read through `coerceUtf8`.

A member that is absent or `null` leaves the zero value of its type. When a key occurs
several times, the last member counts.
-/

namespace Json

/-! ## UTF-8 -/

/-- `utf8.Valid`; `skip` bytes at the front belong to a sequence that has been dealt with. -/
def utf8Valid : Nat → Bytes → Bool
  | _, [] => true
  | k + 1, _ :: rest => utf8Valid k rest
  | 0, b :: rest =>
    if b < 0x80 then utf8Valid 0 rest
    else
      match runeLength (b :: rest) with
      | 0 => false
      | n + 1 => utf8Valid n rest

/-- The string is valid UTF-8. -/
def ValidUtf8 (s : Bytes) : Prop := utf8Valid 0 s = true

instance (s : Bytes) : Decidable (ValidUtf8 s) := inferInstanceAs (Decidable (_ = _))

/-- The string that is read from the text of `s`. -/
def coerceUtf8 : Nat → Bytes → Bytes
  | _, [] => []
  | k + 1, b :: rest => b :: coerceUtf8 k rest
  | 0, b :: rest =>
    if b < 0x80 then b :: coerceUtf8 0 rest
    else
      match runeLength (b :: rest) with
      | 0 => [0xEF, 0xBF, 0xBD] ++ coerceUtf8 0 rest
      | n + 1 => b :: coerceUtf8 n rest

theorem length_le_coerceUtf8 (k : Nat) (s : Bytes) : s.length ≤ (coerceUtf8 k s).length := by
  induction s generalizing k with
  | nil => exact Nat.zero_le _
  | cons b rest ih =>
    cases k with
    | succ k =>
      exact Nat.succ_le_succ (ih k)
    | zero =>
      rw [coerceUtf8]
      split
      · exact Nat.succ_le_succ (ih 0)
      · cases runeLength (b :: rest) with
        | zero =>
          have hrest := ih 0
          simp only [List.length_cons, List.length_append, List.length_nil]
          omega
        | succ n =>
          exact Nat.succ_le_succ (ih n)

/-- **A string is read back unchanged exactly if it is valid UTF-8**: a byte that is replaced
makes the string longer. -/
theorem coerceUtf8_eq_self_iff (k : Nat) (s : Bytes) :
    coerceUtf8 k s = s ↔ utf8Valid k s = true := by
  induction s generalizing k with
  | nil => cases k <;> exact ⟨fun _ => rfl, fun _ => rfl⟩
  | cons b rest ih =>
    cases k with
    | succ k =>
      rw [coerceUtf8, utf8Valid, List.cons.injEq, ← ih k]
      exact and_iff_right rfl
    | zero =>
      rw [coerceUtf8, utf8Valid]
      split
      · rw [List.cons.injEq, ← ih 0]
        exact and_iff_right rfl
      · cases runeLength (b :: rest) with
        | zero =>
          refine ⟨fun h => ?_, fun h => nomatch h⟩
          have hlength := congrArg List.length h
          have hrest := length_le_coerceUtf8 0 rest
          simp only [List.length_cons, List.length_append, List.length_nil] at hlength
          omega
        | succ n =>
          simp only [List.cons.injEq, true_and]
          exact ih n

/-- ASCII text is read back unchanged. -/
theorem coerceUtf8_of_ascii {s : Bytes} (h : ∀ b ∈ s, b < 0x80) : coerceUtf8 0 s = s := by
  induction s with
  | nil => rfl
  | cons b rest ih =>
    rw [coerceUtf8, if_pos (h b List.mem_cons_self),
      ih fun c hc => h c (List.mem_cons_of_mem b hc)]

/-! ## Base64 -/

/-- The value of a base64 character. -/
def base64Value? (c : UInt8) : Option UInt8 :=
  if 65 ≤ c ∧ c ≤ 90 then some (c - 65)
  else if 97 ≤ c ∧ c ≤ 122 then some (c - 71)
  else if 48 ≤ c ∧ c ≤ 57 then some (c + 4)
  else if c = 0x2B then some 62
  else if c = 0x2F then some 63
  else none

/-- Standard base64 with padding, read in groups of four characters. -/
def decodeBase64 : Bytes → Option Bytes
  | [] => some []
  | p :: q :: r :: s :: rest => do
    let w ← base64Value? p
    let x ← base64Value? q
    if r = 0x3D ∧ s = 0x3D ∧ rest = [] then some [w * 4 + x / 16]
    else do
      let y ← base64Value? r
      if s = 0x3D ∧ rest = [] then some [w * 4 + x / 16, x % 16 * 16 + y / 4]
      else do
        let z ← base64Value? s
        let bs ← decodeBase64 rest
        some ((w * 4 + x / 16) :: (x % 16 * 16 + y / 4) :: (y % 4 * 64 + z) :: bs)
  | _ => none

theorem base64Value?_base64Char {n : UInt8} (h : n < 64) :
    base64Value? (base64Char n) = some n ∧ base64Char n ≠ 0x3D ∧ base64Char n < 0x80 :=
  Hex.forall_byte_lt (P := fun n => base64Value? (base64Char n) = some n ∧ base64Char n ≠ 0x3D
    ∧ base64Char n < 0x80) (by decide) (UInt8.lt_iff_toNat_lt.mp h)

/-- The pieces of one byte and of two bytes next to each other. -/
theorem sextets (a b : UInt8) :
    a / 4 < 64 ∧ a % 4 * 16 < 64 ∧ a % 4 * 16 + b / 16 < 64 ∧ b % 16 * 4 < 64 ∧ a % 64 < 64
      ∧ b % 16 * 4 + a / 64 < 64 := by
  have ha := a.toNat_lt
  have hb := b.toNat_lt
  simp only [UInt8.lt_iff_toNat_lt, UInt8.toNat_add, UInt8.toNat_mul, UInt8.toNat_div,
    UInt8.toNat_mod, UInt8.reduceToNat]
  omega

/-- The bytes are put together again. -/
theorem of_sextets (a b c : UInt8) :
    a / 4 * 4 + a % 4 * 16 / 16 = a ∧ a / 4 * 4 + (a % 4 * 16 + b / 16) / 16 = a
      ∧ (a % 4 * 16 + b / 16) % 16 * 16 + b % 16 * 4 / 4 = b
      ∧ (a % 4 * 16 + b / 16) % 16 * 16 + (b % 16 * 4 + c / 64) / 4 = b
      ∧ (b % 16 * 4 + c / 64) % 4 * 64 + c % 64 = c := by
  have ha := a.toNat_lt
  have hb := b.toNat_lt
  have hc := c.toNat_lt
  simp only [← UInt8.toNat_inj, UInt8.toNat_add, UInt8.toNat_mul, UInt8.toNat_div,
    UInt8.toNat_mod, UInt8.reduceToNat]
  omega

theorem decodeBase64_base64 (s : Bytes) : decodeBase64 (base64 s) = some s := by
  induction s using base64.induct with
  | case1 => rfl
  | case2 a =>
    obtain ⟨h1, h2, -⟩ := sextets a 0
    obtain ⟨r1, -⟩ := of_sextets a 0 0
    simp [base64, decodeBase64, (base64Value?_base64Char h1).1, (base64Value?_base64Char h2).1, r1]
  | case3 a b =>
    obtain ⟨h1, -, h2, h3, -⟩ := sextets a b
    obtain ⟨-, r1, r2, -⟩ := of_sextets a b 0
    simp [base64, decodeBase64, (base64Value?_base64Char h1).1, (base64Value?_base64Char h2).1,
      (base64Value?_base64Char h3).1, (base64Value?_base64Char h3).2.1, r1, r2]
  | case4 a b c rest ih =>
    obtain ⟨h1, -, h2, -⟩ := sextets a b
    obtain ⟨-, -, -, -, h4, h3⟩ := sextets c b
    obtain ⟨-, r1, -, r2, r3⟩ := of_sextets a b c
    simp [base64, decodeBase64, (base64Value?_base64Char h1).1, (base64Value?_base64Char h2).1,
      (base64Value?_base64Char h3).1, (base64Value?_base64Char h3).2.1,
      (base64Value?_base64Char h4).1, (base64Value?_base64Char h4).2.1, ih, r1, r2, r3]

theorem base64_ascii (s : Bytes) : ∀ c ∈ base64 s, c < 0x80 := by
  induction s using base64.induct with
  | case1 => exact fun c hc => nomatch hc
  | case2 a =>
    obtain ⟨h1, h2, -⟩ := sextets a 0
    simp [base64, (base64Value?_base64Char h1).2.2, (base64Value?_base64Char h2).2.2]
  | case3 a b =>
    obtain ⟨h1, -, h2, h3, -⟩ := sextets a b
    simp [base64, (base64Value?_base64Char h1).2.2, (base64Value?_base64Char h2).2.2,
      (base64Value?_base64Char h3).2.2]
  | case4 a b c rest ih =>
    obtain ⟨h1, -, h2, -⟩ := sextets a b
    obtain ⟨-, -, -, -, h4, h3⟩ := sextets c b
    simpa [base64, (base64Value?_base64Char h1).2.2, (base64Value?_base64Char h2).2.2,
      (base64Value?_base64Char h3).2.2, (base64Value?_base64Char h4).2.2] using ih

/-! ## Members -/

/-- The last member with the given key. -/
def lastMember (key : String) : List (String × Json) → Option Json
  | [] => none
  | (k, v) :: ms => (lastMember key ms).or (if k = key then some v else none)

@[simp] theorem lastMember_nil (key : String) : lastMember key [] = none := rfl

@[simp] theorem lastMember_cons (key : String) (m : String × Json) (ms : List (String × Json)) :
    lastMember key (m :: ms) = (lastMember key ms).or (if m.1 = key then some m.2 else none) := rfl

@[simp] theorem lastMember_append (key : String) (xs ys : List (String × Json)) :
    lastMember key (xs ++ ys) = (lastMember key ys).or (lastMember key xs) := by
  induction xs with
  | nil => simp
  | cons m xs ih => simp [ih, Option.or_assoc]

/-- A member of an object. -/
def member? (key : String) : Json → Option Json
  | obj ms => lastMember key ms
  | _ => none

@[simp] theorem member?_obj (key : String) (ms : List (String × Json)) :
    (obj ms).member? key = lastMember key ms := rfl

/-- The error for a value of the wrong type; its text is that of the decoder. -/
def typeError (key : String) : GoError := .errorf "json: cannot unmarshal %s" [.str (ascii key)]

/-- Read a string. -/
def readStr (key : String) (j : Json) : Except GoError Bytes :=
  match j.member? key with
  | none => .ok []
  | some null => .ok []
  | some (str s) => .ok (coerceUtf8 0 s)
  | some _ => .error (typeError key)

@[simp] theorem map_ok {α β : Type} (f : α → β) (a : α) :
    (Except.ok a : Except GoError α).map f = .ok (f a) := rfl

@[simp] theorem ok_bind {α β : Type} (f : α → Except GoError β) (a : α) :
    (Except.ok a >>= f) = f a := rfl

/-- Read an integer between two bounds. -/
def readNum (lo hi : Int) (key : String) (j : Json) : Except GoError Int :=
  match j.member? key with
  | none => .ok 0
  | some null => .ok 0
  | some (num n) => if lo ≤ n ∧ n < hi then .ok n else .error (typeError key)
  | some _ => .error (typeError key)

/-- Read a byte slice; it is nil if the member is absent. -/
def readBytes (key : String) (j : Json) : Except GoError (Option Bytes) :=
  match j.member? key with
  | none => .ok none
  | some null => .ok none
  | some (str s) =>
    match decodeBase64 (coerceUtf8 0 s) with
    | none => .error (typeError key)
    | some bs => .ok (some bs)
  | some _ => .error (typeError key)

/-- Read an array of values of one type; it is nil, and so empty, if the member is absent. -/
def readArr {α : Type} (read : Json → Except GoError α) (key : String) (j : Json) :
    Except GoError (List α) :=
  match j.member? key with
  | none => .ok []
  | some null => .ok []
  | some (arr xs) => xs.mapM read
  | some _ => .error (typeError key)

/-- Read a pointer; it is nil if the member is absent. -/
def readPtr {α : Type} (read : Json → Except GoError α) (key : String) (j : Json) :
    Except GoError (Option α) :=
  match j.member? key with
  | none => .ok none
  | some null => .ok none
  | some v => (read v).map some

end Json
