import NogoChain.Lib.GoText

/-!
# Hierarchical wallets

`HDWallet` is a key with the chain of keys that it was derived from. `Derive` reads a path such
as `m/44'/0'/0'/0/7`, adds 2³¹ to the numbers that are marked with an apostrophe, and takes one
child after another; `Path` walks back over the parents and prints the numbers again.

A path that is asked for is a list of `PathStep`s. The sum with 2³¹ is taken modulo 2³², and a
number from 2³¹ on counts as marked whether it was or not. So `Path` gives the path back that
`Derive` was given exactly when every number in it is below 2³¹.
-/

namespace NogoChain

/-! ## What is taken from outside -/

/-- The functions of other packages that a wallet calls, and how many bytes they return:
`crypto/hmac` over `crypto/sha512`, `crypto/ed25519`, and the word list and the key stretching
behind `mnemonic.go`. -/
structure WalletCrypto where
  validateMnemonic : Bytes → Bool
  /-- `MnemonicToSeed`, which reports no error -/
  mnemonicToSeed : Bytes → Bytes → Bytes
  mnemonicToSeed_length : ∀ mnemonic passphrase, (mnemonicToSeed mnemonic passphrase).length = 64
  /-- HMAC-SHA512 of a text under a key -/
  hmacSha512 : Bytes → Bytes → Bytes
  hmacSha512_length : ∀ key text, (hmacSha512 key text).length = 64
  /-- `ed25519.NewKeyFromSeed`: the seed and the public key, one after the other -/
  newKeyFromSeed : Bytes → Bytes
  newKeyFromSeed_length : ∀ seed, (newKeyFromSeed seed).length = 64

def bip39SeedLength : Nat := 64

def bip32HardenedOffset : UInt32 := 0x80000000

theorem toNat_bip32HardenedOffset : bip32HardenedOffset.toNat = 2 ^ 31 := by decide

theorem hardened_iff (index : UInt32) : bip32HardenedOffset ≤ index ↔ 2 ^ 31 ≤ index.toNat := by
  rw [UInt32.le_iff_toNat_le, toNat_bip32HardenedOffset]

def hdKeyLen : Nat := 32

/-! ## Wallets -/

/-- `HDWallet`. `PathStr`, in which `Path` keeps its result for the next call, is left out. -/
structure HDWallet where
  privateKey : Bytes
  privateKey_length : privateKey.length = 64
  chainCode : Bytes
  /-- number of derivations, modulo 256 -/
  depth : UInt8
  /-- number in the path, the offset of a hardened one included -/
  index : UInt32
  /-- fingerprint of the parent, nil for a master key -/
  parentFP : Option Bytes
  /-- wallet that this one was derived from, nil for a master key -/
  parent : Option HDWallet

namespace HDWallet

variable (wc : WalletCrypto)

/-- `PrivateKey.Seed()`: the first half of the private key. -/
def seed (w : HDWallet) : Bytes := w.privateKey.take hdKeyLen

/-- `PublicKey`, which is `PrivateKey.Public()`: the second half of the private key. -/
def publicKey (w : HDWallet) : Bytes := w.privateKey.drop hdKeyLen

def publicKeyHex (w : HDWallet) : Bytes := Hex.encodeToString w.publicKey

/-- `NewHDWallet`. -/
def new (seed : Bytes) : Except GoError HDWallet :=
  if seed.length < bip39SeedLength then
    .error (.wrap "%w: got %d, need %d" [.num seed.length, .num bip39SeedLength]
      (.new "seed too short for HD wallet"))
  else
    let digest := wc.hmacSha512 (ascii "ed25519 seed") seed
    .ok {
      privateKey := wc.newKeyFromSeed (digest.take hdKeyLen)
      privateKey_length := wc.newKeyFromSeed_length _
      chainCode := digest.drop hdKeyLen
      depth := 0
      index := 0
      parentFP := none
      parent := none }

/-- What `DeriveChild` signs with the chain code: for a hardened child a zero byte, the seed and
the number with the offset, for another one the public key and the number. -/
def childData (w : HDWallet) (index : UInt32) (hardened : Bool) : Bytes :=
  if hardened then 0 :: w.seed ++ bigEndian 4 (index + bip32HardenedOffset).toNat
  else w.publicKey ++ bigEndian 4 index.toNat

/-- The wallet that `DeriveChild` builds. -/
def child (w : HDWallet) (index : UInt32) (hardened : Bool) (fullPathIndex : UInt32) : HDWallet :=
  let digest := wc.hmacSha512 w.chainCode (w.childData index hardened)
  { privateKey :=
      wc.newKeyFromSeed (List.zipWith (fun a b => a ^^^ b) (digest.take hdKeyLen) w.seed)
    privateKey_length := wc.newKeyFromSeed_length _
    chainCode := digest.drop hdKeyLen
    depth := w.depth + 1
    index := fullPathIndex
    parentFP := some (w.publicKey.take 4)
    parent := some w }

def deriveChild (w : HDWallet) (index : UInt32) (hardened : Bool) (fullPathIndex : UInt32) :
    Except GoError HDWallet :=
  if index > 0x7FFFFFFF then .error (.new "invalid child index")
  else .ok (w.child wc index hardened fullPathIndex)

end HDWallet

/-! ## Reading a path -/

structure DerivationPath where
  /-- numbers, the offset of a hardened one included -/
  components : List UInt32
  /-- text that was read -/
  original : Bytes
deriving DecidableEq

/-- The body of the loop of `ParseDerivationPath` for a part that is not blank. -/
def parseComponent (part : Bytes) : Except GoError UInt32 :=
  let hardened := (ascii "'").isSuffixOf part
  let digits := if hardened then part.dropLast else part
  match sscanfUint32 digits with
  | none =>
    .error (.wrap "%w: invalid component %q" [.quoted digits] (.new "invalid derivation path"))
  | some index => .ok (if hardened then index + bip32HardenedOffset else index)

/-- The loop of `ParseDerivationPath`. -/
def parseComponents : List Bytes → Except GoError (List UInt32)
  | [] => .ok []
  | part :: parts =>
    if trimSpace part = [] then parseComponents parts
    else
      match parseComponent (trimSpace part) with
      | .error e => .error e
      | .ok index => (parseComponents parts).map (index :: ·)

def parseDerivationPath (path : Bytes) : Except GoError DerivationPath :=
  let trimmed := trimSpace path
  if trimmed = [] ∨ trimmed = ascii "m" ∨ trimmed = ascii "m/" then .ok ⟨[], path⟩
  else
    let body := if trimmed.take 2 = ascii "m/" then trimmed.drop 2 else trimmed
    (parseComponents (body.splitOn 0x2F)).map (⟨·, path⟩)

namespace HDWallet

variable (wc : WalletCrypto)

/-- The loop of `Derive`. -/
def deriveAll : HDWallet → List UInt32 → Except GoError HDWallet
  | current, [] => .ok current
  | current, index :: indices =>
    let isHardened := decide (bip32HardenedOffset ≤ index)
    let childIndex := if isHardened then index - bip32HardenedOffset else index
    match current.deriveChild wc childIndex isHardened index with
    | .error e => .error (.wrap "failed to derive child %d: %w" [.num childIndex.toNat] e)
    | .ok child => deriveAll child indices

def derive (w : HDWallet) (path : Bytes) : Except GoError HDWallet :=
  match parseDerivationPath path with
  | .error e => .error e
  | .ok parsed => w.deriveAll wc parsed.components

end HDWallet

/-! ## Printing a path -/

/-- How `Path` prints a number. -/
def componentText (index : UInt32) : Bytes :=
  if bip32HardenedOffset ≤ index then
    Json.decimal (index - bip32HardenedOffset).toNat ++ ascii "'"
  else Json.decimal index.toNat

/-- The loop of `Path` over the parents. -/
def HDWallet.pathParts : HDWallet → List Bytes
  | ⟨_, _, _, depth, index, _, parent⟩ =>
    if depth = 0 then []
    else
      match parent with
      | none => [componentText index]
      | some w => w.pathParts ++ [componentText index]

def HDWallet.path (w : HDWallet) : Bytes := [0x2F].intercalate (ascii "m" :: w.pathParts)

/-! ## The path that is asked for -/

/-- A step of a path that is asked for. -/
structure PathStep where
  number : UInt32
  /-- marked with an apostrophe -/
  hardened : Bool
deriving DecidableEq

namespace PathStep

/-- The text of a step. -/
def text (s : PathStep) : Bytes :=
  Json.decimal s.number.toNat ++ if s.hardened then ascii "'" else []

/-- The number that `ParseDerivationPath` makes of a step. -/
def component (s : PathStep) : UInt32 :=
  if s.hardened then s.number + bip32HardenedOffset else s.number

end PathStep

/-- The text of a path. -/
def pathText (steps : List PathStep) : Bytes :=
  [0x2F].intercalate (ascii "m" :: steps.map PathStep.text)

theorem PathStep.visible_text (s : PathStep) : Visible s.text := by
  refine (visible_decimal _).append ?_
  cases s.hardened with
  | true => decide
  | false => decide

/-- A step has no slash in it. -/
theorem PathStep.slash_notMem_text (s : PathStep) : (0x2F : UInt8) ∉ s.text := by
  intro h
  rcases List.mem_append.mp h with hdigit | hmark
  · exact absurd (digit_of_mem_decimal hdigit).1 (by decide)
  · split at hmark
    · exact absurd hmark (by decide)
    · cases hmark

theorem PathStep.text_ne_nil (s : PathStep) : s.text ≠ [] :=
  List.append_ne_nil_of_left_ne_nil (decimal_ne_nil _) _

/-- What `ParseDerivationPath` makes of a step. -/
theorem parseComponent_text (s : PathStep) : parseComponent s.text = .ok s.component := by
  have hscan := sscanfUint32_decimal s.number
  unfold parseComponent
  cases hs : s.hardened with
  | true =>
    have htext : s.text = Json.decimal s.number.toNat ++ [0x27] := by
      rw [PathStep.text, hs]
      rfl
    have hmark : (ascii "'").isSuffixOf s.text = true := by
      rw [List.isSuffixOf_iff_suffix, htext]
      exact List.suffix_append _ _
    have hdigits : s.text.dropLast = Json.decimal s.number.toNat := by
      rw [htext, List.dropLast_concat]
    simp only [hmark, if_true, hdigits, hscan, PathStep.component, hs]
  | false =>
    have htext : s.text = Json.decimal s.number.toNat := by
      rw [PathStep.text, hs]
      exact List.append_nil _
    have hmark : (ascii "'").isSuffixOf s.text = false := by
      rw [Bool.eq_false_iff]
      intro h
      rw [List.isSuffixOf_iff_suffix, htext] at h
      have hmem : (0x27 : UInt8) ∈ Json.decimal s.number.toNat :=
        h.subset (List.mem_singleton.mpr rfl)
      exact absurd (digit_of_mem_decimal hmem).1 (by decide)
    simp only [hmark, Bool.false_eq_true, if_false, PathStep.component, hs]
    rw [htext, hscan]

theorem parseComponents_text (steps : List PathStep) :
    parseComponents (steps.map PathStep.text) = .ok (steps.map PathStep.component) := by
  induction steps with
  | nil => rfl
  | cons s steps ih =>
    rw [List.map_cons, parseComponents, trimSpace_of_visible s.visible_text,
      if_neg s.text_ne_nil, parseComponent_text, ih]
    rfl

theorem visible_pathText (steps : List PathStep) : Visible (pathText steps) := by
  refine Visible.intercalate (by decide) fun part hpart => ?_
  rcases List.mem_cons.mp hpart with rfl | hpart
  · decide
  · obtain ⟨s, -, rfl⟩ := List.mem_map.mp hpart
    exact s.visible_text

variable {steps : List PathStep} {w : HDWallet}

/-- **What `ParseDerivationPath` reads in the text of a path.** -/
theorem parseDerivationPath_pathText (hne : steps ≠ []) :
    parseDerivationPath (pathText steps) = .ok ⟨steps.map PathStep.component, pathText steps⟩ := by
  obtain ⟨s, rest, rfl⟩ := List.exists_cons_of_ne_nil hne
  have hparts : ([0x2F].intercalate ((s :: rest).map PathStep.text)).splitOn 0x2F
      = (s :: rest).map PathStep.text := by
    refine List.splitOn_intercalate _ (fun part hpart => ?_) (by simp)
    obtain ⟨step, -, rfl⟩ := List.mem_map.mp hpart
    exact step.slash_notMem_text
  have hbody : [0x2F].intercalate ((s :: rest).map PathStep.text) ≠ [] := by
    intro hnil
    rw [hnil, List.splitOn_nil, List.map_cons] at hparts
    exact s.text_ne_nil (List.cons.inj hparts).1.symm
  have hlong : ¬(pathText (s :: rest) = [] ∨ pathText (s :: rest) = ascii "m"
      ∨ pathText (s :: rest) = ascii "m/") := by
    rintro (h | h | h)
    · cases h
    · exact nomatch congrArg (List.drop 1) h
    · exact hbody (congrArg (List.drop 2) h)
  have htake : (pathText (s :: rest)).take 2 = ascii "m/" := rfl
  have hdrop : (pathText (s :: rest)).drop 2
      = [0x2F].intercalate ((s :: rest).map PathStep.text) := rfl
  unfold parseDerivationPath
  rw [trimSpace_of_visible (visible_pathText _)]
  dsimp only
  rw [if_neg hlong, if_pos htake, hdrop, hparts, parseComponents_text]
  rfl

/-! ## Deriving -/

namespace HDWallet

variable {wc : WalletCrypto}

/-- The child for a number of `Derive`. -/
def descendant (wc : WalletCrypto) (w : HDWallet) (index : UInt32) : HDWallet :=
  let isHardened := decide (bip32HardenedOffset ≤ index)
  w.child wc (if isHardened then index - bip32HardenedOffset else index) isHardened index

/-- A number without its offset is in range. -/
theorem childIndex_le (index : UInt32) :
    ¬ (if decide (bip32HardenedOffset ≤ index) then index - bip32HardenedOffset else index)
      > 0x7FFFFFFF := by
  have hlast : (0x7FFFFFFF : UInt32).toNat = 2 ^ 31 - 1 := by decide
  by_cases h : bip32HardenedOffset ≤ index
  · have hlt := index.toNat_lt
    rw [if_pos (decide_eq_true h), gt_iff_lt, UInt32.lt_iff_toNat_lt, hlast,
      UInt32.toNat_sub_of_le _ _ h, toNat_bip32HardenedOffset]
    omega
  · rw [if_neg (by simpa using h), gt_iff_lt, UInt32.lt_iff_toNat_lt, hlast]
    rw [hardened_iff] at h
    omega

/-- **`Derive` never fails on numbers that were read.** -/
theorem deriveAll_eq (w : HDWallet) (indices : List UInt32) :
    w.deriveAll wc indices = .ok (indices.foldl (descendant wc) w) := by
  induction indices generalizing w with
  | nil => rfl
  | cons index indices ih =>
    rw [deriveAll, deriveChild, if_neg (childIndex_le index), List.foldl_cons]
    exact ih _

theorem pathParts_descendant (hdepth : w.depth + 1 ≠ 0) (index : UInt32) :
    (w.descendant wc index).pathParts = w.pathParts ++ [componentText index] := by
  rw [descendant, child, pathParts, if_neg hdepth]

/-- **What `Path` prints of a wallet that is derived over fewer than 256 numbers.** -/
theorem pathParts_foldl_descendant {indices : List UInt32}
    (h : w.depth.toNat + indices.length < 256) :
    (indices.foldl (descendant wc) w).pathParts = w.pathParts ++ indices.map componentText := by
  induction indices generalizing w with
  | nil => exact (List.append_nil _).symm
  | cons index indices ih =>
    rw [List.length_cons] at h
    have hdepth : (w.descendant wc index).depth.toNat = w.depth.toNat + 1 := by
      show (w.depth + 1).toNat = _
      exact Nat.mod_eq_of_lt (by show w.depth.toNat + 1 < 256; omega)
    have hne : w.depth + 1 ≠ 0 := by
      intro hzero
      have : (w.depth + 1).toNat = w.depth.toNat + 1 := hdepth
      rw [hzero] at this
      cases this
    rw [List.foldl_cons, ih (by omega), pathParts_descendant hne, List.append_assoc]
    rfl

end HDWallet

/-! ## Printing what was read -/

theorem slash_notMem_componentText (index : UInt32) : (0x2F : UInt8) ∉ componentText index := by
  have hdecimal : ∀ n : Nat, (0x2F : UInt8) ∉ Json.decimal n := fun n h =>
    absurd (digit_of_mem_decimal h).1 (by decide)
  unfold componentText
  split
  · intro h
    rcases List.mem_append.mp h with h | h
    · exact hdecimal _ h
    · exact absurd h (by decide)
  · exact hdecimal _

/-- A number with an apostrophe is not a number without one. -/
theorem decimal_append_mark_ne (m n : Nat) : Json.decimal m ++ ascii "'" ≠ Json.decimal n := by
  intro h
  have hmem : (0x27 : UInt8) ∈ Json.decimal n := by
    rw [← h]
    exact List.mem_append_right _ (by decide)
  exact absurd (digit_of_mem_decimal hmem).1 (by decide)

/-- **A step is printed as it was asked for exactly when its number is below 2³¹.** -/
theorem componentText_component_eq_iff (s : PathStep) :
    componentText s.component = s.text ↔ s.number.toNat < 2 ^ 31 := by
  have hlt : s.number.toNat < 2 ^ 32 := s.number.toNat_lt
  unfold componentText PathStep.component PathStep.text
  cases s.hardened with
  | true =>
    have hsum : bip32HardenedOffset ≤ s.number + bip32HardenedOffset
        ↔ 2 ^ 31 ≤ (s.number.toNat + 2 ^ 31) % 2 ^ 32 := by
      rw [hardened_iff, UInt32.toNat_add, toNat_bip32HardenedOffset]
    rw [if_pos rfl, if_pos rfl]
    by_cases h : s.number.toNat < 2 ^ 31
    · rw [if_pos (hsum.mpr (by omega)), UInt32.add_sub_cancel]
      exact iff_of_true rfl h
    · rw [if_neg (mt hsum.mp (by omega))]
      exact iff_of_false (decimal_append_mark_ne _ _).symm h
  | false =>
    rw [if_neg Bool.false_ne_true, if_neg Bool.false_ne_true, List.append_nil]
    by_cases h : s.number.toNat < 2 ^ 31
    · rw [if_neg (mt (hardened_iff _).mp (by omega))]
      exact iff_of_true rfl h
    · rw [if_pos ((hardened_iff _).mpr (by omega))]
      exact iff_of_false (decimal_append_mark_ne _ _) h

namespace HDWallet

variable {wc : WalletCrypto}

/-- The wallet that a master key derives over some steps. -/
def atPath (wc : WalletCrypto) (w : HDWallet) (steps : List PathStep) : HDWallet :=
  (steps.map PathStep.component).foldl (descendant wc) w

/-- **`Derive` succeeds on the text of a path.** -/
theorem derive_pathText (w : HDWallet) (hne : steps ≠ []) :
    w.derive wc (pathText steps) = .ok (w.atPath wc steps) := by
  unfold derive
  rw [parseDerivationPath_pathText hne]
  exact deriveAll_eq w _

/-- **`Path` gives the path back that `Derive` was given exactly when every number in it is below
2³¹**, for a master key and fewer than 256 numbers. -/
theorem path_atPath_eq_iff (hmaster : w.depth = 0) (hshort : steps.length < 256) :
    (w.atPath wc steps).path = pathText steps ↔ ∀ s ∈ steps, s.number.toNat < 2 ^ 31 := by
  have hnone : w.pathParts = [] := by
    cases w
    rw [pathParts.eq_def]
    exact if_pos hmaster
  have hparts : (w.atPath wc steps).pathParts = steps.map fun s => componentText s.component := by
    rw [atPath, pathParts_foldl_descendant (by rw [hmaster, List.length_map]; simpa using hshort),
      hnone, List.nil_append, List.map_map]
    rfl
  have hiff : (w.atPath wc steps).path = pathText steps
      ↔ (steps.map fun s => componentText s.component) = steps.map PathStep.text := by
    unfold path pathText
    rw [hparts]
    refine ⟨fun h => ?_, fun h => by rw [h]⟩
    refine (List.cons.inj (intercalate_inj ?_ ?_ (List.cons_ne_nil _ _) (List.cons_ne_nil _ _) h)).2
    · intro part hpart
      rcases List.mem_cons.mp hpart with rfl | hpart
      · decide
      · obtain ⟨s, -, rfl⟩ := List.mem_map.mp hpart
        exact slash_notMem_componentText _
    · intro part hpart
      rcases List.mem_cons.mp hpart with rfl | hpart
      · decide
      · obtain ⟨s, -, rfl⟩ := List.mem_map.mp hpart
        exact s.slash_notMem_text
  rw [hiff, List.map_inj_left]
  exact forall₂_congr fun s _ => componentText_component_eq_iff s

end HDWallet

end NogoChain
