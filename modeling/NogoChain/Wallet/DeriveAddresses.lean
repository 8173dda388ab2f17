import NogoChain.Core.Encoding
import NogoChain.Lib.Prog
import NogoChain.Wallet.HDWallet

/-!
# Deriving the addresses of a wallet

`DeriveAddresses` derives the keys of the paths `m/44'/coinType'/account'/change/index` for
consecutive indices and returns, for each key, the index, the address, the key and the path.
`Validate` bounds the number of addresses and looks at the network; the four numbers of the path
are taken as they come. So the index can wrap around, a number from 2³¹ on is derived and
printed as another one, and on the test network the address has a version byte that the
sender address of a transaction never has.
-/

namespace NogoChain

/-! ## Requests -/

inductive NetworkType where
  | mainnet
  | testnet
  /-- any other text -/
  | other (name : Bytes)
deriving DecidableEq

/-- The text of a network. -/
def NetworkType.name : NetworkType → Bytes
  | .mainnet => ascii "mainnet"
  | .testnet => ascii "testnet"
  | .other name => name

def maxDerivationLimit : UInt32 := 50

def purposeBIP44 : UInt32 := 44

structure DeriveAddressesRequest where
  mnemonic : Bytes
  passphrase : Bytes
  network : NetworkType
  coinType : UInt32
  account : UInt32
  /-- external or internal chain -/
  change : UInt32
  startIndex : UInt32
  count : UInt32

def DeriveAddressesRequest.validate (r : DeriveAddressesRequest) : Except GoError Unit :=
  if r.mnemonic = [] then .error (.new "mnemonic is required")
  else if r.count = 0 then .error (.new "invalid count, must be positive")
  else if r.count > maxDerivationLimit then
    .error (.new "derivation limit exceeded, maximum 50 addresses per request")
  else if r.network ≠ .mainnet ∧ r.network ≠ .testnet then
    .error (.errorf "invalid network type: %s, must be 'mainnet' or 'testnet'"
      [.str r.network.name])
  else .ok ()

structure DerivedAddress where
  index : UInt32
  address : Bytes
  /-- public key in hexadecimal -/
  publicKey : Bytes
  path : Bytes
deriving DecidableEq

structure DeriveAddressesResponse where
  addresses : List DerivedAddress
  network : NetworkType
  /-- path without the index -/
  path : Bytes
  count : Nat
deriving DecidableEq

/-- How a call ends without a result. -/
inductive Stop where
  | error (e : GoError)
  /-- an index is out of range -/
  | panic
deriving DecidableEq

variable (cr : Crypto) (wc : WalletCrypto)

/-! ## Addresses -/

/-- `Address`, which is `GenerateAddress` of package `crypto`: that of package `core`, but for an
empty key. -/
def HDWallet.address (w : HDWallet) : Bytes :=
  if w.publicKey = [] then [] else generateAddress cr w.publicKey

/-- `DecodeAddress`, with `none` for an error. -/
def decodeAddress (addr : Bytes) : Option Bytes :=
  if addr.length < addressPrefix.length then none
  else if addr.take addressPrefix.length ≠ addressPrefix then none
  else
    match Hex.decodeString (addr.drop addressPrefix.length) with
    | .error _ => none
    | .ok decoded =>
      if decoded.length < checksumLen then none
      else some (decoded.take (decoded.length - checksumLen))

def encodeAddress (addrData : Bytes) : Bytes :=
  if addrData = [] then []
  else addressPrefix ++ Hex.encodeToString (addrData ++ (cr.sha256 addrData).take checksumLen)

def addressVersionTestnet : UInt8 := 1

/-- `convertAddressToTestnet`. An address that holds a checksum and nothing else has no version
byte to change. -/
def convertAddressToTestnet (mainnetAddr : Bytes) : Except Stop Bytes :=
  if mainnetAddr.length < addressPrefix.length + 2 then .ok mainnetAddr
  else
    match decodeAddress mainnetAddr with
    | none => .ok mainnetAddr
    | some [] => .error .panic
    | some (_ :: hash) => .ok (encodeAddress cr (addressVersionTestnet :: hash))

/-! ## Derivation -/

/-- The path without the index. -/
def DeriveAddressesRequest.basePath (req : DeriveAddressesRequest) : Bytes :=
  ascii "m/" ++ Json.decimal purposeBIP44.toNat ++ ascii "'/" ++ Json.decimal req.coinType.toNat
    ++ ascii "'/" ++ Json.decimal req.account.toNat ++ ascii "'/" ++ Json.decimal req.change.toNat

/-- The body of the loop of `DeriveAddresses`. -/
def deriveItem (req : DeriveAddressesRequest) (w : HDWallet) (i : Nat) :
    Except Stop DerivedAddress := do
  let index := req.startIndex + UInt32.ofNat i
  match w.derive wc (req.basePath ++ ascii "/" ++ Json.decimal index.toNat) with
  | .error e =>
    .error (.error (.wrap "failed to derive address at index %d: %w" [.num index.toNat] e))
  | .ok derived => do
    let addr ← if req.network = .testnet then convertAddressToTestnet cr (derived.address cr)
      else .ok (derived.address cr)
    .ok ⟨index, addr, derived.publicKeyHex, derived.path⟩

def deriveAddresses (req : DeriveAddressesRequest) : Except Stop DeriveAddressesResponse :=
  match req.validate with
  | .error e => .error (.error e)
  | .ok () =>
    if ¬ wc.validateMnemonic req.mnemonic then .error (.error (.new "invalid mnemonic phrase"))
    else
      match HDWallet.new wc (wc.mnemonicToSeed req.mnemonic req.passphrase) with
      | .error e => .error (.error (.wrap "failed to create HD wallet: %w" [] e))
      | .ok hdWallet => do
        let addresses ← (List.range req.count.toNat).mapM (deriveItem cr wc req hdWallet)
        .ok ⟨addresses, req.network, req.basePath, addresses.length⟩

/-! ## What a request asks for -/

/-- The address is the sender address of every transfer that carries the key. -/
def DerivedAddress.Spendable (item : DerivedAddress) : Prop :=
  ∀ tx : Transaction, tx.type = .transfer →
    Hex.encodeToString (sliceBytes tx.fromPubKey) = item.publicKey →
    tx.fromAddress cr = .ok item.address

/-- **The response is what the request asks for**: so many addresses, at consecutive indices, each
with its path and spendable. -/
structure DeriveAddressesResponse.Answers (resp : DeriveAddressesResponse)
    (req : DeriveAddressesRequest) : Prop where
  /-- as many as are asked for -/
  length : resp.addresses.length = req.count.toNat
  /-- the indices do not wrap around -/
  index : ∀ i item, resp.addresses[i]? = some item → item.index.toNat = req.startIndex.toNat + i
  /-- a path is that of the response and the index -/
  path : ∀ item ∈ resp.addresses,
    item.path = resp.path ++ ascii "/" ++ Json.decimal item.index.toNat
  /-- an address can be spent from -/
  spendable : ∀ item ∈ resp.addresses, item.Spendable cr

/-- **The condition for it**: the main network, numbers below 2³¹, and no index from 2³¹ on. -/
def DeriveAddressesRequest.InRange (req : DeriveAddressesRequest) : Prop :=
  req.network = .mainnet ∧ req.coinType.toNat < 2 ^ 31 ∧ req.account.toNat < 2 ^ 31
    ∧ req.change.toNat < 2 ^ 31 ∧ req.startIndex.toNat + req.count.toNat ≤ 2 ^ 31

instance (req : DeriveAddressesRequest) : Decidable req.InRange :=
  inferInstanceAs (Decidable (_ ∧ _))

/-- The steps of the path for an index. -/
def DeriveAddressesRequest.steps (req : DeriveAddressesRequest) (index : UInt32) : List PathStep :=
  [⟨purposeBIP44, true⟩, ⟨req.coinType, true⟩, ⟨req.account, true⟩, ⟨req.change, false⟩,
    ⟨index, false⟩]

variable {cr : Crypto} {wc : WalletCrypto} {req : DeriveAddressesRequest}

theorem steps_ne_nil (req : DeriveAddressesRequest) (index : UInt32) : req.steps index ≠ [] :=
  List.cons_ne_nil _ _

theorem length_steps (req : DeriveAddressesRequest) (index : UInt32) :
    (req.steps index).length = 5 := rfl

/-- The text that `DeriveAddresses` builds is the text of these steps. -/
theorem basePath_append (req : DeriveAddressesRequest) (index : UInt32) :
    req.basePath ++ ascii "/" ++ Json.decimal index.toNat = pathText (req.steps index) := by
  unfold DeriveAddressesRequest.basePath DeriveAddressesRequest.steps pathText
  simp only [List.map_cons, List.map_nil, List.intercalate_cons_cons, List.intercalate_singleton,
    PathStep.text, if_true, Bool.false_eq_true, if_false, List.append_nil, List.append_assoc]
  rfl

/-! ## Addresses of derived keys -/

theorem HDWallet.publicKey_length (w : HDWallet) : w.publicKey.length = pubKeySize := by
  rw [HDWallet.publicKey, List.length_drop, w.privateKey_length]
  rfl

theorem HDWallet.address_eq (w : HDWallet) : w.address cr = generateAddress cr w.publicKey := by
  refine if_neg fun hnil => ?_
  have hlength := w.publicKey_length
  rw [hnil] at hlength
  cases hlength

theorem decodeAddress_generateAddress (pubKey : Bytes) :
    decodeAddress (generateAddress cr pubKey) = some (0 :: cr.sha256 pubKey) := by
  have hchecksum : ((cr.sha256 (0 :: cr.sha256 pubKey)).take checksumLen).length = checksumLen := by
    rw [List.length_take, cr.sha256_length]
    rfl
  unfold decodeAddress generateAddress
  rw [if_neg (by rw [List.length_append]; omega), List.take_left, if_neg (not_not.mpr rfl),
    List.drop_left, Hex.decodeString_encodeToString]
  dsimp only
  rw [List.length_append, hchecksum, if_neg (by omega), Nat.add_sub_cancel, List.take_left]

/-- The address on the test network. -/
theorem convertAddressToTestnet_generateAddress (pubKey : Bytes) :
    convertAddressToTestnet cr (generateAddress cr pubKey)
      = .ok (encodeAddress cr (addressVersionTestnet :: cr.sha256 pubKey)) := by
  have hlong : ¬ (generateAddress cr pubKey).length < addressPrefix.length + 2 := by
    unfold generateAddress
    rw [List.length_append, Hex.encodeToString_length, List.length_append, List.length_cons]
    omega
  unfold convertAddressToTestnet
  rw [if_neg hlong, decodeAddress_generateAddress]

/-- The address on the test network is not the one that `GenerateAddress` writes. -/
theorem encodeAddress_testnet_ne (cr : Crypto) (pubKey : Bytes) :
    encodeAddress cr (addressVersionTestnet :: cr.sha256 pubKey) ≠ generateAddress cr pubKey := by
  intro h
  have hhex := congrArg Hex.decodeString (List.append_cancel_left h)
  rw [Hex.decodeString_encodeToString, Hex.decodeString_encodeToString] at hhex
  exact absurd (List.cons.inj (Except.ok.inj hhex)).1 (by decide)

/-- The address in an item. -/
def DeriveAddressesRequest.addressFor (cr : Crypto) (req : DeriveAddressesRequest)
    (pubKey : Bytes) : Bytes :=
  if req.network = .testnet then encodeAddress cr (addressVersionTestnet :: cr.sha256 pubKey)
  else generateAddress cr pubKey

/-- The item for a position. -/
def DeriveAddressesRequest.item (cr : Crypto) (wc : WalletCrypto) (req : DeriveAddressesRequest)
    (w : HDWallet) (i : Nat) : DerivedAddress :=
  let index := req.startIndex + UInt32.ofNat i
  let derived := w.atPath wc (req.steps index)
  ⟨index, req.addressFor cr derived.publicKey, derived.publicKeyHex, derived.path⟩

/-- **Every item is derived.** -/
theorem deriveItem_eq (w : HDWallet) (i : Nat) :
    deriveItem cr wc req w i = .ok (req.item cr wc w i) := by
  unfold deriveItem
  dsimp only
  rw [basePath_append, HDWallet.derive_pathText w (steps_ne_nil req _)]
  dsimp only
  rw [HDWallet.address_eq]
  unfold DeriveAddressesRequest.item DeriveAddressesRequest.addressFor
  dsimp only
  by_cases hnetwork : req.network = .testnet
  · rw [if_pos hnetwork, if_pos hnetwork, convertAddressToTestnet_generateAddress]
    rfl
  · rw [if_neg hnetwork, if_neg hnetwork]
    rfl

/-- An address is spendable exactly if it is that of the main network. -/
theorem spendable_item_iff (w : HDWallet) (i : Nat) :
    (req.item cr wc w i).Spendable cr ↔ req.network ≠ .testnet := by
  let key := (w.atPath wc (req.steps (req.startIndex + UInt32.ofNat i))).publicKey
  have hlength : key.length = pubKeySize := HDWallet.publicKey_length _
  have hfrom : ∀ tx : Transaction, tx.type = .transfer → sliceBytes tx.fromPubKey = key →
      tx.fromAddress cr = .ok (generateAddress cr key) := by
    intro tx htype hkey
    unfold Transaction.fromAddress
    rw [if_neg (not_not.mpr htype), hkey, if_neg (not_not.mpr hlength)]
  constructor
  · intro hspend htestnet
    let tx : Transaction := ⟨.transfer, 0, some key, [], 0, 0, 0, [], none⟩
    have haddress := (hspend tx rfl rfl).symm.trans (hfrom tx rfl rfl)
    refine encodeAddress_testnet_ne cr key ?_
    have hitem : (req.item cr wc w i).address
        = encodeAddress cr (addressVersionTestnet :: cr.sha256 key) := if_pos htestnet
    rw [← hitem]
    exact Except.ok.inj haddress
  · intro hnetwork tx htype hhex
    have hkey : sliceBytes tx.fromPubKey = key := by
      have h := congrArg Hex.decodeString hhex
      rw [Hex.decodeString_encodeToString] at h
      exact Except.ok.inj (h.trans (Hex.decodeString_encodeToString key))
    have hitem : (req.item cr wc w i).address = generateAddress cr key := if_neg hnetwork
    rw [hfrom tx htype hkey, hitem]

/-- The path of an item is as asked for exactly when the numbers are below 2³¹. -/
theorem path_item_iff {w : HDWallet} (hmaster : w.depth = 0) (i : Nat) : (req.item cr wc w i).path
        = req.basePath ++ ascii "/" ++ Json.decimal (req.item cr wc w i).index.toNat
      ↔ req.coinType.toNat < 2 ^ 31 ∧ req.account.toNat < 2 ^ 31 ∧ req.change.toNat < 2 ^ 31
        ∧ (req.startIndex + UInt32.ofNat i).toNat < 2 ^ 31 := by
  rw [basePath_append]
  refine (HDWallet.path_atPath_eq_iff hmaster (by rw [length_steps]; decide)).trans ?_
  simp only [DeriveAddressesRequest.steps, List.forall_mem_cons, List.not_mem_nil,
    false_implies, implies_true, and_true]
  exact and_iff_right (by decide)

/-! ## Whole requests -/

/-- The master wallet of a request. -/
theorem exists_master (wc : WalletCrypto) (req : DeriveAddressesRequest) :
    ∃ w, HDWallet.new wc (wc.mnemonicToSeed req.mnemonic req.passphrase) = .ok w ∧ w.depth = 0 := by
  unfold HDWallet.new
  rw [wc.mnemonicToSeed_length, if_neg (by decide)]
  exact ⟨_, rfl, rfl⟩

/-- **A request that `Validate` accepts is always answered.** -/
theorem exists_deriveAddresses (cr : Crypto) (hvalid : req.validate = .ok ())
    (hmnemonic : wc.validateMnemonic req.mnemonic = true) :
    ∃ w : HDWallet, w.depth = 0 ∧ deriveAddresses cr wc req
      = .ok ⟨(List.range req.count.toNat).map (req.item cr wc w), req.network, req.basePath,
          req.count.toNat⟩ := by
  obtain ⟨w, hnew, hmaster⟩ := exists_master wc req
  have hitems : (List.range req.count.toNat).mapM (deriveItem cr wc req w)
      = .ok ((List.range req.count.toNat).map (req.item cr wc w)) := by
    rw [Except.mapM_eq_ok, List.forall₂_map_right_iff, List.forall₂_same]
    exact fun i _ => deriveItem_eq w i
  refine ⟨w, hmaster, ?_⟩
  unfold deriveAddresses
  rw [hvalid]
  rw [if_neg (not_not.mpr hmnemonic), hnew]
  dsimp only
  rw [hitems]
  show Except.ok _ = _
  rw [List.length_map, List.length_range]

/-- What `Validate` checks. -/
theorem validate_eq_ok :
    req.validate = .ok () ↔ req.mnemonic ≠ [] ∧ req.count ≠ 0 ∧ ¬ req.count > maxDerivationLimit
      ∧ ¬ (req.network ≠ .mainnet ∧ req.network ≠ .testnet) := by
  unfold DeriveAddressesRequest.validate
  by_cases hmnemonic : req.mnemonic = []
  · rw [if_pos hmnemonic]
    exact iff_of_false nofun fun h => h.1 hmnemonic
  rw [if_neg hmnemonic]
  by_cases hzero : req.count = 0
  · rw [if_pos hzero]
    exact iff_of_false nofun fun h => h.2.1 hzero
  rw [if_neg hzero]
  by_cases hmany : req.count > maxDerivationLimit
  · rw [if_pos hmany]
    exact iff_of_false nofun fun h => h.2.2.1 hmany
  rw [if_neg hmany]
  split
  · next hnetwork =>
    exact iff_of_false nofun fun h => h.2.2.2 hnetwork
  · next hnetwork =>
    exact iff_of_true rfl ⟨hmnemonic, hzero, hmany, hnetwork⟩

/-- An index does not wrap around below 2³². -/
theorem toNat_startIndex_add {i : Nat} (h : req.startIndex.toNat + i < 2 ^ 32) :
    (req.startIndex + UInt32.ofNat i).toNat = req.startIndex.toNat + i := by
  have hsize : i < UInt32.size := lt_of_le_of_lt (Nat.le_add_left _ _) h
  rw [UInt32.toNat_add, UInt32.toNat_ofNat_of_lt' hsize, Nat.mod_eq_of_lt h]

/-- The response that was computed is what the request asks for exactly in range. -/
theorem answers_iff_inRange (cr : Crypto) (wc : WalletCrypto) (hvalid : req.validate = .ok ())
    {w : HDWallet} (hmaster : w.depth = 0) :
    (⟨(List.range req.count.toNat).map (req.item cr wc w), req.network, req.basePath,
        req.count.toNat⟩ : DeriveAddressesResponse).Answers cr req ↔ req.InRange := by
  obtain ⟨-, hpos, -, hnetwork⟩ := validate_eq_ok.mp hvalid
  have hpos' : 0 < req.count.toNat :=
    Nat.pos_of_ne_zero fun hzero => hpos (UInt32.toNat_inj.mp hzero)
  constructor
  · intro h
    have hitem : ∀ i < req.count.toNat, req.item cr wc w i
        ∈ (List.range req.count.toNat).map (req.item cr wc w) :=
      fun i hi => List.mem_map_of_mem (List.mem_range.mpr hi)
    have hmain : req.network = .mainnet := by
      by_contra hne
      exact hnetwork ⟨hne, (spendable_item_iff w 0).mp (h.spendable _ (hitem 0 hpos'))⟩
    have hpath := fun i hi => (path_item_iff hmaster i).mp (h.path _ (hitem i hi))
    obtain ⟨hcoin, haccount, hchange, -⟩ := hpath 0 hpos'
    refine ⟨hmain, hcoin, haccount, hchange, ?_⟩
    -- the last index is below 2³¹ and did not wrap around
    have hlast := (hpath (req.count.toNat - 1) (by omega)).2.2.2
    have hindex := h.index (req.count.toNat - 1) (req.item cr wc w (req.count.toNat - 1)) (by
      rw [List.getElem?_map, List.getElem?_range (by omega)]
      rfl)
    have hsame : (req.item cr wc w (req.count.toNat - 1)).index
        = req.startIndex + UInt32.ofNat (req.count.toNat - 1) := rfl
    rw [hsame] at hindex
    omega
  · rintro ⟨hmain, hcoin, haccount, hchange, hlast⟩
    have hindex : ∀ i < req.count.toNat,
        (req.startIndex + UInt32.ofNat i).toNat = req.startIndex.toNat + i :=
      fun i hi => toNat_startIndex_add (by omega)
    refine { length := by rw [List.length_map, List.length_range], index := ?_, path := ?_,
             spendable := ?_ }
    · intro i item hi
      obtain ⟨hlt, hval⟩ := List.getElem?_eq_some_iff.mp hi
      rw [List.length_map, List.length_range] at hlt
      rw [List.getElem_map, List.getElem_range] at hval
      rw [← hval]
      exact hindex i hlt
    · intro item hitem
      obtain ⟨i, hi, rfl⟩ := List.mem_map.mp hitem
      rw [List.mem_range] at hi
      exact (path_item_iff hmaster i).mpr ⟨hcoin, haccount, hchange, by rw [hindex i hi]; omega⟩
    · intro item hitem
      obtain ⟨i, -, rfl⟩ := List.mem_map.mp hitem
      refine (spendable_item_iff w i).mpr ?_
      rw [hmain]
      exact nofun

/-- **When the derived addresses are the requested ones.** For a request that `Validate` accepts
with a valid mnemonic, `DeriveAddresses` returns an error or what is asked for exactly if the
network is the main one, the numbers of the path are below 2³¹, and so are the indices. -/
theorem deriveAddresses_answers_iff (hvalid : req.validate = .ok ())
    (hmnemonic : wc.validateMnemonic req.mnemonic = true) :
    ((∃ e, deriveAddresses cr wc req = .error (.error e))
        ∨ ∃ resp, deriveAddresses cr wc req = .ok resp ∧ resp.Answers cr req)
      ↔ req.InRange := by
  obtain ⟨w, hmaster, hresult⟩ := exists_deriveAddresses cr hvalid hmnemonic
  rw [← answers_iff_inRange cr wc hvalid hmaster, hresult]
  constructor
  · rintro (⟨e, he⟩ | ⟨resp, hresp, hanswers⟩)
    · cases he
    · rw [Except.ok.inj hresp]
      exact hanswers
  · intro hanswers
    exact Or.inr ⟨_, rfl, hanswers⟩

/-- The constant choice: every phrase is valid, and every seed, digest and key is zero. -/
def WalletCrypto.constant : WalletCrypto where
  validateMnemonic _ := true
  mnemonicToSeed _ _ := List.replicate 64 0
  mnemonicToSeed_length _ _ := List.length_replicate
  hmacSha512 _ _ := List.replicate 64 0
  hmacSha512_length _ _ := List.length_replicate
  newKeyFromSeed _ := List.replicate 64 0
  newKeyFromSeed_length _ := List.length_replicate

/-- A request on the main network with a coin type and a number of addresses. -/
def walletRequest (coinType count : UInt32) : DeriveAddressesRequest :=
  ⟨ascii "abandon", [], .mainnet, coinType, 0, 0, 0, count⟩

/-- `deriveAddresses_answers_iff` at the default path. -/
theorem deriveAddresses_answers_default :
    (∃ e, deriveAddresses .constant .constant (walletRequest 0 5) = .error (.error e))
      ∨ ∃ resp, deriveAddresses .constant .constant (walletRequest 0 5) = .ok resp
        ∧ resp.Answers .constant (walletRequest 0 5) := by
  have hvalid : (walletRequest 0 5).validate = .ok () := by decide
  exact (deriveAddresses_answers_iff hvalid rfl).mpr (by decide)

/-- **A coin type of 2³¹ is derived as another path**: the sum with 2³¹ is 0, and the item has the
path `m/44'/0/0'/0/0` where `m/44'/2147483648'/0'/0/0` was asked for. -/
theorem deriveAddresses_coinType_wraps : (walletRequest 0x80000000 1).validate = .ok ()
      ∧ ∃ resp, deriveAddresses .constant .constant (walletRequest 0x80000000 1) = .ok resp
        ∧ resp.path = ascii "m/44'/2147483648'/0'/0"
        ∧ resp.addresses.map (·.path) = [ascii "m/44'/0/0'/0/0"]
        ∧ ¬ resp.Answers .constant (walletRequest 0x80000000 1) := by
  refine ⟨by decide, Prog.exists_and_of (fun resp => resp.path = ascii "m/44'/2147483648'/0'/0"
    ∧ resp.addresses.map (·.path) = [ascii "m/44'/0/0'/0/0"]) (by decide +kernel)
      fun resp _ h => ?_⟩
  obtain ⟨hbase, hpaths⟩ := h
  refine ⟨hbase, hpaths, fun hanswers => ?_⟩
  obtain ⟨item, hitem, hpath⟩ := List.mem_map.mp
    (show ascii "m/44'/0/0'/0/0" ∈ resp.addresses.map (·.path) by
      rw [hpaths]
      exact List.mem_singleton.mpr rfl)
  have hasked := congrArg (List.take 7) (hanswers.path item hitem)
  rw [hpath, hbase, List.append_assoc, List.take_append_of_le_length (by decide)] at hasked
  exact absurd hasked (by decide)

end NogoChain
