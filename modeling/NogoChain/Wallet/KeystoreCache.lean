import NogoChain.Lib.GoBytes
import NogoChain.Lib.GoMap

/-!
# The cache of decrypted keystores

`WalletFromKeystore` keeps a wallet that it has decrypted for five minutes, under the path of its
file, and answers every call for that path with it: neither the password of the call nor the file
that is there by then is looked at. The answer is right if the entry was made from the same file,
with the same password.
-/

namespace NogoChain

/-- An entry. The file and the password it was made from are history: nothing reads them. -/
structure WalletCacheEntry (Wallet : Type) where
  wallet : Wallet
  expiresAt : Int
  file : Option Bytes
  password : Bytes

/-- The files, `keystoreCache` and the clock, in nanoseconds. -/
structure KeystoreWorld (Wallet : Type) where
  files : GoMap Bytes Bytes
  wallets : GoMap Bytes (WalletCacheEntry Wallet)
  now : Int

inductive KeystoreEvent where
  | writeFile (path contents : Bytes)
  | removeFile (path : Bytes)
  | wait (elapsed : Nat)
  | clearKeystoreCache
  /-- a call, which may take some time until it makes an entry -/
  | walletFromKeystore (path password : Bytes) (elapsed : Nat)

-- `decrypt` is `ReadKeystore` and `decryptKeystore`, of the file at the path if there is one. The
-- cache does not depend on how they work, and so nothing is assumed of it.
variable {Wallet : Type} (decrypt : Option Bytes → Bytes → Except GoError Wallet)

/-- The entry that answers a call. -/
def KeystoreWorld.live? (w : KeystoreWorld Wallet) (path : Bytes) :
    Option (WalletCacheEntry Wallet) :=
  (w.wallets.lookup path).filter (w.now < ·.expiresAt)

def walletFromKeystore (path password : Bytes) (elapsed : Nat) (w : KeystoreWorld Wallet) :
    Except GoError Wallet × KeystoreWorld Wallet :=
  match w.live? path with
  | some entry => (.ok entry.wallet, w)
  | none =>
    let file := w.files.lookup path
    let now := w.now + elapsed
    match decrypt file password with
    | .error e => (.error e, { w with now })
    | .ok wallet =>
      let entry := ⟨wallet, now + 5 * 60 * 1000000000, file, password⟩
      (.ok wallet, { w with now, wallets := w.wallets.insert path entry })

def KeystoreEvent.exec (w : KeystoreWorld Wallet) : KeystoreEvent → KeystoreWorld Wallet
  | writeFile path contents => { w with files := w.files.insert path contents }
  | removeFile path => { w with files := w.files.erase path }
  | wait elapsed => { w with now := w.now + elapsed }
  | clearKeystoreCache => { w with wallets := ∅ }
  | walletFromKeystore path password elapsed =>
    (NogoChain.walletFromKeystore decrypt path password elapsed w).2

/-- Every entry holds what its file and its password give. -/
def KeystoreWorld.Genuine (w : KeystoreWorld Wallet) : Prop :=
  ∀ path entry, w.wallets.lookup path = some entry →
    decrypt entry.file entry.password = .ok entry.wallet

variable {decrypt}

theorem KeystoreWorld.Genuine.exec {w : KeystoreWorld Wallet} (h : w.Genuine decrypt)
    (event : KeystoreEvent) : (event.exec decrypt w).Genuine decrypt := by
  cases event with
  | writeFile path contents | removeFile path | wait elapsed => exact h
  | clearKeystoreCache => intro path entry hentry; cases hentry
  | walletFromKeystore path password elapsed =>
    show (NogoChain.walletFromKeystore decrypt path password elapsed w).2.Genuine decrypt
    unfold NogoChain.walletFromKeystore
    split
    · exact h
    · dsimp only
      split
      · exact h
      · next wallet hwallet =>
        intro path' entry hentry
        rw [GoMap.lookup_insert] at hentry
        split at hentry
        · cases hentry
          exact hwallet
        · exact h path' entry hentry

/-- **An answer is right if its entry is of the same file and password.** From an empty cache, and
whatever happens before, a call that no entry answers, or one made from the present file with this
password, returns a wallet only if that file gives it under that password. -/
theorem walletFromKeystore_right (files : GoMap Bytes Bytes) (now : Int)
    (events : List KeystoreEvent) (w : KeystoreWorld Wallet)
    (hw : w = events.foldl (KeystoreEvent.exec decrypt) ⟨files, ∅, now⟩)
    (path password : Bytes) (elapsed : Nat)
    (hsame : ∀ entry, w.live? path = some entry →
      entry.file = w.files.lookup path ∧ entry.password = password)
    (wallet : Wallet) (h : (walletFromKeystore decrypt path password elapsed w).1 = .ok wallet) :
    decrypt (w.files.lookup path) password = .ok wallet := by
  have hgenuine : w.Genuine decrypt := by
    rw [hw]
    refine List.foldlRecOn events _ (fun path entry hentry => ?_) fun w h event _ => h.exec event
    cases hentry
  unfold walletFromKeystore at h
  split at h
  · next entry hentry =>
    obtain ⟨hfile, hpassword⟩ := hsame entry hentry
    rw [← hfile, ← hpassword, hgenuine path entry (Option.filter_eq_some_iff.mp hentry).1]
    exact h
  · dsimp only at h
    split at h
    · cases h
    · next hwallet => rw [hwallet]; exact h

/-- The password is the file. -/
def plainKeystore (file : Option Bytes) (password : Bytes) : Except GoError Bytes :=
  if file = some password then .ok password else .error (.new "wrong password or corrupted file")

/-- The file is opened and opened again. -/
theorem walletFromKeystore_right_plain :
    plainKeystore (some [1]) [1] = .ok [1] :=
  @walletFromKeystore_right _ plainKeystore ∅ 0
    [.writeFile [0] [1], .walletFromKeystore [0] [1] 0] _ rfl [0] [1] 0
    (fun _ hentry => Option.some.inj hentry ▸ ⟨rfl, rfl⟩) [1] rfl

/-- **Any password opens it** within five minutes of a call with the right one. -/
theorem walletFromKeystore_any_password :
    let w := [KeystoreEvent.writeFile [0] [1], .walletFromKeystore [0] [1] 0].foldl
      (KeystoreEvent.exec plainKeystore) ⟨∅, ∅, 0⟩
    (walletFromKeystore plainKeystore [0] [2] 0 w).1.toOption = some [1]
      ∧ (plainKeystore (w.files.lookup [0]) [2]).toOption = none := by
  decide

end NogoChain
