import NogoChain.Lib.GoBytes

/-!
# The encrypted connection

`MakeSecretConnection` exchanges ephemeral Curve25519 keys, derives two keys from the shared
secret, and lets both sides sign a hash of the ephemeral keys. The side that calls itself the
initiator sends with the first key, the other side with the second; which side one is, is a
local flag that is neither sent nor signed. `Write` cuts data into frames of at most 1024
bytes and seals each with the next value of a counter as nonce.

Sessions run over a network that delivers what it likes to whom it likes. The handshake is a
function from the bytes that have been delivered to the bytes that are sent in return; calls
of `Write` and `Close` follow. The primitives are the fields of `SecretCrypto`.
-/

namespace NogoChain

/-- The primitives of the handshake, uninterpreted. -/
structure SecretCrypto where
  /-- `sha256.Sum256` -/
  sha256 : Bytes → Bytes
  /-- `curve25519.X25519(priv, Basepoint)` -/
  ephemeralPub : Bytes → Bytes
  ephemeralPub_length : ∀ priv, (ephemeralPub priv).length = 32
  /-- `curve25519.X25519(priv, pub)`: an error for a point of low order -/
  x25519 : Bytes → Bytes → Except GoError Bytes
  x25519_length : ∀ {priv pub secret}, x25519 priv pub = .ok secret → secret.length = 32
  /-- two parties share the secret of their keys -/
  x25519_comm : ∀ a b, x25519 a (ephemeralPub b) = x25519 b (ephemeralPub a)
  /-- the public key of an Ed25519 key -/
  publicKey : Bytes → Bytes
  /-- `ed25519.Sign` -/
  sign : Bytes → Bytes → Bytes
  /-- `ed25519.Verify` -/
  verify : Bytes → Bytes → Bytes → Bool

namespace SecretCrypto

variable (cr : SecretCrypto)

/-! ## Keys -/

/-- The two ephemeral keys in lexicographic order. -/
def sortedKeys (localEphPub remoteEphPub : Bytes) : Bytes :=
  if localEphPub < remoteEphPub then localEphPub ++ remoteEphPub else remoteEphPub ++ localEphPub

/-- `keyMaterialA` of `deriveKeys`. -/
def keyMaterial (sharedSecret localEphPub remoteEphPub : Bytes) : Bytes :=
  sortedKeys localEphPub remoteEphPub ++ sharedSecret

/-- `deriveKeys`: the key for sending and the key for receiving. -/
def deriveKeys (sharedSecret localEphPub remoteEphPub : Bytes) (isInitiator : Bool) :
    Bytes × Bytes :=
  let keyMaterialA := keyMaterial sharedSecret localEphPub remoteEphPub
  let keyMaterialB := 1 :: keyMaterialA
  let hashA := cr.sha256 keyMaterialA
  let hashB := cr.sha256 keyMaterialB
  if isInitiator then (hashA, hashB) else (hashB, hashA)

/-! ## The handshake -/

/-- What a session brings to the handshake. -/
structure Party where
  isInitiator : Bool
  ephemeralPriv : Bytes
  locPrivKey : Bytes

/-- Where a handshake stands. -/
inductive HandshakeStatus where
  /-- it waits for bytes -/
  | waiting
  | failed (e : GoError)
  /-- it is complete, with this shared secret, ephemeral key and public key of the other side -/
  | completed (sharedSecret remoteEphemeralPub remotePub : Bytes)
deriving DecidableEq

/-- The signature, the length of the public key, and the public key. -/
def identity (party : Party) (challengeHash : Bytes) : Bytes :=
  cr.sign party.locPrivKey challengeHash
    ++ bigEndian 2 (cr.publicKey party.locPrivKey).length ++ cr.publicKey party.locPrivKey

/-- Reading the same from the other side, and verifying the signature. -/
def readIdentity (challengeHash : Bytes) (input : Bytes) : ReadResult Bytes :=
  match readFull 64 input with
  | none => .more
  | some (remoteSignature, rest) =>
    match readFull 2 rest with
    | none => .more
    | some (remotePubKeySize, rest) =>
      if ofBigEndian remotePubKeySize ≠ 32 then
        .error (.errorf "invalid remote public key size: %d" [.num (ofBigEndian remotePubKeySize)])
      else
        match readFull 32 rest with
        | none => .more
        | some (remotePubKey, rest) =>
          if !cr.verify remotePubKey challengeHash remoteSignature then
            .error (.errorf "remote signature verification failed" [])
          else .ok remotePubKey rest

/-- `MakeSecretConnection`: what it has written and where it stands after it has been given
these bytes. The initiator writes before it reads, the other side reads before it writes. -/
def makeSecretConnection (party : Party) (input : Bytes) : Bytes × HandshakeStatus :=
  let ephemeralPub := cr.ephemeralPub party.ephemeralPriv
  match readFull 32 input with
  | none => (if party.isInitiator then ephemeralPub else [], .waiting)
  | some (remoteEphemeralPub, rest) =>
    match cr.x25519 party.ephemeralPriv remoteEphemeralPub with
    | .error e => (ephemeralPub, .failed (.wrap "compute x25519 shared secret: %w" [] e))
    | .ok sharedSecret =>
      let challengeHash := cr.sha256 (sortedKeys ephemeralPub remoteEphemeralPub)
      let identity := cr.identity party challengeHash
      match cr.readIdentity challengeHash rest with
      | .more => (if party.isInitiator then ephemeralPub ++ identity else ephemeralPub, .waiting)
      | .error e =>
        (if party.isInitiator then ephemeralPub ++ identity else ephemeralPub, .failed e)
      | .ok remotePub _ =>
        (ephemeralPub ++ identity, .completed sharedSecret remoteEphemeralPub remotePub)

/-- The keys of a session that has been given these bytes, if its handshake is complete. -/
def connectionKeys (party : Party) (input : Bytes) : Option (Bytes × Bytes) :=
  match (cr.makeSecretConnection party input).2 with
  | .completed sharedSecret remoteEphemeralPub _ =>
    some (cr.deriveKeys sharedSecret (cr.ephemeralPub party.ephemeralPriv) remoteEphemeralPub
      party.isInitiator)
  | _ => none

end SecretCrypto

/-! ## Sessions -/

/-- `SecretConnection`, with what is left of the data that a call of `Write` is sealing. -/
structure SecretConnection where
  sendKey : Bytes
  recvKey : Bytes
  sendNonce : UInt64
  closed : Bool
  /-- data that `Write` has not sealed yet -/
  writing : Bytes

/-- A session: the bytes it has been given, and its connection once there is one. -/
structure Session where
  /-- the bytes delivered so far -/
  input : Bytes
  conn : Option SecretConnection

/-- A frame that `Write` has sealed. -/
structure SealedFrame (ι : Type) where
  session : ι
  key : Bytes
  nonce : Bytes
  plaintext : Bytes
deriving DecidableEq

/-- Sessions on a network. -/
structure Network (ι : Type) where
  sessions : ι → Session
  /-- the frames that have been sealed, in order -/
  frames : List (SealedFrame ι)

/-- What can happen. -/
inductive NetEvent (ι : Type) where
  /-- the network gives bytes to a session -/
  | deliver (i : ι) (bytes : Bytes)
  /-- a call of `Write` begins -/
  | write (i : ι) (data : Bytes)
  /-- the next round of its loop -/
  | chunk (i : ι)
  /-- it returns because the network takes no more bytes -/
  | abort (i : ι)
  | close (i : ι)

def secretMaxPlaintext : Nat := 1024

/-- The nonce of a frame: eight bytes of the counter and sixteen of zero. -/
def frameNonce (counter : UInt64) : Bytes := bigEndian 8 counter.toNat ++ List.replicate 16 0

section Net

variable {ι : Type} [DecidableEq ι] (cr : SecretCrypto) (party : ι → SecretCrypto.Party)

/-- The network before the first event. -/
def Network.start : Network ι := ⟨fun _ => ⟨[], none⟩, []⟩

/-- Change one session. -/
def Network.update (n : Network ι) (i : ι) (s : Session) : Network ι :=
  { n with sessions := Function.update n.sessions i s }

/-- What `MakeSecretConnection` and the methods of the connection do at an event; `none` if it
cannot happen. `Write` looks at `closed` before its first frame only, and `Close` does not wait
for it: it clears the keys while frames are being sealed. -/
def NetEvent.exec (n : Network ι) : NetEvent ι → Option (Network ι)
  | .deliver i bytes =>
    let input := (n.sessions i).input ++ bytes
    let conn := match (n.sessions i).conn with
      | some c => some c
      | none => (cr.connectionKeys (party i) input).map fun keys => ⟨keys.1, keys.2, 0, false, []⟩
    some (n.update i ⟨input, conn⟩)
  | .write i data =>
    match (n.sessions i).conn with
    | none => none
    | some c =>
      if c.writing ≠ [] then none
      else if c.closed then some n
      else some (n.update i { n.sessions i with conn := some { c with writing := data } })
  | .chunk i =>
    match (n.sessions i).conn with
    | none => none
    | some c =>
      if c.writing = [] then none
      else
        let c' := { c with
          sendNonce := c.sendNonce + 2, writing := c.writing.drop secretMaxPlaintext }
        let frame : SealedFrame ι :=
          ⟨i, c.sendKey, frameNonce c.sendNonce, c.writing.take secretMaxPlaintext⟩
        some { n.update i { n.sessions i with conn := some c' } with frames := n.frames ++ [frame] }
  | .abort i =>
    match (n.sessions i).conn with
    | none => none
    | some c => some (n.update i { n.sessions i with conn := some { c with writing := [] } })
  | .close i =>
    match (n.sessions i).conn with
    | none => none
    | some c =>
      if c.closed then some n
      else
        let zero := List.replicate 32 0
        some (n.update i { n.sessions i with
          conn := some { c with sendKey := zero, recvKey := zero, closed := true } })

/-- The network after some events. -/
def runNetwork (n : Network ι) : List (NetEvent ι) → Option (Network ι)
  | [] => some n
  | event :: events => (event.exec cr party n).bind fun n' => runNetwork n' events

end Net

end NogoChain
