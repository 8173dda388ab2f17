import NogoChain.Network.SecretConnection

/-!
# No keystream is used twice

A keystream is given by a key and a nonce. Within a session the nonces are the even numbers in
order, so they differ as long as the counter does not come round. Two sessions have a key in
common only if they have hashed the same key material, hence have exchanged their ephemeral
keys with each other; and then they send with different keys exactly if one of them is the
initiator and the other is not – which the handshake does not check.
-/

namespace NogoChain

variable {input pub secret remote : Bytes} {keys : Bytes × Bytes}

namespace SecretCrypto

variable {cr : SecretCrypto} {party : Party}

/-! ## Key material -/

theorem sortedKeys_comm (a b : Bytes) : sortedKeys a b = sortedKeys b a := by
  unfold sortedKeys
  split
  · next hab =>
    rw [if_neg (Std.not_lt.mpr (Std.le_of_lt hab))]
  · next hab =>
    by_cases hba : b < a
    · rw [if_pos hba]
    · rw [if_neg hba, Std.le_antisymm (Std.not_lt.mp hba) (Std.not_lt.mp hab)]

/-- The sorted keys are the keys of the pair. -/
theorem pair_of_sortedKeys_eq {a b a' b' : Bytes} (ha : a.length = 32) (hb : b.length = 32)
    (ha' : a'.length = 32) (hb' : b'.length = 32) (h : sortedKeys a b = sortedKeys a' b') :
    (a = a' ∧ b = b') ∨ (a = b' ∧ b = a') := by
  unfold sortedKeys at h
  split at h <;> split at h
  · exact .inl (List.append_inj h (ha.trans ha'.symm))
  · exact .inr (List.append_inj h (ha.trans hb'.symm))
  · obtain ⟨h1, h2⟩ := List.append_inj h (hb.trans ha'.symm)
    exact .inr ⟨h2, h1⟩
  · obtain ⟨h1, h2⟩ := List.append_inj h (hb.trans hb'.symm)
    exact .inl ⟨h2, h1⟩

theorem sortedKeys_length {a b : Bytes} (ha : a.length = 32) (hb : b.length = 32) :
    (sortedKeys a b).length = 64 := by
  unfold sortedKeys
  split <;> rw [List.length_append, ha, hb]

theorem keyMaterial_length {secret a b : Bytes} (hs : secret.length = 32) (ha : a.length = 32)
    (hb : b.length = 32) : (keyMaterial secret a b).length = 96 := by
  unfold keyMaterial
  rw [List.length_append, sortedKeys_length ha hb, hs]

/-- The two sides of a pair derive the same two keys, each in the order of its role. -/
theorem deriveKeys_swap (secret a b : Bytes) (isInitiator : Bool) :
    cr.deriveKeys secret a b isInitiator = (cr.deriveKeys secret b a !isInitiator).swap := by
  unfold deriveKeys keyMaterial
  rw [sortedKeys_comm a b]
  cases isInitiator <;> rfl

/-! ## What a handshake has read -/

theorem readIdentity_append {challengeHash rest : Bytes}
    (h : cr.readIdentity challengeHash input = .ok pub rest) (later : Bytes) :
    cr.readIdentity challengeHash (input ++ later) = .ok pub (rest ++ later) := by
  unfold readIdentity at h ⊢
  split at h
  · cases h
  · next h64 =>
    rw [readFull_append h64]
    dsimp only
    split at h
    · cases h
    · next h2 =>
      rw [readFull_append h2]
      dsimp only
      split at h
      · cases h
      · next hsize =>
        rw [if_neg hsize]
        split at h
        · cases h
        · next h32 =>
          rw [readFull_append h32]
          dsimp only
          split at h
          · cases h
          · next hverify =>
            obtain ⟨rfl, rfl⟩ := ReadResult.ok.inj h
            rw [if_neg hverify]

/-- What a complete handshake has read. -/
theorem of_completed (h : (cr.makeSecretConnection party input).2 = .completed secret remote pub) :
    ∃ rest rest', readFull 32 input = some (remote, rest)
      ∧ cr.x25519 party.ephemeralPriv remote = .ok secret
      ∧ cr.readIdentity (cr.sha256 (sortedKeys (cr.ephemeralPub party.ephemeralPriv) remote)) rest
        = .ok pub rest' := by
  unfold makeSecretConnection at h
  split at h
  · cases h
  · next h32 =>
    split at h
    · cases h
    · next hsecret =>
      dsimp only at h
      generalize hid : cr.readIdentity _ _ = r at h
      cases r with
      | more | error e => cases h
      | ok pub' rest' =>
        obtain ⟨rfl, rfl, rfl⟩ := HandshakeStatus.completed.inj h
        exact ⟨_, _, h32, hsecret, hid⟩

/-- Bytes that arrive later do not change a complete handshake. -/
theorem completed_append
    (h : (cr.makeSecretConnection party input).2 = .completed secret remote pub) (later : Bytes) :
    (cr.makeSecretConnection party (input ++ later)).2 = .completed secret remote pub := by
  obtain ⟨rest, rest', h32, hsecret, hid⟩ := of_completed h
  unfold makeSecretConnection
  rw [readFull_append h32]
  dsimp only
  rw [hsecret]
  rw [readIdentity_append hid]

theorem connectionKeys_eq_some (h : cr.connectionKeys party input = some keys) :
    ∃ secret remote pub, (cr.makeSecretConnection party input).2 = .completed secret remote pub
        ∧ keys = cr.deriveKeys secret (cr.ephemeralPub party.ephemeralPriv) remote
          party.isInitiator := by
  unfold connectionKeys at h
  split at h
  · next hstatus => exact ⟨_, _, _, hstatus, (Option.some.inj h).symm⟩
  · cases h

theorem connectionKeys_append (h : cr.connectionKeys party input = some keys) (later : Bytes) :
    cr.connectionKeys party (input ++ later) = some keys := by
  obtain ⟨secret, remote, pub, hstatus, rfl⟩ := connectionKeys_eq_some h
  unfold connectionKeys
  rw [completed_append hstatus]

end SecretCrypto

open SecretCrypto

variable {ι : Type} [DecidableEq ι] {cr : SecretCrypto} {party : ι → Party}

/-! ## One session -/

/-- The key and the nonce of a frame. -/
def SealedFrame.keystream (f : SealedFrame ι) : Bytes × Bytes := (f.key, f.nonce)

/-- The frames of a session, by key and nonce. -/
def Network.keystreams (n : Network ι) (i : ι) : List (Bytes × Bytes) :=
  (n.frames.filter (·.session = i)).map SealedFrame.keystream

/-- The first `m` keystreams of a key. -/
def countedKeystreams (key : Bytes) (m : Nat) : List (Bytes × Bytes) :=
  (List.range m).map fun k => (key, frameNonce (UInt64.ofNat (2 * k)))

/-- **What holds of a session** and the keystreams it has used: they are the first ones of its
key for sending, which it has until it is closed. -/
structure Session.Sound (cr : SecretCrypto) (party : Party) (s : Session)
    (used : List (Bytes × Bytes)) : Prop where
  /-- without a connection, none has been used -/
  idle : s.conn = none → used = []
  counted : ∀ c, s.conn = some c → ∃ keys, cr.connectionKeys party s.input = some keys
    ∧ (c.closed = false → c.sendKey = keys.1) ∧ (c.closed = true → c.writing = [])
    ∧ c.sendNonce = UInt64.ofNat (2 * used.length)
    ∧ used = countedKeystreams keys.1 used.length
  /-- the counter has not come round -/
  few : used.length ≤ 2 ^ 63

theorem countedKeystreams_succ (key : Bytes) (m : Nat) :
    countedKeystreams key (m + 1)
      = countedKeystreams key m ++ [(key, frameNonce (UInt64.ofNat (2 * m)))] := by
  unfold countedKeystreams
  rw [List.range_succ, List.map_append]
  rfl

theorem frameNonce_inj {a b : UInt64} (h : frameNonce a = frameNonce b) : a = b := by
  have h64 : ∀ x : UInt64, x.toNat < 256 ^ 8 := fun x => x.toNat_lt
  have hbytes := List.append_cancel_right h
  rw [← UInt64.toNat_inj, ← ofBigEndian_bigEndian 8 (h64 a), hbytes,
    ofBigEndian_bigEndian 8 (h64 b)]

/-- As many keystreams as the counter has values are all different. -/
theorem countedKeystreams_nodup (key : Bytes) {m : Nat} (h : m ≤ 2 ^ 63) :
    (countedKeystreams key m).Nodup := by
  refine List.Nodup.map_on (fun a ha b hb heq => ?_) List.nodup_range
  have ha' := List.mem_range.mp ha
  have hb' := List.mem_range.mp hb
  have hcounter := congrArg UInt64.toNat (frameNonce_inj (Prod.mk.inj heq).2)
  rw [UInt64.toNat_ofNat', UInt64.toNat_ofNat', Nat.mod_eq_of_lt (by omega),
    Nat.mod_eq_of_lt (by omega)] at hcounter
  omega

/-! ## Steps -/

/-- **The condition on an event**, in the state it finds: fewer than 2⁶³ frames have been sealed
before a session seals one, and a connection is not closed while `Write` is sealing. -/
def NetEvent.Careful (n : Network ι) : NetEvent ι → Prop
  | .chunk i => (n.keystreams i).length < 2 ^ 63
  | .close i => ∀ c ∈ (n.sessions i).conn, c.writing = []
  | _ => True

/-- Every event of a run meets the condition. -/
def AllCareful (cr : SecretCrypto) (party : ι → Party) : Network ι → List (NetEvent ι) → Prop
  | _, [] => True
  | n, event :: events => event.Careful n
      ∧ ∀ n' ∈ event.exec cr party n, AllCareful cr party n' events

instance (n : Network ι) (event : NetEvent ι) : Decidable (event.Careful n) :=
  match event with
  | .chunk i => inferInstanceAs (Decidable ((n.keystreams i).length < 2 ^ 63))
  | .close i => inferInstanceAs (Decidable (∀ c ∈ (n.sessions i).conn, c.writing = []))
  | .deliver _ _ => .isTrue trivial
  | .write _ _ => .isTrue trivial
  | .abort _ => .isTrue trivial

instance AllCareful.decidable : (n : Network ι) → (events : List (NetEvent ι)) →
    Decidable (AllCareful cr party n events)
  | _, [] => .isTrue trivial
  | n, event :: events =>
    have : ∀ n', Decidable (AllCareful cr party n' events) := fun n' => decidable n' events
    inferInstanceAs (Decidable (event.Careful n ∧ ∀ n' ∈ event.exec cr party n, _))

/-- Every session is sound. -/
def Network.Sound (cr : SecretCrypto) (party : ι → Party) (n : Network ι) : Prop :=
  ∀ i, (n.sessions i).Sound cr (party i) (n.keystreams i)

variable {n : Network ι}

/-- Changing one session needs a look at that session only. -/
theorem Network.Sound.update (h : n.Sound cr party) {i : ι} {s : Session}
    (hs : s.Sound cr (party i) (n.keystreams i)) : (n.update i s).Sound cr party := by
  intro j
  by_cases hj : j = i
  · subst hj
    change (Function.update n.sessions j s j).Sound _ _ _
    rwa [Function.update_self]
  · change (Function.update n.sessions i s j).Sound _ _ _
    rw [Function.update_of_ne hj]
    exact h j

/-- Changing a connection that keeps its counter, and its key unless it is closed. -/
theorem Session.Sound.withConn {s : Session} {p : Party} {used : List (Bytes × Bytes)}
    (h : s.Sound cr p used) {c c' : SecretConnection} (hconn : s.conn = some c)
    (hkey : c'.closed = false → c.closed = false ∧ c'.sendKey = c.sendKey)
    (hwriting : c'.closed = true → c'.writing = []) (hnonce : c'.sendNonce = c.sendNonce) :
    Session.Sound cr p { s with conn := some c' } used := by
  refine ⟨by simp, fun c₁ hc₁ => ?_, h.few⟩
  cases hc₁
  obtain ⟨keys, hkeys, hsend, -, hcounter, hused⟩ := h.counted c hconn
  exact ⟨keys, hkeys, fun ho => (hkey ho).2.trans (hsend (hkey ho).1), hwriting,
    hnonce.trans hcounter, hused⟩

theorem Network.keystreams_append (n : Network ι) (f : SealedFrame ι) (s : Session) (j : ι) :
    Network.keystreams { n.update f.session s with frames := n.frames ++ [f] } j
      = n.keystreams j ++ if f.session = j then [f.keystream] else [] := by
  unfold Network.keystreams
  by_cases hj : f.session = j <;> simp [hj]

/-- **One event.** -/
theorem Network.Sound.exec {n n' : Network ι} (h : n.Sound cr party) {event : NetEvent ι}
    (hcareful : event.Careful n) (hexec : event.exec cr party n = some n') : n'.Sound cr party := by
  cases event with
  | deliver i bytes =>
    cases hexec
    refine h.update ?_
    cases hconn : (n.sessions i).conn with
    | some c =>
      refine ⟨by simp, fun c' hc' => ?_, (h i).few⟩
      obtain rfl : c = c' := Option.some.inj hc'
      obtain ⟨keys, hkeys, hrest⟩ := (h i).counted c hconn
      exact ⟨keys, connectionKeys_append hkeys bytes, hrest⟩
    | none =>
      have hnone := (h i).idle hconn
      refine ⟨fun _ => hnone, fun c hc => ?_, (h i).few⟩
      obtain ⟨keys, hkeys, rfl⟩ := Option.map_eq_some_iff.mp hc
      rw [hnone]
      exact ⟨keys, hkeys, fun _ => rfl, by simp, rfl, rfl⟩
  | write i data =>
    simp only [NetEvent.exec] at hexec
    split at hexec
    · cases hexec
    · next c hconn =>
      split at hexec
      · cases hexec
      · split at hexec
        · exact Option.some.inj hexec ▸ h
        · next hopen =>
          cases hexec
          exact h.update ((h i).withConn hconn (⟨·, rfl⟩) (absurd · hopen) rfl)
  | chunk i =>
    simp only [NetEvent.exec] at hexec
    split at hexec
    · cases hexec
    · next c hconn =>
      split at hexec
      · cases hexec
      · next hwriting =>
        cases hexec
        obtain ⟨keys, hkeys, hsend, hclosed, hnonce, hused⟩ := (h i).counted c hconn
        have hopen : c.closed = false := by
          rw [← Bool.not_eq_true]
          exact fun hc => hwriting (hclosed hc)
        intro j
        have hstreams := n.keystreams_append
          ⟨i, c.sendKey, frameNonce c.sendNonce, c.writing.take secretMaxPlaintext⟩
          { n.sessions i with conn := some { c with
            sendNonce := c.sendNonce + 2, writing := c.writing.drop secretMaxPlaintext } } j
        rw [hstreams]
        by_cases hj : i = j
        · subst hj
          rw [if_pos rfl]
          change (Function.update n.sessions i _ i).Sound _ _ _
          rw [Function.update_self]
          have hframe : SealedFrame.keystream ⟨i, c.sendKey, frameNonce c.sendNonce,
              c.writing.take secretMaxPlaintext⟩
              = (keys.1, frameNonce (UInt64.ofNat (2 * (n.keystreams i).length))) := by
            unfold SealedFrame.keystream
            rw [hsend hopen, hnonce]
          rw [hframe]
          refine ⟨by simp, fun c' hc' => ?_, ?_⟩
          · cases hc'
            refine ⟨keys, hkeys, fun _ => hsend hopen, fun hc => ?_, ?_, ?_⟩
            · exact absurd hc (Bool.not_eq_true _ ▸ hopen)
            · rw [List.length_append, List.length_singleton, hnonce, Nat.mul_add]
              exact (UInt64.ofNat_add _ _).symm
            · rw [List.length_append, List.length_singleton, countedKeystreams_succ, ← hused]
          · rw [List.length_append, List.length_singleton]
            exact hcareful
        · rw [if_neg hj, List.append_nil]
          change (Function.update n.sessions i _ j).Sound _ _ _
          rw [Function.update_of_ne (Ne.symm hj)]
          exact h j
  | abort i =>
    simp only [NetEvent.exec] at hexec
    split at hexec
    · cases hexec
    · next c hconn =>
      cases hexec
      exact h.update ((h i).withConn hconn (⟨·, rfl⟩) (fun _ => rfl) rfl)
  | close i =>
    simp only [NetEvent.exec] at hexec
    split at hexec
    · cases hexec
    · next c hconn =>
      split at hexec
      · exact Option.some.inj hexec ▸ h
      · cases hexec
        exact h.update ((h i).withConn hconn (by simp) (fun _ => hcareful c hconn) rfl)

theorem Network.sound_start : (Network.start : Network ι).Sound cr party :=
  fun _ => ⟨fun _ => rfl, nofun, Nat.zero_le _⟩

theorem Network.Sound.run {events : List (NetEvent ι)} {n n' : Network ι} (h : n.Sound cr party)
    (hcareful : AllCareful cr party n events) (hrun : runNetwork cr party n events = some n') :
    n'.Sound cr party := by
  induction events generalizing n with
  | nil => exact Option.some.inj hrun ▸ h
  | cons event events ih =>
    obtain ⟨n₁, hexec, hrest⟩ := Option.bind_eq_some_iff.mp hrun
    exact ih (h.exec hcareful.1 hexec) (hcareful.2 n₁ hexec) hrest

/-! ## Two sessions -/

/-- The ephemeral key that a session has been given. -/
def Network.remoteKey (n : Network ι) (i : ι) : Option Bytes :=
  (readFull 32 (n.sessions i).input).map (·.1)

/-- **Two sessions have the same pair of ephemeral keys.** -/
def SamePair (cr : SecretCrypto) (party : ι → Party) (n : Network ι) (i j : ι) : Prop :=
  ∃ r ∈ n.remoteKey i, ∃ r' ∈ n.remoteKey j,
    (cr.ephemeralPub (party i).ephemeralPriv = cr.ephemeralPub (party j).ephemeralPriv ∧ r = r')
      ∨ (cr.ephemeralPub (party i).ephemeralPriv = r' ∧ r = cr.ephemeralPub (party j).ephemeralPriv)

/-- The texts that the sessions with a complete handshake have hashed to keys. -/
def Hashed (cr : SecretCrypto) (party : ι → Party) (n : Network ι) (x : Bytes) : Prop :=
  ∃ i secret remote pub,
    (cr.makeSecretConnection (party i) (n.sessions i).input).2 = .completed secret remote pub
      ∧ (x = keyMaterial secret (cr.ephemeralPub (party i).ephemeralPriv) remote
        ∨ x = 1 :: keyMaterial secret (cr.ephemeralPub (party i).ephemeralPriv) remote)

/-- **The assumptions on the primitives**: the ephemeral keys of the sessions differ, and the
key materials of a run have no collisions. -/
structure Ideal (cr : SecretCrypto) (party : ι → Party) (n : Network ι) : Prop where
  /-- ephemeral keys are fresh -/
  fresh : ∀ i j, cr.ephemeralPub (party i).ephemeralPriv = cr.ephemeralPub (party j).ephemeralPriv →
    i = j
  noCollision : ∀ x y, Hashed cr party n x → Hashed cr party n y → cr.sha256 x = cr.sha256 y → x = y

omit [DecidableEq ι] in
theorem remoteKey_of_completed {i : ι}
    (h : (cr.makeSecretConnection (party i) (n.sessions i).input).2
      = .completed secret remote pub) : n.remoteKey i = some remote ∧ remote.length = 32 := by
  obtain ⟨rest, -, h32, -, -⟩ := of_completed h
  unfold Network.remoteKey
  rw [h32]
  exact ⟨rfl, (readFull_eq_some.mp h32).1⟩

omit [DecidableEq ι] in
/-- **Sessions with the same pair and different roles have matching keys.** -/
theorem keys_agree (hideal : Ideal cr party n) {i j : ι} (hij : i ≠ j)
    {keys' : Bytes × Bytes}
    (hi : cr.connectionKeys (party i) (n.sessions i).input = some keys)
    (hj : cr.connectionKeys (party j) (n.sessions j).input = some keys')
    (hpair : SamePair cr party n i j) (hrole : (party i).isInitiator ≠ (party j).isInitiator) :
    keys.1 = keys'.2 ∧ keys.2 = keys'.1 := by
  obtain ⟨secret, remote, pub, hstatus, rfl⟩ := connectionKeys_eq_some hi
  obtain ⟨secret', remote', pub', hstatus', rfl⟩ := connectionKeys_eq_some hj
  obtain ⟨r, hr, r', hr', hsame⟩ := hpair
  rw [(remoteKey_of_completed hstatus).1] at hr
  rw [(remoteKey_of_completed hstatus').1] at hr'
  obtain rfl : remote = r := Option.some.inj hr
  obtain rfl : remote' = r' := Option.some.inj hr'
  rcases hsame with ⟨hlocal, -⟩ | ⟨hremote', hremote⟩
  · exact absurd (hideal.fresh i j hlocal) hij
  · subst hremote' hremote
    obtain ⟨-, -, -, hsecret, -⟩ := of_completed hstatus
    obtain ⟨-, -, -, hsecret', -⟩ := of_completed hstatus'
    have heq : secret = secret' := by
      rw [cr.x25519_comm, hsecret'] at hsecret
      exact (Except.ok.inj hsecret).symm
    have hflip : (party j).isInitiator = !(party i).isInitiator := by
      revert hrole
      cases (party i).isInitiator <;> cases (party j).isInitiator <;> decide
    rw [heq, hflip, deriveKeys_swap]
    exact ⟨rfl, rfl⟩

omit [DecidableEq ι] in
/-- **Sessions that send with the same key** have the same pair and the same role. -/
theorem pair_of_sendKey_eq (hideal : Ideal cr party n) {i j : ι}
    {keys' : Bytes × Bytes}
    (hi : cr.connectionKeys (party i) (n.sessions i).input = some keys)
    (hj : cr.connectionKeys (party j) (n.sessions j).input = some keys') (hkey : keys.1 = keys'.1) :
    SamePair cr party n i j ∧ (party i).isInitiator = (party j).isInitiator := by
  obtain ⟨secret, remote, pub, hstatus, rfl⟩ := connectionKeys_eq_some hi
  obtain ⟨secret', remote', pub', hstatus', rfl⟩ := connectionKeys_eq_some hj
  obtain ⟨hremote, hlength⟩ := remoteKey_of_completed hstatus
  obtain ⟨hremote', hlength'⟩ := remoteKey_of_completed hstatus'
  obtain ⟨-, -, -, hsecret, -⟩ := of_completed hstatus
  obtain ⟨-, -, -, hsecret', -⟩ := of_completed hstatus'
  have hpub := fun k => cr.ephemeralPub_length (party k).ephemeralPriv
  have h96 := keyMaterial_length (cr.x25519_length hsecret) (hpub i) hlength
  have h96' := keyMaterial_length (cr.x25519_length hsecret') (hpub j) hlength'
  -- the texts that were hashed are equal, and their lengths give the roles away
  have hA : ∀ {x y}, Hashed cr party n x → Hashed cr party n y → cr.sha256 x = cr.sha256 y →
      x = y := fun hx hy => hideal.noCollision _ _ hx hy
  have hmaterial : keyMaterial secret (cr.ephemeralPub (party i).ephemeralPriv) remote
        = keyMaterial secret' (cr.ephemeralPub (party j).ephemeralPriv) remote'
      ∧ (party i).isInitiator = (party j).isInitiator := by
    cases hrole : (party i).isInitiator <;> cases hrole' : (party j).isInitiator
    · rw [hrole, hrole'] at hkey
      have := hA ⟨i, _, _, _, hstatus, .inr rfl⟩ ⟨j, _, _, _, hstatus', .inr rfl⟩ hkey
      exact ⟨(List.cons.inj this).2, rfl⟩
    · rw [hrole, hrole'] at hkey
      have := hA ⟨i, _, _, _, hstatus, .inr rfl⟩ ⟨j, _, _, _, hstatus', .inl rfl⟩ hkey
      rw [← this, List.length_cons, h96] at h96'
      omega
    · rw [hrole, hrole'] at hkey
      have := hA ⟨i, _, _, _, hstatus, .inl rfl⟩ ⟨j, _, _, _, hstatus', .inr rfl⟩ hkey
      rw [this, List.length_cons, h96'] at h96
      omega
    · rw [hrole, hrole'] at hkey
      exact ⟨hA ⟨i, _, _, _, hstatus, .inl rfl⟩ ⟨j, _, _, _, hstatus', .inl rfl⟩ hkey, rfl⟩
  refine ⟨⟨remote, hremote, remote', hremote', ?_⟩, hmaterial.2⟩
  have hpair := (List.append_inj' hmaterial.1
    ((cr.x25519_length hsecret).trans (cr.x25519_length hsecret').symm)).1
  exact pair_of_sortedKeys_eq (hpub i) hlength (hpub j) hlength' hpair

/-! ## All sessions -/

omit [DecidableEq ι] in
/-- A relation holds along a list if it holds along the part of each index and between
different indices. -/
theorem pairwise_of_parts {α : Type} [DecidableEq ι] (index : α → ι) (R : α → α → Prop) {l : List α}
    (hparts : ∀ i, (l.filter (index · = i)).Pairwise R)
    (hacross : ∀ a ∈ l, ∀ b ∈ l, index a ≠ index b → R a b) : l.Pairwise R := by
  induction l with
  | nil => exact .nil
  | cons a l ih =>
    refine List.pairwise_cons.mpr ⟨fun b hb => ?_, ih (fun i => ?_) fun x hx y hy => ?_⟩
    · by_cases hab : index b = index a
      · have hpart := hparts (index a)
        rw [List.filter_cons_of_pos (by simp)] at hpart
        exact (List.pairwise_cons.mp hpart).1 b (List.mem_filter.mpr ⟨hb, decide_eq_true hab⟩)
      · exact hacross a List.mem_cons_self b (List.mem_cons_of_mem _ hb) (Ne.symm hab)
    · exact (hparts i).sublist ((List.sublist_cons_self a l).filter _)
    · exact hacross x (List.mem_cons_of_mem _ hx) y (List.mem_cons_of_mem _ hy)

/-- A frame uses the key of its session. -/
theorem Network.Sound.key_eq (h : n.Sound cr party) {f : SealedFrame ι}
    (hf : f ∈ n.frames) :
    ∃ keys, cr.connectionKeys (party f.session) (n.sessions f.session).input = some keys
      ∧ f.key = keys.1 := by
  have hmem : f.keystream ∈ n.keystreams f.session :=
    List.mem_map_of_mem (List.mem_filter.mpr ⟨hf, decide_eq_true rfl⟩)
  cases hconn : (n.sessions f.session).conn with
  | none =>
    rw [(h f.session).idle hconn] at hmem
    cases hmem
  | some c =>
    obtain ⟨keys, hkeys, -, -, -, hused⟩ := (h f.session).counted c hconn
    rw [hused] at hmem
    obtain ⟨k, -, heq⟩ := List.mem_map.mp hmem
    exact ⟨keys, hkeys, (congrArg Prod.fst heq).symm⟩

/-- **No keystream is used twice, and keys match**, in every run whose events all meet the
condition and in which sessions with the same pair of ephemeral keys have different roles. -/
theorem keystreams_unique {n : Network ι} {events : List (NetEvent ι)}
    (hrun : runNetwork cr party Network.start events = some n) (hideal : Ideal cr party n)
    (hcareful : AllCareful cr party Network.start events)
    (hroles : ∀ i j, i ≠ j → SamePair cr party n i j →
      (party i).isInitiator ≠ (party j).isInitiator) :
    (∀ i j keys keys', i ≠ j → SamePair cr party n i j →
        cr.connectionKeys (party i) (n.sessions i).input = some keys →
        cr.connectionKeys (party j) (n.sessions j).input = some keys' →
        keys.1 = keys'.2 ∧ keys.2 = keys'.1)
      ∧ n.frames.Pairwise fun f g => f.keystream ≠ g.keystream := by
  have hsound := Network.sound_start.run hcareful hrun
  refine ⟨fun i j keys keys' hij hpair hi hj => ?_, ?_⟩
  · exact keys_agree hideal hij hi hj hpair (hroles i j hij hpair)
  · refine pairwise_of_parts (·.session) _ (fun i => ?_) fun f hf g hg hsession heq => ?_
    · have hnodup : (n.keystreams i).Nodup := by
        cases hconn : (n.sessions i).conn with
        | none =>
          rw [(hsound i).idle hconn]
          exact .nil
        | some c =>
          obtain ⟨keys, -, -, -, -, hused⟩ := (hsound i).counted c hconn
          rw [hused]
          exact countedKeystreams_nodup _ (hsound i).few
      exact List.pairwise_map.mp hnodup
    · obtain ⟨keys, hkeys, hf⟩ := hsound.key_eq hf
      obtain ⟨keys', hkeys', hg⟩ := hsound.key_eq hg
      have hkey : keys.1 = keys'.1 := by
        rw [← hf, ← hg]
        exact congrArg Prod.fst heq
      obtain ⟨hpair, hrole⟩ := pair_of_sendKey_eq hideal hkeys hkeys' hkey
      exact hroles _ _ hsession hpair hrole

/-! ## Two sessions on a network -/

/-- The first 32 bytes of a text, with zeros behind it. -/
def pad (x : Bytes) : Bytes := (x ++ List.replicate 32 0).take 32

theorem pad_length (x : Bytes) : (pad x).length = 32 := by
  unfold pad
  rw [List.length_take, List.length_append, List.length_replicate]
  omega

theorem pad_pad (x : Bytes) : pad (pad x) = pad x := by
  change (pad x ++ List.replicate 32 0).take 32 = pad x
  rw [List.take_append_of_le_length (Nat.le_of_eq (pad_length x).symm),
    List.take_of_length_le (Nat.le_of_eq (pad_length x))]

/-- Primitives that can be evaluated: keys are added, and a signature is the text and the key. -/
def plainCrypto : SecretCrypto where
  sha256 := pad
  ephemeralPub := pad
  ephemeralPub_length := pad_length
  x25519 priv pub := .ok ((pad priv).zipWith (· + ·) (pad pub))
  x25519_length := by
    intro priv pub secret h
    rw [← Except.ok.inj h, List.length_zipWith, pad_length, pad_length, Nat.min_self]
  x25519_comm a b := by
    rw [pad_pad, pad_pad, List.zipWith_comm_of_comm UInt8.add_comm]
  publicKey := pad
  sign key text := pad text ++ pad key
  verify key text signature := signature = pad text ++ key

/-- Two sessions with the ephemeral keys 1 and 2: the first calls itself the initiator, and the
second does so too or not. -/
def twoParties (both : Bool) (i : Bool) : Party :=
  ⟨i || both, if i then [1] else [2], if i then [3] else [4]⟩

/-- What a session signs and sends in a handshake with the other one. -/
def relayedIdentity (i : Bool) : Bytes :=
  plainCrypto.identity (twoParties false i) (pad (sortedKeys (pad [1]) (pad [2])))

/-- Each session is given what the other one sends, and seals a frame of its own. -/
def relayed : List (NetEvent Bool) :=
  [.deliver false (pad [1]), .deliver true (pad [2]),
    .deliver false (relayedIdentity true), .deliver true (relayedIdentity false),
    .write true [5], .chunk true, .write false [6], .chunk false]

theorem relayed_careful (both : Bool) :
    AllCareful plainCrypto (twoParties both) Network.start relayed := by
  cases both <;> decide +kernel

/-- The text that both sessions hash. -/
def relayedMaterial : Bytes := keyMaterial (pad [3]) (pad [1]) (pad [2])

theorem relayedMaterial_eq : ∀ both i : Bool,
    keyMaterial (pad [3]) (plainCrypto.ephemeralPub (twoParties both i).ephemeralPriv)
      (if i then pad [2] else pad [1]) = relayedMaterial := by
  decide +kernel

/-- Where a session stands in the end. -/
def relayedStatus (i : Bool) : HandshakeStatus :=
  .completed (pad [3]) (if i then pad [2] else pad [1]) (if i then pad [4] else pad [3])

theorem relayed_run (both : Bool) :
    ∃ n, runNetwork plainCrypto (twoParties both) Network.start relayed = some n
      ∧ (∀ i, (plainCrypto.makeSecretConnection (twoParties both i) (n.sessions i).input).2
        = relayedStatus i)
      ∧ n.frames = [⟨true, pad relayedMaterial, frameNonce 0, [5]⟩,
        ⟨false, pad (if both then relayedMaterial else 1 :: relayedMaterial), frameNonce 0,
          [6]⟩] := by
  cases both <;> decide +kernel

/-- The primitives are ideal in this run. -/
theorem relayed_ideal {both : Bool} {n : Network Bool}
    (h : ∀ i, (plainCrypto.makeSecretConnection (twoParties both i) (n.sessions i).input).2
      = relayedStatus i) : Ideal plainCrypto (twoParties both) n := by
  have hhashed : ∀ x, Hashed plainCrypto (twoParties both) n x →
      x = relayedMaterial ∨ x = 1 :: relayedMaterial := by
    rintro x ⟨i, secret, remote, pub, hstatus, hx⟩
    obtain ⟨rfl, rfl, rfl⟩ := HandshakeStatus.completed.inj ((h i).symm.trans hstatus)
    rw [relayedMaterial_eq both i] at hx
    exact hx
  refine ⟨?_, fun x y hx hy hxy => ?_⟩
  · cases both <;> decide +kernel
  · have hne : plainCrypto.sha256 relayedMaterial ≠ plainCrypto.sha256 (1 :: relayedMaterial) := by
      decide +kernel
    rcases hhashed x hx with rfl | rfl <;> rcases hhashed y hy with rfl | rfl
    · rfl
    · exact absurd hxy hne
    · exact absurd hxy.symm hne
    · rfl

/-- An initiator and a responder. -/
theorem keystreams_unique_roles :
    ∃ n, runNetwork plainCrypto (twoParties false) Network.start relayed = some n
      ∧ n.frames.length = 2 ∧ n.frames.Pairwise fun f g => f.keystream ≠ g.keystream := by
  obtain ⟨n, hrun, hstatus, hframes⟩ := relayed_run false
  have hdiffer : ∀ i j, i ≠ j →
      (twoParties false i).isInitiator ≠ (twoParties false j).isInitiator := by decide
  refine ⟨n, hrun, congrArg List.length hframes, ?_⟩
  exact (keystreams_unique hrun (relayed_ideal hstatus) (relayed_careful false)
    (fun i j hij _ => hdiffer i j hij)).2

/-- **Two initiators** that are given what the other one sends complete the handshake, send with
the same key, and seal different texts with the same nonce. -/
theorem initiators_share_keystream :
    ∃ n, runNetwork plainCrypto (twoParties true) Network.start relayed = some n
      ∧ Ideal plainCrypto (twoParties true) n ∧ SamePair plainCrypto (twoParties true) n true false
      ∧ ∃ f ∈ n.frames, ∃ g ∈ n.frames, f.keystream = g.keystream ∧ f.plaintext ≠ g.plaintext := by
  obtain ⟨n, hrun, hstatus, hframes⟩ := relayed_run true
  refine ⟨n, hrun, relayed_ideal hstatus, ?_, ?_⟩
  · refine ⟨pad [2], (remoteKey_of_completed (hstatus true)).1, pad [1],
      (remoteKey_of_completed (hstatus false)).1, .inr ⟨rfl, rfl⟩⟩
  · rw [hframes]
    exact ⟨_, List.mem_cons_self, _, List.mem_cons_of_mem _ List.mem_cons_self, rfl, by decide⟩

end NogoChain
