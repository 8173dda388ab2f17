import NogoChain.Lib.Prog
import NogoChain.Network.MConnection

/-!
# What the multiplexed connection delivers

The two sides are compared channel by channel. At any time the messages sent on a channel are
those delivered, then the one that is on its way – what has arrived of it followed by what is
left of it –, then those that wait: `Link`. Every packet moves one message along this list,
and the packets of other channels do not touch it.

Two things of the send routine break the comparison. A message without bytes that has been
taken from the queue looks like nothing to send, and the next question takes another message
in its place. And the routine goes back to waiting after ten packets, whether or not more are
pending. `SendEvent.Clear` excludes both.
-/

namespace NogoChain

/-! ## One packet on the wire -/

variable {bytes msg : Bytes} {r r₀ : Receiver} {ch : SendChannel} {ratio : UInt8 → Nat} {s : Sender}
  {f : SendChannel → SendChannel} {descs : List ChannelDescriptor} {sent : UInt8 → List Bytes}

/-- The reader takes the fourth byte for the EOF flag, and as many bytes after it as the length
says for the payload. -/
theorem deserializePacket_frame (channelId eofFlag : UInt8) (data : Bytes)
    (hlen : data.length ≤ maxMsgPacketPayloadSize) (rest : Bytes) :
    deserializePacket (channelId :: bigEndian 2 data.length ++ eofFlag :: (data ++ rest))
      = .ok ⟨channelId, data, eofFlag = 1⟩ rest := by
  have hlen' : data.length ≤ 1024 := hlen
  obtain ⟨high, low, hbytes⟩ : ∃ high low, bigEndian 2 data.length = [high, low] := ⟨_, _, rfl⟩
  have hvalue : ofBigEndian [high, low] = data.length := by
    rw [← hbytes]
    exact ofBigEndian_bigEndian 2 (by omega)
  simp only [hbytes, List.cons_append, List.nil_append, deserializePacket, hvalue]
  rw [if_neg (Nat.not_lt.mpr hlen), if_neg (by rw [List.length_append]; omega),
    List.take_left, List.drop_left]

theorem MsgPacket.eofByte_eq_one (p : MsgPacket) : decide (p.eofByte = 1) = p.eof := by
  unfold eofByte
  cases p.eof <;> rfl

theorem MsgPacket.deserialize_frame {p : MsgPacket} (h : p.data.length ≤ maxMsgPacketPayloadSize)
    (rest : Bytes) : deserializePacket (p.channelId :: bigEndian 2 p.data.length
      ++ p.eofByte :: (p.data ++ rest)) = .ok p rest := by
  rw [deserializePacket_frame _ _ _ h, p.eofByte_eq_one]

theorem MsgPacket.deserialize_serializeTo {p : MsgPacket}
    (h : p.serializeTo = .ok bytes) (rest : Bytes) :
    deserializePacket (bytes ++ rest) = .ok p rest := by
  unfold MsgPacket.serializeTo at h
  split at h
  · cases h
  · next hlength =>
    cases h
    simpa [eofByte] using deserialize_frame (Nat.not_lt.mp hlength) rest

theorem append_singleton_eq_cons_iff {α : Type} {d e : α} {ds : List α} :
    ds ++ [e] = d :: ds ↔ ∀ b ∈ d :: ds, b = e := by
  induction ds generalizing d with
  | nil => simp [eq_comm]
  | cons x ds ih =>
    rw [List.cons_append, List.cons.injEq, ih]
    simp only [List.forall_mem_cons]
    constructor <;> (rintro ⟨rfl, rfl, h⟩; exact ⟨rfl, rfl, h⟩)

/-- **The two layouts agree on constant payloads only.** What `SerializeTo` writes is read
back. What `Serialize` writes is read with its first payload byte as the flag and the flag as
the last payload byte, so it is read back exactly if every byte is the flag's. -/
theorem serialize_read_back_iff (p : MsgPacket) (h : p.data.length ≤ maxMsgPacketPayloadSize) :
    (∃ bytes, p.serializeTo = .ok bytes ∧ ∀ rest, deserializePacket (bytes ++ rest) = .ok p rest)
    ∧ ((∃ bytes, p.serialize = .ok bytes ∧ ∀ rest, deserializePacket (bytes ++ rest) = .ok p rest)
      ↔ ∀ b ∈ p.data, b = p.eofByte) := by
  have hfits : ¬p.data.length > maxMsgPacketPayloadSize := Nat.not_lt.mpr h
  refine ⟨⟨_, if_neg hfits, MsgPacket.deserialize_serializeTo (if_neg hfits)⟩, ?_⟩
  simp only [MsgPacket.serialize, if_neg hfits, Except.ok.injEq, exists_eq_left']
  cases hdata : p.data with
  | nil =>
    have hframe := MsgPacket.deserialize_frame h
    rw [hdata] at hframe
    simpa using hframe
  | cons d ds =>
    rw [hdata] at h
    have hframe (rest : Bytes) : deserializePacket (p.channelId :: bigEndian 2 (d :: ds).length
        ++ d :: ds ++ [p.eofByte] ++ rest) = .ok ⟨p.channelId, ds ++ [p.eofByte], d = 1⟩ rest := by
      simpa using deserializePacket_frame p.channelId d (ds ++ [p.eofByte]) (by simpa using h) rest
    have hp (data : Bytes) (eof : Bool) :
        ⟨p.channelId, data, eof⟩ = p ↔ data = p.data ∧ eof = p.eof := by
      cases p
      simp
    simp only [hframe, ReadResult.ok.injEq, and_true, forall_const, hp, hdata,
      append_singleton_eq_cons_iff]
    exact and_iff_left_of_imp fun h => by rw [h d List.mem_cons_self, p.eofByte_eq_one]

theorem serialize_read_back_ones :
    ∃ bytes, (⟨1, [1, 1], true⟩ : MsgPacket).serialize = .ok bytes
      ∧ ∀ rest, deserializePacket (bytes ++ rest) = .ok ⟨1, [1, 1], true⟩ rest :=
  (serialize_read_back_iff ⟨1, [1, 1], true⟩ (by decide)).2.mpr (by simp [MsgPacket.eofByte])

/-- The payload 7 comes back as the payload 1, in a packet that no longer ends its message. -/
theorem serialize_read_otherwise : ∃ bytes, (⟨1, [7], true⟩ : MsgPacket).serialize = .ok bytes
    ∧ deserializePacket bytes = .ok ⟨1, [1], false⟩ [] :=
  ⟨_, if_neg (by decide), deserializePacket_frame 1 7 [1] (by decide) []⟩

/-! ## Rounds of the receiver -/

namespace Receiver

/-- The receiver takes these bytes in one round, whatever follows them. -/
def Takes (r : Receiver) (bytes : Bytes) (r' : Receiver) : Prop :=
  bytes ≠ [] ∧ ∀ rest, r.recvRound (bytes ++ rest) = .next r' rest

/-- The receiver takes these bytes in some rounds. -/
inductive Reads (r : Receiver) : Bytes → Receiver → Prop where
  | nil : Reads r [] r
  | snoc {input bytes : Bytes} {r' r'' : Receiver} (h : Reads r input r')
      (hround : r'.Takes bytes r'') : Reads r (input ++ bytes) r''

theorem Reads.recvRounds {r' : Receiver} {input : Bytes} (h : r.Reads input r') :
    ∃ k ≤ input.length, ∀ n rest,
      r.recvRounds (k + n) (input ++ rest) = r'.recvRounds n rest := by
  induction h with
  | nil => exact ⟨0, Nat.le_refl _, fun n rest => by rw [Nat.zero_add, List.nil_append]⟩
  | @snoc input bytes r' r'' _ hround ih =>
    obtain ⟨k, hk, hrounds⟩ := ih
    have hpos : 0 < bytes.length := List.length_pos_iff.mpr hround.1
    refine ⟨k + 1, by rw [List.length_append]; omega, fun n rest => ?_⟩
    rw [Nat.add_assoc, List.append_assoc, hrounds, Nat.add_comm 1 n, Receiver.recvRounds,
      hround.2]

/-- **The receive routine reads what it takes in rounds**, and then waits. -/
theorem Reads.recvRoutine {r' : Receiver} {input : Bytes} (h : r.Reads input r') :
    r.recvRoutine input = (r', none) := by
  obtain ⟨k, hk, hrounds⟩ := h.recvRounds
  have hwait : ∀ n, r'.recvRounds n [] = (r', none) := by
    intro n
    cases n with
    | zero => rfl
    | succ n => rfl
  have hall := hrounds (input.length - k) []
  rw [List.append_nil, Nat.add_sub_cancel' hk, hwait] at hall
  exact hall

theorem takes_ping (r : Receiver) : r.Takes [packetTypePing] r :=
  ⟨nofun, fun _ => rfl⟩

theorem takes_pong (r : Receiver) : r.Takes [packetTypePong] r :=
  ⟨nofun, fun _ => rfl⟩

/-- The receiver after a packet: the channel and the message that the packet completes. -/
def after (r : Receiver) (id : UInt8) (ch : RecvChannel) (out : Option Bytes) : Receiver :=
  ⟨r.channels.insert id ch, r.delivered ++ (out.map (id, ·)).toList⟩

/-- **A packet is taken in one round.** -/
theorem takes_packet {p : MsgPacket} {ch ch' : RecvChannel}
    {out : Option Bytes} (hbytes : p.serializeTo = .ok bytes)
    (hch : r.channels.lookup p.channelId = some ch) (hrecv : ch.recvMsgPacket p = .ok (ch', out)) :
    r.Takes (packetTypeMsg :: bytes) (r.after p.channelId ch' out) := by
  refine ⟨nofun, fun rest => ?_⟩
  have hparse := MsgPacket.deserialize_serializeTo hbytes rest
  change r.recvRound (packetTypeMsg :: (bytes ++ rest)) = _
  unfold recvRound
  dsimp only
  rw [if_neg (by decide), if_neg (by decide), if_pos rfl, hparse]
  dsimp only
  rw [hch]
  dsimp only
  rw [hrecv]
  cases out with
  | none =>
    unfold after
    dsimp only [Option.map_none, Option.toList_none]
    rw [List.append_nil]
  | some msg => rfl

theorem deliveredOn_after_self (r : Receiver) (id : UInt8) (ch : RecvChannel) (out : Option Bytes) :
    (r.after id ch out).deliveredOn id = r.deliveredOn id ++ out.toList := by
  unfold deliveredOn after
  rw [List.filter_append, List.map_append]
  cases out with
  | none => rfl
  | some msg => simp

theorem deliveredOn_after_of_ne {id id' : UInt8} (hne : id' ≠ id) (r : Receiver) (ch : RecvChannel)
    (out : Option Bytes) : (r.after id ch out).deliveredOn id' = r.deliveredOn id' := by
  unfold deliveredOn after
  cases out with
  | none => simp
  | some msg => simp [hne.symm]

end Receiver

/-! ## One channel -/

/-- The message that is on its way, if there is one. -/
def SendChannel.onItsWay (ch : SendChannel) (recving : Bytes) : List Bytes :=
  if ch.sending = [] then [] else [recving ++ ch.sending]

/-- **The two sides of a channel.** The messages sent are those delivered, the one on its way
and those that wait. -/
structure Link (sent : List Bytes) (ch : SendChannel) (rc : RecvChannel) (delivered : List Bytes) :
    Prop where
  /-- where the messages are -/
  split : sent = delivered ++ ch.onItsWay rc.recving ++ ch.sendQueue
  /-- nothing has arrived of a message that is not on its way -/
  clear : ch.sending = [] → rc.recving = []
  /-- every message has bytes, and fits -/
  fits : ∀ msg ∈ sent, msg ≠ [] ∧ (msg.length : Int) ≤ rc.recvMessageCapacity

namespace Link

variable {sent delivered : List Bytes} {rc : RecvChannel}

theorem nil_notMem (h : Link sent ch rc delivered) : [] ∉ ch.sendQueue := by
  intro hmem
  refine (h.fits [] ?_).1 rfl
  rw [h.split]
  exact List.mem_append_right _ hmem

theorem enqueue (h : Link sent ch rc delivered) (hne : msg ≠ [])
    (hfits : (msg.length : Int) ≤ rc.recvMessageCapacity) :
    Link (sent ++ [msg]) { ch with sendQueue := ch.sendQueue ++ [msg] } rc delivered where
  split := by
    rw [h.split]
    exact List.append_assoc _ _ _
  clear := h.clear
  fits := by
    intro m hm
    rcases List.mem_append.mp hm with hm | hm
    · exact h.fits m hm
    · rw [List.mem_singleton.mp hm]
      exact ⟨hne, hfits⟩

/-- Asking for something to send keeps the link. -/
theorem isSendPending (h : Link sent ch rc delivered) :
    Link sent ch.isSendPending.1 rc delivered := by
  unfold SendChannel.isSendPending
  by_cases hsending : ch.sending = []
  · rw [if_pos (List.length_eq_zero_iff.mpr hsending)]
    cases hqueue : ch.sendQueue with
    | nil => exact h
    | cons msg queue =>
      have hsplit := h.split
      unfold SendChannel.onItsWay at hsplit
      rw [if_pos hsending, hqueue, List.append_nil] at hsplit
      have hmsg : msg ≠ [] := by
        rintro rfl
        exact h.nil_notMem (hqueue ▸ List.mem_cons_self)
      refine ⟨?_, fun hnone => absurd hnone hmsg, h.fits⟩
      dsimp only [SendChannel.onItsWay]
      rw [if_neg hmsg, h.clear hsending, hsplit, List.nil_append, List.append_assoc]
      rfl
  · rw [if_neg (fun hnil => hsending (List.length_eq_zero_iff.mp hnil))]
    exact h

/-- **One packet** moves the message along. -/
theorem nextMsgPacket (h : Link sent ch rc delivered) (hsending : ch.sending ≠ []) :
    ∃ rc' out, rc.recvMsgPacket ch.nextMsgPacket.2 = .ok (rc', out)
      ∧ rc'.recvMessageCapacity = rc.recvMessageCapacity
      ∧ Link sent ch.nextMsgPacket.1 rc' (delivered ++ out.toList) := by
  have hsplit := h.split
  unfold SendChannel.onItsWay at hsplit
  rw [if_neg hsending] at hsplit
  have hfits : ((rc.recving ++ ch.sending).length : Int) ≤ rc.recvMessageCapacity := by
    refine (h.fits _ ?_).2
    rw [hsplit, List.append_assoc]
    exact List.mem_append_right _ List.mem_cons_self
  rw [List.length_append] at hfits
  unfold SendChannel.nextMsgPacket
  have hdata : (ch.sending.take maxMsgPacketPayloadSize).length ≤ ch.sending.length := by
    rw [List.length_take]
    exact Nat.min_le_right _ _
  split
  · next hlast =>
    refine ⟨{ rc with recving := [] }, some (rc.recving ++ ch.sending), ?_, rfl, ?_⟩
    · unfold RecvChannel.recvMsgPacket
      dsimp only
      rw [if_neg (by omega), if_pos rfl, List.take_of_length_le hlast]
    · refine ⟨?_, fun _ => rfl, h.fits⟩
      dsimp only [SendChannel.onItsWay, Option.toList_some]
      rw [if_pos rfl, List.append_nil]
      exact hsplit
  · next hmore =>
    have hrest : ch.sending.drop maxMsgPacketPayloadSize ≠ [] := by
      intro hnil
      exact hmore (List.drop_eq_nil_iff.mp hnil)
    refine ⟨{ rc with recving := rc.recving ++ ch.sending.take maxMsgPacketPayloadSize }, none,
      ?_, rfl, ?_⟩
    · unfold RecvChannel.recvMsgPacket
      dsimp only
      rw [if_neg (by omega), if_neg nofun]
    · refine ⟨?_, fun hnil => absurd hnil hrest, h.fits⟩
      dsimp only [SendChannel.onItsWay, Option.toList_none]
      rw [if_neg hrest, List.append_nil, List.append_assoc rc.recving, List.take_append_drop]
      exact hsplit

end Link

/-! ## Pending packets -/

/-- How many packets a message takes. -/
def packetCount (msg : Bytes) : Nat :=
  (msg.length + (maxMsgPacketPayloadSize - 1)) / maxMsgPacketPayloadSize

/-- How many packets a channel has to send. -/
def SendChannel.pendingPackets (ch : SendChannel) : Nat :=
  packetCount ch.sending + (ch.sendQueue.map packetCount).sum

/-- How many packets there are to send. -/
def Sender.pendingPackets (s : Sender) : Nat := (s.channels.map SendChannel.pendingPackets).sum

theorem packetCount_pos (h : msg ≠ []) : 0 < packetCount msg := by
  have hpos := List.length_pos_iff.mpr h
  unfold packetCount maxMsgPacketPayloadSize
  omega

theorem SendChannel.pendingPackets_isSendPending (ch : SendChannel) :
    ch.isSendPending.1.pendingPackets = ch.pendingPackets := by
  unfold SendChannel.isSendPending
  split
  · next hsending =>
    cases hqueue : ch.sendQueue with
    | nil => rfl
    | cons msg queue =>
      unfold SendChannel.pendingPackets
      rw [hqueue, List.length_eq_zero_iff.mp hsending, List.map_cons, List.sum_cons]
      exact (Nat.zero_add _).symm
  · rfl

/-- A channel that answers that nothing is pending has nothing to send. -/
theorem SendChannel.idle_of_isSendPending (h : ch.isSendPending.2 = false) :
    ch.sending = [] ∧ ch.sendQueue = [] := by
  unfold SendChannel.isSendPending at h
  split at h
  · next hsending =>
    cases hqueue : ch.sendQueue with
    | nil => exact ⟨List.length_eq_zero_iff.mp hsending, rfl⟩
    | cons msg queue => simp [hqueue] at h
  · cases h

/-- One that answers that something is has taken it up, when every message has bytes. -/
theorem SendChannel.sending_ne_nil (hqueue : [] ∉ ch.sendQueue)
    (h : ch.isSendPending.2 = true) : ch.isSendPending.1.sending ≠ [] := by
  unfold SendChannel.isSendPending at h ⊢
  split
  · next hsending =>
    cases hcase : ch.sendQueue with
    | nil => simp [hsending, hcase] at h
    | cons msg queue =>
      rintro rfl
      exact hqueue (hcase ▸ List.mem_cons_self)
  · next hsending => exact fun hnil => hsending (List.length_eq_zero_iff.mpr hnil)

theorem SendChannel.isSendPending_sendQueue (ch : SendChannel) :
    ch.isSendPending.1.sendQueue ⊆ ch.sendQueue := by
  unfold SendChannel.isSendPending
  split
  · cases hqueue : ch.sendQueue with
    | nil => simp [hqueue]
    | cons msg queue => exact List.subset_cons_self _ _
  · exact List.Subset.refl _

theorem SendChannel.nextMsgPacket_sendQueue (ch : SendChannel) :
    ch.nextMsgPacket.1.sendQueue = ch.sendQueue := by
  unfold SendChannel.nextMsgPacket
  split <;> rfl

/-- A channel without packets to send has nothing to send. -/
theorem SendChannel.idle_of_pendingPackets (hqueue : [] ∉ ch.sendQueue)
    (h : ch.pendingPackets = 0) : ch.sending = [] ∧ ch.sendQueue = [] := by
  obtain ⟨hsending, hrest⟩ := Nat.add_eq_zero_iff.mp h
  constructor
  · by_contra hne
    exact absurd hsending (packetCount_pos hne).ne'
  · refine List.eq_nil_iff_forall_not_mem.mpr fun msg hmsg => ?_
    have hzero := List.sum_eq_zero_iff_forall_eq_nat.mp hrest _ (List.mem_map_of_mem hmsg)
    exact absurd hzero (packetCount_pos fun hnil => hqueue (hnil ▸ hmsg)).ne'

theorem SendChannel.pendingPackets_nextMsgPacket (h : ch.sending ≠ []) :
    ch.nextMsgPacket.1.pendingPackets + 1 = ch.pendingPackets := by
  have hpos := List.length_pos_iff.mpr h
  unfold SendChannel.nextMsgPacket SendChannel.pendingPackets
  split
  · next hlast =>
    have hone : packetCount ch.sending = 1 := by
      unfold packetCount maxMsgPacketPayloadSize
      unfold maxMsgPacketPayloadSize at hlast
      omega
    have hnone : packetCount [] = 0 := rfl
    dsimp only
    omega
  · next hmore =>
    have hstep : packetCount (ch.sending.drop maxMsgPacketPayloadSize) + 1
        = packetCount ch.sending := by
      unfold packetCount
      rw [List.length_drop]
      unfold maxMsgPacketPayloadSize at hmore ⊢
      omega
    dsimp only
    omega

/-! ## The choice of a channel -/

theorem leastChannel_fst (ratio : UInt8 → Nat) (channels : List SendChannel)
    (least : Option UInt8) :
    (leastChannel ratio channels least).1 = channels.map fun ch => ch.isSendPending.1 := by
  induction channels generalizing least with
  | nil => rfl
  | cons ch channels ih =>
    unfold leastChannel
    dsimp only
    rw [ih, List.map_cons]

variable {channels : List SendChannel} {id : UInt8}

/-- The channel that is chosen has something to send. -/
theorem pending_of_chosen
    {least : Option UInt8} (h : (leastChannel ratio channels least).2 = some id) :
    least = some id ∨ ∃ ch ∈ channels, ch.id = id ∧ ch.isSendPending.2 = true := by
  induction channels generalizing least with
  | nil => exact .inl h
  | cons ch channels ih =>
    unfold leastChannel at h
    rcases ih h with hleast | ⟨ch', hch', hpending⟩
    · split at hleast
      · next hbetter =>
        rw [Bool.and_eq_true] at hbetter
        exact .inr ⟨ch, List.mem_cons_self, Option.some.inj hleast, hbetter.1⟩
      · exact .inl hleast
    · exact .inr ⟨ch', List.mem_cons_of_mem _ hch', hpending⟩

/-- If no channel is chosen, none has anything to send. -/
theorem not_pending_of_none
    {least : Option UInt8} (h : (leastChannel ratio channels least).2 = none) :
    least = none ∧ ∀ ch ∈ channels, ch.isSendPending.2 = false := by
  induction channels generalizing least with
  | nil => exact ⟨h, nofun⟩
  | cons ch channels ih =>
    unfold leastChannel at h
    obtain ⟨hleast, hrest⟩ := ih h
    split at hleast
    · cases hleast
    · next hworse =>
      refine ⟨hleast, List.forall_mem_cons.mpr ⟨?_, hrest⟩⟩
      rw [hleast, Option.all_none, Bool.and_true] at hworse
      exact Bool.not_eq_true _ ▸ hworse

theorem SendChannel.isSendPending_id (ch : SendChannel) : ch.isSendPending.1.id = ch.id := by
  unfold SendChannel.isSendPending
  split
  · cases ch.sendQueue <;> rfl
  · rfl

theorem SendChannel.nextMsgPacket_id (ch : SendChannel) :
    ch.nextMsgPacket.1.id = ch.id ∧ ch.nextMsgPacket.2.channelId = ch.id := by
  unfold SendChannel.nextMsgPacket
  split <;> exact ⟨rfl, rfl⟩

theorem SendChannel.exists_serializeTo (ch : SendChannel) :
    ∃ bytes, ch.nextMsgPacket.2.serializeTo = .ok bytes := by
  have hdata : ch.nextMsgPacket.2.data.length ≤ maxMsgPacketPayloadSize := by
    unfold SendChannel.nextMsgPacket
    split <;> exact List.length_take_le _ _
  unfold MsgPacket.serializeTo
  rw [if_neg (Nat.not_lt.mpr hdata)]
  exact ⟨_, rfl⟩

/-- Channels are found by their identifiers. -/
theorem find?_id (hids : (channels.map (·.id)).Nodup)
    (h : ch ∈ channels) : channels.find? (·.id = ch.id) = some ch := by
  induction channels with
  | nil => cases h
  | cons ch' channels ih =>
    rw [List.map_cons, List.nodup_cons] at hids
    rcases List.mem_cons.mp h with rfl | h
    · simp
    · have hne : ch'.id ≠ ch.id := by
        intro heq
        exact hids.1 (heq ▸ List.mem_map_of_mem h)
      rw [List.find?_cons_of_neg (by simpa using hne), ih hids.2 h]

/-- The channels after each has been asked for something to send. -/
def askAll (channels : List SendChannel) : List SendChannel :=
  channels.map fun ch => ch.isSendPending.1

theorem askAll_ids (channels : List SendChannel) :
    (askAll channels).map (·.id) = channels.map (·.id) := by
  unfold askAll
  rw [List.map_map]
  exact List.map_congr_left fun ch _ => ch.isSendPending_id

/-- **One round of the send routine**: nothing is pending, or one packet is written of a
channel that has something to send. -/
theorem Sender.sendMsgPacket_cases (hids : (s.channels.map (·.id)).Nodup) (ratio : UInt8 → Nat) :
    (s.sendMsgPacket ratio = ({ s with channels := askAll s.channels }, true)
        ∧ ∀ ch ∈ s.channels, ch.isSendPending.2 = false)
      ∨ ∃ ch ∈ s.channels, ∃ bytes, ch.isSendPending.2 = true
        ∧ ch.isSendPending.1.nextMsgPacket.2.serializeTo = .ok bytes
        ∧ s.sendMsgPacket ratio = ({ s with
                channels := updateChannel (askAll s.channels) ch.id
                  fun _ => ch.isSendPending.1.nextMsgPacket.1
                written := s.written ++ packetTypeMsg :: bytes }, false) := by
  unfold Sender.sendMsgPacket
  dsimp only
  rw [leastChannel_fst]
  cases hchosen : (leastChannel ratio s.channels none).2 with
  | none => exact .inl ⟨rfl, (not_pending_of_none hchosen).2⟩
  | some id =>
    obtain ⟨ch, hch, rfl, hpending⟩ := (pending_of_chosen hchosen).resolve_left (by simp)
    have hfound : (askAll s.channels).find? (·.id = ch.id) = some ch.isSendPending.1 := by
      rw [← ch.isSendPending_id]
      exact find?_id ((askAll_ids _).symm ▸ hids) (List.mem_map_of_mem hch)
    obtain ⟨bytes, hbytes⟩ := ch.isSendPending.1.exists_serializeTo
    refine .inr ⟨ch, hch, bytes, hpending, hbytes, ?_⟩
    unfold askAll at hfound
    rw [Option.bind_some, hfound]
    dsimp only
    rw [hbytes, ch.isSendPending_id]
    rfl

/-! ## Changing one channel -/

theorem updateChannel_ids (hf : ∀ ch ∈ channels, ch.id = id → (f ch).id = id) :
    (updateChannel channels id f).map (·.id) = channels.map (·.id) := by
  unfold updateChannel
  rw [List.map_map]
  refine List.map_congr_left fun ch hch => ?_
  dsimp only [Function.comp_apply]
  split
  · next heq => rw [hf ch hch heq, heq]
  · rfl

theorem mem_updateChannel (h : ch ∈ updateChannel channels id f) :
    ∃ ch₀ ∈ channels, (ch₀.id = id ∧ ch = f ch₀) ∨ (ch₀.id ≠ id ∧ ch = ch₀) := by
  obtain ⟨ch₀, hch₀, heq⟩ := List.mem_map.mp h
  refine ⟨ch₀, hch₀, ?_⟩
  split at heq
  · next hid => exact .inl ⟨hid, heq.symm⟩
  · next hid => exact .inr ⟨hid, heq.symm⟩

theorem updateChannel_of_notMem (h : id ∉ channels.map (·.id)) :
    updateChannel channels id f = channels := by
  refine (List.map_congr_left fun ch hch => ?_).trans (List.map_id' channels)
  refine if_neg fun heq => h ?_
  rw [← heq]
  exact List.mem_map_of_mem hch

/-- A sum over the channels changes by what changes at one of them. -/
theorem sum_updateChannel (hids : (channels.map (·.id)).Nodup)
    (h : ch ∈ channels) (ch' : SendChannel) (g : SendChannel → Nat) :
    ((updateChannel channels ch.id fun _ => ch').map g).sum + g ch
      = (channels.map g).sum + g ch' := by
  induction channels with
  | nil => cases h
  | cons c channels ih =>
    rw [List.map_cons, List.nodup_cons] at hids
    have hcons : updateChannel (c :: channels) ch.id (fun _ => ch')
        = (if c.id = ch.id then ch' else c) :: updateChannel channels ch.id (fun _ => ch') := rfl
    rw [hcons, List.map_cons, List.sum_cons, List.map_cons, List.sum_cons]
    rcases List.mem_cons.mp h with rfl | h
    · rw [if_pos rfl, updateChannel_of_notMem hids.1]
      omega
    · have hne : c.id ≠ ch.id := by
        intro heq
        exact hids.1 (heq ▸ List.mem_map_of_mem h)
      have hrest := ih hids.2 h
      rw [if_neg hne]
      omega

theorem sum_askAll (channels : List SendChannel) :
    ((askAll channels).map SendChannel.pendingPackets).sum
      = (channels.map SendChannel.pendingPackets).sum := by
  unfold askAll
  rw [List.map_map]
  congr 1
  exact List.map_congr_left fun ch _ => ch.pendingPackets_isSendPending

/-! ## All channels -/

/-- **The two sides of a connection**, channel by channel. -/
structure Simulates (descs : List ChannelDescriptor) (sent : UInt8 → List Bytes) (s : Sender)
    (r : Receiver) : Prop where
  ids : s.channels.map (·.id) = descs.map (·.id)
  /-- the two sides of each channel are linked -/
  links : ∀ ch ∈ s.channels, ∃ cd ∈ descs, ∃ rc, cd.id = ch.id
    ∧ rc.recvMessageCapacity = cd.recvMessageCapacity ∧ r.channels.lookup ch.id = some rc
    ∧ Link (sent ch.id) ch rc (r.deliveredOn ch.id)
  /-- there is nothing on other channels -/
  others : ∀ id ∉ descs.map (·.id), sent id = [] ∧ r.deliveredOn id = []

namespace Simulates

/-- Only the channels of the sender count. -/
theorem congr {s' : Sender} (h : Simulates descs sent s r) (hs : s'.channels = s.channels) :
    Simulates descs sent s' r :=
  ⟨hs ▸ h.ids, hs ▸ h.links, h.others⟩

theorem askAll (h : Simulates descs sent s r) :
    Simulates descs sent { s with channels := NogoChain.askAll s.channels } r where
  ids := (askAll_ids _).trans h.ids
  links ch' hch' := by
    obtain ⟨ch, hch, rfl⟩ := List.mem_map.mp hch'
    rw [ch.isSendPending_id]
    obtain ⟨cd, hcd, rc, hid, hcap, hlookup, hlink⟩ := h.links ch hch
    exact ⟨cd, hcd, rc, hid, hcap, hlookup, hlink.isSendPending⟩
  others := h.others

theorem send (h : Simulates descs sent s r) (hne : msg ≠ [])
    (hfits : ∀ cd ∈ descs, cd.id = id → (msg.length : Int) ≤ cd.recvMessageCapacity)
    (hid : id ∈ descs.map (·.id)) :
    Simulates descs (fun id' => sent id' ++ (SendEvent.send id msg).queued descs id')
      { s with
        channels := updateChannel s.channels id fun ch =>
          { ch with sendQueue := ch.sendQueue ++ [msg] }
        signal := true } r where
  ids := by
    refine Eq.trans (updateChannel_ids ?_) h.ids
    exact fun _ _ heq => heq
  links ch' hch' := by
    obtain ⟨ch, hch, ⟨heq, rfl⟩ | ⟨hneq, rfl⟩⟩ := mem_updateChannel hch'
    · obtain ⟨cd, hcd, rc, hcdid, hcap, hlookup, hlink⟩ := h.links ch hch
      refine ⟨cd, hcd, rc, hcdid, hcap, hlookup, ?_⟩
      have hqueued : (SendEvent.send id msg).queued descs ch.id = [msg] :=
        if_pos ⟨heq.symm, heq ▸ hid⟩
      rw [hqueued]
      exact hlink.enqueue hne (hcap ▸ hfits cd hcd (hcdid.trans heq))
    · obtain ⟨cd, hcd, rc, hcdid, hcap, hlookup, hlink⟩ := h.links ch' hch
      refine ⟨cd, hcd, rc, hcdid, hcap, hlookup, ?_⟩
      have hqueued : (SendEvent.send id msg).queued descs ch'.id = [] :=
        if_neg fun hboth => hneq hboth.1.symm
      rw [hqueued, List.append_nil]
      exact hlink
  others id' hid' := by
    have hqueued : (SendEvent.send id msg).queued descs id' = [] := if_neg fun hboth => hid' hboth.2
    rw [hqueued, List.append_nil]
    exact h.others id' hid'

/-- **One packet** is written by the sender and taken by the receiver. -/
theorem packet (h : Simulates descs sent s r) (hch : ch ∈ s.channels)
    (hpending : ch.isSendPending.2 = true)
    (hbytes : ch.isSendPending.1.nextMsgPacket.2.serializeTo = .ok bytes) :
    ∃ r', r.Takes (packetTypeMsg :: bytes) r' ∧ Simulates descs sent { s with
          channels := updateChannel (NogoChain.askAll s.channels) ch.id
            fun _ => ch.isSendPending.1.nextMsgPacket.1
          written := s.written ++ packetTypeMsg :: bytes } r' := by
  have hnext := h.askAll
  obtain ⟨cd, hcd, rc, hcdid, hcap, hlookup, hlink⟩ := h.links ch hch
  obtain ⟨rc', out, hrecv, hcap', hlink''⟩ :=
    hlink.isSendPending.nextMsgPacket (SendChannel.sending_ne_nil hlink.nil_notMem hpending)
  obtain ⟨hid, hpid⟩ := ch.isSendPending.1.nextMsgPacket_id
  rw [ch.isSendPending_id] at hid hpid
  have htakes := Receiver.takes_packet hbytes (hpid.symm ▸ hlookup) hrecv
  rw [hpid] at htakes
  refine ⟨_, htakes, ?_, fun ch' hch' => ?_, fun id' hid' => ?_⟩
  · exact (updateChannel_ids fun _ _ _ => hid).trans hnext.ids
  · obtain ⟨ch₀, hch₀, ⟨heq, rfl⟩ | ⟨hneq, rfl⟩⟩ := mem_updateChannel hch'
    · rw [hid]
      refine ⟨cd, hcd, rc', hcdid, hcap'.trans hcap, AList.lookup_insert _, ?_⟩
      rw [Receiver.deliveredOn_after_self]
      exact hlink''
    · obtain ⟨cd', hcd', rc₀, hcdid', hcap₀, hlookup₀, hlink₀⟩ := hnext.links ch' hch₀
      refine ⟨cd', hcd', rc₀, hcdid', hcap₀, ?_, ?_⟩
      · exact (AList.lookup_insert_ne hneq).trans hlookup₀
      · rw [Receiver.deliveredOn_after_of_ne hneq]
        exact hlink₀
  · have hne : id' ≠ ch.id := by
      rintro rfl
      exact hid' (hcdid ▸ List.mem_map_of_mem hcd)
    rw [Receiver.deliveredOn_after_of_ne hne]
    exact h.others id' hid'

/-- What is delivered is the beginning of what was sent. -/
theorem prefix_sent (h : Simulates descs sent s r) (id : UInt8) : r.deliveredOn id <+: sent id := by
  by_cases hid : id ∈ descs.map (·.id)
  · rw [← h.ids] at hid
    obtain ⟨ch, hch, rfl⟩ := List.mem_map.mp hid
    obtain ⟨_, _, rc, -, -, -, hlink⟩ := h.links ch hch
    rw [hlink.split, List.append_assoc]
    exact List.prefix_append _ _
  · obtain ⟨hsent, hdelivered⟩ := h.others id hid
    rw [hsent, hdelivered]

/-- **Everything is delivered** once nothing is pending. -/
theorem delivered_of_exhausted (h : Simulates descs sent s r) (hnone : s.pendingPackets = 0)
    (id : UInt8) : r.deliveredOn id = sent id := by
  by_cases hid : id ∈ descs.map (·.id)
  · rw [← h.ids] at hid
    obtain ⟨ch, hch, rfl⟩ := List.mem_map.mp hid
    obtain ⟨_, _, rc, -, -, -, hlink⟩ := h.links ch hch
    have hch0 : ch.pendingPackets = 0 :=
      List.sum_eq_zero_iff_forall_eq_nat.mp hnone _ (List.mem_map_of_mem hch)
    obtain ⟨hsending, hqueue⟩ := SendChannel.idle_of_pendingPackets hlink.nil_notMem hch0
    have hsplit := hlink.split
    unfold SendChannel.onItsWay at hsplit
    rw [if_pos hsending, hqueue, List.append_nil, List.append_nil] at hsplit
    exact hsplit.symm
  · obtain ⟨hsent, hdelivered⟩ := h.others id hid
    rw [hsent, hdelivered]

end Simulates

/-! ## Runs -/

/-- **The condition on an event**, in the state it finds: a message has bytes, and at most ten
packets are pending when the send routine wakes up. -/
def SendEvent.Clear (s : Sender) : SendEvent → Prop
  | .send _ msg => msg ≠ []
  | .wake => s.pendingPackets ≤ numBatchMsgPackets
  | _ => True

instance (s : Sender) : DecidablePred (SendEvent.Clear s)
  | .send _ msg => inferInstanceAs (Decidable (msg ≠ []))
  | .wake => inferInstanceAs (Decidable (_ ≤ _))
  | .packet _ => .isTrue trivial
  | .ping => .isTrue trivial
  | .pong => .isTrue trivial

/-- Every event of a run meets the condition. -/
def AllClear : Sender → List SendEvent → Prop
  | _, [] => True
  | s, event :: events => event.Clear s ∧ ∀ s' ∈ event.exec s, AllClear s' events

instance AllClear.decide : ∀ (s : Sender) (events : List SendEvent), Decidable (AllClear s events)
  | _, [] => .isTrue trivial
  | s, event :: events =>
    have (s' : Sender) : Decidable (AllClear s' events) := AllClear.decide s' events
    inferInstanceAs (Decidable (event.Clear s ∧ ∀ s' ∈ event.exec s, AllClear s' events))

/-- **A paced sender**: without a signal, the batch suffices for what is pending. -/
structure Sender.Paced (s : Sender) : Prop where
  /-- the channels have different identifiers -/
  ids : (s.channels.map (·.id)).Nodup
  /-- every message that waits has bytes -/
  bytes : ∀ ch ∈ s.channels, [] ∉ ch.sendQueue
  /-- the batch suffices -/
  covered : s.signal = false → s.pendingPackets ≤ s.batch

namespace Sender.Paced

variable {s' : Sender}

theorem askAll (h : s.Paced) : ∀ ch ∈ askAll s.channels, [] ∉ ch.sendQueue := by
  intro ch' hch'
  obtain ⟨ch, hch, rfl⟩ := List.mem_map.mp hch'
  exact fun hnil => h.bytes ch hch (ch.isSendPending_sendQueue hnil)

/-- **One round** of the send routine: nothing is left, or one packet less is pending and one
less may be written. -/
theorem packet (h : s.Paced) (hexec : (SendEvent.packet ratio).exec s = some s') : s'.Paced := by
  simp only [SendEvent.exec] at hexec
  split at hexec
  · cases hexec
  · rcases Sender.sendMsgPacket_cases h.ids ratio with
      ⟨heq, hnone⟩ | ⟨ch, hch, bytes, hpending, -, heq⟩
    · rw [heq] at hexec
      cases hexec
      refine ⟨(askAll_ids _).symm ▸ h.ids, h.askAll, fun _ => ?_⟩
      show ((NogoChain.askAll s.channels).map SendChannel.pendingPackets).sum ≤ 0
      rw [sum_askAll, Nat.le_zero, List.sum_eq_zero_iff_forall_eq_nat]
      intro n hn
      obtain ⟨ch, hch, rfl⟩ := List.mem_map.mp hn
      obtain ⟨hsending, hqueue⟩ := SendChannel.idle_of_isSendPending (hnone ch hch)
      unfold SendChannel.pendingPackets
      rw [hsending, hqueue]
      rfl
    · rw [heq] at hexec
      cases hexec
      have hids := (askAll_ids s.channels).symm ▸ h.ids
      have hid : ch.isSendPending.1.nextMsgPacket.1.id = ch.id :=
        ch.isSendPending.1.nextMsgPacket_id.1.trans ch.isSendPending_id
      refine ⟨(updateChannel_ids fun _ _ _ => hid).symm ▸ hids, fun ch' hch' => ?_,
        fun hsignal => ?_⟩
      · obtain ⟨ch₀, hch₀, ⟨-, rfl⟩ | ⟨-, rfl⟩⟩ := mem_updateChannel hch'
        · rw [SendChannel.nextMsgPacket_sendQueue]
          exact h.askAll _ (List.mem_map_of_mem hch)
        · exact h.askAll _ hch₀
      · have hcovered : (s.channels.map SendChannel.pendingPackets).sum ≤ s.batch :=
          h.covered hsignal
        have hone := SendChannel.pendingPackets_nextMsgPacket
          (SendChannel.sending_ne_nil (h.bytes ch hch) hpending)
        have hsum := sum_updateChannel hids (List.mem_map_of_mem hch)
          ch.isSendPending.1.nextMsgPacket.1 SendChannel.pendingPackets
        rw [ch.isSendPending_id, sum_askAll] at hsum
        show ((updateChannel (NogoChain.askAll s.channels) ch.id _).map
          SendChannel.pendingPackets).sum ≤ s.batch - 1
        omega

/-- **One event.** -/
theorem exec (h : s.Paced) {event : SendEvent} (hclear : event.Clear s)
    (hexec : event.exec s = some s') : s'.Paced := by
  cases event with
  | send id msg =>
    simp only [SendEvent.exec] at hexec
    split at hexec
    · cases hexec
      exact h
    · split at hexec
      · cases hexec
        refine ⟨?_, fun ch' hch' => ?_, by simp⟩
        · show ((updateChannel s.channels id _).map (·.id)).Nodup
          rw [updateChannel_ids]
          · exact h.ids
          · exact fun _ _ heq => heq
        obtain ⟨ch, hch, ⟨-, rfl⟩ | ⟨-, rfl⟩⟩ := mem_updateChannel hch'
        · have hmsg : [] ≠ msg := Ne.symm hclear
          simp [hmsg, h.bytes ch hch]
        · exact h.bytes _ hch
      · cases hexec
  | wake =>
    simp only [SendEvent.exec] at hexec
    split at hexec
    · cases hexec
      exact ⟨h.ids, h.bytes, fun _ => hclear⟩
    · cases hexec
  | packet ratio => exact h.packet hexec
  | ping | pong =>
    simp only [SendEvent.exec] at hexec
    split at hexec
    · cases hexec
      exact ⟨h.ids, h.bytes, h.covered⟩
    · cases hexec

/-- **Every run** of events that meet the condition. -/
theorem run {events : List SendEvent} (h : s.Paced) (hclear : AllClear s events)
    (hrun : runSender s events = some s') : s'.Paced := by
  induction events generalizing s with
  | nil =>
    cases hrun
    exact h
  | cons event events ih =>
    obtain ⟨s₁, hexec, hrest⟩ := Option.bind_eq_some_iff.mp hrun
    exact ih (h.exec hclear.1 hexec) (hclear.2 s₁ hexec) hrest

end Sender.Paced

/-- A message is at most as large as its channel allows. -/
def SendEvent.Fits (descs : List ChannelDescriptor) : SendEvent → Prop
  | .send id msg => ∀ cd ∈ descs, cd.id = id → (msg.length : Int) ≤ cd.recvMessageCapacity
  | _ => True

instance (descs : List ChannelDescriptor) : DecidablePred (SendEvent.Fits descs)
  | .send id msg =>
    inferInstanceAs (Decidable (∀ cd ∈ descs, cd.id = id → (msg.length : Int) ≤ _))
  | .wake => .isTrue trivial
  | .packet _ => .isTrue trivial
  | .ping => .isTrue trivial
  | .pong => .isTrue trivial

/-- The state of the sender and what the receiver makes of its bytes. -/
structure Tracks (descs : List ChannelDescriptor) (r₀ : Receiver) (sent : UInt8 → List Bytes)
    (s : Sender) (r : Receiver) : Prop where
  /-- the receiver has read what is written -/
  reads : r₀.Reads s.written r
  simulates : Simulates descs sent s r

/-- **One event.** -/
theorem Tracks.exec (hids : (descs.map (·.id)).Nodup) {s' : Sender} (h : Tracks descs r₀ sent s r)
    {event : SendEvent} (hbytes : ∀ id msg, event = .send id msg → msg ≠ [])
    (hfits : event.Fits descs) (hexec : event.exec s = some s') :
    ∃ r', Tracks descs r₀ (fun id => sent id ++ event.queued descs id) s' r' := by
  cases event with
  | send id msg =>
    simp only [SendEvent.exec] at hexec
    split at hexec
    · next hfound =>
      cases hexec
      have hnone : id ∉ descs.map (·.id) := by
        rw [← h.simulates.ids]
        intro hmem
        obtain ⟨ch, hch, heq⟩ := List.mem_map.mp hmem
        exact absurd (decide_eq_true heq) (List.find?_eq_none.mp hfound ch hch)
      have hqueued : ∀ id', (SendEvent.send id msg).queued descs id' = [] := by
        intro id'
        refine if_neg ?_
        rintro ⟨rfl, hmem⟩
        exact hnone hmem
      refine ⟨r, ?_⟩
      simp only [hqueued, List.append_nil]
      exact h
    · next ch hfound =>
      split at hexec
      · cases hexec
        have hmem : id ∈ descs.map (·.id) := by
          rw [← h.simulates.ids]
          have heq : ch.id = id := by simpa using List.find?_some hfound
          exact heq ▸ List.mem_map_of_mem (List.mem_of_find?_eq_some hfound)
        exact ⟨r, h.reads, h.simulates.send (hbytes id msg rfl) hfits hmem⟩
      · cases hexec
  | wake =>
    change (if _ then _ else _) = _ at hexec
    split at hexec
    · cases hexec
      simp only [SendEvent.queued, List.append_nil]
      exact ⟨r, h.reads, h.simulates.congr rfl⟩
    · cases hexec
  | packet ratio =>
    simp only [SendEvent.exec] at hexec
    split at hexec
    · cases hexec
    · next hbatch =>
      simp only [SendEvent.queued, List.append_nil]
      have hids' : (s.channels.map (·.id)).Nodup := h.simulates.ids.symm ▸ hids
      rcases Sender.sendMsgPacket_cases hids' ratio with
        ⟨heq, hnone⟩ | ⟨ch, hch, bytes, hpending, hbytes, heq⟩
      · rw [heq] at hexec
        cases hexec
        exact ⟨r, h.reads, h.simulates.askAll.congr rfl⟩
      · rw [heq] at hexec
        cases hexec
        obtain ⟨r', htakes, hsimulates⟩ := h.simulates.packet hch hpending hbytes
        exact ⟨r', h.reads.snoc htakes, hsimulates.congr rfl⟩
  | ping =>
    change (if s.batch = 0 then _ else none) = _ at hexec
    split at hexec
    · cases hexec
      simp only [SendEvent.queued, List.append_nil]
      exact ⟨r, h.reads.snoc r.takes_ping, h.simulates.congr rfl⟩
    · cases hexec
  | pong =>
    change (if s.batch = 0 then _ else none) = _ at hexec
    split at hexec
    · cases hexec
      simp only [SendEvent.queued, List.append_nil]
      exact ⟨r, h.reads.snoc r.takes_pong, h.simulates.congr rfl⟩
    · cases hexec

theorem Tracks.run (hids : (descs.map (·.id)).Nodup) {events : List SendEvent} {s' : Sender}
    (h : Tracks descs r₀ sent s r) (hbytes : ∀ id msg, .send id msg ∈ events → msg ≠ [])
    (hfits : ∀ event ∈ events, event.Fits descs) (hrun : runSender s events = some s') :
    ∃ r', Tracks descs r₀ (fun id => sent id ++ sentOn descs id events) s' r' := by
  induction events generalizing s r sent with
  | nil =>
    cases hrun
    refine ⟨r, ?_⟩
    simp only [sentOn, List.flatMap_nil, List.append_nil]
    exact h
  | cons event events ih =>
    obtain ⟨s₁, hexec, hrest⟩ := Option.bind_eq_some_iff.mp hrun
    obtain ⟨hfirst, hfits⟩ := List.forall_mem_cons.mp hfits
    obtain ⟨r₁, h₁⟩ := h.exec hids (fun id msg heq => hbytes id msg (heq ▸ List.mem_cons_self))
      hfirst hexec
    obtain ⟨r', h'⟩ := ih h₁ (fun id msg hmem => hbytes id msg (List.mem_cons_of_mem _ hmem))
      hfits hrest
    refine ⟨r', ?_⟩
    simp only [List.append_assoc] at h'
    exact h'

/-! ## A new connection -/

theorem nodup_of_validateUnique {seen : List UInt8} (h : validateUnique seen descs = .ok ()) :
    (∀ cd ∈ descs, cd.id ∉ seen) ∧ (descs.map (·.id)).Nodup := by
  induction descs generalizing seen with
  | nil => exact ⟨nofun, .nil⟩
  | cons cd descs ih =>
    unfold validateUnique at h
    split at h
    · cases h
    · next hnew =>
      obtain ⟨hrest, hnodup⟩ := ih h
      refine ⟨List.forall_mem_cons.mpr ⟨hnew, fun cd' hcd' hseen => ?_⟩, ?_⟩
      · exact hrest cd' hcd' (List.mem_cons_of_mem _ hseen)
      · rw [List.map_cons, List.nodup_cons]
        refine ⟨fun hmem => ?_, hnodup⟩
        obtain ⟨cd', hcd', heq⟩ := List.mem_map.mp hmem
        exact hrest cd' hcd' (heq ▸ List.mem_cons_self)

theorem tracks_new (h : newMConnection descs = .ok (s, r)) :
    (descs.map (·.id)).Nodup ∧ Tracks descs r (fun _ => []) s r ∧ s.Paced := by
  unfold newMConnection at h
  split at h
  · cases h
  · next hvalid =>
    obtain ⟨rfl, rfl⟩ := h
    have hids : (descs.map (·.id)).Nodup := by
      unfold validateDescriptors at hvalid
      split at hvalid
      · cases hvalid
      · split at hvalid
        · cases hvalid
        · next hunique => exact (nodup_of_validateUnique hunique).2
    refine ⟨hids, ⟨.nil, ?_, fun ch hch => ?_, fun _ _ => ⟨rfl, rfl⟩⟩, ?_, fun ch hch => ?_,
      fun _ => ?_⟩
    · rw [List.map_map]
      rfl
    · obtain ⟨cd, hcd, rfl⟩ := List.mem_map.mp hch
      refine ⟨cd, hcd, ⟨[], cd.recvMessageCapacity⟩, rfl, rfl, ?_, ⟨rfl, fun _ => rfl, nofun⟩⟩
      exact GoMap.lookup_foldl_insert (·.id) (fun cd : ChannelDescriptor =>
        (⟨[], cd.recvMessageCapacity⟩ : RecvChannel)) hids hcd ∅
    · rw [List.map_map]
      exact hids
    · obtain ⟨cd, -, rfl⟩ := List.mem_map.mp hch
      exact nofun
    · change ((descs.map _).map SendChannel.pendingPackets).sum ≤ 0
      rw [Nat.le_zero, List.sum_eq_zero_iff_forall_eq_nat]
      intro n hn
      obtain ⟨ch, hch, rfl⟩ := List.mem_map.mp hn
      obtain ⟨cd, -, rfl⟩ := List.mem_map.mp hch
      simp [SendChannel.pendingPackets, packetCount, maxMsgPacketPayloadSize]

/-- **The connection delivers what was queued**, in every run whose messages have bytes: the
receiver reads what is written without an error, and what it delivers on a channel is the
beginning of what was sent on it. It is all of it, if all events meet the condition, when the
send routine waits and has no signal. -/
theorem delivered_eq_sent {descs : List ChannelDescriptor} {s₀ s : Sender} {r₀ : Receiver}
    (hnew : newMConnection descs = .ok (s₀, r₀)) {events : List SendEvent}
    (hrun : runSender s₀ events = some s) (hfits : ∀ event ∈ events, event.Fits descs)
    (hbytes : ∀ id msg, .send id msg ∈ events → msg ≠ []) :
    ∃ r, r₀.recvRoutine s.written = (r, none) ∧ (∀ id, r.deliveredOn id <+: sentOn descs id events)
      ∧ (AllClear s₀ events → s.signal = false → s.batch = 0 →
        ∀ id, r.deliveredOn id = sentOn descs id events) := by
  obtain ⟨hids, htracks, hpaced⟩ := tracks_new hnew
  obtain ⟨r, h⟩ := htracks.run hids hbytes hfits hrun
  refine ⟨r, h.reads.recvRoutine, h.simulates.prefix_sent, fun hclear hsignal hbatch => ?_⟩
  have hnone : s.pendingPackets ≤ 0 := hbatch ▸ (hpaced.run hclear hrun).covered hsignal
  exact h.simulates.delivered_of_exhausted (Nat.le_zero.mp hnone)

/-- Two channels. -/
def twoChannels : List ChannelDescriptor := [⟨1, 5, 256, 4096, 4096⟩, ⟨2, 5, 256, 4096, 4096⟩]

/-- A message of two packets and one of a single packet, and the rounds that write them. -/
def longAndShort : List SendEvent :=
  [.send 1 (List.replicate 1025 7), .send 2 [8, 9], .wake, .packet fun _ => 0,
    .packet fun _ => 0, .packet fun _ => 0, .packet fun _ => 0]

theorem delivered_eq_sent_longAndShort :
    ∃ s₀ r₀ s r, newMConnection twoChannels = .ok (s₀, r₀) ∧ runSender s₀ longAndShort = some s
      ∧ r₀.recvRoutine s.written = (r, none)
      ∧ r.deliveredOn 1 = [List.replicate 1025 7] ∧ r.deliveredOn 2 = [[8, 9]] := by
  obtain ⟨s₀, r₀, hnew, hclear, s, hs, hsignal, hbatch⟩ :
      ∃ s₀ r₀, newMConnection twoChannels = .ok (s₀, r₀) ∧ AllClear s₀ longAndShort
      ∧ ∃ s, runSender s₀ longAndShort = some s ∧ s.signal = false ∧ s.batch = 0 := by
    decide +kernel
  have hbytes : ∀ id msg, .send id msg ∈ longAndShort → msg ≠ [] := by
    intro id msg hmem
    simp only [longAndShort, List.mem_cons, SendEvent.send.injEq, reduceCtorEq, List.not_mem_nil,
      or_false] at hmem
    obtain ⟨-, rfl⟩ | ⟨-, rfl⟩ := hmem <;> exact List.cons_ne_nil _ _
  obtain ⟨r, hr, -, hall⟩ := delivered_eq_sent hnew hs (by decide +kernel) hbytes
  exact ⟨s₀, r₀, s, r, hnew, hs, hr, hall hclear hsignal hbatch 1, hall hclear hsignal hbatch 2⟩

/-- **A message without bytes is lost** when another channel is served first, and **a message
is left behind** after ten packets: in both runs the send routine waits, without a signal. -/
theorem queued_message_not_delivered : (∃ s₀ r₀ s r, newMConnection twoChannels = .ok (s₀, r₀)
        ∧ runSender s₀ [.send 1 [7], .send 2 [], .wake, .packet fun _ => 0, .packet fun _ => 0]
          = some s
        ∧ s.signal = false ∧ s.batch = 0 ∧ r₀.recvRoutine s.written = (r, none)
        ∧ s.channels.all (fun ch => ch.sendQueue.isEmpty && ch.sending.isEmpty)
        ∧ r.deliveredOn 2 = [])
      ∧ ∃ s₀ r₀ s r, newMConnection twoChannels = .ok (s₀, r₀)
        ∧ runSender s₀ (List.replicate 11 (.send 1 [7]) ++ .wake
          :: List.replicate 10 (.packet fun _ => 0)) = some s
        ∧ s.signal = false ∧ s.batch = 0 ∧ r₀.recvRoutine s.written = (r, none)
        ∧ r.deliveredOn 1 = List.replicate 10 [7] := by
  simp only [exists_and_left]
  constructor
  · decide
  · decide +kernel

/-- **Nothing is left behind** in any run all of whose events meet the condition: when the send
routine waits and has no signal, no channel has a message that waits or one partly sent. -/
theorem waiting_sender_idle {descs : List ChannelDescriptor} {s₀ s : Sender} {r₀ : Receiver}
    (hnew : newMConnection descs = .ok (s₀, r₀)) {events : List SendEvent}
    (hrun : runSender s₀ events = some s) (hclear : AllClear s₀ events) (hbatch : s.batch = 0)
    (hsignal : s.signal = false) : ∀ ch ∈ s.channels, ch.sending = [] ∧ ch.sendQueue = [] := by
  have hpaced := (tracks_new hnew).2.2.run hclear hrun
  have hnone : s.pendingPackets = 0 := Nat.le_zero.mp (hbatch ▸ hpaced.covered hsignal)
  intro ch hch
  refine SendChannel.idle_of_pendingPackets (hpaced.bytes ch hch) ?_
  exact List.sum_eq_zero_iff_forall_eq_nat.mp hnone _ (List.mem_map_of_mem hch)

/-- A message of two packets, and the rounds that write it. -/
def twoPackets : List SendEvent :=
  [.send 1 (List.replicate 1025 7), .wake, .packet fun _ => 0, .packet fun _ => 0,
    .packet fun _ => 0]

theorem waiting_sender_idle_twoPackets :
    ∃ s₀ r₀ s, newMConnection twoChannels = .ok (s₀, r₀)
      ∧ runSender s₀ twoPackets = some s ∧ s.batch = 0 ∧ s.signal = false
      ∧ ∀ ch ∈ s.channels, ch.sending = [] ∧ ch.sendQueue = [] := by
  obtain ⟨s₀, r₀, hnew, hclear, s, hs, hbatch, hsignal⟩ :
      ∃ s₀ r₀, newMConnection twoChannels = .ok (s₀, r₀)
      ∧ AllClear s₀ twoPackets
      ∧ ∃ s, runSender s₀ twoPackets = some s ∧ s.batch = 0 ∧ s.signal = false := by
    decide +kernel
  exact ⟨s₀, r₀, s, hnew, hs, hbatch, hsignal, waiting_sender_idle hnew hs hclear hbatch hsignal⟩

/-- **A message of eleven packets is left behind** after ten of them: the send routine waits
without a signal, and one byte is still to be sent. -/
theorem waiting_sender_not_idle :
    ∃ s₀ r₀ s, newMConnection twoChannels = .ok (s₀, r₀)
      ∧ runSender s₀ (.send 1 (List.replicate (10 * maxMsgPacketPayloadSize + 1) 7) :: .wake
        :: List.replicate 10 (.packet fun _ => 0)) = some s
      ∧ s.batch = 0 ∧ s.signal = false ∧ ∃ ch ∈ s.channels, ch.sending = [7] := by
  simp only [exists_and_left]
  decide +kernel

end NogoChain
