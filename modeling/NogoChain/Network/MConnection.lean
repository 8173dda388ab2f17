import NogoChain.Lib.GoBytes
import NogoChain.Lib.GoMap

/-!
# The multiplexed connection

`mconnection` carries the messages of several channels over one connection. The sender cuts a
message into packets of at most 1024 bytes, the last of which is marked, and writes one packet
at a time of the channel that has sent the least for its priority; the receiver puts the
packets of each channel together again.

The send routine waits for a signal, which `Send` leaves in a buffer of one, and then writes a
batch of at most ten packets. Whether a channel has something to send is asked by a function
that also takes the next message from the queue. What a channel has sent recently is an
argument of each round: it decides between the channels and nothing else.
-/

namespace NogoChain

/-! ## Descriptors -/

structure ChannelDescriptor where
  id : UInt8
  priority : Int
  /-- how many messages may wait -/
  sendQueueCapacity : Int
  /-- initial size of the receive buffer -/
  recvBufferCapacity : Int
  /-- size of the largest message -/
  recvMessageCapacity : Int
deriving DecidableEq

/-- A field of a descriptor that has to be positive. -/
def ChannelDescriptor.requirePositive (cd : ChannelDescriptor) (value : Int) (text : String) :
    Except GoError Unit :=
  if value ≤ 0 then .error (.errorf text [.num cd.id.toNat, .num value]) else .ok ()

def ChannelDescriptor.validate (cd : ChannelDescriptor) : Except GoError Unit :=
  if cd.id = 0 then .error (.new "channel ID must not be zero")
  else do
    cd.requirePositive cd.priority "channel %d: priority must be positive, got %d"
    cd.requirePositive cd.sendQueueCapacity
      "channel %d: send queue capacity must be positive, got %d"
    cd.requirePositive cd.recvBufferCapacity
      "channel %d: recv buffer capacity must be positive, got %d"
    cd.requirePositive cd.recvMessageCapacity
      "channel %d: recv message capacity must be positive, got %d"

/-- `ValidateUnique`, after the identifiers `seen`. -/
def validateUnique (seen : List UInt8) : List ChannelDescriptor → Except GoError Unit
  | [] => .ok ()
  | cd :: descs =>
    if cd.id ∈ seen then .error (.errorf "duplicate channel ID: 0x%02x" [.num cd.id.toNat])
    else validateUnique (cd.id :: seen) descs

/-- The loop of `ValidateDescriptors`. -/
def validateEach : List ChannelDescriptor → Except GoError Unit
  | [] => .ok ()
  | cd :: descs =>
    match cd.validate with
    | .error e => .error (.wrap "invalid channel descriptor: %w" [] e)
    | .ok () => validateEach descs

def validateDescriptors (descs : List ChannelDescriptor) : Except GoError Unit :=
  match validateEach descs with
  | .error e => .error e
  | .ok () =>
    match validateUnique [] descs with
    | .error e => .error (.wrap "channel validation: %w" [] e)
    | .ok () => .ok ()

/-! ## Packets -/

def maxMsgPacketPayloadSize : Nat := 1024

def packetTypePing : UInt8 := 1

def packetTypePong : UInt8 := 2

def packetTypeMsg : UInt8 := 3

structure MsgPacket where
  channelId : UInt8
  data : Bytes
  /-- whether it is the last part -/
  eof : Bool
deriving DecidableEq

/-- `SerializeTo`: a header of four bytes and the payload. -/
def MsgPacket.serializeTo (p : MsgPacket) : Except GoError Bytes :=
  if p.data.length > maxMsgPacketPayloadSize then
    .error (.errorf "payload size %d exceeds maximum %d"
      [.num p.data.length, .num maxMsgPacketPayloadSize])
  else
    .ok (p.channelId :: (bigEndian 2 p.data.length ++ [if p.eof then 1 else 0]) ++ p.data)

/-- The last byte of a frame of `Serialize`, the fourth of one of `SerializeTo`. -/
def MsgPacket.eofByte (p : MsgPacket) : UInt8 := if p.eof then 1 else 0

/-- `Serialize`: here the EOF flag follows the payload. -/
def MsgPacket.serialize (p : MsgPacket) : Except GoError Bytes :=
  if p.data.length > maxMsgPacketPayloadSize then
    .error (.errorf "payload size %d exceeds maximum %d"
      [.num p.data.length, .num maxMsgPacketPayloadSize])
  else .ok (p.channelId :: bigEndian 2 p.data.length ++ p.data ++ [p.eofByte])

def deserializePacket : Bytes → ReadResult MsgPacket
  | channelId :: high :: low :: eofFlag :: rest =>
    let payloadLen := ofBigEndian [high, low]
    if payloadLen > maxMsgPacketPayloadSize then
      .error (.errorf "payload length %d exceeds maximum %d"
        [.num payloadLen, .num maxMsgPacketPayloadSize])
    else if rest.length < payloadLen then .more
    else .ok ⟨channelId, rest.take payloadLen, eofFlag = 1⟩ (rest.drop payloadLen)
  | _ => .more

/-! ## The sending side -/

/-- The fields of `Channel` that the send routine uses. -/
structure SendChannel where
  id : UInt8
  /-- messages that wait, the oldest first -/
  sendQueue : List Bytes
  sendQueueCapacity : Int
  /-- what is left of the message that is being sent -/
  sending : Bytes
deriving DecidableEq

/-- `isSendPending`: whether there is something to send; the next message is taken from the
queue if nothing is left of the last. -/
def SendChannel.isSendPending (ch : SendChannel) : SendChannel × Bool :=
  if ch.sending.length = 0 then
    match ch.sendQueue with
    | msg :: queue => ({ ch with sending := msg, sendQueue := queue }, true)
    | [] => (ch, false)
  else (ch, true)

def SendChannel.nextMsgPacket (ch : SendChannel) : SendChannel × MsgPacket :=
  let data := ch.sending.take maxMsgPacketPayloadSize
  if ch.sending.length ≤ maxMsgPacketPayloadSize then
    ({ ch with sending := [] }, ⟨ch.id, data, true⟩)
  else
    ({ ch with sending := ch.sending.drop maxMsgPacketPayloadSize }, ⟨ch.id, data, false⟩)

/-- The sending side of a connection. -/
structure Sender where
  /-- the channels in the order of their descriptors -/
  channels : List SendChannel
  /-- whether `Send` has left a signal -/
  signal : Bool
  /-- how many packets the send routine may still write in its batch; 0 while it waits -/
  batch : Nat
  written : Bytes
deriving DecidableEq

def numBatchMsgPackets : Nat := 10

/-- The loop of `sendMsgPacket` over the channels: every channel is asked whether something is
pending, and the first of those with the least ratio is kept. -/
def leastChannel (ratio : UInt8 → Nat) :
    List SendChannel → Option UInt8 → List SendChannel × Option UInt8
  | [], least => ([], least)
  | ch :: channels, least =>
    let (ch', pending) := ch.isSendPending
    let better := least.all fun id => ratio ch.id < ratio id
    let (channels', chosen) :=
      leastChannel ratio channels (if pending && better then some ch.id else least)
    (ch' :: channels', chosen)

/-- Change the channel with an identifier. -/
def updateChannel (channels : List SendChannel) (id : UInt8) (f : SendChannel → SendChannel) :
    List SendChannel :=
  channels.map fun ch => if ch.id = id then f ch else ch

/-- `sendMsgPacket`: one packet of the chosen channel; true if no channel has anything to
send. A packet that cannot be serialized would stop the connection. -/
def Sender.sendMsgPacket (s : Sender) (ratio : UInt8 → Nat) : Sender × Bool :=
  let (channels, chosen) := leastChannel ratio s.channels none
  match chosen.bind fun id => channels.find? (·.id = id) with
  | none => ({ s with channels := channels }, true)
  | some ch =>
    let (ch', packet) := ch.nextMsgPacket
    let channels' := updateChannel channels ch.id fun _ => ch'
    match packet.serializeTo with
    | .error _ => ({ s with channels := channels' }, true)
    | .ok bytes =>
      ({ s with channels := channels', written := s.written ++ packetTypeMsg :: bytes }, false)

/-- What happens on the sending side. -/
inductive SendEvent where
  | send (id : UInt8) (msg : Bytes)
  /-- the send routine takes the signal -/
  | wake
  /-- the next round of the loop in `sendSomeMsgPackets` -/
  | packet (ratio : UInt8 → Nat)
  | ping
  | pong

/-- What an event does; `none` if it cannot happen. `Send` waits while the queue is full, and
the send routine does one thing at a time. -/
def SendEvent.exec (s : Sender) : SendEvent → Option Sender
  | .send id msg =>
    match s.channels.find? (·.id = id) with
    | none => some s
    | some ch =>
      if ch.sendQueue.length < ch.sendQueueCapacity then
        some { s with
          channels := updateChannel s.channels id fun ch =>
            { ch with sendQueue := ch.sendQueue ++ [msg] }
          signal := true }
      else none
  | .wake =>
    if s.signal ∧ s.batch = 0 then some { s with signal := false, batch := numBatchMsgPackets }
    else none
  | .packet ratio =>
    if s.batch = 0 then none
    else
      let (s', exhausted) := s.sendMsgPacket ratio
      some { s' with batch := if exhausted then 0 else s.batch - 1 }
  | .ping => if s.batch = 0 then some { s with written := s.written ++ [packetTypePing] } else none
  | .pong => if s.batch = 0 then some { s with written := s.written ++ [packetTypePong] } else none

/-- The sender after some events. -/
def runSender (s : Sender) : List SendEvent → Option Sender
  | [] => some s
  | event :: events => (event.exec s).bind fun s' => runSender s' events

/-! ## The receiving side -/

/-- The fields of `Channel` that the receive routine uses. -/
structure RecvChannel where
  /-- what has arrived of the message that is being received -/
  recving : Bytes
  /-- size of the largest message -/
  recvMessageCapacity : Int
deriving DecidableEq

/-- `recvMsgPacket`: the message if the packet completes it. -/
def RecvChannel.recvMsgPacket (ch : RecvChannel) (packet : MsgPacket) :
    Except GoError (RecvChannel × Option Bytes) :=
  let newLen := ch.recving.length + packet.data.length
  if (newLen : Int) > ch.recvMessageCapacity then
    .error (.errorf "recv message capacity exceeded: %d > %d"
      [.num newLen, .num ch.recvMessageCapacity])
  else if packet.eof then .ok ({ ch with recving := [] }, some (ch.recving ++ packet.data))
  else .ok ({ ch with recving := ch.recving ++ packet.data }, none)

/-- The receiving side of a connection. -/
structure Receiver where
  /-- the channels by identifier -/
  channels : GoMap UInt8 RecvChannel
  /-- the calls of `onReceive`, the oldest first -/
  delivered : List (UInt8 × Bytes)

/-- What one round of the receive routine comes to. -/
inductive RecvStep where
  /-- it waits for more bytes -/
  | waiting
  /-- it stops the connection -/
  | stopped (e : GoError)
  /-- it goes on with the rest of the bytes -/
  | next (r : Receiver) (rest : Bytes)

/-- One round of `recvRoutine`. -/
def Receiver.recvRound (r : Receiver) : Bytes → RecvStep
  | [] => .waiting
  | pktType :: input =>
    if pktType = packetTypePing then .next r input
    else if pktType = packetTypePong then .next r input
    else if pktType = packetTypeMsg then
      match deserializePacket input with
      | .more => .waiting
      | .error e =>
        .stopped (.wrap "read msg packet: %w" [] (.wrap "deserialize packet: %w" [] e))
      | .ok packet rest =>
        match r.channels.lookup packet.channelId with
        | none => .stopped (.errorf "unknown channel ID: 0x%02x" [.num packet.channelId.toNat])
        | some ch =>
          match ch.recvMsgPacket packet with
          | .error e =>
            .stopped (.wrap "recv msg packet on channel 0x%02x: %w" [.num packet.channelId.toNat] e)
          | .ok (ch', none) =>
            .next { r with channels := r.channels.insert packet.channelId ch' } rest
          | .ok (ch', some msg) =>
            .next ⟨r.channels.insert packet.channelId ch',
              r.delivered ++ [(packet.channelId, msg)]⟩ rest
    else .stopped (.errorf "unknown packet type: 0x%02x" [.num pktType.toNat])

/-- `recvRoutine`, for as many rounds: the receiver, and the error that has stopped the
connection. -/
def Receiver.recvRounds : Nat → Receiver → Bytes → Receiver × Option GoError
  | 0, r, _ => (r, none)
  | rounds + 1, r, input =>
    match r.recvRound input with
    | .waiting => (r, none)
    | .stopped e => (r, some e)
    | .next r' rest => r'.recvRounds rounds rest

/-- `recvRoutine` on the bytes that have arrived; every round takes one byte at least. -/
def Receiver.recvRoutine (r : Receiver) (input : Bytes) : Receiver × Option GoError :=
  r.recvRounds input.length input

/-- The messages delivered on a channel. -/
def Receiver.deliveredOn (r : Receiver) (id : UInt8) : List Bytes :=
  (r.delivered.filter (·.1 = id)).map (·.2)

/-! ## A connection -/

/-- `NewMConnection`: the two sides of a connection between nodes with the same descriptors. -/
def newMConnection (descs : List ChannelDescriptor) : Except GoError (Sender × Receiver) :=
  match validateDescriptors descs with
  | .error e => .error (.wrap "invalid channel descriptors: %w" [] e)
  | .ok () =>
    .ok (⟨descs.map fun cd => ⟨cd.id, [], cd.sendQueueCapacity, []⟩, false, 0, []⟩,
      ⟨descs.foldl (fun m cd => m.insert cd.id ⟨[], cd.recvMessageCapacity⟩) ∅, []⟩)

/-- What an event queues on a channel: `Send` refuses an identifier that no channel has. -/
def SendEvent.queued (descs : List ChannelDescriptor) (id : UInt8) : SendEvent → List Bytes
  | .send id' msg => if id' = id ∧ id ∈ descs.map (·.id) then [msg] else []
  | _ => []

/-- The messages that calls of `Send` have queued on a channel. -/
def sentOn (descs : List ChannelDescriptor) (id : UInt8) (events : List SendEvent) : List Bytes :=
  events.flatMap (SendEvent.queued descs id)

end NogoChain
