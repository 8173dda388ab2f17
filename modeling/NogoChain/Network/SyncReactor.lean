import NogoChain.Chain.State

/-!
# The sync reactor

`SyncReactor.Receive` takes a message of the sync channel apart – one byte for the type, JSON
for the rest – and hands it to a method of `SyncReactorHandler`, which answers from the chain,
passes blocks on, or asks for a synchronisation. Requests for headers and blocks are answered
in goroutines of their own, which see the chain as it is when they get to it.

Here are the messages about headers, blocks, locators, missing data and status. What
`json.Unmarshal` makes of a payload is left open, a value or an error; so are `AddBlock`, the
other message types, the clock, and whether a peer takes a message.
-/

namespace NogoChain

/-! ## Messages -/

/-- The types of the messages modelled here. -/
inductive SyncMsgType where
  | getHeaders
  | headers
  | getBlocks
  | blocks
  | getBlockLocator
  | blockLocator
  | status
  | statusRequest
  | notFound
deriving DecidableEq

/-- The type that a byte stands for. -/
def SyncMsgType.ofByte (b : UInt8) : Option SyncMsgType :=
  if b = 0x01 then some .getHeaders
  else if b = 0x02 then some .headers
  else if b = 0x03 then some .getBlocks
  else if b = 0x04 then some .blocks
  else if b = 0x05 then some .getBlockLocator
  else if b = 0x06 then some .blockLocator
  else if b = 0x07 then some .status
  else if b = 0x08 then some .statusRequest
  else if b = 0xFF then some .notFound
  else none

/-- The payload of a status message. -/
structure StatusPayload where
  height : UInt64
  work : Bytes
  /-- hash of its tip, in hexadecimal -/
  latestHash : Bytes

/-- A message that the handlers send, before it is encoded. -/
inductive SyncMsg where
  /-- `BuildHeadersMsg` -/
  | headers (headers : List BlockHeader) (hasMore : Bool)
  /-- `BuildBlocksMsg` -/
  | blocks (blocks : List Block)
  /-- `BuildBlockLocatorMsg` -/
  | blockLocator (topHeight : UInt64) (locators : List Bytes)
  /-- `BuildStatusMsg` -/
  | status (status : StatusPayload)
  /-- `buildNotFoundMsgForSync` -/
  | notFound (msgType : SyncMsgType) (ids : List Bytes)

/-- A goroutine that a handler starts. -/
inductive Goroutine where
  /-- of `OnGetHeaders` -/
  | sendHeaders (peerID : Bytes) (fromHeight count : UInt64)
  /-- of `OnGetBlocks` -/
  | sendBlocks (peerID : Bytes) (heights : List UInt64)
  /-- of `DeliverSyncBlock`, when the channel is full -/
  | deliverSyncBlock (peerID : Bytes) (block : Block)
  /-- of `OnBlocks`, for a block that was accepted -/
  | relayBlock (block : Block) (excludePeer : Bytes)

/-! ## The node -/

/-- A node, as its sync reactor sees it. -/
structure SyncNode where
  chain : Chain
  /-- hashes of blocks seen, with the time -/
  recentBlocks : GoMap Bytes Int
  /-- `syncLogLimiter.last` -/
  syncLog : GoMap Bytes Int
  /-- `handlersLogLimiter.last` -/
  handlersLog : GoMap Bytes Int
  /-- peers whose handshake is pending, and whether its channel has been signalled -/
  handshakePending : GoMap Bytes Bool
  syncBlockCh : List (Bytes × Block)
  /-- whether a synchronisation has been asked for -/
  syncTriggered : Bool
  /-- messages sent, with the peer -/
  sent : List (Bytes × SyncMsg)
  /-- goroutines started since the message arrived -/
  started : List Goroutine
  /-- number of times the run time was asked -/
  tick : Nat

/-- Programs of the reactor. -/
abbrev SyncM := Prog SyncNode GoError Fault

/-- What the reactor calls, and what the run time decides. -/
structure SyncEnv where
  /-- `json.Unmarshal` into a `getHeadersPayload` -/
  readGetHeaders : Bytes → Except GoError (UInt64 × UInt64)
  /-- into a `headersPayload`; nil bytes are `none` -/
  readHeaders : Bytes → Except GoError (Option Bytes × Bool)
  /-- into a `[]*core.BlockHeader`; a nil pointer is `none` -/
  readHeaderList : Bytes → Except GoError (List (Option BlockHeader))
  /-- into a `getBlocksPayload` -/
  readGetBlocks : Bytes → Except GoError (List UInt64)
  /-- into a `[]json.RawMessage` -/
  readRawBlocks : Bytes → Except GoError (List Bytes)
  /-- into a `core.Block`, a new object -/
  readBlock : Nat → Bytes → Except GoError Block
  /-- into a `getBlockLocatorPayload` -/
  readGetBlockLocator : Bytes → Except GoError UInt64
  /-- into a `blockLocatorPayload`; nil locators are `none` -/
  readBlockLocator : Bytes → Except GoError (UInt64 × Option (List Bytes))
  /-- into a `notFoundPayload` -/
  readNotFound : Bytes → Except GoError (UInt8 × List Bytes)
  /-- into the payload of a status message -/
  readStatus : Bytes → Except GoError StatusPayload
  addBlock : Chain → Block → Chain × Except GoError Bool
  syncLoop : Bool
  isSyncing : Nat → Bool
  isSynced : Nat → Bool
  /-- whether a peer takes a message -/
  sendOk : Nat → Bool
  /-- reading of the clock, in nanoseconds -/
  now : Nat → Int
  /-- order in which a map is ranged over -/
  order : Nat → List (Bytes × Int) → List (Bytes × Int)
  /-- what is done with messages of other types -/
  otherMessage : UInt8 → Bytes → Bytes → SyncM Unit

variable (env : SyncEnv)

/-- Ask the run time for something. -/
def SyncNode.ask {α : Type} (answer : Nat → α) : SyncM α := do
  let n ← Prog.get
  Prog.modify fun n => { n with tick := n.tick + 1 }
  pure (answer n.tick)

/-- `rateLimiter.allow`, with what it leaves in its map. -/
def allowed (dur : Int) (last : GoMap Bytes Int) (key : Bytes) (now : Int) :
    Bool × GoMap Bytes Int :=
  match last.lookup key with
  | some t => if now - t < dur then (false, last) else (true, last.insert key now)
  | none => (true, last.insert key now)

/-- A second, in nanoseconds. -/
def second : Int := 1000000000

/-- `syncLogLimiter.allow`. -/
def allowSyncLog (key : Bytes) : SyncM Bool := do
  let now ← SyncNode.ask env.now
  let n ← Prog.get
  let (ok, last) := allowed (30 * second) n.syncLog key now
  Prog.modify fun n => { n with syncLog := last }
  pure ok

/-- `handlersLogLimiter.allow`. -/
def allowHandlersLog (key : Bytes) : SyncM Bool := do
  let now ← SyncNode.ask env.now
  let n ← Prog.get
  let (ok, last) := allowed (15 * second) n.handlersLog key now
  Prog.modify fun n => { n with handlersLog := last }
  pure ok

/-- `sw.Send` on the sync channel. -/
def sendSync (peerID : Bytes) (msg : SyncMsg) : SyncM Bool := do
  let ok ← SyncNode.ask env.sendOk
  Prog.when ok (Prog.modify fun n => { n with sent := n.sent ++ [(peerID, msg)] })
  pure ok

/-- The `go` statement. -/
def spawn (g : Goroutine) : SyncM Unit :=
  Prog.modify fun n => { n with started := n.started ++ [g] }

/-! ## Questions to the chain -/

/-- The largest capacity of a slice of pointers: what fits into the address space of 2⁴⁸ bytes. -/
def maxPointers : Nat := 2 ^ 45

/-- The header of a block as `HeadersFrom` copies it; the state root is left out. -/
def Block.headerAt (b : Block) (height : UInt64) : BlockHeader where
  version := b.header.version
  prevHash := b.header.prevHash
  timestampUnix := b.header.timestampUnix
  difficultyBits := b.header.difficultyBits
  difficulty := b.header.difficulty
  nonce := b.header.nonce
  stateRoot := []
  merkleRoot := b.header.merkleRoot
  height := height
  minerAddress := b.minerAddress

/-- `HeadersFrom`. The sum of height and count is one of 64 bits, and `make` panics if the
capacity is out of range. -/
def Chain.headersFrom (c : Chain) (fromHeight count : UInt64) : Except Fault (List BlockHeader) :=
  if fromHeight ≥ c.length64 then .ok []
  else
    let sum := fromHeight + count
    let stop := if sum > c.length64 then c.length64 else sum
    if (stop - fromHeight).toNat > maxPointers then
      .error (.panic "make([]*BlockHeader, 0, end-from)")
    else
      .ok (((c.blocks.drop fromHeight.toNat).take (stop.toNat - fromHeight.toNat)).mapIdx
        fun k b => b.headerAt (fromHeight + UInt64.ofNat k))

def Chain.blockByHeight (c : Chain) (height : UInt64) : Option Block :=
  if height ≥ c.length64 then none else c.blocks[height.toNat]?

/-- The loop of `buildBlockLocatorFromChain`, with room for so many entries. The distance
doubles after every nine of them. -/
def Chain.locatorFrom (c : Chain) : Nat → UInt64 → UInt64 → List Bytes
  | 0, _, _ => []
  | room + 1, step, currentHeight =>
    match c.blockByHeight currentHeight with
    | none => []
    | some block =>
      block.hash ::
        if currentHeight = 0 then []
        else
          let nextHeight := if currentHeight < step then 0 else currentHeight - step
          match c.blockByHeight nextHeight with
          | none => []
          | some _ =>
            let entryCount := 50 - room
            c.locatorFrom room (if entryCount % 9 = 0 then step * 2 else step) nextHeight

/-- `buildBlockLocatorFromChain`. -/
def Chain.buildBlockLocator (c : Chain) (tip : Block) : UInt64 × List Bytes :=
  (tip.height, c.locatorFrom 50 1 tip.height)

/-! ## Goroutines -/

/-- The goroutine of `OnGetHeaders`. -/
def sendHeaders (peerID : Bytes) (fromHeight count : UInt64) : SyncM Unit := do
  let n ← Prog.get
  match n.chain.headersFrom fromHeight count with
  | .error fault => Prog.crash fault
  | .ok headers =>
    let full := UInt64.ofNat headers.length = count
    let hasMore := match n.chain.tip? with
      | none => decide full
      | some tip => decide (full ∧ fromHeight + count ≤ tip.height)
    let _ ← sendSync env peerID (.headers headers hasMore)
    pure ()

/-- The goroutine of `OnGetBlocks`. -/
def sendBlocks (peerID : Bytes) (heights : List UInt64) : SyncM Unit := do
  let n ← Prog.get
  let blocks := heights.filterMap n.chain.blockByHeight
  let missing := (heights.filter fun h => (n.chain.blockByHeight h).isNone).map fun h =>
    ascii "height-" ++ Json.decimal h.toNat
  if blocks = [] then
    let _ ← sendSync env peerID (.notFound .blocks missing)
    pure ()
  else
    let ok ← sendSync env peerID (.blocks blocks)
    if !ok then pure ()
    else
      Prog.when (!missing.isEmpty) do
        let _ ← sendSync env peerID (.notFound .blocks missing)
        pure ()
      let _ ← allowHandlersLog env (ascii "served_blocks_" ++ peerID)
      pure ()

/-- What a goroutine does. Delivery to a full channel waits for room or a timeout, and sending
a block to the peers is a matter of the connections; neither touches what is modelled here. -/
def Goroutine.run : Goroutine → SyncM Unit
  | .sendHeaders peerID fromHeight count => NogoChain.sendHeaders env peerID fromHeight count
  | .sendBlocks peerID heights => NogoChain.sendBlocks env peerID heights
  | .deliverSyncBlock peerID block => do
    let room ← SyncNode.ask env.sendOk
    Prog.when room
      (Prog.modify fun n => { n with syncBlockCh := n.syncBlockCh ++ [(peerID, block)] })
  | .relayBlock _ _ => pure ()

/-! ## Handlers -/

def onGetHeaders (peerID : Bytes) (fromHeight count : UInt64) : SyncM Unit :=
  if count = 0 then Prog.throw (.errorf "sync handler: OnGetHeaders count must be > 0" [])
  else spawn (.sendHeaders peerID fromHeight count)

def onHeaders (peerID headers : Bytes) : SyncM Unit :=
  match env.readHeaderList headers with
  | .error e =>
    Prog.throw (.wrap "sync handler: unmarshal headers from peer %s: %w" [.str peerID] e)
  | .ok parsedHeaders =>
    if parsedHeaders.length = 0 then
      Prog.throw (.errorf "sync handler: empty headers from peer %s" [.str peerID])
    else do
      let _ ← allowHandlersLog env (ascii "recv_headers_" ++ peerID)
      pure ()

def onGetBlocks (peerID : Bytes) (heights : List UInt64) : SyncM Unit :=
  if heights.length = 0 then
    Prog.throw (.errorf "sync handler: OnGetBlocks heights must not be empty" [])
  else spawn (.sendBlocks peerID heights)

def recentBlockDedupWindow : Int := 10 * second

def maxRecentBlockDedupSize : Nat := 512

def isRecentBlock (hash : Bytes) : SyncM Bool := do
  let now ← SyncNode.ask env.now
  let n ← Prog.get
  match n.recentBlocks.lookup hash with
  | none => pure false
  | some t =>
    if now - t < recentBlockDedupWindow then pure true
    else do
      Prog.modify fun n => { n with recentBlocks := n.recentBlocks.erase hash }
      pure false

/-- The entry with the earliest time, the first one of those. -/
def oldestEntry (entries : List (Bytes × Int)) : Option (Bytes × Int) :=
  entries.foldl (fun oldest e => match oldest with
    | none => some e
    | some o => if e.2 < o.2 then some e else some o) none

def recordBlockSeen (hash : Bytes) : SyncM Unit := do
  let now ← SyncNode.ask env.now
  Prog.modify fun n => { n with recentBlocks := n.recentBlocks.insert hash now }
  let n ← Prog.get
  if n.recentBlocks.keys.length > maxRecentBlockDedupSize then
    let order ← SyncNode.ask env.order
    let entries := order (n.recentBlocks.entries.map fun e => (e.1, e.2))
    let expired := entries.filter fun e => now - e.2 > recentBlockDedupWindow
    let kept := expired.foldl (fun m e => m.erase e.1) n.recentBlocks
    let kept := if kept.keys.length > maxRecentBlockDedupSize then
      match oldestEntry (entries.filter fun e => (kept.lookup e.1).isSome) with
      | none => kept
      | some oldest => kept.erase oldest.1
    else kept
    Prog.modify fun n => { n with recentBlocks := kept }
  else pure ()

def deliverSyncBlock (peerID : Bytes) (block : Block) : SyncM Unit := do
  let n ← Prog.get
  if n.syncBlockCh.length < 2048 then
    Prog.modify fun n => { n with syncBlockCh := n.syncBlockCh ++ [(peerID, block)] }
  else spawn (.deliverSyncBlock peerID block)

/-- One block of `OnBlocks`. -/
def onBlock (peerID raw : Bytes) : SyncM Unit := do
  let n ← Prog.get
  match env.readBlock n.tick raw with
  | .error _ => pure ()
  | .ok block =>
    if env.syncLoop then deliverSyncBlock peerID block
    else do
      let recent ← isRecentBlock env block.hash
      if recent then pure ()
      else do
        recordBlockSeen env block.hash
        let n ← Prog.get
        let (chain, result) := env.addBlock n.chain block
        Prog.modify fun n => { n with chain := chain }
        match result with
        | .error _ => pure ()
        | .ok accepted => Prog.when accepted (spawn (.relayBlock block peerID))

def onBlocks (peerID blocks : Bytes) : SyncM Unit :=
  match env.readRawBlocks blocks with
  | .error e =>
    Prog.throw (.wrap "sync handler: unmarshal blocks from peer %s: %w" [.str peerID] e)
  | .ok rawBlocks =>
    if rawBlocks.length = 0 then
      Prog.throw (.errorf "sync handler: empty blocks from peer %s" [.str peerID])
    else do
      Prog.forEach rawBlocks (onBlock env peerID)
      let _ ← allowHandlersLog env (ascii "proc_blocks_" ++ peerID)
      pure ()

/-- `OnGetBlockLocator`; the height in the request is not used. -/
def onGetBlockLocator (peerID : Bytes) (_tipHeight : UInt64) : SyncM Unit := do
  let n ← Prog.get
  match n.chain.tip? with
  | none =>
    let ok ← sendSync env peerID (.notFound .blockLocator [ascii "no-tip"])
    if ok then pure ()
    else Prog.throw (.errorf
      "sync handler: failed to send notFound for block locator to peer %s" [.str peerID])
  | some tip =>
    let (topHeight, locator) := n.chain.buildBlockLocator tip
    let ok ← sendSync env peerID (.blockLocator topHeight locator)
    if ok then pure ()
    else Prog.throw (.errorf "sync handler: failed to send block locator to peer %s" [.str peerID])

/-- `OnBlockLocator`: it looks for the first hash that is known, and logs what it finds. -/
def onBlockLocator (peerID : Bytes) (locators : Option (List Bytes)) : SyncM Unit :=
  match locators with
  | none =>
    Prog.throw (.errorf "sync handler: OnBlockLocator received nil locators from peer %s"
      [.str peerID])
  | some locators =>
    if locators.length = 0 then
      Prog.throw (.errorf "sync handler: empty locators from peer %s" [.str peerID])
    else pure ()

/-- `OnNotFound`: it logs. -/
def onNotFound (_peerID : Bytes) (_msgType : UInt8) (_ids : List Bytes) : SyncM Unit := pure ()

/-- `s[:16]` for a string. -/
def cut16 (s : Bytes) (expr : String) : SyncM Unit :=
  if s.length < 16 then Prog.crash (.panic expr) else pure ()

/-- A synchronisation is asked for if the peer is higher. -/
def triggerIfHigher (peerID : Bytes) (height localHeight : UInt64) : SyncM Unit :=
  if height > localHeight then do
    let _ ← allowHandlersLog env (ascii "sync_trigger_" ++ peerID)
    Prog.modify fun n => { n with syncTriggered := true }
  else do
    let _ ← allowHandlersLog env (ascii "no_sync_" ++ peerID)
    pure ()

/-- The part of `OnStatus` after the log line. -/
def checkSyncTrigger (peerID : Bytes) (height : UInt64) : SyncM Unit :=
  if !env.syncLoop then pure ()
  else do
    let isSyncing ← SyncNode.ask env.isSyncing
    let isSynced ← SyncNode.ask env.isSynced
    let _ ← allowHandlersLog env (ascii "sync_state")
    if !isSyncing && !isSynced then do
      let n ← Prog.get
      triggerIfHigher env peerID height (match n.chain.tip? with
        | none => 0
        | some tip => tip.height)
    else do
      let _ ← allowHandlersLog env (ascii "skip_sync_trigger")
      pure ()

/-- `OnStatus`. The log line cuts the hash that the peer has sent. -/
def onStatus (peerID : Bytes) (status : StatusPayload) : SyncM Unit := do
  let ok ← allowHandlersLog env (ascii "status_" ++ peerID)
  Prog.when ok (cut16 status.latestHash "latestHash[:16]")
  checkSyncTrigger env peerID status.height

/-- The answer to a status request. -/
def answerStatus (peerID : Bytes) (tip : Block) : SyncM Unit := do
  let work := if tip.totalWork = [] then ascii "0" else tip.totalWork
  let latestHash := Hex.encodeToString tip.hash
  let ok ← sendSync env peerID (.status ⟨tip.height, work, latestHash⟩)
  if ok then cut16 latestHash "latestHash[:16]"
  else Prog.throw (.errorf "sync handler: send status response to %s failed" [.str peerID])

def onStatusRequest (peerID : Bytes) : SyncM Unit := do
  let n ← Prog.get
  match n.chain.tip? with
  | none => Prog.throw (.errorf "sync handler: no tip block available" [])
  | some tip => answerStatus env peerID (n.chain.view tip)

/-! ## Dispatch -/

/-- A handler is called with what was read; an error of either is logged. -/
def handled {α : Type} (payload : Bytes) (read : Bytes → Except GoError α)
    (handler : α → SyncM Unit) : SyncM Unit :=
  if payload.length = 0 then pure ()
  else
    match read payload with
    | .error _ => pure ()
    | .ok a => do
      let _ ← Prog.attempt (handler a)
      pure ()

def handleGetHeaders (peerID payload : Bytes) : SyncM Unit :=
  handled payload env.readGetHeaders fun req => do
    let _ ← allowSyncLog env (ascii "handleGetHeaders_" ++ peerID)
    onGetHeaders peerID req.1 req.2

def handleHeaders (peerID payload : Bytes) : SyncM Unit :=
  handled payload env.readHeaders fun resp => onHeaders env peerID (resp.1.getD [])

def handleGetBlocks (peerID payload : Bytes) : SyncM Unit :=
  handled payload env.readGetBlocks fun heights => onGetBlocks peerID heights

/-- `handleBlocks`: the payload is handed on unread. -/
def handleBlocks (peerID payload : Bytes) : SyncM Unit :=
  handled payload .ok fun payload => onBlocks env peerID payload

def handleGetBlockLocator (peerID payload : Bytes) : SyncM Unit :=
  handled payload env.readGetBlockLocator fun tipHeight => onGetBlockLocator env peerID tipHeight

def handleBlockLocator (peerID payload : Bytes) : SyncM Unit :=
  handled payload env.readBlockLocator fun resp => onBlockLocator peerID resp.2

def handleNotFound (peerID payload : Bytes) : SyncM Unit :=
  handled payload env.readNotFound fun resp => onNotFound peerID resp.1 resp.2

/-- `handleStatus`: a handshake that waits for the status is told. -/
def handleStatus (peerID payload : Bytes) : SyncM Unit :=
  handled payload env.readStatus fun status => do
    Prog.modify fun n => { n with
      handshakePending := match n.handshakePending.lookup peerID with
        | none => n.handshakePending
        | some _ => n.handshakePending.insert peerID true }
    onStatus env peerID status

/-- `handleStatusRequest`: there is no payload. -/
def handleStatusRequest (peerID : Bytes) : SyncM Unit := do
  let _ ← Prog.attempt (onStatusRequest env peerID)
  pure ()

def dispatch (msgType : UInt8) (peerID payload : Bytes) : SyncM Unit :=
  match SyncMsgType.ofByte msgType with
  | some .statusRequest => handleStatusRequest env peerID
  | some .getHeaders => handleGetHeaders env peerID payload
  | some .headers => handleHeaders env peerID payload
  | some .getBlocks => handleGetBlocks env peerID payload
  | some .blocks => handleBlocks env peerID payload
  | some .getBlockLocator => handleGetBlockLocator env peerID payload
  | some .blockLocator => handleBlockLocator env peerID payload
  | some .status => handleStatus env peerID payload
  | some .notFound => handleNotFound env peerID payload
  | none => env.otherMessage msgType peerID payload

/-- `Receive`. The record of goroutines begins anew with each message. -/
def receive (peerID msgBytes : Bytes) : SyncM Unit := do
  Prog.modify fun n => { n with started := [] }
  if peerID = [] then pure ()
  else
    match msgBytes with
    | [] => pure ()
    | msgType :: payload =>
      let _ ← allowSyncLog env (ascii "recv_" ++ Json.decimal msgType.toNat)
      dispatch env msgType peerID payload

end NogoChain
