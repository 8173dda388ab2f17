import NogoChain.Chain.Lifecycle
import NogoChain.Network.SyncReactor

/-!
# Which messages bring the node down

A message can make `Receive` or a goroutine panic in two ways only: a request for headers
whose sum of height and count does not fit into 64 bits, for a height that the chain has; and a
status with a hash of fewer than 16 characters, at a time at which it is logged.
-/

namespace NogoChain

open Prog

variable {env : SyncEnv}

/-! ## Programs that start nothing harmful -/

/-- The program does not panic, and keeps a property of the goroutines that were started. -/
abbrev Calm (I : List Goroutine → Prop) {α : Type} (m : SyncM α) : Prop :=
  Keeps (fun n => I n.started) m

/-- The same from one node on. -/
abbrev CalmAt (I : List Goroutine → Prop) {α : Type} (m : SyncM α) (n : SyncNode) : Prop :=
  wp m ⟨fun _ n => I n.started, fun _ n => I n.started, fun _ => False⟩ n

/-- No property. -/
def Anything (_ : List Goroutine) : Prop := True

/-- The goroutines end, on a node as it is later. -/
def Harmless (env : SyncEnv) (later : SyncNode) (gs : List Goroutine) : Prop :=
  ∀ g ∈ gs, (g.run env).Ends later

variable {later n : SyncNode} {I : List Goroutine → Prop} (peerID payload : Bytes)

/-- A change that starts no goroutine. -/
theorem calm_modify {f : SyncNode → SyncNode} (h : ∀ n, (f n).started = n.started) :
    Calm I (Prog.modify f) :=
  keeps_modify fun n hn => by rwa [h n]

theorem calm_ask {α : Type} (answer : Nat → α) : Calm I (SyncNode.ask answer) :=
  keeps_bind keeps_get fun _ =>
    keeps_bind (calm_modify fun _ => rfl) fun _ => keeps_pure _

theorem calm_allowHandlersLog (key : Bytes) : Calm I (allowHandlersLog env key) :=
  keeps_bind (calm_ask _) fun _ => keeps_bind keeps_get fun _ =>
    keeps_bind (calm_modify fun _ => rfl) fun _ => keeps_pure _

/-- A log line that is all there is left to do. -/
theorem calm_log (key : Bytes) :
    Calm I (allowHandlersLog env key >>= fun _ => (pure () : SyncM Unit)) :=
  keeps_bind (calm_allowHandlersLog key) fun _ => keeps_pure ()

theorem calm_sendSync (msg : SyncMsg) : Calm I (sendSync env peerID msg) :=
  keeps_bind (calm_ask _) fun _ =>
    keeps_bind (keeps_when (calm_modify fun _ => rfl)) fun _ => keeps_pure _

theorem calm_handled {α : Type} {payload : Bytes} {read : Bytes → Except GoError α}
    {handler : α → SyncM Unit} (h : ∀ a, read payload = .ok a → Calm I (handler a)) :
    Calm I (handled payload read handler) := by
  unfold handled
  split
  · exact keeps_pure ()
  · cases hread : read payload with
    | error e => exact keeps_pure ()
    | ok a =>
      exact keeps_bind (keeps_attempt (h a hread)) fun _ => keeps_pure ()

theorem calm_spawn {g : Goroutine} (h : (g.run env).Ends later) :
    Calm (Harmless env later) (spawn g) :=
  keeps_modify fun n hn g' hg' => by
    rcases List.mem_append.mp hg' with hold | hnew
    · exact hn g' hold
    · rw [List.mem_singleton.mp hnew]
      exact h

/-- A calm program ends. -/
theorem ends_of_calm {α : Type} {m : SyncM α} (h : Calm Anything m) (n : SyncNode) : m.Ends n :=
  Keeps.ends h trivial

/-! ## Goroutines -/

section Ranges

variable {c : Chain} (hc : c.blocks.length ≤ maxPointers)
include hc

theorem Chain.toNat_length64 : c.length64.toNat = c.blocks.length := by
  have hmax : c.blocks.length ≤ 2 ^ 45 := hc
  unfold Chain.length64
  rw [UInt64.toNat_ofNat', Nat.mod_eq_of_lt (by omega)]

/-- The end of a range that does not wrap around, and the capacity for it. -/
theorem Chain.toNat_rangeEnd {fromHeight count : UInt64}
    (hfrom : fromHeight.toNat < c.blocks.length)
    (hfits : fromHeight.toNat + count.toNat < 2 ^ 64) :
    (if fromHeight + count > c.length64 then c.length64 else fromHeight + count).toNat
        = min (fromHeight.toNat + count.toNat) c.blocks.length
      ∧ ¬ ((if fromHeight + count > c.length64 then c.length64
          else fromHeight + count) - fromHeight).toNat > maxPointers := by
  have hlen := Chain.toNat_length64 hc
  have hsum : (fromHeight + count).toNat = fromHeight.toNat + count.toNat := by
    rw [UInt64.toNat_add, Nat.mod_eq_of_lt hfits]
  have hstop : (if fromHeight + count > c.length64 then c.length64 else fromHeight + count).toNat
      = min (fromHeight.toNat + count.toNat) c.blocks.length := by
    simp only [gt_iff_lt, UInt64.lt_iff_toNat_lt, hlen, hsum]
    split <;> omega
  refine ⟨hstop, ?_⟩
  rw [UInt64.toNat_sub_of_le _ _ (UInt64.le_iff_toNat_le.mpr (by omega)), hstop]
  omega

/-- The slice of headers has a capacity within bounds unless the sum of height and count is
too large for 64 bits. -/
theorem headersFrom_eq_error_iff (fromHeight count : UInt64) :
    (∃ fault, c.headersFrom fromHeight count = .error fault)
      ↔ fromHeight.toNat < c.blocks.length ∧ 2 ^ 64 ≤ fromHeight.toNat + count.toNat := by
  have hmax : c.blocks.length ≤ 2 ^ 45 := hc
  have hlen := Chain.toNat_length64 hc
  have hcount := count.toNat_lt
  unfold Chain.headersFrom
  split
  · next hge =>
    rw [ge_iff_le, UInt64.le_iff_toNat_le, hlen] at hge
    exact ⟨nofun, fun h => absurd h.1 (Nat.not_lt.mpr hge)⟩
  · next hge =>
    rw [ge_iff_le, UInt64.le_iff_toNat_le, hlen, Nat.not_le] at hge
    dsimp only
    by_cases hwrap : 2 ^ 64 ≤ fromHeight.toNat + count.toNat
    · -- the sum is below the height it starts from
      have hsum : (fromHeight + count).toNat = fromHeight.toNat + count.toNat - 2 ^ 64 := by
        rw [UInt64.toNat_add]
        omega
      have hstop : ¬ fromHeight + count > c.length64 := by
        rw [gt_iff_lt, UInt64.lt_iff_toNat_lt, hlen, hsum]
        omega
      rw [if_neg hstop]
      have hdiff : fromHeight + count - fromHeight = count := by
        rw [UInt64.add_comm, UInt64.add_sub_cancel]
      have hcap : count.toNat > maxPointers := by
        change count.toNat > 2 ^ 45
        omega
      rw [hdiff, if_pos hcap]
      exact ⟨fun _ => ⟨hge, hwrap⟩, fun _ => ⟨_, rfl⟩⟩
    · rw [if_neg (Chain.toNat_rangeEnd hc hge (Nat.not_le.mp hwrap)).2]
      exact ⟨nofun, fun h => absurd h.2 hwrap⟩

end Ranges

theorem sendHeaders_ends_iff (hlater : later.chain.blocks.length ≤ maxPointers)
    (peerID : Bytes) (fromHeight count : UInt64) :
    (sendHeaders env peerID fromHeight count).Ends later
      ↔ ¬ (fromHeight.toNat < later.chain.blocks.length
        ∧ 2 ^ 64 ≤ fromHeight.toNat + count.toNat) := by
  rw [← headersFrom_eq_error_iff hlater]
  unfold sendHeaders Ends
  rw [get_bind_apply]
  cases later.chain.headersFrom fromHeight count with
  | error fault => exact ⟨fun h => absurd rfl (h fault), fun h => absurd ⟨fault, rfl⟩ h⟩
  | ok headers =>
    refine ⟨fun _ => nofun, fun _ => ends_of_calm ?_ later⟩
    exact keeps_bind (calm_sendSync _ _) fun _ => keeps_pure ()

theorem sendBlocks_ends (heights : List UInt64) (later : SyncNode) :
    (sendBlocks env peerID heights).Ends later := by
  refine ends_of_calm (keeps_bind keeps_get fun n => ?_) later
  dsimp only
  split
  · exact keeps_bind (calm_sendSync _ _) fun _ => keeps_pure ()
  · refine keeps_bind (calm_sendSync _ _) fun ok => ?_
    split
    · exact keeps_pure ()
    · refine keeps_bind (keeps_when ?_) fun _ => calm_log _
      exact keeps_bind (calm_sendSync _ _) fun _ => keeps_pure ()

theorem deliverSyncBlock_ends (block : Block) (later : SyncNode) :
    ((Goroutine.deliverSyncBlock peerID block).run env).Ends later := by
  refine ends_of_calm (keeps_bind (calm_ask _) fun _ => keeps_when ?_) later
  exact calm_modify fun _ => rfl

theorem relayBlock_ends (block : Block) (excludePeer : Bytes) (later : SyncNode) :
    ((Goroutine.relayBlock block excludePeer).run env).Ends later :=
  ends_of_calm (keeps_pure ()) later

/-! ## Handlers -/

theorem calm_handleHeaders : Calm (Harmless env later) (handleHeaders env peerID payload) := by
  refine calm_handled fun resp _ => ?_
  unfold onHeaders
  split
  · exact keeps_throw _
  · split
    · exact keeps_throw _
    · exact calm_log _

theorem calm_handleGetBlocks : Calm (Harmless env later) (handleGetBlocks env peerID payload) := by
  refine calm_handled fun heights _ => ?_
  unfold onGetBlocks
  split
  · exact keeps_throw _
  · exact calm_spawn (sendBlocks_ends peerID heights later)

theorem calm_isRecentBlock (hash : Bytes) : Calm I (isRecentBlock env hash) := by
  refine keeps_bind (calm_ask _) fun now => keeps_bind keeps_get fun n => ?_
  split
  · exact keeps_pure _
  · split
    · exact keeps_pure _
    · exact keeps_bind (calm_modify fun _ => rfl) fun _ => keeps_pure _

theorem calm_recordBlockSeen (hash : Bytes) : Calm I (recordBlockSeen env hash) := by
  refine keeps_bind (calm_ask _) fun now => keeps_bind (calm_modify fun _ => rfl)
    fun _ => keeps_bind keeps_get fun n => ?_
  split
  · exact keeps_bind (calm_ask _) fun _ => calm_modify fun _ => rfl
  · exact keeps_pure ()

theorem calm_deliverSyncBlock (block : Block) :
    Calm (Harmless env later) (deliverSyncBlock peerID block) := by
  refine keeps_bind keeps_get fun n => ?_
  split
  · exact calm_modify fun _ => rfl
  · exact calm_spawn (deliverSyncBlock_ends peerID block later)

theorem calm_onBlock (peerID raw : Bytes) : Calm (Harmless env later) (onBlock env peerID raw) := by
  refine keeps_bind keeps_get fun n => ?_
  split
  · exact keeps_pure ()
  · next block _ =>
    split
    · exact calm_deliverSyncBlock peerID block
    · refine keeps_bind (calm_isRecentBlock _) fun recent => ?_
      split
      · exact keeps_pure ()
      · refine keeps_bind (calm_recordBlockSeen _) fun _ =>
          keeps_bind keeps_get fun n => ?_
        refine keeps_bind (calm_modify fun _ => rfl) fun _ => ?_
        split
        · exact keeps_pure ()
        · exact keeps_when (calm_spawn (relayBlock_ends block peerID later))

theorem calm_handleBlocks : Calm (Harmless env later) (handleBlocks env peerID payload) := by
  refine calm_handled fun blocks _ => ?_
  unfold onBlocks
  split
  · exact keeps_throw _
  · split
    · exact keeps_throw _
    · exact keeps_bind (keeps_forEach (calm_onBlock peerID)) fun _ => calm_log _

theorem calm_handleGetBlockLocator :
    Calm (Harmless env later) (handleGetBlockLocator env peerID payload) := by
  refine calm_handled fun tipHeight _ => keeps_bind keeps_get fun n => ?_
  split
  · refine keeps_bind (calm_sendSync _ _) fun ok => ?_
    split
    · exact keeps_pure ()
    · exact keeps_throw _
  · refine keeps_bind (calm_sendSync _ _) fun ok => ?_
    split
    · exact keeps_pure ()
    · exact keeps_throw _

theorem calm_handleBlockLocator :
    Calm (Harmless env later) (handleBlockLocator env peerID payload) := by
  refine calm_handled fun resp _ => ?_
  unfold onBlockLocator
  split
  · exact keeps_throw _
  · split
    · exact keeps_throw _
    · exact keeps_pure ()

theorem calm_handleNotFound : Calm (Harmless env later) (handleNotFound env peerID payload) :=
  calm_handled fun _ _ => keeps_pure ()

theorem calm_triggerIfHigher
    (height localHeight : UInt64) : Calm I (triggerIfHigher env peerID height localHeight) := by
  unfold triggerIfHigher
  split
  · exact keeps_bind (calm_allowHandlersLog _) fun _ => calm_modify fun _ => rfl
  · exact calm_log _

theorem calm_checkSyncTrigger (height : UInt64) : Calm I (checkSyncTrigger env peerID height) := by
  unfold checkSyncTrigger
  split
  · exact keeps_pure ()
  · refine keeps_bind (calm_ask _) fun _ => keeps_bind (calm_ask _) fun _ =>
      keeps_bind (calm_allowHandlersLog _) fun _ => ?_
    split
    · exact keeps_bind keeps_get fun n => calm_triggerIfHigher _ _ _
    · exact calm_log _

/-- The log line of the answer cuts the hash of the tip. -/
theorem calm_answerStatus {tip : Block} (hhash : tip.hash.length = 32)
    (peerID : Bytes) : Calm I (answerStatus env peerID tip) := by
  refine keeps_bind (calm_sendSync _ _) fun ok => ?_
  split
  · unfold cut16
    rw [if_neg]
    · exact keeps_pure ()
    · rw [Hex.length_of_decodeString (Hex.decodeString_encodeToString tip.hash), hhash]
      decide
  · exact keeps_throw _

theorem calmAt_handleStatusRequest {tip : Block} (htip : n.chain.tip? = some tip)
    (hhash : tip.hash.length = 32) (hn : I n.started)
    (peerID : Bytes) : CalmAt I (handleStatusRequest env peerID) n := by
  have hview : (n.chain.view tip).hash.length = 32 := by
    unfold Chain.view
    split <;> exact hhash
  unfold CalmAt handleStatusRequest onStatusRequest
  rw [wp_bind, wp_attempt, wp_bind, wp_get]
  dsimp only
  rw [htip]
  exact calm_answerStatus hview peerID n hn

/-- A status is answered by a panic exactly if its hash is short and it is logged. -/
theorem calmAt_onStatus_iff (hn : I n.started) (peerID : Bytes) (status : StatusPayload) :
    CalmAt I (onStatus env peerID status) n
      ↔ ¬ (status.latestHash.length < 16 ∧ (allowed (15 * second) n.handlersLog
        (ascii "status_" ++ peerID) (env.now n.tick)).1 = true) := by
  have hrest : ∀ m : SyncNode, m.started = n.started →
      CalmAt I (checkSyncTrigger env peerID status.height) m := by
    intro m hm
    refine calm_checkSyncTrigger peerID status.height m ?_
    change I m.started
    rw [hm]
    exact hn
  unfold CalmAt onStatus
  simp only [allowHandlersLog, SyncNode.ask, wp_bind, wp_get, wp_modify, wp_pure]
  cases hok : (allowed (15 * second) n.handlersLog (ascii "status_" ++ peerID)
    (env.now n.tick)).1 with
  | false =>
    exact ⟨fun _ h => Bool.noConfusion h.2, fun _ => hrest _ rfl⟩
  | true =>
    unfold cut16
    split
    · next hshort =>
      exact ⟨False.elim, fun h => h ⟨hshort, rfl⟩⟩
    · next hshort =>
      exact ⟨fun _ h => hshort h.1, fun _ => hrest _ rfl⟩

/-! ## All messages -/

/-- **The messages that bring the node down**, given the node when the message arrives and when
its goroutines run. -/
inductive Harmful (env : SyncEnv) (n later : SyncNode) (peerID : Bytes) : Bytes → Prop where
  /-- a request for headers from a height of the chain, with a count that wraps around -/
  | getHeaders {t : UInt8} {payload : Bytes} {fromHeight count : UInt64}
      (htype : SyncMsgType.ofByte t = some .getHeaders) (hpayload : payload ≠ [])
      (hread : env.readGetHeaders payload = .ok (fromHeight, count))
      (hheight : fromHeight.toNat < later.chain.blocks.length)
      (hsum : 2 ^ 64 ≤ fromHeight.toNat + count.toNat) : Harmful env n later peerID (t :: payload)
  /-- a status with a short hash, when it is logged -/
  | status {t : UInt8} {payload : Bytes} {status : StatusPayload}
      (htype : SyncMsgType.ofByte t = some .status) (hpayload : payload ≠ [])
      (hread : env.readStatus payload = .ok status) (hshort : status.latestHash.length < 16)
      (hlogged : (allowed (15 * second) n.handlersLog (ascii "status_" ++ peerID)
        (env.now (n.tick + 1))).1 = true) : Harmful env n later peerID (t :: payload)

/-- The node when the message is dispatched. -/
def SyncNode.received (env : SyncEnv) (n : SyncNode) (msgType : UInt8) : SyncNode :=
  { n with
    started := [], tick := n.tick + 1
    syncLog := (allowed (30 * second) n.syncLog (ascii "recv_" ++ Json.decimal msgType.toNat)
      (env.now n.tick)).2 }

theorem receive_cons {peerID : Bytes} (hpeer : peerID ≠ []) (t : UInt8) (payload : Bytes)
    (n : SyncNode) :
    receive env peerID (t :: payload) n = dispatch env t peerID payload (n.received env t) := by
  unfold receive
  rw [if_neg hpeer]
  rfl

/-- A handler is called if there is a payload and it can be read. -/
theorem calmAt_handled_iff (hn : I n.started) {α : Type}
    {payload : Bytes} {read : Bytes → Except GoError α} {handler : α → SyncM Unit} :
    CalmAt I (handled payload read handler) n
      ↔ ∀ a, payload ≠ [] → read payload = .ok a → CalmAt I (handler a) n := by
  unfold handled CalmAt
  by_cases hpayload : payload = []
  · rw [if_pos (List.length_eq_zero_iff.mpr hpayload)]
    exact ⟨fun _ _ h => absurd hpayload h, fun _ => hn⟩
  · rw [if_neg (mt List.length_eq_zero_iff.mp hpayload)]
    cases read payload with
    | error e => exact ⟨fun _ _ _ => nofun, fun _ => hn⟩
    | ok a =>
      rw [wp_bind, wp_attempt]
      refine ⟨fun h b _ hb => Except.ok.inj hb ▸ h, fun h => h a hpayload rfl⟩

theorem calmAt_handleStatus_iff (hn : I n.started) (peerID payload : Bytes) :
    CalmAt I (handleStatus env peerID payload) n
      ↔ ¬ ∃ status, payload ≠ [] ∧ env.readStatus payload = .ok status
        ∧ status.latestHash.length < 16 ∧ (allowed (15 * second) n.handlersLog
          (ascii "status_" ++ peerID) (env.now n.tick)).1 = true := by
  unfold handleStatus
  rw [calmAt_handled_iff hn, not_exists]
  refine forall_congr' fun status => ?_
  unfold CalmAt
  rw [wp_bind, wp_modify, not_and, not_and]
  refine forall₂_congr fun _ _ => ?_
  refine calmAt_onStatus_iff ?_ peerID status
  exact hn

/-- A request for headers starts a goroutine, which panics if the sum is too large. -/
theorem calmAt_handleGetHeaders_iff (hn : n.started = [])
    (hlater : later.chain.blocks.length ≤ maxPointers) (peerID payload : Bytes) :
    CalmAt (Harmless env later) (handleGetHeaders env peerID payload) n
      ↔ ¬ ∃ fromHeight count, payload ≠ [] ∧ env.readGetHeaders payload = .ok (fromHeight, count)
        ∧ fromHeight.toNat < later.chain.blocks.length
        ∧ 2 ^ 64 ≤ fromHeight.toNat + count.toNat := by
  have hharmless : Harmless env later n.started := by
    rw [hn]
    exact nofun
  unfold handleGetHeaders
  rw [calmAt_handled_iff hharmless, not_exists]
  simp only [not_exists, Prod.forall]
  refine forall₂_congr fun fromHeight count => ?_
  rw [not_and, not_and]
  refine forall₂_congr fun _ _ => ?_
  have hends : (sendHeaders env peerID fromHeight count).Ends later ↔ _ :=
    sendHeaders_ends_iff hlater peerID fromHeight count
  rw [← hends]
  unfold CalmAt
  simp only [allowSyncLog, SyncNode.ask, wp_bind, wp_get, wp_modify, wp_pure]
  unfold onGetHeaders
  split
  · next hcount =>
    refine ⟨fun _ => hends.mpr fun h => ?_, fun _ => hharmless⟩
    rw [hcount] at h
    exact absurd h.2 (Nat.not_le.mpr fromHeight.toNat_lt)
  · unfold spawn
    rw [wp_modify]
    rw [hn, List.nil_append]
    exact List.forall_mem_singleton

/-- **The messages that end without a panic.** For every node with a tip whose hash has 32
bytes and every message of the types modelled, `Receive` and the goroutines it starts end
exactly if the message is not one of the harmful ones. -/
theorem receive_ends_iff (env : SyncEnv) {n later : SyncNode} {tip : Block}
    (htip : n.chain.tip? = some tip) (hhash : tip.hash.length = 32)
    (hlater : later.chain.blocks.length ≤ maxPointers) {peerID : Bytes} (hpeer : peerID ≠ [])
    {t : UInt8} (htype : (SyncMsgType.ofByte t).isSome) (payload : Bytes) :
    (∃ n', (receive env peerID (t :: payload) n).state? = some n' ∧ Harmless env later n'.started)
      ↔ ¬ Harmful env n later peerID (t :: payload) := by
  rw [receive_cons hpeer]
  have hstart : Harmless env later (n.received env t).started := nofun
  -- the types that can do no harm
  have hcalm : ∀ {k : SyncMsgType} {m : SyncM Unit}, SyncMsgType.ofByte t = some k →
      k ≠ .getHeaders → k ≠ .status → CalmAt (Harmless env later) m (n.received env t) →
      ((∃ n', (m (n.received env t)).state? = some n' ∧ Harmless env later n'.started)
        ↔ ¬ Harmful env n later peerID (t :: payload)) := by
    intro k m hk hheaders hstatus hm
    refine ⟨fun _ h => ?_, fun _ => exists_state_iff_wp.mpr hm⟩
    cases h with
    | getHeaders htype' => exact hheaders (Option.some.inj (hk.symm.trans htype'))
    | status htype' => exact hstatus (Option.some.inj (hk.symm.trans htype'))
  obtain ⟨k, hk⟩ := Option.isSome_iff_exists.mp htype
  unfold dispatch
  rw [hk]
  cases k with
  | getHeaders =>
    refine exists_state_iff_wp.trans ((calmAt_handleGetHeaders_iff rfl hlater _ _).trans ?_)
    refine not_congr ⟨fun ⟨_, _, h1, h2, h3, h4⟩ => .getHeaders hk h1 h2 h3 h4, fun h => ?_⟩
    cases h with
    | getHeaders _ h1 h2 h3 h4 => exact ⟨_, _, h1, h2, h3, h4⟩
    | status htype' => exact nomatch hk.symm.trans htype'
  | headers => exact hcalm hk nofun nofun (calm_handleHeaders _ _ _ hstart)
  | getBlocks => exact hcalm hk nofun nofun (calm_handleGetBlocks _ _ _ hstart)
  | blocks => exact hcalm hk nofun nofun (calm_handleBlocks _ _ _ hstart)
  | getBlockLocator => exact hcalm hk nofun nofun (calm_handleGetBlockLocator _ _ _ hstart)
  | blockLocator => exact hcalm hk nofun nofun (calm_handleBlockLocator _ _ _ hstart)
  | status =>
    refine exists_state_iff_wp.trans ((calmAt_handleStatus_iff hstart _ _).trans ?_)
    refine not_congr ⟨fun ⟨_, h1, h2, h3, h4⟩ => .status hk h1 h2 h3 h4, fun h => ?_⟩
    cases h with
    | getHeaders htype' => exact nomatch hk.symm.trans htype'
    | status _ h1 h2 h3 h4 => exact ⟨_, h1, h2, h3, h4⟩
  | statusRequest =>
    have htip' : (n.received env t).chain.tip? = some tip := htip
    exact hcalm hk nofun nofun (calmAt_handleStatusRequest htip' hhash hstart _)
  | notFound => exact hcalm hk nofun nofun (calm_handleNotFound _ _ _ hstart)

/-- A node with two blocks, and nothing else. -/
def twoBlockNode : SyncNode where
  chain := { Chain.initial BoltStore.empty 0 with
    blocks := [sampleBlock (List.replicate 32 1) [] 0 1 [],
      sampleBlock (List.replicate 32 2) (List.replicate 32 1) 1 1 []] }
  recentBlocks := ∅
  syncLog := ∅
  handlersLog := ∅
  handshakePending := ∅
  syncBlockCh := []
  syncTriggered := false
  sent := []
  started := []
  tick := 0

/-- Readers for the payloads of the two examples; everything else is an error. -/
def fixedPayloads (fromHeight count : UInt64) (latestHash : Bytes) : SyncEnv where
  readGetHeaders _ := .ok (fromHeight, count)
  readHeaders _ := .error (.new "")
  readHeaderList _ := .error (.new "")
  readGetBlocks _ := .error (.new "")
  readRawBlocks _ := .error (.new "")
  readBlock _ _ := .error (.new "")
  readGetBlockLocator _ := .error (.new "")
  readBlockLocator _ := .error (.new "")
  readNotFound _ := .error (.new "")
  readStatus _ := .ok ⟨0, [], latestHash⟩
  addBlock c _ := (c, .ok false)
  syncLoop := false
  isSyncing _ := false
  isSynced _ := false
  sendOk _ := true
  now _ := 0
  order _ l := l
  otherMessage _ _ _ := pure ()

/-- A request for one header is served. -/
theorem receive_ends_oneHeader :
    ∃ n', (receive (fixedPayloads 1 1 []) [7] [0x01, 0] twoBlockNode).state? = some n'
      ∧ Harmless (fixedPayloads 1 1 []) twoBlockNode n'.started := by
  have hlater : twoBlockNode.chain.blocks.length ≤ maxPointers := by decide
  refine (receive_ends_iff (fixedPayloads 1 1 []) (n := twoBlockNode) rfl rfl hlater
    (List.cons_ne_nil 7 []) (t := 0x01) rfl [0]).mpr fun h => ?_
  cases h with
  | getHeaders _ _ hread _ hsum =>
    obtain ⟨rfl, rfl⟩ := Prod.mk.inj (Except.ok.inj hread)
    exact absurd hsum (by decide)
  | status htype => cases htype

/-- **A count that wraps around and a status without a hash.** The goroutine that answers the
first panics, and so does `Receive` itself at the second. -/
theorem harmful_messages_panic :
    (∃ n', (receive (fixedPayloads 1 18446744073709551615 []) [7] [0x01, 0]
        twoBlockNode).state? = some n'
      ∧ ∃ g ∈ n'.started, g.run (fixedPayloads 1 18446744073709551615 []) twoBlockNode
        = .fault (.panic "make([]*BlockHeader, 0, end-from)"))
      ∧ receive (fixedPayloads 1 1 []) [7] [0x07, 0] twoBlockNode
        = .fault (.panic "latestHash[:16]") :=
  ⟨⟨_, rfl, _, List.mem_singleton.mpr rfl, rfl⟩, rfl⟩

end NogoChain
