import Mathlib.Data.Nat.Digits.Defs
import NogoChain.Chain.Effects
import NogoChain.Mining.Mine
import NogoChain.Mining.Select

/-!
# Templates and submitted work

A miner outside the node asks for a template, searches for a nonce and submits it. The
server builds a block for the template, keeps it in a cache under its Merkle root, and puts
the submitted fields on a copy of it, which goes to `AddBlock`.

Two things do not survive the trip. The template says the difficulty of the next block,
while the cached block has the difficulty of its parent. And nobody puts a hash on the
block: not the template, whose nonce is still to be found, and not the submission, which
has one. `AddBlock` refuses a block without a hash, so no submitted work is ever accepted.

Left out is the loop that takes expired templates out of the cache, which `getCachedBlock`
does not return in any case. Whether a reorganisation is in progress is asked between calls,
when none is.
-/

namespace NogoChain

/-! ## The block of a template -/

/-- The sum of the fees, refused if it does not fit in 64 bits. -/
def totalFees : UInt64 → List Transaction → Except GoError UInt64
  | acc, [] => .ok acc
  | acc, tx :: txs =>
    if acc > maxUint64 - tx.fee then .error (.new "total fees overflow")
    else totalFees (acc + tx.fee) txs

def createCoinbaseTx (cr : Crypto) (minerAddress : Bytes) (height fees chainId : UInt64)
    (mp : MonetaryPolicy) : Except GoError Transaction :=
  if minerAddress = [] then .error (.new "miner address is required")
  else
    match validateAddress cr minerAddress with
    | .error e => .error (.wrap "invalid miner address: %w" [] e)
    | .ok () =>
      if minerReward mp height > maxUint64 - mp.minerFeeAmount fees then
        .error (.new "coinbase amount overflow")
      else
        let coinbase : Transaction :=
          { type := .coinbase
            chainId := chainId
            fromPubKey := none
            toAddress := minerAddress
            amount := minerReward mp height + mp.minerFeeAmount fees
            fee := 0
            nonce := 0
            data := ascii "height=" ++ Json.decimal height.toNat
            signature := none }
        match coinbase.verifyCoinbase cr with
        | .error e => .error (.wrap "invalid coinbase transaction: %w" [] e)
        | .ok () => .ok coinbase

def getBlockVersion (p : ConsensusParams) (height : UInt64) : UInt32 :=
  if p.merkleRootActive height then 2
  else if p.binaryEncodingActive height then 2
  else 1

def computeMerkleRootForConsensus (cr : Crypto) (txs : List Transaction) (p : ConsensusParams)
    (height : UInt64) : Except GoError Bytes :=
  if txs = [] then .ok (List.replicate 32 0)
  else
    match txs.mapM fun tx => txSigningHashForConsensus cr tx p height with
    | .error e => .error (.wrap "compute tx hash: %w" [] e)
    | .ok leaves => merkleRoot cr leaves

/-- What the server reads of the clock and of the chain's difficulty while it makes a
template. -/
structure TemplateAnswers where
  /-- clock when the block is built, in seconds -/
  built : Int64
  /-- `CalcNextDifficulty` -/
  nextDifficulty : UInt32
  /-- clock when the block is cached, in nanoseconds -/
  cachedAt : Int
  /-- identity of the new block object -/
  ptr : Nat

/-- The block of a template. -/
def templateBlock (parent : Block) (coinbase : Transaction) (txs : List Transaction)
    (minerAddress root : Bytes) (p : ConsensusParams) (answers : TemplateAnswers) : Block where
  ptr := answers.ptr
  hash := []
  height := parent.height + 1
  header :=
    { version := getBlockVersion p (parent.height + 1)
      prevHash := parent.hash
      timestampUnix := nextTimestamp answers.built parent.header.timestampUnix
      difficultyBits := parent.header.difficultyBits
      difficulty := 0
      nonce := 0
      stateRoot := []
      merkleRoot := some root
      height := 0
      minerAddress := [] }
  transactions := coinbase :: txs
  coinbaseTx := some coinbase
  minerAddress := minerAddress
  totalWork := []

/-- `CreateBlockTemplate`, on a parent that is not nil. -/
def createBlockTemplate (cr : Crypto) (parent : Block) (txs : List Transaction)
    (minerAddress : Bytes) (chainId : UInt64) (p : ConsensusParams) (mp : MonetaryPolicy)
    (answers : TemplateAnswers) : Except GoError Block :=
  let height := parent.height + 1
  if minerAddress = [] then .error (.new "miner address is required")
  else
    match totalFees 0 txs with
    | .error e => .error e
    | .ok fees =>
      match createCoinbaseTx cr minerAddress height fees chainId mp with
      | .error e => .error (.wrap "create coinbase: %w" [] e)
      | .ok coinbase =>
        match computeMerkleRootForConsensus cr (coinbase :: txs) p height with
        | .error e => .error (.wrap "compute merkle root: %w" [] e)
        | .ok root => .ok (templateBlock parent coinbase txs minerAddress root p answers)

/-! ## The server -/

structure CachedTemplate where
  block : Block
  /-- when it was cached, in nanoseconds -/
  createdAt : Int

/-- `templateTTL`, in nanoseconds. -/
def templateTTL : Int := 60000000000

def maxCacheSize : Nat := 50

def defaultMaxTransactionsPerBlock : Nat := 1000

/-- What the handlers of a server work on. -/
structure Server where
  world : World
  mempool : Option Mempool
  /-- `GetConsensusParams` of the global configuration -/
  consensus : ConsensusParams
  monetaryPolicy : MonetaryPolicy
  /-- templates by the text of their Merkle root -/
  templateCache : GoMap Bytes CachedTemplate
  /-- how often the cache has been ranged over -/
  tick : Nat

/-- A reply: a plain text, or a value as JSON. -/
inductive Reply (α : Type) where
  /-- `http.Error` -/
  | error (status : Nat) (text : GoError)
  /-- `writeJSON` -/
  | json (status : Nat) (value : α)

/-- Methods of a request. -/
inductive Method where
  | get
  | post
  | other
deriving DecidableEq

/-- A request for a template. -/
structure TemplateRequest where
  method : Method
  /-- address in the query, empty if there is none -/
  query : Bytes
  /-- address in the body, if the body can be decoded -/
  body : Option Bytes

structure BlockTemplate where
  height : UInt64
  /-- hash of the parent, as text -/
  prevHash : Bytes
  merkleRoot : Bytes
  stateRoot : Bytes
  timestamp : Int64
  difficultyBits : UInt32
  minerAddress : Bytes
  chainId : UInt64
  /-- target of the difficulty, as text -/
  target : Bytes
  /-- always zero -/
  extraNonce : Bytes
  /-- transactions with the coinbase -/
  transactions : List Transaction

/-- `SubmitWorkRequest`; the hash and the parent of the request are not looked at. -/
structure SubmitWorkRequest where
  height : UInt64
  nonce : UInt64
  merkleRoot : Bytes
  stateRoot : Bytes
  timestamp : Int64
  miner : Bytes

structure SubmitWorkResponse where
  /-- whether the block is on the chain -/
  accepted : Bool
  message : GoError
  reward : UInt64
  hash : Bytes
deriving DecidableEq

def difficultyBitsToTarget (bits : UInt32) : Bytes :=
  let exponent := (bits >>> 24).toNat
  let mantissa := (bits &&& 0x00ffffff).toNat
  if bits &&& 0x00800000 ≠ 0 ∨ exponent > 34 then ascii "00"
  else
    let target := if exponent > 3 then mantissa * 256 ^ (exponent - 3)
      else mantissa / 256 ^ (3 - exponent)
    Hex.encodeToString ((Nat.digits 256 target).reverse.map UInt8.ofNat)

variable (env : Env)

/-- The loop of `cacheBlockTemplate` that looks for the oldest template. -/
def oldestTemplate : List (Bytes × CachedTemplate) → Bytes × Int → Bytes
  | [], oldest => oldest.1
  | (key, ct) :: rest, oldest =>
    if oldest.1 = [] ∨ ct.createdAt < oldest.2 then oldestTemplate rest (key, ct.createdAt)
    else oldestTemplate rest oldest

namespace Server

def cacheBlockTemplate (s : Server) (block : Block) (now : Int) : Server :=
  let key := Hex.encodeToString (sliceBytes block.header.merkleRoot)
  let s :=
    if s.templateCache.keys.length ≥ maxCacheSize then
      let entries := env.order s.tick (s.templateCache.entries.map fun e => (e.1, e.2))
      { s with templateCache := s.templateCache.erase (oldestTemplate entries ([], 0))
               tick := s.tick + 1 }
    else s
  { s with templateCache := s.templateCache.insert key ⟨block, now⟩ }

/-- The transactions a template takes from the pool. -/
def pooledTransactions (s : Server) : List Transaction :=
  match s.mempool with
  | none => []
  | some m => ((m.entriesSortedByFeeDesc env).take defaultMaxTransactionsPerBlock).map (·.tx)

end Server

/-- The address of a request. -/
def TemplateRequest.address (req : TemplateRequest) : Bytes :=
  if req.query = [] then req.body.getD [] else req.query

/-- The template of a block. -/
def Block.template (block : Block) (minerAddress : Bytes) (nextDifficulty : UInt32) :
    BlockTemplate where
  height := block.height
  prevHash := Hex.encodeToString block.header.prevHash
  merkleRoot := Hex.encodeToString (sliceBytes block.header.merkleRoot)
  stateRoot := Hex.encodeToString block.header.stateRoot
  timestamp := block.header.timestampUnix
  difficultyBits := nextDifficulty
  minerAddress := minerAddress
  chainId := env.chainId
  target := difficultyBitsToTarget nextDifficulty
  extraNonce := ascii "00000000"
  transactions := block.transactions

/-- A block with a state root. -/
def Block.withStateRoot (block : Block) (stateRoot : Bytes) : Block :=
  { block with header := { block.header with stateRoot := stateRoot } }

def handleGetBlockTemplate (s : Server) (req : TemplateRequest) (answers : TemplateAnswers) :
    Reply BlockTemplate × Server :=
  if req.method = .other then (.error 405 (.new "method not allowed"), s)
  else if req.address = [] then (.error 400 (.new "miner address required"), s)
  else
    match s.world.chain.tip? with
    | none => (.error 500 (.new "latest block not found"), s)
    | some latest =>
      let txs := s.pooledTransactions env
      let s := { s with mempool := s.mempool.map fun m => { m with tick := m.tick + 1 } }
      match createBlockTemplate env.cr latest txs req.address env.chainId s.consensus
          s.monetaryPolicy answers with
      | .error e => (.error 500 (.wrap "failed to create block template: %v" [] e), s)
      | .ok block =>
        let block := block.withStateRoot (calculateStateRoot env.cr s.world.chain.state)
        (.json 200 (block.template env req.address answers.nextDifficulty),
          s.cacheBlockTemplate env block answers.cachedAt)

/-- `deepCopyBlock`: a slice without elements is nil in the copy. -/
def deepCopyBlock (src : Block) (ptr : Nat) : Block :=
  { src with
    ptr := ptr
    header :=
      { src.header with
        merkleRoot := if sliceBytes src.header.merkleRoot = [] then none
          else src.header.merkleRoot } }

/-- `getCachedBlock`: a template that has expired is taken out. -/
def Server.getCachedBlock (s : Server) (merkleRootHex : Bytes) (now : Int) (ptr : Nat) :
    Option Block × Server :=
  match s.templateCache.lookup merkleRootHex with
  | none => (none, s)
  | some ct =>
    if now - ct.createdAt > templateTTL then
      (none, { s with templateCache := s.templateCache.erase merkleRootHex })
    else (some (deepCopyBlock ct.block ptr), s)

def Server.purgeTemplateCacheForHeight (s : Server) (height : UInt64) : Server :=
  let purge (cache : GoMap Bytes CachedTemplate) (e : Σ _ : Bytes, CachedTemplate) :=
    if e.2.block.height ≤ height then cache.erase e.1 else cache
  { s with templateCache := s.templateCache.entries.foldl purge s.templateCache }

/-- The copy of a cached block with what the miner submits. -/
def SubmitWorkRequest.fill (req : SubmitWorkRequest) (stateRoot : Bytes) (cached : Block) : Block :=
  { cached with
    header :=
      { cached.header with
        stateRoot := stateRoot, nonce := req.nonce, timestampUnix := req.timestamp }
    minerAddress := req.miner }

/-- A submission that is refused. -/
def refusedWork (message : GoError) : Reply SubmitWorkResponse := .json 400 ⟨false, message, 0, []⟩

/-- What `handleSubmitWork` does with the block. -/
def submitBlock (s : Server) (height : UInt64) (block : Block) :
    Except Fault (Reply SubmitWorkResponse × Server) :=
  match addBlock env block s.world with
  | .fault x => .error x
  | .err e w => .ok (refusedWork (.wrap "block rejected: %v" [] e), { s with world := w })
  | .ret _ w =>
    let s := { s with world := w }.purgeTemplateCacheForHeight height
    .ok (.json 200 ⟨true, .new "block accepted", s.monetaryPolicy.blockReward height,
      Hex.encodeToString block.hash⟩, s)

/-- `handleSubmitWork`. A body that cannot be decoded is `none`. -/
def handleSubmitWork (s : Server) (method : Method) (body : Option SubmitWorkRequest) (now : Int)
    (ptr : Nat) : Except Fault (Reply SubmitWorkResponse × Server) :=
  if method ≠ .post then .ok (.error 405 (.new "method not allowed"), s)
  else
    match body with
    | none => .ok (refusedWork (.new "invalid request body"), s)
    | some req =>
      if req.height = 0 ∨ req.nonce = 0 then
        .ok (refusedWork (.new "invalid height or nonce"), s)
      else if req.miner = [] then .ok (refusedWork (.new "miner address required"), s)
      else if req.merkleRoot = [] then .ok (refusedWork (.new "merkleRoot required"), s)
      else if req.stateRoot = [] then .ok (refusedWork (.new "stateRoot required"), s)
      else
        match s.getCachedBlock req.merkleRoot now ptr with
        | (none, s) =>
          .ok (refusedWork (.new "template expired: merkleRoot not found, fetch a new template"), s)
        | (some cached, s) =>
          match Hex.decodeString req.stateRoot with
          | .error _ => .ok (refusedWork (.new "invalid stateRoot hex"), s)
          | .ok stateRoot => submitBlock env s req.height (req.fill stateRoot cached)

/-! ## Runs of the server -/

/-- What happens at a node with a server. -/
inductive ServerEvent where
  | template (req : TemplateRequest) (answers : TemplateAnswers)
  | submit (method : Method) (body : Option SubmitWorkRequest) (now : Int) (ptr : Nat)
  /-- a call on the chain from elsewhere -/
  | chain (call : Call)
  /-- the pool is another one -/
  | pool (mempool : Option Mempool)

/-- The server after an event, unless that faults. -/
def ServerEvent.exec (s : Server) : ServerEvent → Option Server
  | .template req answers => some (handleGetBlockTemplate env s req answers).2
  | .submit method body now ptr =>
    match handleSubmitWork env s method body now ptr with
    | .error _ => none
    | .ok (_, s') => some s'
  | .chain call => (call.exec env s.world).state?.map fun w => { s with world := w }
  | .pool mempool => some { s with mempool := mempool }

/-- The server after some events, unless one of them faults. -/
def runServer : List ServerEvent → Server → Option Server
  | [], s => some s
  | event :: events, s => (event.exec env s).bind (runServer events)

variable {env}

/-! ## A block that is not well formed -/

variable {b block : Block} {cr : Crypto} {minerAddress : Bytes} {answers : TemplateAnswers}
  {s : Server} {t : BlockTemplate}

/-- **A block that fails the consensus checks** is refused with the reason, and the chain
stays. -/
theorem addBlock_of_invalid {e : GoError}
    (h : validateBlockConsensusLocked env b = .error e) (w : World) :
    ∃ w', addBlock env b w = .err (.wrap "block consensus validation failed: %w" [] e) w'
      ∧ Aside w w' := by
  obtain ⟨o, a, hclean⟩ := exists_cleanupExpiredOrphansLocked w
  refine ⟨_, ?_, (errless_cleanupExpiredOrphansLocked discards_aside w).steps.of_ret hclean⟩
  unfold addBlock
  rw [Prog.bind_apply, hclean, h]
  rfl

/-- A block that starts with a coinbase and has no hash. -/
def Block.Unsealed (b : Block) : Prop :=
  b.hash = [] ∧ ∃ cb rest, b.transactions = cb :: rest ∧ cb.type = .coinbase

theorem Block.Unsealed.invalid (h : b.Unsealed) :
    validateBlockConsensusLocked env b = .error (.new "missing block hash") := by
  obtain ⟨hhash, cb, rest, htxs, htype⟩ := h
  unfold validateBlockConsensusLocked
  rw [htxs]
  dsimp only
  rw [if_neg (not_not.mpr htype), if_pos hhash]

/-! ## The block of a template has no hash -/

theorem createCoinbaseTx_type {height fees chainId : UInt64}
    {mp : MonetaryPolicy} {tx : Transaction}
    (h : createCoinbaseTx cr minerAddress height fees chainId mp = .ok tx) :
    tx.type = .coinbase := by
  unfold createCoinbaseTx at h
  split at h
  · cases h
  · split at h
    · cases h
    · split at h
      · cases h
      · dsimp only at h
        split at h
        · cases h
        · rw [← Except.ok.inj h]

theorem computeMerkleRootForConsensus_length {txs : List Transaction}
    {p : ConsensusParams} {height : UInt64} {root : Bytes}
    (h : computeMerkleRootForConsensus cr txs p height = .ok root) : root.length = 32 := by
  unfold computeMerkleRootForConsensus at h
  split at h
  · rw [← Except.ok.inj h]
    exact List.length_replicate
  · split at h
    · cases h
    · exact merkleRoot_length h

theorem createBlockTemplate_eq_ok {parent : Block} {txs : List Transaction}
    {chainId : UInt64} {p : ConsensusParams} {mp : MonetaryPolicy}
    (h : createBlockTemplate cr parent txs minerAddress chainId p mp answers = .ok b) :
    ∃ coinbase root, b = templateBlock parent coinbase txs minerAddress root p answers
      ∧ coinbase.type = .coinbase ∧ root.length = 32 := by
  unfold createBlockTemplate at h
  dsimp only at h
  split at h
  · cases h
  · split at h
    · cases h
    · split at h
      · cases h
      · next coinbase hcoinbase =>
        split at h
        · cases h
        · next root hroot =>
          exact ⟨coinbase, root, (Except.ok.inj h).symm, createCoinbaseTx_type hcoinbase,
            computeMerkleRootForConsensus_length hroot⟩

/-- What a request for a template does, when it is answered with one. -/
theorem handleGetBlockTemplate_eq_json {s₁ : Server} {req : TemplateRequest} {status : Nat}
    (h : handleGetBlockTemplate env s req answers = (.json status t, s₁)) :
    ∃ tip coinbase root txs mempool, s.world.chain.tip? = some tip ∧ coinbase.type = .coinbase
      ∧ root.length = 32
      ∧ ∃ block, block = (templateBlock tip coinbase txs req.address root s.consensus
            answers).withStateRoot (calculateStateRoot env.cr s.world.chain.state)
        ∧ t = block.template env req.address answers.nextDifficulty
        ∧ s₁ = { s with mempool := mempool }.cacheBlockTemplate env block answers.cachedAt := by
  unfold handleGetBlockTemplate at h
  split at h
  · exact nomatch congrArg Prod.fst h
  · split at h
    · exact nomatch congrArg Prod.fst h
    · split at h
      · exact nomatch congrArg Prod.fst h
      · next tip htip =>
        dsimp only at h
        split at h
        · exact nomatch congrArg Prod.fst h
        · next block hblock =>
          obtain ⟨coinbase, root, rfl, htype, hlength⟩ := createBlockTemplate_eq_ok hblock
          obtain ⟨hreply, hserver⟩ := Prod.mk.inj h
          obtain ⟨-, ht⟩ := Reply.json.inj hreply
          exact ⟨tip, coinbase, root, _, _, htip, htype, hlength, _, rfl, ht.symm, hserver.symm⟩

/-! ## No cached block has a hash -/

/-- No block in the cache has a hash. -/
def Server.Unsealed (s : Server) : Prop :=
  ∀ key ct, s.templateCache.lookup key = some ct → ct.block.Unsealed

theorem Server.Unsealed.erase (h : s.Unsealed) (key : Bytes) (tick : Nat) :
    { s with templateCache := s.templateCache.erase key, tick := tick }.Unsealed := by
  intro k ct hlookup
  rw [GoMap.lookup_erase] at hlookup
  split at hlookup
  · cases hlookup
  · exact h k ct hlookup

theorem Server.Unsealed.insert (h : s.Unsealed) (key : Bytes)
    (hblock : block.Unsealed) (now : Int) :
    { s with templateCache := s.templateCache.insert key ⟨block, now⟩ }.Unsealed := by
  intro k ct hlookup
  rw [GoMap.lookup_insert] at hlookup
  split at hlookup
  · rw [← Option.some.inj hlookup]
    exact hblock
  · exact h k ct hlookup

theorem Server.Unsealed.cacheBlockTemplate (h : s.Unsealed)
    (hblock : block.Unsealed) (now : Int) : (s.cacheBlockTemplate env block now).Unsealed := by
  unfold Server.cacheBlockTemplate
  split
  · exact (h.erase _ _).insert _ hblock now
  · exact h.insert _ hblock now

theorem handleGetBlockTemplate_unsealed (h : s.Unsealed) (req : TemplateRequest)
    (answers : TemplateAnswers) : (handleGetBlockTemplate env s req answers).2.Unsealed := by
  unfold handleGetBlockTemplate
  split
  · exact h
  · split
    · exact h
    · split
      · exact h
      · dsimp only
        split
        · exact h
        · next block hblock =>
          obtain ⟨coinbase, root, rfl, htype, -⟩ := createBlockTemplate_eq_ok hblock
          refine Server.Unsealed.cacheBlockTemplate ?_ ⟨rfl, coinbase, _, rfl, htype⟩ _
          exact h

/-- The copy of a cached block has no hash either. -/
theorem Server.Unsealed.getCachedBlock (h : s.Unsealed) (root : Bytes) (now : Int) (ptr : Nat) :
    (∀ b, (s.getCachedBlock root now ptr).1 = some b → b.Unsealed)
      ∧ (s.getCachedBlock root now ptr).2.Unsealed
      ∧ (s.getCachedBlock root now ptr).2.world = s.world := by
  unfold Server.getCachedBlock
  cases hlookup : s.templateCache.lookup root with
  | none => exact ⟨nofun, h, rfl⟩
  | some ct =>
    dsimp only
    split
    · exact ⟨nofun, h.erase root s.tick, rfl⟩
    · refine ⟨fun b hb => ?_, h, rfl⟩
      rw [← Option.some.inj hb]
      exact h root ct hlookup

/-! ## No submitted work is accepted -/

/-- Whether a reply says that the block is on the chain. -/
def Reply.accepted : Reply SubmitWorkResponse → Bool
  | .error _ _ => false
  | .json _ response => response.accepted

/-- The reason `AddBlock` gives. -/
def missingHash : GoError :=
  .wrap "block rejected: %v" []
    (.wrap "block consensus validation failed: %w" [] (.new "missing block hash"))

/-- A block without a hash is refused, and nothing else happens to the server. -/
theorem submitBlock_of_unsealed (hb : b.Unsealed) (height : UInt64) :
    ∃ w', submitBlock env s height b = .ok (refusedWork missingHash, { s with world := w' })
      ∧ Aside s.world w' := by
  obtain ⟨w', hw', haside⟩ := addBlock_of_invalid hb.invalid s.world
  refine ⟨w', ?_, haside⟩
  unfold submitBlock
  rw [hw']
  rfl

/-- **Submitted work is refused** by a server whose cached blocks have no hash. -/
theorem handleSubmitWork_refused (env : Env) (h : s.Unsealed) (method : Method)
    (body : Option SubmitWorkRequest) (now : Int) (ptr : Nat) :
    ∃ reply s', handleSubmitWork env s method body now ptr = .ok (reply, s')
      ∧ reply.accepted = false ∧ s'.Unsealed ∧ Aside s.world s'.world := by
  have hrefl := refl_of Aside s.world
  unfold handleSubmitWork
  split
  · exact ⟨_, s, rfl, rfl, h, hrefl⟩
  · cases body with
    | none => exact ⟨_, s, rfl, rfl, h, hrefl⟩
    | some req =>
      dsimp only
      iterate 4
        split
        · exact ⟨_, s, rfl, rfl, h, hrefl⟩
      obtain ⟨hcopy, hunsealed, hworld⟩ := h.getCachedBlock req.merkleRoot now ptr
      rw [← hworld] at hrefl ⊢
      generalize s.getCachedBlock req.merkleRoot now ptr = cached at hcopy hunsealed hrefl ⊢
      obtain ⟨copy, s'⟩ := cached
      cases copy with
      | none => exact ⟨_, s', rfl, rfl, hunsealed, hrefl⟩
      | some b =>
        dsimp only
        split
        · exact ⟨_, s', rfl, rfl, hunsealed, hrefl⟩
        · next stateRoot hdecode =>
          obtain ⟨hhash, hcoinbase⟩ := hcopy b rfl
          have hfill : (req.fill stateRoot b).Unsealed := ⟨hhash, hcoinbase⟩
          obtain ⟨w', hsubmit, haside⟩ := submitBlock_of_unsealed (s := s') hfill req.height
          exact ⟨_, _, hsubmit, rfl, hunsealed, haside⟩

/-- **One event** leaves the cached blocks without hashes. -/
theorem ServerEvent.exec_unsealed {s' : Server} (h : s.Unsealed) {event : ServerEvent}
    (hexec : event.exec env s = some s') : s'.Unsealed := by
  cases event with
  | template req answers =>
    exact Option.some.inj hexec ▸ handleGetBlockTemplate_unsealed h req answers
  | submit method body now ptr =>
    obtain ⟨reply, s₁, hsubmit, -, hunsealed, -⟩ :=
      handleSubmitWork_refused env h method body now ptr
    unfold ServerEvent.exec at hexec
    dsimp only at hexec
    rw [hsubmit] at hexec
    exact Option.some.inj hexec ▸ hunsealed
  | chain call =>
    obtain ⟨w, -, rfl⟩ := Option.map_eq_some_iff.mp hexec
    exact h
  | pool mempool =>
    rw [← Option.some.inj hexec]
    exact h

/-- **A run** leaves the cached blocks without hashes. -/
theorem runServer_unsealed : ∀ {events : List ServerEvent} {s s' : Server}, s.Unsealed →
    runServer env events s = some s' → s'.Unsealed
  | [], _, _, h, hrun => Option.some.inj hrun ▸ h
  | event :: events, s, s', h, hrun => by
    obtain ⟨s₁, hexec, hrest⟩ := Option.bind_eq_some_iff.mp hrun
    exact runServer_unsealed (ServerEvent.exec_unsealed h hexec) hrest

/-! ## The round trip -/

/-- What a miner's seal is over, with the nonce. -/
structure SealedFields where
  prevHash : Bytes
  stateRoot : Bytes
  merkleRoot : Bytes
  height : UInt64
  difficultyBits : UInt32
  timestamp : Int64
  nonce : UInt64
deriving DecidableEq

/-- The fields of a block. -/
def Block.sealedFields (b : Block) : SealedFields where
  prevHash := Hex.encodeToString b.header.prevHash
  stateRoot := Hex.encodeToString b.header.stateRoot
  merkleRoot := Hex.encodeToString (sliceBytes b.header.merkleRoot)
  height := b.height
  difficultyBits := b.header.difficultyBits
  timestamp := b.header.timestampUnix
  nonce := b.header.nonce

/-- The fields a miner seals who works on a template. -/
def BlockTemplate.sealedFields (t : BlockTemplate) (work : SubmitWorkRequest) : SealedFields where
  prevHash := t.prevHash
  stateRoot := t.stateRoot
  merkleRoot := t.merkleRoot
  height := t.height
  difficultyBits := t.difficultyBits
  timestamp := work.timestamp
  nonce := work.nonce

/-- Work on a template, submitted with its height and roots. -/
structure SubmitWorkRequest.For (work : SubmitWorkRequest) (t : BlockTemplate) : Prop where
  height : work.height = t.height
  merkleRoot : work.merkleRoot = t.merkleRoot
  stateRoot : work.stateRoot = t.stateRoot
  height_ne : work.height ≠ 0
  nonce_ne : work.nonce ≠ 0
  miner_ne : work.miner ≠ []

/-- The block that was just cached is found while it is fresh. -/
theorem getCachedBlock_cacheBlockTemplate {cachedAt now : Int}
    (hfresh : now - cachedAt ≤ templateTTL) (ptr : Nat) :
    let s₁ := s.cacheBlockTemplate env block cachedAt
    s₁.getCachedBlock (Hex.encodeToString (sliceBytes block.header.merkleRoot)) now ptr
      = (some (deepCopyBlock block ptr), s₁) := by
  intro s₁
  have hlookup : s₁.templateCache.lookup
      (Hex.encodeToString (sliceBytes block.header.merkleRoot)) = some ⟨block, cachedAt⟩ :=
    AList.lookup_insert _
  unfold Server.getCachedBlock
  rw [hlookup]
  dsimp only
  rw [if_neg (not_lt.mpr hfresh)]

theorem deepCopyBlock_header (h : sliceBytes block.header.merkleRoot ≠ [])
    (ptr : Nat) : (deepCopyBlock block ptr).header = block.header := by
  unfold deepCopyBlock
  rw [if_neg h]

/-- The filled copy has the fields of the template, but its own difficulty. -/
theorem sealedFields_fill (env : Env) (work : SubmitWorkRequest)
    (minerAddress : Bytes) (nextDifficulty : UInt32)
    (h : sliceBytes block.header.merkleRoot ≠ []) (ptr : Nat) :
    (work.fill block.header.stateRoot (deepCopyBlock block ptr)).sealedFields
      = { (block.template env minerAddress nextDifficulty).sealedFields work with
          difficultyBits := block.header.difficultyBits } := by
  unfold SubmitWorkRequest.fill Block.sealedFields
  rw [deepCopyBlock_header h]
  rfl

/-- Work for a template that was just made reaches `AddBlock` on a copy of its block. -/
theorem handleSubmitWork_for {cachedAt now : Int}
    {work : SubmitWorkRequest} {nextDifficulty : UInt32}
    (hwork : work.For (block.template env minerAddress nextDifficulty))
    (hroot : sliceBytes block.header.merkleRoot ≠ []) (hstate : block.header.stateRoot ≠ [])
    (hfresh : now - cachedAt ≤ templateTTL) (ptr : Nat) :
    let s₁ := s.cacheBlockTemplate env block cachedAt
    handleSubmitWork env s₁ .post (some work) now ptr = submitBlock env s₁ work.height
          (work.fill block.header.stateRoot (deepCopyBlock block ptr)) := by
  intro s₁
  have hmerkle : work.merkleRoot = Hex.encodeToString (sliceBytes block.header.merkleRoot) :=
    hwork.merkleRoot
  have hstateRoot : work.stateRoot = Hex.encodeToString block.header.stateRoot := hwork.stateRoot
  have hmethod : ¬ Method.post ≠ Method.post := not_not.mpr rfl
  have hfields : ¬ (work.height = 0 ∨ work.nonce = 0) :=
    not_or.mpr ⟨hwork.height_ne, hwork.nonce_ne⟩
  have hmerkle_ne : work.merkleRoot ≠ [] := by
    rw [hmerkle]
    exact fun hnil => hroot (Hex.encodeToString_eq_nil.mp hnil)
  have hstate_ne : work.stateRoot ≠ [] := by
    rw [hstateRoot]
    exact fun hnil => hstate (Hex.encodeToString_eq_nil.mp hnil)
  unfold handleSubmitWork
  rw [if_neg hmethod]
  dsimp only
  rw [if_neg hfields, if_neg hwork.miner_ne, if_neg hmerkle_ne, if_neg hstate_ne, hmerkle,
    getCachedBlock_cacheBlockTemplate hfresh]
  rw [hstateRoot, Hex.decodeString_encodeToString]

/-- **Work for a template**, submitted in time, reaches `AddBlock` as a block with the fields
the miner sealed exactly if the difficulty of the template is that of the parent, and is
refused for its missing hash. -/
theorem work_for_template {s₁ : Server} {req : TemplateRequest}
    (htemplate : handleGetBlockTemplate env s req answers = (.json 200 t, s₁)) :
    ∃ tip, s.world.chain.tip? = some tip ∧ ∀ work now ptr, work.For t →
      now - answers.cachedAt ≤ templateTTL →
      ∃ block s₂, handleSubmitWork env s₁ .post (some work) now ptr
          = submitBlock env s₁ work.height block
        ∧ (block.sealedFields = t.sealedFields work
          ↔ answers.nextDifficulty = tip.header.difficultyBits)
        ∧ submitBlock env s₁ work.height block = .ok (refusedWork missingHash, s₂) := by
  obtain ⟨tip, coinbase, root, txs, mempool, htip, htype, hlength, block, hblock, rfl, rfl⟩ :=
    handleGetBlockTemplate_eq_json htemplate
  refine ⟨tip, htip, fun work now ptr hwork hfresh => ?_⟩
  have hroot : sliceBytes block.header.merkleRoot ≠ [] := by
    rw [hblock]
    exact List.ne_nil_of_length_eq_add_one hlength
  have hstate : block.header.stateRoot ≠ [] := by
    rw [hblock]
    exact List.ne_nil_of_length_eq_add_one (env.cr.keccak256_length _)
  have hsubmit := handleSubmitWork_for (s := { s with mempool := mempool }) hwork hroot hstate
    hfresh ptr
  have hfill : (work.fill block.header.stateRoot (deepCopyBlock block ptr)).Unsealed := by
    rw [hblock]
    exact ⟨rfl, coinbase, txs, rfl, htype⟩
  have hbits : block.header.difficultyBits = tip.header.difficultyBits := by
    rw [hblock]
    rfl
  obtain ⟨w', hrefused, -⟩ := submitBlock_of_unsealed hfill work.height
  refine ⟨_, _, hsubmit, ?_, hrefused⟩
  rw [sealedFields_fill env work req.address answers.nextDifficulty hroot, hbits]
  constructor
  · intro heq
    exact (congrArg SealedFields.difficultyBits heq).symm
  · intro heq
    rw [← heq]
    rfl

/-- **The round trip of a template.** In every run of a server, whatever else happens at the
node, no submitted work is accepted or changes the chain. Work for a template the server
gives, submitted in time, reaches `AddBlock` with the fields the miner sealed exactly if the
difficulty of the template is that of the parent, and is refused for its missing hash. -/
theorem submitted_work_refused (env : Env) (events : List ServerEvent) (s₀ s : Server)
    (hcache : s₀.templateCache = ∅) (hrun : runServer env events s₀ = some s) :
    (∀ method body now ptr, ∃ reply s', handleSubmitWork env s method body now ptr
        = .ok (reply, s') ∧ reply.accepted = false ∧ s'.world.chain.core = s.world.chain.core)
      ∧ ∀ req answers t s₁, handleGetBlockTemplate env s req answers = (.json 200 t, s₁) →
        ∃ tip, s.world.chain.tip? = some tip ∧ ∀ work now ptr, work.For t →
          now - answers.cachedAt ≤ templateTTL →
          ∃ block s₂, handleSubmitWork env s₁ .post (some work) now ptr
              = submitBlock env s₁ work.height block
            ∧ (block.sealedFields = t.sealedFields work
              ↔ answers.nextDifficulty = tip.header.difficultyBits)
            ∧ submitBlock env s₁ work.height block = .ok (refusedWork missingHash, s₂) := by
  have hunsealed : s.Unsealed := by
    refine runServer_unsealed (fun key ct hlookup => ?_) hrun
    rw [hcache] at hlookup
    cases hlookup
  refine ⟨fun method body now ptr => ?_, fun _ _ _ _ htemplate => work_for_template htemplate⟩
  obtain ⟨reply, s', hreply, hrefused, -, haside⟩ :=
    handleSubmitWork_refused env hunsealed method body now ptr
  exact ⟨reply, s', hreply, hrefused, haside.core⟩

/-! ## A template on the genesis block -/

/-- A server with an empty cache and no pool. -/
def sampleServer (w : World) : Server where
  world := w
  mempool := none
  consensus := sampleEnv.consensus
  monetaryPolicy := sampleEnv.monetaryPolicy
  templateCache := ∅
  tick := 0

/-- A request for a template. -/
def sampleRequest : TemplateRequest := ⟨.get, zeroAddress 1, none⟩

/-- A template in the twentieth second, with a given difficulty. -/
def sampleAnswers (nextDifficulty : UInt32) : TemplateAnswers :=
  ⟨20, nextDifficulty, 20000000000, 1⟩

/-- Work on a template. -/
def BlockTemplate.sampleWork (t : BlockTemplate) : SubmitWorkRequest :=
  ⟨t.height, 7, t.merkleRoot, t.stateRoot, 21, zeroAddress 1⟩

theorem sampleWork_for (h : t.height ≠ 0) : t.sampleWork.For t where
  height := rfl
  merkleRoot := rfl
  stateRoot := rfl
  height_ne := h
  nonce_ne := (by decide : (7 : UInt64) ≠ 0)
  miner_ne := (by decide : zeroAddress 1 ≠ [])

/-- A node that has just started gives a template of height 1. -/
theorem exists_sampleTemplate :
    ∃ w tip t s₁, runFromStart sampleEnv [] = some w ∧ w.chain.tip? = some tip
      ∧ tip.header.difficultyBits = 10 ∧ t.height = 1
      ∧ handleGetBlockTemplate sampleEnv (sampleServer w) sampleRequest (sampleAnswers 10)
        = (.json 200 t, s₁) := by
  have hrun : (runFromStart sampleEnv []).any (fun w =>
      w.chain.tip?.any (·.header.difficultyBits = 10)
        && match handleGetBlockTemplate sampleEnv (sampleServer w) sampleRequest
            (sampleAnswers 10) with
          | (.json 200 t, _) => t.height = 1
          | _ => false) = true := by
    decide +kernel
  obtain ⟨w, hw, h⟩ := (Option.any_eq_true _ _).mp hrun
  obtain ⟨htip, htemplate⟩ := Bool.and_eq_true_iff.mp h
  obtain ⟨tip, htip, hbits⟩ := (Option.any_eq_true _ _).mp htip
  split at htemplate
  · next t s₁ heq =>
    exact ⟨w, tip, t, s₁, hw, htip, of_decide_eq_true hbits, of_decide_eq_true htemplate, heq⟩
  · cases htemplate

/-- Work on the template of a node that has just started. -/
theorem submitted_work_refused_genesis :
    ∃ w t s₁ s₂, runFromStart sampleEnv [] = some w
      ∧ handleGetBlockTemplate sampleEnv (sampleServer w) sampleRequest (sampleAnswers 10)
        = (.json 200 t, s₁)
      ∧ handleSubmitWork sampleEnv s₁ .post (some t.sampleWork) 21000000000 2
        = .ok (refusedWork missingHash, s₂) := by
  obtain ⟨w, tip, t, s₁, hw, -, -, hheight, htemplate⟩ := exists_sampleTemplate
  have hne : t.height ≠ 0 := by
    rw [hheight]
    decide
  obtain ⟨-, hrefused⟩ := submitted_work_refused sampleEnv [] (sampleServer w) (sampleServer w)
    rfl rfl
  obtain ⟨tip', -, hwork⟩ := hrefused _ _ t s₁ htemplate
  obtain ⟨block, s₂, hsubmit, -, hreply⟩ := hwork t.sampleWork 21000000000 2 (sampleWork_for hne)
    (by decide)
  exact ⟨w, t, s₁, s₂, hw, htemplate, hsubmit.trans hreply⟩

/-- The seal of every block with the fields of sample work passes, as every one does under
the constant functions. -/
theorem verifyBlockPoWSeal_sample {tip : Block} (hhash : b.hash ≠ []) (hheight : b.height ≠ 0)
    (hminer : b.minerAddress = zeroAddress 1) :
    verifyBlockPoWSeal sampleEnv.cr false b (some tip) = .ok () := by
  have haddr : (stringToAddress (zeroAddress 1)).isOk = true := by decide +kernel
  unfold verifyBlockPoWSeal sealToCheck sealHash
  rw [if_neg hhash, if_neg hheight, hminer]
  cases hok : stringToAddress (zeroAddress 1) with
  | error e =>
    rw [hok] at haddr
    cases haddr
  | ok addr =>
    exact if_pos (Nat.zero_le _)

/-- **Sealed work is refused.** The template of a node that has just started has the
difficulty of its parent, and every block with the fields the miner sealed, the miner and a
hash passes the seal check; the block that is submitted has these fields, and `AddBlock`
refuses it. -/
theorem sealed_work_refused :
    ∃ w tip t s₁ block s₂, runFromStart sampleEnv [] = some w ∧ w.chain.tip? = some tip
      ∧ handleGetBlockTemplate sampleEnv (sampleServer w) sampleRequest (sampleAnswers 10)
        = (.json 200 t, s₁)
      ∧ (∀ b : Block, b.sealedFields = t.sealedFields t.sampleWork →
          b.minerAddress = t.sampleWork.miner → b.hash ≠ [] →
          verifyBlockPoWSeal sampleEnv.cr false b (some tip) = .ok ())
      ∧ handleSubmitWork sampleEnv s₁ .post (some t.sampleWork) 21000000000 2
        = submitBlock sampleEnv s₁ t.height block
      ∧ block.sealedFields = t.sealedFields t.sampleWork
      ∧ submitBlock sampleEnv s₁ t.height block = .ok (refusedWork missingHash, s₂) := by
  obtain ⟨w, tip, t, s₁, hw, htip, hbits, hheight, htemplate⟩ := exists_sampleTemplate
  have hne : t.height ≠ 0 := by
    rw [hheight]
    decide
  obtain ⟨tip', htip', hwork⟩ := work_for_template htemplate
  obtain rfl : tip' = tip := Option.some.inj (htip'.symm.trans htip)
  obtain ⟨block, s₂, hsubmit, hfields, hreply⟩ := hwork t.sampleWork 21000000000 2
    (sampleWork_for hne) (by decide)
  refine ⟨w, tip', t, s₁, block, s₂, hw, htip, htemplate, fun b hb hminer hhash => ?_, hsubmit,
    hfields.mpr hbits.symm, hreply⟩
  have hbheight : b.height = t.height := congrArg SealedFields.height hb
  exact verifyBlockPoWSeal_sample hhash (hbheight ▸ hne) hminer

end NogoChain
