import B4n.Blockchain.MemPool
import B4n.Blockchain.Poa
import B4n.Transport.Message
import B4n.Lib.Buckets

/-!
# The node

The state and the handlers of `node/node.rs`.  A handler maps the node's state
to the next state and the list of its visible effects: messages put on peers'
channels, in order, and signatures made with the node's key.

What a handler reads from its surroundings is an argument, `Env`: the
monotonic clock, the system clock and the iteration order of the peer map,
which the standard library leaves open.  Nothing relates the environments of
different steps, so a result about all runs covers every timing and every hash
seed.
-/

namespace B4n

open Lib Blockchain Transport

/-- `MAX_ORPHANS_TOTAL` -/
def MAX_ORPHANS_TOTAL : Nat := 1024

/-- `MAX_ORPHANS_PER_PREV` -/
def MAX_ORPHANS_PER_PREV : Nat := 8

/-- `MAX_SEEN_BLOCKS` -/
def MAX_SEEN_BLOCKS : Nat := 100000

/-- `NodeMessage` -/
inductive NodeMessage where
  | localTrx (trx : Transaction)
  | net (peerId : UInt32) (msg : ProtocolMessage)
  | debugPrint
  | stop
  | addPeer (peerId : UInt32) (sender : Sender)
  | removePeer (peerId : UInt32)
deriving DecidableEq

/-- `NodeIdentity` -/
structure NodeIdentity where
  pubkey : PubkeyType
  privateKey : Option Seed
  nodeId : Option UInt32
deriving DecidableEq

/-- `Node` -/
structure Node where
  netId : UInt32
  identity : NodeIdentity
  chain : BlockChain
  mempool : MemPool
  consensus : PoAConsensus
  peers : HashMap UInt32 Sender
  seenBlocks : Finset Hash32Type
  seenBlocksOrder : List Hash32Type
  orphansByPrev : HashMap Hash32Type (List Block)
  orphansTotal : Nat
  isSyncing : Bool
  syncPeer : Option UInt32
  syncNextHeight : UInt64
  syncLimit : UInt32

/-- What one step reads from its surroundings. -/
structure Env where
  /-- `Instant::now()` -/
  now : Instant
  /-- `SystemTime::now()` in seconds since the epoch -/
  unixSecs : UInt64
  /-- the iteration order of the peer map, whose keys are given -/
  peerOrder : List UInt32 → List UInt32
  peerOrder_perm : ∀ keys, (peerOrder keys).Perm keys

/-- A visible effect of a step. -/
inductive Effect where
  | send (peerId : UInt32) (sender : Sender) (msg : ProtocolMessage)
  | signed (block : Block)
deriving DecidableEq

/-- The state after a handler, and its effects in order. -/
structure Reaction where
  node : Node
  effects : List Effect

/-- A `Reaction` with the boolean result of `handle_incoming_block`. -/
structure Handled where
  progressed : Bool
  node : Node
  effects : List Effect

namespace Node

/-! ## Talking to peers -/

/-- The entries of the peer map in iteration order. -/
def peerEntries (env : Env) (node : Node) : List (UInt32 × Sender) :=
  (env.peerOrder node.peers.keys).filterMap fun peerId =>
    (node.peers.lookup peerId).map fun sender => (peerId, sender)

/-- `if let Some(peer) = self.peers.get(&peer_id) { peer.send(msg) }` -/
def sendTo (node : Node) (peerId : UInt32) (msg : ProtocolMessage) :
    List Effect :=
  match node.peers.lookup peerId with
  | some sender => [.send peerId sender msg]
  | none => []

/-- `gossip` -/
def gossip (env : Env) (node : Node) (msg : ProtocolMessage) : List Effect :=
  (node.peerEntries env).map fun entry => .send entry.1 entry.2 msg

/-- `broadcast_block` -/
def broadcastBlock (env : Env) (node : Node) (block : Block) : List Effect :=
  (node.peerEntries env).map fun entry => .send entry.1 entry.2 (.block block)

/-- `any_peer_for_sync` -/
def anyPeerForSync (env : Env) (node : Node) : Option UInt32 :=
  (env.peerOrder node.peers.keys).head?

/-- `request_blocks` -/
def requestBlocks (node : Node) (peerId : UInt32) (start : UInt64) :
    List Effect :=
  node.sendTo peerId (.getBlocks start node.syncLimit)

/-- `start_sync` -/
def startSync (node : Node) (peerId : UInt32) (fromHeight : UInt64) :
    Reaction :=
  if node.isSyncing ∧ node.syncPeer = some peerId ∧
      node.syncNextHeight = fromHeight then ⟨node, []⟩
  else
    let node :=
      { node with
        isSyncing := true
        syncPeer := some peerId
        syncNextHeight := fromHeight }
    ⟨node, node.requestBlocks peerId fromHeight⟩

variable [Primitives]

/-- The `Status` message both `add_peer` and `GetStatus` send. -/
def statusMessage (node : Node) : ProtocolMessage :=
  .status node.chain.getHeight node.chain.last.hash

/-- `add_peer` -/
def addPeer (node : Node) (peerId : UInt32) (sender : Sender) : Reaction :=
  let node := { node with peers := node.peers.insert peerId sender }
  ⟨node, node.sendTo peerId .getStatus ++ node.sendTo peerId node.statusMessage⟩

omit [Primitives] in
/-- `remove_peer` -/
def removePeer (node : Node) (peerId : UInt32) : Node :=
  let isExists := (node.peers.lookup peerId).isSome
  let node := { node with peers := node.peers.erase peerId }
  if !isExists then node
  else if node.syncPeer = some peerId then
    { node with isSyncing := false, syncPeer := none }
  else node

/-! ## Seen blocks and orphans -/

omit [Primitives] in
/-- `mark_seen_block` -/
def markSeenBlock (node : Node) (h : Hash32Type) : Bool × Node :=
  if h ∈ node.seenBlocks then (false, node)
  else
    let window := remember MAX_SEEN_BLOCKS node.seenBlocks node.seenBlocksOrder h
    (true, { node with seenBlocks := window.1, seenBlocksOrder := window.2 })

omit [Primitives] in
/-- `put_orphan`; a bucket that refuses the block was there before, so the
empty one of `or_default` never stays. -/
def putOrphan (node : Node) (block : Block) : Node :=
  if MAX_ORPHANS_TOTAL ≤ node.orphansTotal then node
  else
    let vec := (node.orphansByPrev.lookup block.header.previousHash).getD []
    if MAX_ORPHANS_PER_PREV ≤ vec.length then node
    else
      { node with
        orphansByPrev :=
          node.orphansByPrev.insert block.header.previousHash (vec ++ [block])
        orphansTotal := node.orphansTotal + 1 }

end Node

/-- The loop that pushes leftover orphans until their bucket is full. -/
def fillBucket (entry : List Block) : List Block → List Block
  | [] => entry
  | b :: rest =>
      if MAX_ORPHANS_PER_PREV ≤ entry.length then entry
      else fillBucket (entry ++ [b]) rest

/-- The leftover orphans of a bucket go under the new tip. -/
def refile (orphans : HashMap Hash32Type (List Block)) (newHash : Hash32Type)
    (vec : List Block) : HashMap Hash32Type (List Block) :=
  if vec = [] then orphans
  else
    let entry := (orphans.lookup newHash).getD []
    orphans.insert newHash (fillBucket entry vec)

namespace Node

variable [Primitives]

/-- One round of the loop in `try_connect_orphans`: `inl` when it returns,
`inr` when it goes round again. -/
def connectOnce (env : Env) (node : Node) : Node ⊕ Reaction :=
  let lastHash := node.chain.last.hash
  match node.orphansByPrev.lookup lastHash with
  | none => .inl node
  | some vec =>
      let orphans := node.orphansByPrev.erase lastHash
      match vec.findFinIdx? fun b => node.consensus.accepts node.chain.last b with
      | none => .inl { node with orphansByPrev := orphans.insert lastHash vec }
      | some pos =>
          let block := vec.get pos
          let vec := swapRemove vec pos
          let node :=
            { node with
              chain := node.chain.addBlock block, orphansByPrev := orphans }
          let height := node.chain.getHeight
          let node :=
            { node with
              consensus := node.consensus.updateState env.now (some height) 0 }
          let sent := node.gossip env (.block node.chain.last)
          let node := { node with orphansTotal := node.orphansTotal - 1 }
          let newHash := node.chain.last.hash
          .inr
            ⟨{ node with
                orphansByPrev := refile node.orphansByPrev newHash vec },
              sent⟩

/-- The loop of `try_connect_orphans`, with a bound on its rounds. -/
def connectLoop (env : Env) : Nat → Node → Reaction
  | 0, node => ⟨node, []⟩
  | fuel + 1, node =>
      match node.connectOnce env with
      | .inl node => ⟨node, []⟩
      | .inr first =>
          let rest := connectLoop env fuel first.node
          ⟨rest.node, first.effects ++ rest.effects⟩

/-- `try_connect_orphans`; every round but the last takes a block out of the
pool, so the bound is never reached. -/
def tryConnectOrphans (env : Env) (node : Node) : Reaction :=
  connectLoop env (held node.orphansByPrev + 1) node

/-! ## Receiving blocks -/

omit [Primitives] in
/-- `put_orphan`, then `start_sync` with some peer: the two places where
`handle_incoming_block` finds that it is behind or on a fork. -/
def orphanAndSync (env : Env) (node : Node) (block : Block)
    (expectedIndex : UInt64) : Handled :=
  let node := node.putOrphan block
  match node.anyPeerForSync env with
  | some pid =>
      let sync := node.startSync pid expectedIndex
      ⟨false, sync.node, sync.effects⟩
  | none => ⟨false, node, []⟩

/-- `handle_incoming_block` after the check for seen blocks. -/
def handleUnseenBlock (env : Env) (node : Node) (block : Block) : Handled :=
  let ownHeight := node.chain.getHeight
  let expectedIndex := ownHeight + 1
  if block.header.index ≤ ownHeight then ⟨false, node, []⟩
  else if block.header.index = expectedIndex then
    let prev := node.chain.last
    if block.header.previousHash ≠ prev.hash then
      node.orphanAndSync env block expectedIndex
    else if !node.consensus.accepts prev block then ⟨false, node, []⟩
    else
      let node := { node with chain := node.chain.addBlock block }
      let lastBlock := node.chain.last
      let node :=
        { node with
          mempool := node.mempool.removeIncluded lastBlock.transactions }
      let height := node.chain.getHeight
      let node :=
        { node with
          consensus := node.consensus.updateState env.now (some height) 0 }
      ⟨true, node, node.gossip env (.block node.chain.last)⟩
  else node.orphanAndSync env block expectedIndex

/-- `handle_incoming_block` -/
def handleIncomingBlock (env : Env) (node : Node) (block : Block) : Handled :=
  let marked := node.markSeenBlock block.hash
  if !marked.1 then ⟨false, marked.2, []⟩
  else marked.2.handleUnseenBlock env block

/-- The loop of the `Blocks` handler over its batch. -/
def handleBatch (env : Env) (node : Node) : List Block → Handled
  | [] => ⟨false, node, []⟩
  | b :: blocks =>
      let first := node.handleIncomingBlock env b
      let rest := handleBatch env first.node blocks
      ⟨first.progressed || rest.progressed, rest.node,
        first.effects ++ rest.effects⟩

/-- `if progressed { self.try_connect_orphans() }` -/
def connectIfProgressed (env : Env) (handled : Handled) : Reaction :=
  if handled.progressed then
    let connected := handled.node.tryConnectOrphans env
    ⟨connected.node, handled.effects ++ connected.effects⟩
  else ⟨handled.node, handled.effects⟩

omit [Primitives] in
/-- The paging of the `Blocks` handler: a page of exactly `sync_limit` blocks
asks for the next one, any other page ends the sync. -/
def nextPage (node : Node) (peerId : UInt32) (blocks : List Block) : Reaction :=
  if node.isSyncing ∧ node.syncPeer = some peerId then
    let got := UInt32.ofNat blocks.length
    if got = node.syncLimit then
      let next := node.chain.getHeight + 1
      let node := { node with syncNextHeight := next }
      ⟨node, node.requestBlocks peerId next⟩
    else ⟨{ node with isSyncing := false, syncPeer := none }, []⟩
  else ⟨node, []⟩

/-! ## Serving blocks -/

/-- `u64::saturating_add` -/
def saturatingAdd (a b : UInt64) : UInt64 :=
  if a.toNat + b.toNat < 2 ^ 64 then a + b else UInt64.ofNat (2 ^ 64 - 1)

omit [Primitives] in
/-- The reply loop of `GetBlocks`, over the heights that are left. -/
def collectBlocks (chain : BlockChain) (desiredHeight : UInt64) :
    Nat → List Block
  | 0 => []
  | left + 1 =>
      match chain.getBlock desiredHeight with
      | some b => b :: collectBlocks chain (desiredHeight + 1) left
      | none => []

omit [Primitives] in
/-- The blocks a `GetBlocks` request is answered with. -/
def pageFrom (node : Node) (start : UInt64) (limit : UInt32) : List Block :=
  let upTo := saturatingAdd start limit.toUInt64
  collectBlocks node.chain start (upTo.toNat - start.toNat)

/-! ## The message handlers -/

/-- `mempool.push`, then `gossip` if the transaction was new. -/
def acceptTrx (env : Env) (node : Node) (trx : Transaction) : Reaction :=
  let pushed := node.mempool.push trx
  let node := { node with mempool := pushed.2 }
  if pushed.1 then ⟨node, node.gossip env (.trx trx)⟩ else ⟨node, []⟩

/-- `on_net` -/
def onNet (env : Env) (node : Node) (peerId : UInt32) :
    ProtocolMessage → Reaction
  | .hello _ _ => ⟨node, []⟩
  | .helloAck _ => ⟨node, []⟩
  | .trx trx => node.acceptTrx env trx
  | .block block => connectIfProgressed env (node.handleIncomingBlock env block)
  | .getStatus => ⟨node, node.sendTo peerId node.statusMessage⟩
  | .status peerHeight _ =>
      let ownHeight := node.chain.getHeight
      if ownHeight < peerHeight ∧ !node.isSyncing then
        node.startSync peerId (ownHeight + 1)
      else ⟨node, []⟩
  | .getBlocks start limit =>
      ⟨node, node.sendTo peerId (.blocks (node.pageFrom start limit))⟩
  | .blocks blocks =>
      let connected := connectIfProgressed env (node.handleBatch env blocks)
      let paged := connected.node.nextPage peerId blocks
      ⟨paged.node, connected.effects ++ paged.effects⟩

/-- `on_message` -/
def onMessage (env : Env) (node : Node) : NodeMessage → Reaction
  | .localTrx trx => node.acceptTrx env trx
  | .net peerId msg => node.onNet env peerId msg
  | .debugPrint => ⟨node, []⟩
  | .stop => ⟨node, []⟩
  | .addPeer peerId sender => node.addPeer peerId sender
  | .removePeer peerId => ⟨node.removePeer peerId, []⟩

/-! ## Proposing -/

omit [Primitives] in
/-- The milliseconds of the configuration as a `Duration`. -/
def fromMillis (ms : UInt64) : Nat := 1000000 * ms.toNat

omit [Primitives] in
/-- `round_started_at.elapsed()` -/
def elapsed (env : Env) (node : Node) : Nat :=
  env.now - node.consensus.state.roundStartedAt

omit [Primitives] in
/-- The round change at the top of `on_tick`. -/
def advanceRound (env : Env) (node : Node) : Node :=
  if fromMillis node.consensus.config.timeoutMs ≤ node.elapsed env then
    let nextRound := saturatingAdd node.consensus.state.currentRound 1
    { node with
      consensus := node.consensus.updateState env.now none nextRound }
  else node

end Node

/-- `impl Signer for NodeIdentity` -/
def NodeIdentity.sign [Primitives] (identity : NodeIdentity)
    (data : List UInt8) : Except SignError SignatureType :=
  match identity.privateKey with
  | none => .error .notValidator
  | some signingKey => .ok (Primitives.sign signingKey data)

/-- `NodeIdentity::new` -/
def NodeIdentity.new [Primitives] (seed : Seed)
    (consensusConfig : PoAConsensusConfig) : NodeIdentity :=
  let pubkey := Primitives.verifyingKey seed
  let nodeId :=
    (consensusConfig.validators.findIdx? fun v => v.pubkey = pubkey).map
      UInt32.ofNat
  { pubkey := pubkey
    privateKey := nodeId.map fun _ => seed
    nodeId := nodeId }

namespace Node

variable [Primitives]

/-- `build_block` -/
def buildBlock (env : Env) (node : Node) (transactions : List Transaction) :
    Except SignError Block :=
  match node.identity.nodeId with
  | none => .error .notValidator
  | some proposerId =>
      let lastBlock := node.chain.last
      let nextBlockId := lastBlock.header.index + 1
      let prevHash := lastBlock.hash
      let round := node.consensus.getCurrentRound
      let newBlock := Block.buildUnsigned env.unixSecs nextBlockId prevHash
        transactions round proposerId
      newBlock.sign node.identity.sign

/-- The end of `on_tick`, once transactions were taken from the pool. -/
def proposeBlock (env : Env) (node : Node) (txs : List Transaction) :
    Reaction :=
  match node.buildBlock env txs with
  | .error _ => ⟨node, []⟩
  | .ok candidate =>
      if !node.consensus.accepts node.chain.last candidate then
        ⟨node, [.signed candidate]⟩
      else
        let node := { node with chain := node.chain.addBlock candidate }
        let node := (node.markSeenBlock candidate.hash).2
        let curHeight := node.chain.getHeight
        let node :=
          { node with
            consensus := node.consensus.updateState env.now (some curHeight) 0 }
        ⟨node, .signed candidate :: node.broadcastBlock env candidate⟩

/-- `on_tick` -/
def onTick (env : Env) (node : Node) : Reaction :=
  if node.isSyncing then ⟨node, []⟩
  else if node.elapsed env < fromMillis node.consensus.config.slotDurationMs then
    ⟨node, []⟩
  else
    let node := node.advanceRound env
    let nextHeight := node.chain.getHeight + 1
    let round := node.consensus.state.currentRound
    let expectedProposerId := (node.consensus.expectedProposer nextHeight round).1
    if node.identity.nodeId ≠ some expectedProposerId then ⟨node, []⟩
    else
      let popped := node.mempool.popMany node.consensus.config.maxTrxPerBlock
      let node := { node with mempool := popped.2 }
      if popped.1 = [] then ⟨node, []⟩ else node.proposeBlock env popped.1

/-- `Node::new` -/
def new (netId : UInt32) (seed : Seed) (chain : BlockChain)
    (consensus : PoAConsensus) : Node where
  netId := netId
  identity := NodeIdentity.new seed consensus.config
  chain := chain
  mempool := MemPool.new
  consensus := consensus
  peers := ∅
  seenBlocks := ∅
  seenBlocksOrder := []
  orphansByPrev := ∅
  orphansTotal := 0
  isSyncing := false
  syncPeer := none
  syncNextHeight := 0
  syncLimit := 256

end Node

end B4n
