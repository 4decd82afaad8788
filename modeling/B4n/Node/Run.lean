import B4n.Node.Steps

/-!
# Steps and runs of a node

`Node.next` is one turn of `run_loop`: a message or a tick, in an environment.
This module says what a whole turn can do (`onMessage_cases`, `onMessage_spec`,
`onTick_cases`) and defines the runs of a node.

The chain is a `Vec`, and a push beyond `isize::MAX` bytes aborts the process.
`Node.next` therefore has no successor for a step whose chain would be longer
than any `Vec` can be.
-/

namespace B4n

open Lib Blockchain Transport

namespace Node

/-! ## Messages -/

/-- The fields that only block handling and proposing change, and the page
length, which nothing changes. -/
structure SameCore (node last : Node) : Prop where
  chain : last.chain = node.chain
  consensus : last.consensus = node.consensus
  identity : last.identity = node.identity
  seenBlocks : last.seenBlocks = node.seenBlocks
  seenBlocksOrder : last.seenBlocksOrder = node.seenBlocksOrder
  orphansByPrev : last.orphansByPrev = node.orphansByPrev
  orphansTotal : last.orphansTotal = node.orphansTotal
  syncLimit : last.syncLimit = node.syncLimit

theorem SameCore.refl (node : Node) : SameCore node node :=
  ⟨rfl, rfl, rfl, rfl, rfl, rfl, rfl, rfl⟩

theorem removePeer_core (node : Node) (peerId : UInt32) :
    SameCore node (node.removePeer peerId) := by
  unfold removePeer
  dsimp only
  split
  · exact ⟨rfl, rfl, rfl, rfl, rfl, rfl, rfl, rfl⟩
  · split <;> exact ⟨rfl, rfl, rfl, rfl, rfl, rfl, rfl, rfl⟩

theorem startSync_core (node : Node) (peerId : UInt32) (start : UInt64) :
    SameCore node (node.startSync peerId start).node := by
  unfold startSync
  split
  · exact .refl node
  · exact ⟨rfl, rfl, rfl, rfl, rfl, rfl, rfl, rfl⟩

theorem nextPage_core (node : Node) (peerId : UInt32) (blocks : List Block) :
    SameCore node (node.nextPage peerId blocks).node := by
  unfold nextPage
  split
  · dsimp only
    split <;> exact ⟨rfl, rfl, rfl, rfl, rfl, rfl, rfl, rfl⟩
  · exact .refl node

/-- The sync that follows the filing of an orphan changes nothing of the
core. -/
theorem orphanAndSync_core (env : Env) (node : Node) (block : Block)
    (start : UInt64) :
    SameCore (node.putOrphan block)
      (node.orphanAndSync env block start).node := by
  unfold orphanAndSync
  dsimp only
  split
  · exact startSync_core _ _ _
  · exact .refl _

@[simp] theorem orphanAndSync_chain (env : Env) (node : Node) (block : Block)
    (start : UInt64) :
    (node.orphanAndSync env block start).node.chain = node.chain := by
  obtain ⟨orphans, total, hput⟩ := node.putOrphan_eq block
  rw [(orphanAndSync_core env node block start).chain, hput]

/-! The pool of transactions is not part of the core: a message may push to it.
Syncing and filing orphans leave it alone. -/

@[simp] theorem startSync_mempool (node : Node) (peerId : UInt32)
    (start : UInt64) :
    (node.startSync peerId start).node.mempool = node.mempool := by
  unfold startSync
  split <;> rfl

@[simp] theorem nextPage_mempool (node : Node) (peerId : UInt32)
    (blocks : List Block) :
    (node.nextPage peerId blocks).node.mempool = node.mempool := by
  unfold nextPage
  split
  · dsimp only
    split <;> rfl
  · rfl

@[simp] theorem putOrphan_mempool (node : Node) (block : Block) :
    (node.putOrphan block).mempool = node.mempool := by
  obtain ⟨orphans, total, hput⟩ := node.putOrphan_eq block
  rw [hput]

@[simp] theorem orphanAndSync_mempool (env : Env) (node : Node) (block : Block)
    (start : UInt64) :
    (node.orphanAndSync env block start).node.mempool = node.mempool := by
  unfold orphanAndSync
  dsimp only
  split
  · simp
  · simp

/-- An effect that only hands out blocks of the chain, and not by a `Block`
message. -/
def Serves (chain : BlockChain) : Effect → Prop
  | .send _ _ msg =>
      (∀ b ∈ msg.carried, b ∈ chain.blocks) ∧ ∀ b, msg ≠ .block b
  | .signed _ => False

theorem serves_of_carried_nil {chain : BlockChain} (peerId : UInt32)
    (sender : Sender) {msg : ProtocolMessage} (hmsg : msg.carried = []) :
    Serves chain (.send peerId sender msg) := by
  refine ⟨by simp [hmsg], ?_⟩
  rintro b rfl
  simp [ProtocolMessage.carried] at hmsg

theorem mem_sendTo {node : Node} {peerId : UInt32} {msg : ProtocolMessage}
    {e : Effect} (he : e ∈ node.sendTo peerId msg) :
    ∃ sender, node.peers.lookup peerId = some sender ∧
      e = .send peerId sender msg := by
  unfold sendTo at he
  split at he
  · rename_i sender hsender
    exact ⟨sender, hsender, List.mem_singleton.mp he⟩
  · cases he

theorem mem_startSync_effects {node : Node} {peerId : UInt32}
    {start : UInt64} {e : Effect}
    (he : e ∈ (node.startSync peerId start).effects) :
    ∃ sender, node.peers.lookup peerId = some sender ∧
      e = .send peerId sender (.getBlocks start node.syncLimit) := by
  unfold startSync at he
  split at he
  · cases he
  · exact mem_sendTo he

theorem mem_nextPage_effects {node : Node} {peerId : UInt32}
    {blocks : List Block} {e : Effect}
    (he : e ∈ (node.nextPage peerId blocks).effects) :
    ∃ sender, e = .send peerId sender
      (.getBlocks (node.chain.getHeight + 1) node.syncLimit) := by
  unfold nextPage at he
  split at he
  · dsimp only at he
    split at he
    · obtain ⟨sender, -, heq⟩ := mem_sendTo he
      exact ⟨sender, heq⟩
    · cases he
  · cases he

/-- A page holds blocks of the chain. -/
theorem mem_chain_of_mem_pageFrom {node : Node} {start : UInt64}
    {limit : UInt32} {b : Block} (hb : b ∈ node.pageFrom start limit) :
    b ∈ node.chain.blocks := by
  have hcollect : ∀ (left : Nat) (desired : UInt64),
      b ∈ collectBlocks node.chain desired left → b ∈ node.chain.blocks := by
    intro left
    induction left with
    | zero =>
        intro desired h
        cases h
    | succ left ih =>
        intro desired h
        unfold collectBlocks at h
        split at h
        · rename_i c hc
          rcases List.mem_cons.mp h with rfl | hrest
          · exact List.mem_of_getElem? hc
          · exact ih _ hrest
        · cases h
  exact hcollect _ _ hb

/-- The blocks a node message brings in. -/
def incoming : NodeMessage → List Block
  | .net _ msg => msg.carried
  | _ => []

variable [Primitives]

theorem mem_acceptTrx_effects {env : Env} {node : Node} {trx : Transaction}
    {e : Effect} (he : e ∈ (node.acceptTrx env trx).effects) :
    ∃ peerId sender, e = .send peerId sender (.trx trx) := by
  unfold acceptTrx at he
  dsimp only at he
  split at he
  · obtain ⟨entry, -, rfl⟩ := List.mem_map.mp he
    exact ⟨entry.1, entry.2, rfl⟩
  · cases he

theorem acceptTrx_core (env : Env) (node : Node) (trx : Transaction) :
    SameCore node (node.acceptTrx env trx).node := by
  unfold acceptTrx
  dsimp only
  split <;> exact ⟨rfl, rfl, rfl, rfl, rfl, rfl, rfl, rfl⟩

theorem acceptTrx_pool (env : Env) (node : Node) (trx : Transaction) :
    (node.acceptTrx env trx).node.mempool = (node.mempool.push trx).2 := by
  unfold acceptTrx
  dsimp only
  split <;> rfl

/-- What the handler of a message does, by the functions it calls. -/
inductive MessageCase (env : Env) (node : Node) :
    NodeMessage → Reaction → Prop where
  | ignored (m : NodeMessage) (hnone : incoming m = []) :
      MessageCase env node m ⟨node, []⟩
  | answered (peerId : UInt32) (msg reply : ProtocolMessage)
      (hnone : msg.carried = [])
      (hserves : ∀ sender, Serves node.chain (.send peerId sender reply)) :
      MessageCase env node (.net peerId msg) ⟨node, node.sendTo peerId reply⟩
  | trx (m : NodeMessage) (trx : Transaction) (hnone : incoming m = []) :
      MessageCase env node m (node.acceptTrx env trx)
  | addPeer (peerId : UInt32) (sender : Sender) :
      MessageCase env node (.addPeer peerId sender)
        (node.addPeer peerId sender)
  | removePeer (peerId : UInt32) :
      MessageCase env node (.removePeer peerId) ⟨node.removePeer peerId, []⟩
  | started (peerId : UInt32) (height : UInt64) (hash : Hash32Type)
      (start : UInt64) :
      MessageCase env node (.net peerId (.status height hash))
        (node.startSync peerId start)
  | block (peerId : UInt32) (b : Block) :
      MessageCase env node (.net peerId (.block b))
        (connectIfProgressed env (node.handleIncomingBlock env b))
  | blocks (peerId : UInt32) (page : List Block) (connected : Reaction)
      (hconnected : connected =
        connectIfProgressed env (node.handleBatch env page)) :
      MessageCase env node (.net peerId (.blocks page))
        ⟨(connected.node.nextPage peerId page).node,
          connected.effects ++ (connected.node.nextPage peerId page).effects⟩

theorem onMessage_cases (env : Env) (node : Node) (m : NodeMessage) :
    MessageCase env node m (node.onMessage env m) := by
  cases m with
  | localTrx trx => exact .trx _ trx rfl
  | debugPrint => exact .ignored _ rfl
  | stop => exact .ignored _ rfl
  | removePeer peerId => exact .removePeer peerId
  | addPeer peerId sender => exact .addPeer peerId sender
  | net peerId msg =>
      cases msg with
      | hello id pubkey => exact .ignored _ rfl
      | helloAck id => exact .ignored _ rfl
      | trx trx => exact .trx _ trx rfl
      | getStatus =>
          exact .answered peerId _ _ rfl fun sender =>
            serves_of_carried_nil peerId sender rfl
      | getBlocks start limit =>
          exact .answered peerId _ _ rfl fun sender =>
            ⟨fun b hb => mem_chain_of_mem_pageFrom hb, by simp⟩
      | block b => exact .block peerId b
      | blocks page => exact .blocks peerId page _ rfl
      | status height hash =>
          unfold onMessage onNet
          dsimp only
          split
          · exact .started peerId height hash _
          · exact .ignored _ rfl

/-- Messages other than `Block` and `Blocks` change nothing of the core. -/
theorem onMessage_core (env : Env) {node : Node} {m : NodeMessage}
    (hblock : ∀ peerId b, m ≠ .net peerId (.block b))
    (hblocks : ∀ peerId page, m ≠ .net peerId (.blocks page)) :
    SameCore node (node.onMessage env m).node := by
  have hcase := node.onMessage_cases env m
  generalize node.onMessage env m = reaction at hcase ⊢
  cases hcase with
  | ignored m hnone => exact .refl node
  | answered peerId msg reply hnone hserves => exact .refl node
  | trx m trx hnone => exact acceptTrx_core env node trx
  | addPeer peerId sender => exact ⟨rfl, rfl, rfl, rfl, rfl, rfl, rfl, rfl⟩
  | removePeer peerId => exact removePeer_core node peerId
  | started peerId height hash start => exact startSync_core node peerId start
  | block peerId b => exact absurd rfl (hblock peerId b)
  | blocks peerId page connected hconnected =>
      exact absurd rfl (hblocks peerId page)

/-- A message is handled by taking in the blocks it carries and then changing
nothing of the core; what is sent apart from the relayed blocks only serves
blocks of the chain. -/
theorem onMessage_spec (env : Env) (node : Node) (m : NodeMessage) :
    ∃ mid effects rest,
      Intake env (incoming m) node mid effects ∧
      SameCore mid (node.onMessage env m).node ∧
      (node.onMessage env m).effects = effects ++ rest ∧
      ∀ e ∈ rest, Serves mid.chain e := by
  have hcase := node.onMessage_cases env m
  generalize node.onMessage env m = reaction at hcase ⊢
  cases hcase with
  | ignored m hnone => exact ⟨node, [], [], .refl node, .refl node, rfl, by simp⟩
  | answered peerId msg reply hnone hserves =>
      refine ⟨node, [], _, .refl node, .refl node, rfl, ?_⟩
      intro e he
      obtain ⟨sender, -, rfl⟩ := mem_sendTo he
      exact hserves sender
  | trx m trx hnone =>
      refine ⟨node, [], _, .refl node, acceptTrx_core env node trx, rfl, ?_⟩
      intro e he
      obtain ⟨peerId, sender, rfl⟩ := mem_acceptTrx_effects he
      exact serves_of_carried_nil peerId sender rfl
  | addPeer peerId sender =>
      refine ⟨node, [], _, .refl node,
        ⟨rfl, rfl, rfl, rfl, rfl, rfl, rfl, rfl⟩, rfl, ?_⟩
      intro e he
      rcases List.mem_append.mp he with h | h
      · obtain ⟨sender, -, rfl⟩ := mem_sendTo h
        exact serves_of_carried_nil peerId sender rfl
      · obtain ⟨sender, -, rfl⟩ := mem_sendTo h
        exact serves_of_carried_nil peerId sender rfl
  | removePeer peerId =>
      exact ⟨node, [], [], .refl node, removePeer_core node peerId, rfl,
        by simp⟩
  | started peerId height hash start =>
      refine ⟨node, [], _, .refl node, startSync_core node peerId start, rfl,
        ?_⟩
      intro e he
      obtain ⟨sender, -, rfl⟩ := mem_startSync_effects he
      exact serves_of_carried_nil peerId sender rfl
  | block peerId b =>
      exact ⟨_, _, [], connectIfProgressed_intake
        (handleIncomingBlock_intake env node b), .refl _,
        (List.append_nil _).symm, by simp⟩
  | blocks peerId page connected hconnected =>
      rw [hconnected]
      refine ⟨_, _, _, connectIfProgressed_intake
        (handleBatch_intake env node page), nextPage_core _ peerId page, rfl,
        ?_⟩
      intro e he
      obtain ⟨sender, rfl⟩ := mem_nextPage_effects he
      exact serves_of_carried_nil peerId sender rfl

/-! ## Ticks -/

omit [Primitives] in
/-- The round change leaves everything but the consensus state alone. -/
theorem advanceRound_eq (env : Env) (node : Node) :
    ∃ consensus : PoAConsensus, node.advanceRound env =
        { node with consensus := consensus } ∧
      (consensus = node.consensus ∨
        ∃ round, consensus = node.consensus.updateState env.now none round) := by
  unfold advanceRound
  split
  · exact ⟨_, rfl, Or.inr ⟨_, rfl⟩⟩
  · exact ⟨node.consensus, rfl, Or.inl rfl⟩

omit [Primitives] in
@[simp] theorem advanceRound_chain (env : Env) (node : Node) :
    (node.advanceRound env).chain = node.chain := by
  obtain ⟨consensus, h, -⟩ := node.advanceRound_eq env
  rw [h]

omit [Primitives] in
@[simp] theorem advanceRound_identity (env : Env) (node : Node) :
    (node.advanceRound env).identity = node.identity := by
  obtain ⟨consensus, h, -⟩ := node.advanceRound_eq env
  rw [h]

omit [Primitives] in
@[simp] theorem advanceRound_mempool (env : Env) (node : Node) :
    (node.advanceRound env).mempool = node.mempool := by
  obtain ⟨consensus, h, -⟩ := node.advanceRound_eq env
  rw [h]

omit [Primitives] in
@[simp] theorem advanceRound_config (env : Env) (node : Node) :
    (node.advanceRound env).consensus.config = node.consensus.config := by
  obtain ⟨consensus, h, rfl | ⟨round, rfl⟩⟩ := node.advanceRound_eq env
  · rw [h]
  · rw [h]
    rfl

omit [Primitives] in
/-- The node's slot has come: it is not syncing, the slot time is over, and the
height and the (possibly advanced) round make it the proposer. -/
structure Turn (env : Env) (node : Node) : Prop where
  not_syncing : node.isSyncing = false
  slot_over :
    fromMillis node.consensus.config.slotDurationMs ≤ node.elapsed env
  nodeId_eq : node.identity.nodeId = some
    ((node.advanceRound env).consensus.expectedProposer
      (node.chain.getHeight + 1)
      (node.advanceRound env).consensus.state.currentRound).1

omit [Primitives] in
/-- The transactions a tick takes if it is the node's turn. -/
def nextTrxs (node : Node) : List Transaction :=
  (node.mempool.popMany node.consensus.config.maxTrxPerBlock).1

omit [Primitives] in
/-- The state once these transactions were taken. -/
def drained (env : Env) (node : Node) : Node :=
  { node.advanceRound env with
    mempool :=
      (node.mempool.popMany node.consensus.config.maxTrxPerBlock).2 }

omit [Primitives] in
/-- Taking the transactions changes the round and the pool only. -/
theorem drained_eq (env : Env) (node : Node) :
    ∃ (consensus : PoAConsensus) (pool : MemPool),
      node.drained env =
        { node with consensus := consensus, mempool := pool } ∧
      consensus.config = node.consensus.config ∧
      consensus.verifier = node.consensus.verifier := by
  obtain ⟨consensus, h, hconsensus⟩ := node.advanceRound_eq env
  unfold drained
  rw [h]
  refine ⟨consensus, _, rfl, ?_⟩
  rcases hconsensus with rfl | ⟨round, rfl⟩ <;> exact ⟨rfl, rfl⟩

omit [Primitives] in
@[simp] theorem drained_chain (env : Env) (node : Node) :
    (node.drained env).chain = node.chain := by
  obtain ⟨consensus, pool, h, -, -⟩ := node.drained_eq env
  rw [h]

omit [Primitives] in
@[simp] theorem drained_identity (env : Env) (node : Node) :
    (node.drained env).identity = node.identity := by
  obtain ⟨consensus, pool, h, -, -⟩ := node.drained_eq env
  rw [h]

omit [Primitives] in
@[simp] theorem drained_peers (env : Env) (node : Node) :
    (node.drained env).peers = node.peers := by
  obtain ⟨consensus, pool, h, -, -⟩ := node.drained_eq env
  rw [h]

omit [Primitives] in
@[simp] theorem drained_seenBlocks (env : Env) (node : Node) :
    (node.drained env).seenBlocks = node.seenBlocks := by
  obtain ⟨consensus, pool, h, -, -⟩ := node.drained_eq env
  rw [h]

omit [Primitives] in
@[simp] theorem drained_seenBlocksOrder (env : Env) (node : Node) :
    (node.drained env).seenBlocksOrder = node.seenBlocksOrder := by
  obtain ⟨consensus, pool, h, -, -⟩ := node.drained_eq env
  rw [h]

omit [Primitives] in
@[simp] theorem drained_orphansByPrev (env : Env) (node : Node) :
    (node.drained env).orphansByPrev = node.orphansByPrev := by
  obtain ⟨consensus, pool, h, -, -⟩ := node.drained_eq env
  rw [h]

omit [Primitives] in
@[simp] theorem drained_orphansTotal (env : Env) (node : Node) :
    (node.drained env).orphansTotal = node.orphansTotal := by
  obtain ⟨consensus, pool, h, -, -⟩ := node.drained_eq env
  rw [h]

omit [Primitives] in
@[simp] theorem drained_config (env : Env) (node : Node) :
    (node.drained env).consensus.config = node.consensus.config := by
  obtain ⟨consensus, pool, h, hconfig, -⟩ := node.drained_eq env
  rw [h]
  exact hconfig

omit [Primitives] in
@[simp] theorem drained_verifier (env : Env) (node : Node) :
    (node.drained env).consensus.verifier = node.consensus.verifier := by
  obtain ⟨consensus, pool, h, -, hverifier⟩ := node.drained_eq env
  rw [h]
  exact hverifier

omit [Primitives] in
theorem drained_broadcastBlock (env : Env) (node : Node) (block : Block) :
    (node.drained env).broadcastBlock env block =
      node.broadcastBlock env block := by
  obtain ⟨consensus, pool, h, -, -⟩ := node.drained_eq env
  rw [h]
  rfl

/-- Neither the round nor the pool changes what is accepted. -/
theorem accepts_drained (env : Env) (node : Node) (prev current : Block) :
    (node.drained env).consensus.accepts prev current =
      node.consensus.accepts prev current := by
  have hconsensus : (node.drained env).consensus =
      (node.advanceRound env).consensus := rfl
  rw [hconsensus]
  obtain ⟨consensus, h, rfl | ⟨round, rfl⟩⟩ := node.advanceRound_eq env
  · rw [h]
  · rw [h]
    exact PoAConsensus.accepts_updateState _ _ _ _ _ _

/-- What `build_block` makes of its transactions. -/
structure Built (node : Node) (txs : List Transaction) (candidate : Block) :
    Prop where
  index_eq : candidate.header.index = node.chain.getHeight + 1
  previousHash_eq : candidate.header.previousHash = node.chain.last.hash
  merkleRoot_eq : candidate.header.merkleRoot = calcMerkleRoot txs
  round_eq : candidate.header.round = node.consensus.state.currentRound
  proposerId_eq : node.identity.nodeId = some candidate.header.proposerId
  signature_eq : ∃ signingKey, node.identity.privateKey = some signingKey ∧
    candidate.header.signature =
      Primitives.sign signingKey candidate.headerWoSignatureToBytes
  transactions_eq : candidate.transactions = txs

theorem buildBlock_built {env : Env} {node : Node} {txs : List Transaction}
    {candidate : Block} (hbuild : node.buildBlock env txs = .ok candidate) :
    Built node txs candidate := by
  unfold buildBlock at hbuild
  cases hid : node.identity.nodeId with
  | none => simp [hid] at hbuild
  | some proposerId =>
      cases hkey : node.identity.privateKey with
      | none => simp [hid, Block.sign, NodeIdentity.sign, hkey] at hbuild
      | some signingKey =>
          simp only [hid, Block.sign, NodeIdentity.sign, hkey,
            Except.ok.injEq] at hbuild
          subst hbuild
          exact ⟨rfl, rfl, rfl, rfl, hid, ⟨signingKey, hkey, rfl⟩, rfl⟩

/-- A node signs with the seed it was made from. -/
theorem privateKey_eq {seed signingKey : Seed}
    {config : PoAConsensusConfig}
    (hkey : (NodeIdentity.new seed config).privateKey = some signingKey) :
    signingKey = seed := by
  obtain ⟨i, -, rfl⟩ := Option.map_eq_some_iff.mp hkey
  rfl

/-- A validator builds a block from any transactions. -/
theorem buildBlock_of_validator {env : Env} {node : Node}
    {txs : List Transaction} {proposerId : UInt32} {signingKey : Seed}
    (hid : node.identity.nodeId = some proposerId)
    (hkey : node.identity.privateKey = some signingKey) :
    ∃ candidate, node.buildBlock env txs = .ok candidate := by
  simp [buildBlock, hid, Block.sign, NodeIdentity.sign, hkey]

/-- The branches of `on_tick`. -/
inductive TickCase (env : Env) (node : Node) : Reaction → Prop where
  | waited (consensus : PoAConsensus)
      (hconsensus : consensus = node.consensus ∨
        ∃ round, consensus = node.consensus.updateState env.now none round)
      (hno : ¬ (Turn env node ∧ node.nextTrxs ≠ [])) :
      TickCase env node ⟨{ node with consensus := consensus }, []⟩
  | keyless (hturn : Turn env node) (htxs : node.nextTrxs ≠ [])
      (hbuild : (node.drained env).buildBlock env node.nextTrxs =
        .error .notValidator) :
      TickCase env node ⟨node.drained env, []⟩
  | refused (candidate : Block) (hturn : Turn env node)
      (htxs : node.nextTrxs ≠ [])
      (hbuild : (node.drained env).buildBlock env node.nextTrxs = .ok candidate)
      (hbad : node.consensus.accepts node.chain.last candidate = false) :
      TickCase env node ⟨node.drained env, [.signed candidate]⟩
  | proposed (candidate : Block) (hturn : Turn env node)
      (htxs : node.nextTrxs ≠ [])
      (hbuild : (node.drained env).buildBlock env node.nextTrxs = .ok candidate)
      (hok : node.consensus.accepts node.chain.last candidate = true) :
      TickCase env node
        ⟨(((node.drained env).grow env candidate).markSeenBlock
            candidate.hash).2,
          .signed candidate :: node.broadcastBlock env candidate⟩

omit [Primitives] in
/-- Popping nothing leaves the pool as it was. -/
theorem popMany_of_nil {pool : MemPool} {count : Nat}
    (h : (pool.popMany count).1 = []) : (pool.popMany count).2 = pool := by
  have htake : pool.queue.take (min count pool.queue.length) = [] := h
  have hmin : min count pool.queue.length = 0 := by
    have hlen := congrArg List.length htake
    rw [List.length_take, List.length_nil] at hlen
    omega
  simp [MemPool.popMany, hmin]

/-- On its turn, and with transactions to take, the node proposes. -/
theorem onTick_of_turn {env : Env} {node : Node} (hturn : Turn env node)
    (htxs : node.nextTrxs ≠ []) :
    node.onTick env = (node.drained env).proposeBlock env node.nextTrxs := by
  have hnextTrxs : ((node.advanceRound env).mempool.popMany
      (node.advanceRound env).consensus.config.maxTrxPerBlock).1 =
        node.nextTrxs := by
    rw [advanceRound_mempool, advanceRound_config]
    rfl
  unfold onTick
  rw [if_neg (by simp [hturn.not_syncing]),
    if_neg (Nat.not_lt.mpr hturn.slot_over)]
  dsimp only
  rw [if_neg (by
    rw [advanceRound_identity, advanceRound_chain]
    exact not_not.mpr hturn.nodeId_eq), hnextTrxs, if_neg htxs]
  unfold drained
  rw [advanceRound_mempool, advanceRound_config]

/-- Past its slot time, and not on its turn or with nothing to take, a tick
changes at most the round. -/
theorem onTick_of_slot_over {env : Env} {node : Node}
    (hsync : node.isSyncing = false)
    (hslot : fromMillis node.consensus.config.slotDurationMs ≤
      node.elapsed env)
    (hno : ¬ (Turn env node ∧ node.nextTrxs ≠ [])) :
    node.onTick env = ⟨node.advanceRound env, []⟩ := by
  unfold onTick
  rw [if_neg (by simp [hsync]), if_neg (Nat.not_lt.mpr hslot)]
  dsimp only
  rw [advanceRound_identity, advanceRound_chain]
  by_cases hid : node.identity.nodeId = some
      ((node.advanceRound env).consensus.expectedProposer
        (node.chain.getHeight + 1)
        (node.advanceRound env).consensus.state.currentRound).1
  swap
  · exact if_pos hid
  have hturn : Turn env node := ⟨hsync, hslot, hid⟩
  have htxs : node.nextTrxs = [] := by
    by_contra hne
    exact hno ⟨hturn, hne⟩
  unfold nextTrxs at htxs
  rw [if_neg (not_not.mpr hid), advanceRound_mempool, advanceRound_config,
    if_pos htxs, popMany_of_nil htxs]
  obtain ⟨consensus, hadvance, -⟩ := node.advanceRound_eq env
  rw [hadvance]

/-- Otherwise a tick changes at most the round. -/
theorem onTick_of_not_turn {env : Env} {node : Node}
    (hno : ¬ (Turn env node ∧ node.nextTrxs ≠ [])) :
    node.onTick env = ⟨node, []⟩ ∨
      node.onTick env = ⟨node.advanceRound env, []⟩ := by
  by_cases hsync : node.isSyncing = true
  · exact Or.inl (if_pos hsync)
  by_cases hslot : node.elapsed env <
      fromMillis node.consensus.config.slotDurationMs
  · unfold onTick
    rw [if_neg hsync]
    exact Or.inl (if_pos hslot)
  exact Or.inr (onTick_of_slot_over (Bool.eq_false_iff.mpr hsync)
    (Nat.not_lt.mp hslot) hno)

omit [Primitives] in
/-- Marking a block as seen commutes with adding it. -/
theorem markSeenBlock_grow (env : Env) (node : Node) (block : Block)
    (h : Hash32Type) :
    ((node.grow env block).markSeenBlock h).2 =
      (node.markSeenBlock h).2.grow env block := by
  unfold markSeenBlock grow
  dsimp only
  split <;> rfl

theorem proposeBlock_of_ok {env : Env} {node : Node} {txs : List Transaction}
    {candidate : Block} (hbuild : node.buildBlock env txs = .ok candidate)
    (hok : node.consensus.accepts node.chain.last candidate = true) :
    node.proposeBlock env txs =
      ⟨((node.grow env candidate).markSeenBlock candidate.hash).2,
        .signed candidate :: node.broadcastBlock env candidate⟩ := by
  unfold proposeBlock
  rw [hbuild]
  dsimp only
  rw [if_neg (by rw [hok]; simp), markSeenBlock_grow]
  by_cases hseen : candidate.hash ∈ node.seenBlocks
  · rw [markSeenBlock_of_mem hseen, markSeenBlock_of_mem (by exact hseen),
      BlockChain.getHeight_addBlock]
    rfl
  · rw [markSeenBlock_of_not_mem hseen,
      markSeenBlock_of_not_mem (by exact hseen)]
    dsimp only [mark_chain]
    rw [BlockChain.getHeight_addBlock]
    rfl

theorem proposeBlock_of_refused {env : Env} {node : Node}
    {txs : List Transaction} {candidate : Block}
    (hbuild : node.buildBlock env txs = .ok candidate)
    (hbad : node.consensus.accepts node.chain.last candidate = false) :
    node.proposeBlock env txs = ⟨node, [.signed candidate]⟩ := by
  unfold proposeBlock
  rw [hbuild]
  dsimp only
  rw [if_pos (by rw [hbad]; rfl)]

theorem onTick_cases (env : Env) (node : Node) :
    TickCase env node (node.onTick env) := by
  by_cases hwhen : Turn env node ∧ node.nextTrxs ≠ []
  swap
  · obtain ⟨consensus, hadvance, hconsensus⟩ := node.advanceRound_eq env
    rcases onTick_of_not_turn hwhen with h | h
    · rw [h]
      exact .waited node.consensus (Or.inl rfl) hwhen
    · rw [h, hadvance]
      exact .waited consensus hconsensus hwhen
  obtain ⟨hturn, htxs⟩ := hwhen
  rw [onTick_of_turn hturn htxs]
  cases hbuild : (node.drained env).buildBlock env node.nextTrxs with
  | error e =>
      cases e
      have hkeyless : (node.drained env).proposeBlock env node.nextTrxs =
          ⟨node.drained env, []⟩ := by
        unfold proposeBlock
        rw [hbuild]
      rw [hkeyless]
      exact .keyless hturn htxs hbuild
  | ok candidate =>
      have haccepts := accepts_drained env node node.chain.last candidate
      by_cases hok : node.consensus.accepts node.chain.last candidate = true
      · rw [proposeBlock_of_ok hbuild (by rw [drained_chain, haccepts, hok]),
          drained_broadcastBlock]
        exact .proposed candidate hturn htxs hbuild hok
      · have hbad := Bool.eq_false_iff.mpr hok
        rw [proposeBlock_of_refused hbuild
          (by rw [drained_chain, haccepts, hbad])]
        exact .refused candidate hturn htxs hbuild hbad

end Node

/-! ## Runs -/

/-- The longest a `Vec` can be: `isize::MAX` bytes. -/
def MAX_VEC_LEN : Nat := 2 ^ 63 - 1

/-- What one turn of `run_loop` handles. -/
inductive Input where
  | message (m : NodeMessage)
  | tick

namespace Node

variable [Primitives]

/-- One turn of `run_loop`. -/
def step (env : Env) (node : Node) : Input → Reaction
  | .message m => node.onMessage env m
  | .tick => node.onTick env

/-- The machine of a node: a turn whose chain no `Vec` can hold aborts. -/
def next : Machine Node (Env × Input) Effect := fun node i =>
  let reaction := node.step i.1 i.2
  if reaction.node.chain.blocks.length ≤ MAX_VEC_LEN then
    some (reaction.node, reaction.effects)
  else none

theorem next_eq_some {node last : Node} {i : Env × Input}
    {effects : List Effect} (h : node.next i = some (last, effects)) :
    last = (node.step i.1 i.2).node ∧ effects = (node.step i.1 i.2).effects ∧
      last.chain.blocks.length ≤ MAX_VEC_LEN := by
  unfold next at h
  dsimp only at h
  split at h
  · rename_i hfits
    simp only [Option.some.injEq, Prod.mk.injEq] at h
    obtain ⟨rfl, rfl⟩ := h
    exact ⟨rfl, rfl, hfits⟩
  · cases h

theorem next_of_length_le {node : Node} {i : Env × Input}
    (h : (node.step i.1 i.2).node.chain.blocks.length ≤ MAX_VEC_LEN) :
    node.next i = some ((node.step i.1 i.2).node, (node.step i.1 i.2).effects) :=
  if_pos h

/-- The set-up of `cli::run`: a fresh chain, a consensus state built from it
and a node over both. -/
def boot (now : Instant) (netId : UInt32) (seed : Seed) (chainId : UInt64)
    (config : PoAConsensusConfig) (verifier : Verifier) :
    Except ConsensusError Node :=
  let chain := BlockChain.new chainId
  let state := PoAConsensusState.new now chain.getHeight chain.getRound
  match PoAConsensus.new config state verifier with
  | .error e => .error e
  | .ok consensus => .ok (Node.new netId seed chain consensus)

/-- The set-up fails on an invalid configuration only. -/
theorem boot_eq_ok_iff {now : Instant} {netId : UInt32} {seed : Seed}
    {chainId : UInt64} {config : PoAConsensusConfig} {verifier : Verifier}
    {node : Node} :
    boot now netId seed chainId config verifier = .ok node ↔
      ∃ hok : config.validateConfig = true,
        node = Node.new netId seed (BlockChain.new chainId)
          { config := config
            state := PoAConsensusState.new now
              (BlockChain.new chainId).getHeight
              (BlockChain.new chainId).getRound
            verifier := verifier
            config_ok := hok } := by
  unfold boot PoAConsensus.new
  by_cases hok : config.validateConfig = true
  · simp only [hok, dite_true, Except.ok.injEq, exists_true_left]
    exact eq_comm
  · simp [hok]

/-! ## `run_loop` -/

/-- What `rx.recv_timeout` returns. -/
inductive LoopEvent where
  | received (m : NodeMessage)
  | timeout
  | disconnected

/-- What a turn handles; `Stop` and a closed channel leave the loop. -/
def LoopEvent.input : LoopEvent → Option Input
  | .received .stop => none
  | .received m => some (.message m)
  | .timeout => some .tick
  | .disconnected => none

/-- `run_loop`, over the events it receives. -/
def runLoop : Node → List (Env × LoopEvent) → Option (Node × List Effect)
  | node, [] => some (node, [])
  | node, (env, event) :: events =>
      match event.input with
      | none => some (node, [])
      | some input =>
          match node.next (env, input) with
          | none => none
          | some (mid, effects) =>
              match runLoop mid events with
              | none => none
              | some (last, rest) => some (last, effects ++ rest)

/-- Whatever `run_loop` receives, it ends in a state of a run. -/
theorem runLoop_run {node last : Node} {events : List (Env × LoopEvent)}
    {effects : List Effect} (h : node.runLoop events = some (last, effects)) :
    ∃ inputs, Run Node.next node inputs last effects := by
  induction events generalizing node last effects with
  | nil =>
      cases h
      exact ⟨[], .start⟩
  | cons e events ih =>
      unfold runLoop at h
      split at h
      · cases h
        exact ⟨[], .start⟩
      · rename_i input _
        split at h
        · cases h
        · rename_i mid out hnext
          split at h
          · cases h
          · rename_i u rest hloop
            cases h
            obtain ⟨inputs, hrun⟩ := ih hloop
            have hfirst : Run Node.next node ([] ++ [(e.1, input)]) mid
                ([] ++ out) := Run.start.step hnext
            exact ⟨_, hfirst.append hrun⟩

end Node

end B4n
