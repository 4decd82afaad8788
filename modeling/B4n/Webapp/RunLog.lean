import B4n.Node.Chain
import B4n.Node.Peers
import B4n.Node.Sample
import B4n.Webapp.NodeLog
import Mathlib.Data.Finset.Sort
import Mathlib.Data.List.Lex

/-!
# What a node writes

The lines that the handlers of `node/node.rs` print, turn by turn.  `gossip` is
called where a transaction is queued and where a block is appended by a message;
the registering of peers, the local transactions and the snapshots have lines of
their own, and a tick is silent.

## Main results

* `run_log_peers` — the lines of a run tell who is registered: each of them
  agrees with the lines before it, and together they give the peer map.
* `run_log_chains` — the snapshots of a run are valid chains, each of which
  extends the ones before it.
-/

namespace B4n

open Lib Blockchain Transport Webapp

/-- What one turn reads, with the iteration order of the pool's hash set. -/
structure LogEnv where
  env : Env
  seenIter : Finset Hash32Type → List Hash32Type
  seenIter_nodup : ∀ seen, (seenIter seen).Nodup
  mem_seenIter : ∀ seen h, h ∈ seenIter seen ↔ h ∈ seen

namespace Node

/-! ## The lines of the handlers -/

/-- What `gossip` calls a message. -/
def gossipKind : ProtocolMessage → GossipKind
  | .trx _ => .trx
  | .block _ => .block
  | _ => .other

/-- `self.peers.len()` -/
def peersLen (node : Node) : Nat := node.peers.keys.length

/-- The line of `gossip`. -/
def gossipLine (node : Node) (msg : ProtocolMessage) : OwnLine :=
  .gossip (gossipKind msg) node.peersLen

/-- The line of `add_peer`. -/
def addPeerLine (node : Node) (peerId : UInt32) : OwnLine :=
  let isReplaced := (node.peers.lookup peerId).isSome
  if isReplaced then .addPeerReplace peerId else .addPeer peerId

/-- The line of `remove_peer`. -/
def removePeerLine (node : Node) (peerId : UInt32) : OwnLine :=
  let isExists := (node.peers.lookup peerId).isSome
  let node := { node with peers := node.peers.erase peerId }
  if !isExists then .removePeerDup peerId else .removePeer peerId node.peersLen

variable [Primitives]

/-- `mempool.push`, then `gossip` if the transaction was new. -/
def acceptTrxLines (node : Node) (trx : Transaction) : List OwnLine :=
  if (node.mempool.push trx).1 then [node.gossipLine (.trx trx)] else []

/-- The lines of `handle_incoming_block` after the check for seen blocks. -/
def handleUnseenBlockLines (node : Node) (block : Block) : List OwnLine :=
  let ownHeight := node.chain.getHeight
  let expectedIndex := ownHeight + 1
  if block.header.index ≤ ownHeight then []
  else if block.header.index = expectedIndex then
    let prev := node.chain.last
    if block.header.previousHash ≠ prev.hash then []
    else if !node.consensus.accepts prev block then []
    else [node.gossipLine (.block block)]
  else []

/-- The lines of `handle_incoming_block`. -/
def handleIncomingBlockLines (node : Node) (block : Block) : List OwnLine :=
  let marked := node.markSeenBlock block.hash
  if !marked.1 then [] else marked.2.handleUnseenBlockLines block

/-- The lines of the loop of the `Blocks` handler over its batch. -/
def handleBatchLines (env : Env) (node : Node) : List Block → List OwnLine
  | [] => []
  | b :: blocks =>
      node.handleIncomingBlockLines b ++
        handleBatchLines env (node.handleIncomingBlock env b).node blocks

/-- The lines of the loop of `try_connect_orphans`: one in every round that goes
round again. -/
def connectLoopLines (env : Env) : Nat → Node → List OwnLine
  | 0, _ => []
  | fuel + 1, node =>
      match node.connectOnce env with
      | .inl _ => []
      | .inr first =>
          first.node.gossipLine (.block first.node.chain.last) ::
            connectLoopLines env fuel first.node

/-- The lines of `try_connect_orphans`. -/
def tryConnectOrphansLines (env : Env) (node : Node) : List OwnLine :=
  connectLoopLines env (held node.orphansByPrev + 1) node

/-- `if progressed { self.try_connect_orphans() }` -/
def connectIfProgressedLines (env : Env) (handled : Handled) : List OwnLine :=
  if handled.progressed then handled.node.tryConnectOrphansLines env else []

/-- The lines of `on_net`. -/
def onNetLines (env : Env) (node : Node) : ProtocolMessage → List OwnLine
  | .trx trx => node.acceptTrxLines trx
  | .block block =>
      node.handleIncomingBlockLines block ++
        connectIfProgressedLines env (node.handleIncomingBlock env block)
  | .blocks blocks =>
      node.handleBatchLines env blocks ++
        connectIfProgressedLines env (node.handleBatch env blocks)
  | _ => []

/-- What `on_message` writes. -/
def onMessageLog (env : LogEnv) (node : Node) : NodeMessage → List LogEntry
  | .localTrx trx =>
      let inserted := (node.mempool.push trx).1
      .own (.localTrx inserted trx.hash) :: (node.acceptTrxLines trx).map .own
  | .net _ msg => (node.onNetLines env.env msg).map .own
  | .debugPrint => [.snapshot node.chain node.mempool (env.seenIter node.mempool.seen)]
  | .stop => []
  | .addPeer peerId _ => [.own (node.addPeerLine peerId)]
  | .removePeer peerId => [.own (node.removePeerLine peerId)]

/-- What a turn writes; `on_tick` and what it calls print nothing. -/
def stepLog (env : LogEnv) (node : Node) : Input → List LogEntry
  | .message m => node.onMessageLog env m
  | .tick => []

/-- The machine of a node that puts out what it writes. -/
def nextLog : Machine Node (LogEnv × Input) LogEntry := fun node i =>
  (node.next (i.1.env, i.2)).map fun after => (after.1, node.stepLog i.1 i.2)

theorem nextLog_eq_some {node last : Node} {i : LogEnv × Input} {entries : List LogEntry}
    (h : node.nextLog i = some (last, entries)) :
    (∃ effects, node.next (i.1.env, i.2) = some (last, effects)) ∧
      entries = node.stepLog i.1 i.2 := by
  obtain ⟨after, hnext, heq⟩ := Option.map_eq_some_iff.mp h
  obtain ⟨rfl, rfl⟩ := Prod.mk.injEq _ _ _ _ ▸ heq
  exact ⟨⟨after.2, hnext⟩, rfl⟩

/-- A run that writes is a run. -/
theorem run_of_runLog {node last : Node} {inputs : List (LogEnv × Input)}
    {entries : List LogEntry} (hrun : Run nextLog node inputs last entries) :
    ∃ effects, Run Node.next node (inputs.map fun i => (i.1.env, i.2)) last effects := by
  induction hrun with
  | start => exact ⟨[], .start⟩
  | step _ hnext ih =>
      obtain ⟨effects, hbefore⟩ := ih
      obtain ⟨⟨out, hout⟩, -⟩ := nextLog_eq_some hnext
      rw [List.map_append]
      exact ⟨_, hbefore.step hout⟩

end Node

/-! ## Who is registered -/

/-- Who is registered after what the line says. -/
def Webapp.OwnLine.peersAfter (peers : Finset UInt32) : OwnLine → Finset UInt32
  | .addPeerReplace peerId => insert peerId peers
  | .addPeer peerId => insert peerId peers
  | .removePeer peerId _ => peers.erase peerId
  | _ => peers

/-- The line agrees with who is registered before it. -/
def Webapp.OwnLine.Agrees (peers : Finset UInt32) : OwnLine → Prop
  | .addPeerReplace peerId => peerId ∈ peers
  | .addPeer peerId => peerId ∉ peers
  | .removePeerDup peerId => peerId ∉ peers
  | .removePeer peerId peersLeft => peerId ∈ peers ∧ peersLeft = (peers.erase peerId).card
  | .localTrx _ _ => True
  | .gossip _ count => count = peers.card

/-- Who is registered after an entry. -/
def Webapp.LogEntry.peersAfter (peers : Finset UInt32) : LogEntry → Finset UInt32
  | .own line => line.peersAfter peers
  | .snapshot .. => peers

/-- Who is registered after some entries. -/
def peersTold (peers : Finset UInt32) (entries : List LogEntry) : Finset UInt32 :=
  entries.foldl LogEntry.peersAfter peers

/-- Every line agrees with the lines before it. -/
def Consistent (peers : Finset UInt32) (entries : List LogEntry) : Prop :=
  ∀ before line after, entries = before ++ .own line :: after →
    line.Agrees (peersTold peers before)

theorem peersTold_append (peers : Finset UInt32) (entries more : List LogEntry) :
    peersTold peers (entries ++ more) = peersTold (peersTold peers entries) more :=
  List.foldl_append

theorem Consistent.nil (peers : Finset UInt32) : Consistent peers [] := by
  intro before line after h
  simp at h

theorem Consistent.cons {peers : Finset UInt32} {entry : LogEntry} {entries : List LogEntry}
    (hentry : ∀ line, entry = .own line → line.Agrees peers)
    (h : Consistent (entry.peersAfter peers) entries) : Consistent peers (entry :: entries) := by
  intro before line after heq
  cases before with
  | nil =>
      cases heq
      exact hentry line rfl
  | cons first before =>
      obtain ⟨rfl, hrest⟩ := List.cons.inj heq
      exact h before line after hrest

theorem Consistent.singleton {peers after : Finset UInt32} {line : OwnLine}
    (h : line.Agrees peers ∧ line.peersAfter peers = after) :
    Consistent peers [.own line] ∧ peersTold peers [.own line] = after := by
  refine ⟨.cons ?_ (.nil _), h.2⟩
  intro other hother
  cases hother
  exact h.1

theorem Consistent.append {peers : Finset UInt32} {entries more : List LogEntry}
    (h : Consistent peers entries) (hmore : Consistent (peersTold peers entries) more) :
    Consistent peers (entries ++ more) := by
  induction entries generalizing peers with
  | nil => exact hmore
  | cons entry entries ih =>
      apply Consistent.cons
      · intro line hline
        exact h [] line entries (by rw [hline]; rfl)
      · refine ih ?_ hmore
        intro before line after heq
        exact h (entry :: before) line after (by rw [heq]; rfl)

namespace Node

/-- The keys of the peer map. -/
def peerIds (node : Node) : Finset UInt32 := node.peers.keys.toFinset

theorem mem_peerIds {node : Node} {peerId : UInt32} :
    peerId ∈ node.peerIds ↔ (node.peers.lookup peerId).isSome = true := by
  unfold peerIds
  rw [List.mem_toFinset, ← AList.mem_keys, AList.lookup_isSome]

theorem card_peerIds (node : Node) : node.peerIds.card = node.peersLen :=
  List.toFinset_card_of_nodup node.peers.nodupKeys

theorem peerIds_insert (node : Node) (peerId : UInt32) (sender : Sender) :
    { node with peers := node.peers.insert peerId sender }.peerIds =
      insert peerId node.peerIds := by
  ext other
  rw [mem_peerIds, AList.lookup_isSome, AList.mem_insert, Finset.mem_insert, mem_peerIds,
    AList.lookup_isSome]

theorem peerIds_erase (node : Node) (peerId : UInt32) :
    { node with peers := node.peers.erase peerId }.peerIds = node.peerIds.erase peerId := by
  ext other
  rw [mem_peerIds, AList.lookup_isSome, AList.mem_erase, Finset.mem_erase, mem_peerIds,
    AList.lookup_isSome]

/-- The lines of `gossip` alone, all with the number of peers that the node
has. -/
def Gossips (node : Node) (lines : List OwnLine) : Prop :=
  ∀ line ∈ lines, ∃ kind, line = .gossip kind node.peersLen

theorem Gossips.nil (node : Node) : Gossips node [] := by
  intro line hline
  cases hline

theorem Gossips.singleton (node : Node) (msg : ProtocolMessage) :
    Gossips node [node.gossipLine msg] := by
  intro line hline
  exact ⟨gossipKind msg, List.mem_singleton.mp hline⟩

theorem Gossips.cons {node : Node} {line : OwnLine} {lines : List OwnLine}
    (hline : ∃ kind, line = .gossip kind node.peersLen) (h : Gossips node lines) :
    Gossips node (line :: lines) := by
  intro other hother
  rcases List.mem_cons.mp hother with rfl | hmore
  · exact hline
  · exact h other hmore

theorem Gossips.append {node : Node} {lines more : List OwnLine} (h : Gossips node lines)
    (hmore : Gossips node more) : Gossips node (lines ++ more) := by
  intro line hline
  rcases List.mem_append.mp hline with hfirst | hsecond
  · exact h line hfirst
  · exact hmore line hsecond

/-- The number of peers is that of any node with the same peers. -/
theorem Gossips.of_peers {node other : Node} {lines : List OwnLine} (h : Gossips node lines)
    (hpeers : node.peers = other.peers) : Gossips other lines := by
  intro line hline
  obtain ⟨kind, rfl⟩ := h line hline
  exact ⟨kind, by rw [peersLen, peersLen, hpeers]⟩

theorem Gossips.consistent {node : Node} {lines : List OwnLine} (h : Gossips node lines) :
    Consistent node.peerIds (lines.map .own) ∧
      peersTold node.peerIds (lines.map .own) = node.peerIds := by
  induction lines with
  | nil => exact ⟨.nil _, rfl⟩
  | cons line lines ih =>
      obtain ⟨kind, rfl⟩ := h line List.mem_cons_self
      obtain ⟨hrest, htold⟩ := ih fun other hother => h other (List.mem_cons_of_mem _ hother)
      refine ⟨.cons ?_ hrest, htold⟩
      intro other hother
      cases hother
      exact node.card_peerIds.symm

variable [Primitives]

theorem acceptTrxLines_gossips (node : Node) (trx : Transaction) :
    Gossips node (node.acceptTrxLines trx) := by
  unfold acceptTrxLines
  split
  · exact .singleton node _
  · exact .nil node

theorem handleIncomingBlockLines_gossips (node : Node) (block : Block) :
    Gossips node (node.handleIncomingBlockLines block) := by
  unfold handleIncomingBlockLines
  dsimp only
  split
  · exact .nil node
  · suffices h : Gossips (node.markSeenBlock block.hash).2
        ((node.markSeenBlock block.hash).2.handleUnseenBlockLines block) from
      h.of_peers (node.markSeenBlock_peers block.hash)
    unfold handleUnseenBlockLines
    dsimp only
    split
    · exact .nil _
    · split
      · split
        · exact .nil _
        · split
          · exact .nil _
          · exact .singleton _ _
      · exact .nil _

theorem handleBatchLines_gossips (env : Env) (node : Node) (blocks : List Block) :
    Gossips node (node.handleBatchLines env blocks) := by
  induction blocks generalizing node with
  | nil => exact .nil node
  | cons b blocks ih =>
      have hpeers := (node.handleIncomingBlock_intake env b).peers
      exact (node.handleIncomingBlockLines_gossips b).append
        ((ih (node.handleIncomingBlock env b).node).of_peers hpeers)

theorem connectLoopLines_gossips (env : Env) (fuel : Nat) (node : Node) :
    Gossips node (node.connectLoopLines env fuel) := by
  induction fuel generalizing node with
  | zero => exact .nil node
  | succ fuel ih =>
      unfold connectLoopLines
      have hcase := node.connectOnce_cases env
      generalize node.connectOnce env = round at hcase ⊢
      cases hcase with
      | done orphans hsame hheld hnone => exact .nil node
      | connected vec pos hvec hok => exact .cons ⟨_, rfl⟩ ((ih _).of_peers rfl)

theorem connectIfProgressedLines_gossips (env : Env) {node : Node} {handled : Handled}
    (hpeers : handled.node.peers = node.peers) :
    Gossips node (connectIfProgressedLines env handled) := by
  unfold connectIfProgressedLines
  split
  · exact (connectLoopLines_gossips env _ handled.node).of_peers hpeers
  · exact .nil node

theorem onNetLines_gossips (env : Env) (node : Node) (msg : ProtocolMessage) :
    Gossips node (node.onNetLines env msg) := by
  cases msg with
  | trx trx => exact node.acceptTrxLines_gossips trx
  | block b =>
      exact (node.handleIncomingBlockLines_gossips b).append
        (connectIfProgressedLines_gossips env (node.handleIncomingBlock_intake env b).peers)
  | blocks page =>
      exact (node.handleBatchLines_gossips env page).append
        (connectIfProgressedLines_gossips env (node.handleBatch_intake env page).peers)
  | hello id pubkey => exact .nil node
  | helloAck id => exact .nil node
  | getStatus => exact .nil node
  | status height hash => exact .nil node
  | getBlocks start limit => exact .nil node

omit [Primitives] in
theorem addPeerLine_agrees (node : Node) (peerId : UInt32) :
    (node.addPeerLine peerId).Agrees node.peerIds ∧
      (node.addPeerLine peerId).peersAfter node.peerIds = insert peerId node.peerIds := by
  unfold addPeerLine
  by_cases hthere : peerId ∈ node.peerIds
  · rw [if_pos (mem_peerIds.mp hthere)]
    exact ⟨hthere, rfl⟩
  · rw [if_neg (mt mem_peerIds.mpr hthere)]
    exact ⟨hthere, rfl⟩

omit [Primitives] in
theorem removePeerLine_agrees (node : Node) (peerId : UInt32) :
    (node.removePeerLine peerId).Agrees node.peerIds ∧
      (node.removePeerLine peerId).peersAfter node.peerIds = node.peerIds.erase peerId := by
  unfold removePeerLine
  dsimp only
  by_cases hthere : peerId ∈ node.peerIds
  · rw [if_neg (by simp [mem_peerIds.mp hthere])]
    refine ⟨⟨hthere, ?_⟩, rfl⟩
    rw [← node.peerIds_erase peerId, card_peerIds]
  · have hnone : (node.peers.lookup peerId).isSome = false :=
      Bool.eq_false_iff.mpr (mt mem_peerIds.mpr hthere)
    rw [if_pos (by simp [hnone])]
    exact ⟨hthere, (Finset.erase_eq_of_notMem hthere).symm⟩

/-- What a turn writes agrees with the peer map before it, and tells the peer
map after it. -/
theorem stepLog_peers (env : LogEnv) (node : Node) (input : Input) :
    Consistent node.peerIds (node.stepLog env input) ∧
      peersTold node.peerIds (node.stepLog env input) =
        (node.step env.env input).node.peerIds := by
  have hpeers := node.step_peers env.env input
  have hsame : ∀ {other : Node}, other.peers = node.peers → other.peerIds = node.peerIds := by
    intro other hother
    rw [peerIds, peerIds, hother]
  cases input with
  | tick => exact ⟨.nil _, (hsame hpeers).symm⟩
  | message m =>
      cases m with
      | debugPrint =>
          refine ⟨.cons ?_ (.nil _), rfl⟩
          intro line hline
          cases hline
      | stop => exact ⟨.nil _, rfl⟩
      | localTrx trx =>
          obtain ⟨hlines, htold⟩ := (node.acceptTrxLines_gossips trx).consistent
          refine ⟨.cons ?_ hlines, htold.trans (hsame hpeers).symm⟩
          intro line hline
          cases hline
          trivial
      | net peerId msg =>
          obtain ⟨hlines, htold⟩ := (node.onNetLines_gossips env.env msg).consistent
          exact ⟨hlines, htold.trans (hsame hpeers).symm⟩
      | addPeer peerId sender =>
          have hafter : (node.step env.env (.message (.addPeer peerId sender))).node.peerIds =
              insert peerId node.peerIds := node.peerIds_insert peerId sender
          rw [hafter]
          exact Consistent.singleton (node.addPeerLine_agrees peerId)
      | removePeer peerId =>
          have hafter : (node.step env.env (.message (.removePeer peerId))).node.peerIds =
              node.peerIds.erase peerId := by
            rw [← node.peerIds_erase peerId, peerIds, peerIds]
            exact congrArg (fun peers : HashMap UInt32 Sender => peers.keys.toFinset)
              (node.removePeer_peers peerId)
          rw [hafter]
          exact Consistent.singleton (node.removePeerLine_agrees peerId)

/-- The lines of a run tell who is registered.  Every line agrees with the lines
before it, and all together they tell the peer map. -/
theorem run_log_peers {netId : UInt32} {seed : Seed} {chain : BlockChain}
    {consensus : PoAConsensus} {last : Node} {inputs : List (LogEnv × Input)}
    {entries : List LogEntry}
    (hrun : Run nextLog (Node.new netId seed chain consensus) inputs last entries) :
    Consistent ∅ entries ∧ peersTold ∅ entries = last.peerIds := by
  apply hrun.invariant_outputs
    (P := fun last entries => Consistent ∅ entries ∧ peersTold ∅ entries = last.peerIds)
  · exact ⟨.nil _, rfl⟩
  · rintro mid entries ⟨env, input⟩ after more ⟨hbefore, htold⟩ hnext
    obtain ⟨⟨effects, hstep⟩, rfl⟩ := nextLog_eq_some hnext
    obtain ⟨rfl, -, -⟩ := next_eq_some hstep
    obtain ⟨hlines, hafter⟩ := mid.stepLog_peers env input
    rw [← htold] at hlines hafter
    exact ⟨hbefore.append hlines, (peersTold_append _ _ _).trans hafter⟩

end Node

/-! ## Which states are printed -/

/-- `NodeMessage::DebugPrint` -/
def Input.isDebugPrint : Input → Bool
  | .message .debugPrint => true
  | _ => false

/-- The chain and the pool that an entry prints. -/
def Webapp.LogEntry.printout? : LogEntry → Option (BlockChain × MemPool)
  | .own _ => none
  | .snapshot chain pool _ => some (chain, pool)

/-- The states that some entries print. -/
def printouts (entries : List LogEntry) : List (BlockChain × MemPool) :=
  entries.filterMap LogEntry.printout?

theorem printouts_append (entries more : List LogEntry) :
    printouts (entries ++ more) = printouts entries ++ printouts more :=
  List.filterMap_append

theorem printouts_own (lines : List OwnLine) : printouts (lines.map .own) = [] := by
  unfold printouts
  rw [List.filterMap_map]
  exact List.filterMap_eq_nil_iff.mpr fun _ _ => rfl

variable [Primitives]

/-- A chain as a node has it: valid, and every block is at its index. -/
structure SoundChain (chain : BlockChain) : Prop where
  isValid : chain.isValid = true
  index_eq : ∀ (i : Nat) (block : Block),
    chain.blocks[i]? = some block → block.header.index.toNat = i

/-- The printed chains are sound, each extends the ones before it, and the node's
own chain extends all of them. -/
structure Growing (node : Node) (prints : List (BlockChain × MemPool)) : Prop where
  sound : ∀ p ∈ prints, SoundChain p.1
  ordered : prints.Pairwise fun earlier later => earlier.1.blocks <+: later.1.blocks
  within : ∀ p ∈ prints, p.1.blocks <+: node.chain.blocks

theorem Growing.advance {node last : Node} {prints : List (BlockChain × MemPool)}
    (h : Growing node prints) (hgrown : node.chain.blocks <+: last.chain.blocks) :
    Growing last prints where
  sound := h.sound
  ordered := h.ordered
  within := fun p hp => (h.within p hp).trans hgrown

theorem Growing.print {node : Node} {prints : List (BlockChain × MemPool)}
    (h : Growing node prints) (hlinked : Node.Linked node) :
    Growing node (prints ++ [(node.chain, node.mempool)]) where
  sound := by
    intro p hp
    rcases List.mem_append.mp hp with hold | hnew
    · exact h.sound p hold
    · rw [List.mem_singleton.mp hnew]
      exact ⟨BlockChain.windowsValid_of_isChain hlinked.follows, fun _ _ => hlinked.index_eq⟩
  ordered := by
    rw [List.pairwise_append]
    refine ⟨h.ordered, List.pairwise_singleton _ _, ?_⟩
    intro earlier hearlier later hlater
    rw [List.mem_singleton.mp hlater]
    exact h.within earlier hearlier
  within := by
    intro p hp
    rcases List.mem_append.mp hp with hold | hnew
    · exact h.within p hold
    · rw [List.mem_singleton.mp hnew]

namespace Node

/-- A turn prints the state it begins in, or nothing. -/
theorem printouts_stepLog (env : LogEnv) (node : Node) (input : Input) :
    printouts (node.stepLog env input) = [] ∨
      input = .message .debugPrint ∧
        printouts (node.stepLog env input) = [(node.chain, node.mempool)] := by
  cases input with
  | tick => exact .inl rfl
  | message m =>
      cases m with
      | debugPrint => exact .inr ⟨rfl, rfl⟩
      | localTrx trx => exact .inl (printouts_own (.localTrx _ _ :: node.acceptTrxLines trx))
      | net peerId msg => exact .inl (printouts_own (node.onNetLines env.env msg))
      | stop => exact .inl rfl
      | addPeer peerId sender => exact .inl rfl
      | removePeer peerId => exact .inl rfl

theorem length_printouts_stepLog (env : LogEnv) (node : Node) (input : Input) :
    (printouts (node.stepLog env input)).length = [input].countP Input.isDebugPrint := by
  cases input with
  | tick => rfl
  | message m =>
      cases m with
      | debugPrint => rfl
      | localTrx trx =>
          exact congrArg List.length (printouts_own (.localTrx _ _ :: node.acceptTrxLines trx))
      | net peerId msg => exact congrArg List.length (printouts_own (node.onNetLines env.env msg))
      | stop => rfl
      | addPeer peerId sender => rfl
      | removePeer peerId => rfl

/-- A run prints as many states as it takes `DebugPrint` messages. -/
theorem length_printouts {node last : Node} {inputs : List (LogEnv × Input)}
    {entries : List LogEntry} (hrun : Run nextLog node inputs last entries) :
    (printouts entries).length = (inputs.map Prod.snd).countP Input.isDebugPrint := by
  induction hrun with
  | start => rfl
  | step _ hnext ih =>
      obtain ⟨-, rfl⟩ := nextLog_eq_some hnext
      rw [printouts_append, List.length_append, List.map_append, List.countP_append, ih,
        length_printouts_stepLog]
      rfl

/-- A run that ends with a `DebugPrint` message has printed its last state. -/
theorem getLast?_printouts {node last : Node} {inputs : List (LogEnv × Input)} {env : LogEnv}
    {entries : List LogEntry}
    (hrun : Run nextLog node (inputs ++ [(env, .message .debugPrint)]) last entries) :
    (printouts entries).getLast? = some (last.chain, last.mempool) := by
  obtain ⟨mid, first, -, hbefore, -⟩ := hrun.split
  obtain ⟨after, new, rest, hnext, hrest⟩ := hrun.split_cons hbefore
  obtain ⟨rfl, rfl⟩ := hrest.unique .start
  obtain ⟨-, rfl⟩ := (hbefore.step hnext).unique hrun
  obtain ⟨⟨effects, hstep⟩, rfl⟩ := nextLog_eq_some hnext
  obtain ⟨rfl, -⟩ := next_eq_some hstep
  rw [printouts_append]
  exact List.getLast?_concat

/-- What every state of a run has, every printed state has. -/
theorem printouts_of_allStates {node last : Node} {inputs : List (LogEnv × Input)}
    {entries : List LogEntry} (hrun : Run nextLog node inputs last entries)
    {P : BlockChain → MemPool → Prop}
    (hall : AllStates Node.next node (inputs.map fun i => (i.1.env, i.2)) fun node =>
      P node.chain node.mempool) : ∀ p ∈ printouts entries, P p.1 p.2 := by
  induction hrun with
  | start => simp [printouts]
  | step hbefore hnext ih =>
      rw [List.map_append] at hall
      obtain ⟨-, rfl⟩ := nextLog_eq_some hnext
      intro p hp
      rw [printouts_append] at hp
      rcases List.mem_append.mp hp with hold | hnew
      · exact ih hall.of_append p hold
      · obtain ⟨effects, hrun⟩ := run_of_runLog hbefore
        rcases printouts_stepLog _ _ _ with hnone | ⟨-, hprint⟩
        · rw [hnone] at hnew
          cases hnew
        · rw [hprint] at hnew
          rw [List.mem_singleton.mp hnew]
          exact hall _ _ _ _ rfl hrun

/-- Along every run, the printed chains are sound and only grow. -/
theorem run_log_chains {netId : UInt32} {seed : Seed} {chainId : UInt64}
    {consensus : PoAConsensus} {last : Node} {inputs : List (LogEnv × Input)}
    {entries : List LogEntry}
    (hrun : Run nextLog (Node.new netId seed (BlockChain.new chainId) consensus) inputs last
      entries) : Growing last (printouts entries) := by
  have hinv : Linked last ∧ Growing last (printouts entries) := by
    apply hrun.invariant_outputs
      (P := fun last entries => Linked last ∧ Growing last (printouts entries))
    · exact ⟨new_linked _ _ _ _, by simp [printouts], .nil, by simp [printouts]⟩
    · rintro mid entries ⟨env, input⟩ after more ⟨hlinked, hgrowing⟩ hnext
      obtain ⟨⟨effects, hstep⟩, rfl⟩ := nextLog_eq_some hnext
      obtain ⟨added, hadvance⟩ := next_advance hstep
      refine ⟨hlinked.advance hadvance, ?_⟩
      rw [printouts_append]
      suffices h : Growing mid (printouts entries ++ printouts (mid.stepLog env input)) from
        h.advance ⟨added, hadvance.blocks_eq.symm⟩
      rcases mid.printouts_stepLog env input with hnone | ⟨-, hprint⟩
      · rw [hnone, List.append_nil]
        exact hgrowing
      · rw [hprint]
        exact hgrowing.print hlinked
  exact hinv.2

end Node

end B4n

namespace B4n.Blockchain.Sample

open B4n.Lib B4n.Webapp

scoped instance hashOrder : LinearOrder Hash32Type :=
  LinearOrder.lift' (fun hash : Hash32Type => hash.toList.map UInt8.toNat) (by
    intro hash hash' heq
    apply List.Vector.toList_injective
    exact List.map_injective_iff.mpr (fun _ _ => UInt8.toNat_inj.mp) heq)

/-- The sample clock; hashes come in order. -/
def logEnv (ms : Nat) : LogEnv where
  env := env ms
  seenIter seen := seen.sort
  seenIter_nodup := fun _ => Finset.sort_nodup ..
  mem_seenIter := fun _ _ => Finset.mem_sort ..

/-- A peer comes and leaves. -/
private def visit : List (LogEnv × Input) :=
  [(logEnv 10, .message (.addPeer 2 5)), (logEnv 20, .message .debugPrint),
    (logEnv 30, .message (.removePeer 2))]

private def visitLog : List LogEntry :=
  [.own (.addPeer 2),
    .snapshot (BlockChain.new 1) MemPool.new ((logEnv 20).seenIter MemPool.new.seen),
    .own (.removePeer 2 0)]

private theorem visit_ok :
    (exec Node.nextLog (node 1 1 (config [1] 8) config_one_ok) visit).isSome = true := by
  decide +kernel

theorem run_log_peers_left : Consistent ∅ visitLog ∧ peersTold ∅ visitLog = ∅ :=
  Node.run_log_peers (run_finish visit_ok)

end B4n.Blockchain.Sample
