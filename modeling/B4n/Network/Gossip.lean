import B4n.Lib.Flooding
import B4n.Network.Sample
import B4n.Node.Caches
import B4n.Node.Peers

/-!
# Transactions flood the network

A node that queues a transaction sends it to every peer that is registered at
that time, and sends it on no other occasion.  A node that gets a transaction
queues it, unless its queue is full or it remembers the hash, and then it queued
a transaction with this hash before.

The token of this flood is the hash: what is sent on is the transaction that
came, and the pool compares hashes.

## Main results

* `step_quiet` — a turn that brings no transaction sends none, and none comes into
  the pool.
* `run_trx_floods` — once no transaction with the hash is in flight, one was
  queued wherever links lead from a node that queued one, full queues apart.
-/

namespace B4n

open Lib Blockchain Transport

/-- The transaction that a turn offers to the pool. -/
def Input.trx? : Input → Option Transaction
  | .message (.localTrx trx) => some trx
  | .message (.net _ (.trx trx)) => some trx
  | _ => none

namespace Node

/-- Gossip goes to every registered peer. -/
theorem send_mem_gossip {env : Env} {node : Node} {peerId : UInt32} {sender : Sender}
    (h : node.peers.lookup peerId = some sender) (msg : ProtocolMessage) :
    .send peerId sender msg ∈ node.gossip env msg := by
  have hkey : peerId ∈ env.peerOrder node.peers.keys := by
    rw [(env.peerOrder_perm node.peers.keys).mem_iff, ← AList.mem_keys, ← AList.lookup_isSome, h]
    rfl
  have hentry : (peerId, sender) ∈ node.peerEntries env :=
    List.mem_filterMap.mpr ⟨peerId, hkey, by rw [h]; rfl⟩
  exact List.mem_map.mpr ⟨(peerId, sender), hentry, rfl⟩

variable [Primitives]

theorem step_of_trx? {env : Env} {node : Node} {input : Input} {trx : Transaction}
    (h : input.trx? = some trx) : node.step env input = node.acceptTrx env trx := by
  unfold Input.trx? at h
  split at h
  · cases h
    rfl
  · cases h
    rfl
  · cases h

/-- A queued transaction goes to every registered peer. -/
theorem send_mem_acceptTrx {env : Env} {node : Node} {trx : Transaction}
    (hnew : (node.mempool.push trx).1 = true) {peerId : UInt32} {sender : Sender}
    (h : node.peers.lookup peerId = some sender) :
    .send peerId sender (.trx trx) ∈ (node.acceptTrx env trx).effects := by
  unfold acceptTrx
  dsimp only
  rw [if_pos hnew]
  have hpeers : ({ node with mempool := (node.mempool.push trx).2 } : Node).peers.lookup peerId =
      some sender := h
  exact send_mem_gossip hpeers (.trx trx)

end Node

/-! ## What the pool remembers -/

namespace Blockchain.MemPool

variable [Primitives]

theorem removeIncluded_seen (pool : MemPool) (included : List Transaction) :
    (pool.removeIncluded included).seen = pool.seen := by
  unfold removeIncluded
  split <;> rfl

/-- A push adds at most the hash of what it queues. -/
theorem mem_seen_push {pool : MemPool} {trx : Transaction} {h : Hash32Type}
    (hmem : h ∈ (pool.push trx).2.seen) :
    h ∈ pool.seen ∨ (trx.hash = h ∧ (pool.push trx).1 = true) := by
  unfold push at hmem ⊢
  by_cases hfull : MAX_MEMPOOL ≤ pool.queue.length
  · rw [if_pos hfull] at hmem
    exact .inl hmem
  rw [if_neg hfull] at hmem ⊢
  dsimp only at hmem ⊢
  by_cases hseen : trx.hash ∈ pool.seen
  · rw [if_pos hseen] at hmem
    exact .inl hmem
  rw [if_neg hseen] at hmem ⊢
  by_cases hsame : h = trx.hash
  · exact .inr ⟨hsame.symm, rfl⟩
  · refine .inl ?_
    by_contra hold
    exact not_mem_remember MAX_SEEN pool.seenOrder hsame hold hmem

/-- What is not queued although there is room is remembered. -/
theorem mem_seen_of_push {pool : MemPool} {trx : Transaction}
    (hold : (pool.push trx).1 ≠ true) (hroom : pool.queue.length < MAX_MEMPOOL) :
    trx.hash ∈ pool.seen := by
  by_contra hnew
  apply hold
  unfold push
  rw [if_neg (by omega)]
  dsimp only
  rw [if_neg hnew]

/-- A push queues the transaction behind the others, or nothing. -/
theorem queue_push (pool : MemPool) (trx : Transaction) :
    (pool.push trx).2.queue = pool.queue ++ if (pool.push trx).1 then [trx] else [] := by
  unfold push
  split
  · simp
  · dsimp only
    split <;> simp

end Blockchain.MemPool

/-! ## Turns that bring no transaction -/

/-- The transaction that an effect sends. -/
def Effect.trx? : Effect → Option Transaction
  | .send _ _ (.trx trx) => some trx
  | _ => none

namespace Node

/-- No transaction is sent, and none comes into the pool. -/
structure Quiet (node : Node) (reaction : Reaction) : Prop where
  seen_eq : reaction.node.mempool.seen = node.mempool.seen
  queue_subset : reaction.node.mempool.queue ⊆ node.mempool.queue
  sends : ∀ e ∈ reaction.effects, e.trx? = none

theorem Quiet.refl (node : Node) : Quiet node ⟨node, []⟩ :=
  ⟨rfl, List.Subset.refl _, by simp⟩

/-- A pool that is left alone. -/
theorem Quiet.of_mempool {node : Node} {reaction : Reaction}
    (hpool : reaction.node.mempool = node.mempool)
    (hsends : ∀ e ∈ reaction.effects, e.trx? = none) : Quiet node reaction :=
  ⟨by rw [hpool], by rw [hpool]; exact List.Subset.refl _, hsends⟩

theorem Quiet.trans {node mid last : Node} {effects more : List Effect}
    (h : Quiet node ⟨mid, effects⟩) (hmore : Quiet mid ⟨last, more⟩) :
    Quiet node ⟨last, effects ++ more⟩ where
  seen_eq := hmore.seen_eq.trans h.seen_eq
  queue_subset := List.Subset.trans hmore.queue_subset h.queue_subset
  sends := by
    intro e he
    rcases List.mem_append.mp he with hfirst | hlater
    · exact h.sends e hfirst
    · exact hmore.sends e hlater

theorem trx?_sendTo {node : Node} {peerId : UInt32} {msg : ProtocolMessage}
    (hmsg : ∀ sender, (Effect.send peerId sender msg).trx? = none) :
    ∀ e ∈ node.sendTo peerId msg, e.trx? = none := by
  intro e he
  obtain ⟨sender, -, rfl⟩ := mem_sendTo he
  exact hmsg sender

theorem trx?_gossip_block {env : Env} {node : Node} {block : Block} :
    ∀ e ∈ node.gossip env (.block block), e.trx? = none := by
  intro e he
  obtain ⟨entry, -, rfl⟩ := List.mem_map.mp he
  rfl

theorem startSync_quiet (node : Node) (peerId : UInt32) (start : UInt64) :
    Quiet node (node.startSync peerId start) := by
  apply Quiet.of_mempool (startSync_mempool node peerId start)
  intro e he
  obtain ⟨sender, -, rfl⟩ := mem_startSync_effects he
  rfl

variable [Primitives]

theorem IntakeStep.quiet {env : Env} {incoming : List Block} {node last : Node}
    {effects : List Effect} (hstep : IntakeStep env incoming node last effects) :
    Quiet node ⟨last, effects⟩ := by
  cases hstep with
  | mark b hb hnew => exact .of_mempool rfl (by simp)
  | receive b hb hok =>
      refine ⟨MemPool.removeIncluded_seen _ _, ?_, trx?_gossip_block⟩
      show (node.mempool.removeIncluded b.transactions).queue ⊆ node.mempool.queue
      rw [MemPool.removeIncluded_queue]
      exact List.filter_subset_self _
  | connect vec pos hvec hok => exact .of_mempool rfl trx?_gossip_block
  | reorder orphans hsame hheld => exact .of_mempool rfl (by simp)
  | orphan b hb hlt => exact .of_mempool (putOrphan_mempool node b) (by simp)
  | sync pid start hpid => exact startSync_quiet node pid start

theorem Intake.quiet {env : Env} {incoming : List Block} {node last : Node}
    {effects : List Effect} (hintake : Intake env incoming node last effects) :
    Quiet node ⟨last, effects⟩ := by
  induction hintake with
  | refl node => exact .refl node
  | head hstep _ ih => exact hstep.quiet.trans ih

/-- Only a transaction of a client or of a peer gets into the pool. -/
theorem onMessage_quiet (env : Env) (node : Node) {m : NodeMessage}
    (h : (Input.message m).trx? = none) : Quiet node (node.onMessage env m) := by
  cases m with
  | localTrx trx => cases h
  | debugPrint => exact .refl node
  | stop => exact .refl node
  | addPeer peerId sender =>
      refine .of_mempool rfl ?_
      intro e he
      rcases List.mem_append.mp he with hhello | hstatus
      · exact trx?_sendTo (fun _ => rfl) e hhello
      · exact trx?_sendTo (fun _ => rfl) e hstatus
  | removePeer peerId =>
      apply Quiet.of_mempool ?_ (by simp [onMessage])
      show (node.removePeer peerId).mempool = node.mempool
      unfold removePeer
      dsimp only
      split
      · rfl
      · split <;> rfl
  | net peerId msg =>
      cases msg with
      | trx trx => cases h
      | hello id pubkey => exact .refl node
      | helloAck id => exact .refl node
      | getStatus => exact .of_mempool rfl (trx?_sendTo fun _ => rfl)
      | getBlocks start limit => exact .of_mempool rfl (trx?_sendTo fun _ => rfl)
      | status height hash =>
          unfold onMessage onNet
          dsimp only
          split
          · exact startSync_quiet node peerId _
          · exact .refl node
      | block b => exact (connectIfProgressed_intake (node.handleIncomingBlock_intake env b)).quiet
      | blocks page =>
          have hconnected := connectIfProgressed_intake (node.handleBatch_intake env page)
          refine hconnected.quiet.trans (.of_mempool (nextPage_mempool _ peerId page) ?_)
          intro e he
          obtain ⟨sender, rfl⟩ := mem_nextPage_effects he
          rfl

theorem onTick_quiet (env : Env) (node : Node) : Quiet node (node.onTick env) := by
  have hdrained : Quiet node ⟨node.drained env, []⟩ :=
    ⟨rfl, List.drop_subset _ _, by simp⟩
  have hcase := node.onTick_cases env
  generalize node.onTick env = reaction at hcase ⊢
  cases hcase with
  | waited consensus hconsensus hno => exact .of_mempool rfl (by simp)
  | keyless hturn htxs hbuild => exact hdrained
  | refused candidate hturn htxs hbuild hbad =>
      refine ⟨hdrained.seen_eq, hdrained.queue_subset, ?_⟩
      intro e he
      rw [List.mem_singleton.mp he]
      rfl
  | proposed candidate hturn htxs hbuild hok =>
      have hgrown : (((node.drained env).grow env candidate).markSeenBlock
          candidate.hash).2.mempool = (node.drained env).mempool := by
        unfold markSeenBlock
        split <;> rfl
      refine ⟨?_, ?_, ?_⟩
      · rw [hgrown]
        exact hdrained.seen_eq
      · rw [hgrown]
        exact hdrained.queue_subset
      · intro e he
        rcases List.mem_cons.mp he with rfl | hsent
        · rfl
        · obtain ⟨entry, -, rfl⟩ := List.mem_map.mp hsent
          rfl

theorem step_quiet (env : Env) (node : Node) {input : Input} (h : input.trx? = none) :
    Quiet node (node.step env input) := by
  cases input with
  | message m => exact onMessage_quiet env node h
  | tick => exact onTick_quiet env node

/-- A turn adds a hash to the window of the pool only by queueing a transaction
with this hash. -/
theorem step_seen {env : Env} {node : Node} {input : Input} {h : Hash32Type}
    (hmem : h ∈ (node.step env input).node.mempool.seen) :
    h ∈ node.mempool.seen ∨
      ∃ trx, input.trx? = some trx ∧ trx.hash = h ∧ (node.mempool.push trx).1 = true := by
  cases htrx : input.trx? with
  | none =>
      rw [(node.step_quiet env htrx).seen_eq] at hmem
      exact .inl hmem
  | some trx =>
      rw [step_of_trx? htrx, acceptTrx_pool] at hmem
      rcases MemPool.mem_seen_push hmem with hold | hnew
      · exact .inl hold
      · exact .inr ⟨trx, rfl, hnew⟩

/-- A turn adds to the queue of the pool the transaction it brings. -/
theorem step_queue {env : Env} {node : Node} {input : Input} {trx : Transaction}
    (hmem : trx ∈ (node.step env input).node.mempool.queue) :
    trx ∈ node.mempool.queue ∨
      (input.trx? = some trx ∧ (node.mempool.push trx).1 = true) := by
  cases hbrings : input.trx? with
  | none => exact .inl ((node.step_quiet env hbrings).queue_subset hmem)
  | some other =>
      rw [step_of_trx? hbrings, acceptTrx_pool, MemPool.queue_push] at hmem
      rcases List.mem_append.mp hmem with hold | hnew
      · exact .inl hold
      · split at hnew
        · rename_i hpushed
          rw [List.mem_singleton.mp hnew]
          exact .inr ⟨rfl, hpushed⟩
        · cases hnew

/-- A turn sends on the transaction it brings and queues. -/
theorem step_sends {env : Env} {node : Node} {input : Input} {e : Effect}
    (he : e ∈ (node.step env input).effects) {trx : Transaction} (htrx : e.trx? = some trx) :
    input.trx? = some trx := by
  cases hbrings : input.trx? with
  | none =>
      rw [(node.step_quiet env hbrings).sends e he] at htrx
      cases htrx
  | some other =>
      rw [step_of_trx? hbrings] at he
      obtain ⟨peerId, sender, rfl⟩ := mem_acceptTrx_effects he
      exact htrx

end Node

/-! ## The flood -/

namespace Setup

variable [Primitives] {ι : Type}

/-- The action offers a transaction with the hash to the pool of a node, and the
pool and the transaction are as `P` says. -/
def Offers (setup : Setup ι) (h : Hash32Type) (net : Network ι) (action : Action ι) (i : ι)
    (P : MemPool → Transaction → Prop) : Prop :=
  ∃ turn trx, setup.turnOf net action = some turn ∧ turn.who = i ∧
    turn.input.trx? = some trx ∧ trx.hash = h ∧ P (net.nodes i).mempool trx

/-- The action makes the node queue a transaction with the hash. -/
def Queues (setup : Setup ι) (h : Hash32Type) (net : Network ι) (action : Action ι) (i : ι) :
    Prop :=
  setup.Offers h net action i fun pool trx => (pool.push trx).1 = true

/-- The action brings a transaction with the hash to a node that does not know
the hash and whose queue is full. -/
def TurnsAway (setup : Setup ι) (h : Hash32Type) (net : Network ι) (action : Action ι) (i : ι) :
    Prop :=
  setup.Offers h net action i fun pool _ => MAX_MEMPOOL ≤ pool.queue.length ∧ h ∉ pool.seen

/-- The first node has the second one registered as a peer. -/
def Linked (setup : Setup ι) (net : Network ι) (i j : ι) : Prop :=
  ∃ peerId sender, (net.nodes i).peers.lookup peerId = some sender ∧
    (setup.route sender).1 = j

/-- A transaction with the hash is on its way to the node. -/
def Coming (setup : Setup ι) (h : Hash32Type) (net : Network ι) (i : ι) : Prop :=
  ∃ p ∈ net.inFlight, (setup.route p.sender).1 = i ∧ ∃ trx, p.msg = .trx trx ∧ trx.hash = h

/-- The hash as the token of a flood. -/
def trxToken (setup : Setup ι) (h : Hash32Type) : Token (Network ι) (Action ι) ι where
  coming := setup.Coming h
  brings net action i := setup.Offers h net action i fun _ _ => True
  takes := setup.Queues h
  remembers net i := h ∈ (net.nodes i).mempool.seen
  linked := setup.Linked

variable {setup : Setup ι} {h : Hash32Type} {net last : Network ι} {action : Action ι}

/-- Only a full queue keeps out a hash that is not remembered. -/
theorem turnsAway_of_refuses {i : ι} (hrefuses : (setup.trxToken h).Refuses net action i) :
    setup.TurnsAway h net action i := by
  obtain ⟨⟨turn, trx, hturn, hwho, htrx, hhash, -⟩, hnot, hnew⟩ := hrefuses
  refine ⟨turn, trx, hturn, hwho, htrx, hhash, ?_, hnew⟩
  by_contra hroom
  apply hnew
  show h ∈ (net.nodes i).mempool.seen
  rw [← hhash]
  apply MemPool.mem_seen_of_push
  · intro hqueued
    exact hnot ⟨turn, trx, hturn, hwho, htrx, hhash, hqueued⟩
  · omega

/-- What is in flight stays there until it is delivered. -/
theorem turnOf_arrives {turn : NodeTurn ι} (hturn : setup.turnOf net action = some turn) {i : ι}
    (hcoming : setup.Coming h net i) :
    (∃ p ∈ turn.rest, (setup.route p.sender).1 = i ∧
      ∃ trx, p.msg = .trx trx ∧ trx.hash = h) ∨
        setup.Offers h net action i fun _ _ => True := by
  obtain ⟨p, hp, hroute, trx, hmsg, hhash⟩ := hcoming
  cases action with
  | handle who env m =>
      unfold turnOf at hturn
      dsimp only at hturn
      split at hturn
      · cases hturn
      · cases hturn
        exact .inl ⟨p, hp, hroute, trx, hmsg, hhash⟩
  | tick who env =>
      cases hturn
      exact .inl ⟨p, hp, hroute, trx, hmsg, hhash⟩
  | deliver k env =>
      have hall := hturn
      unfold turnOf at hturn
      dsimp only at hturn
      split at hturn
      · cases hturn
      · rename_i packet hpacket
        cases hturn
        obtain ⟨n, hn⟩ := List.mem_iff_getElem?.mp hp
        by_cases hk : n = k
        · -- it is the one that is delivered
          rw [hk, hpacket, Option.some.injEq] at hn
          subst hn
          refine .inr ⟨_, trx, hall, hroute, ?_, hhash, trivial⟩
          rw [hmsg]
          rfl
        · refine .inl ⟨p, ?_, hroute, trx, hmsg, hhash⟩
          exact List.mem_eraseIdx_iff_getElem?.mpr ⟨n, hk, hn⟩

variable [DecidableEq ι]

/-- The transactions spread as a token does. -/
theorem trxToken_spreads (setup : Setup ι) (h : Hash32Type) :
    (setup.trxToken h).Spreads setup.next setup.start where
  fresh := fun i => Finset.notMem_empty h
  handed := by
    rintro net action last out i j hnext ⟨turn, trx, hturn, rfl, htrx, hhash, hqueued⟩
      ⟨peerId, sender, hpeer, hroute⟩
    obtain ⟨found, hfound, rfl⟩ := next_eq_some hnext
    rw [hturn] at hfound
    cases hfound
    have hsent : .send peerId sender (.trx trx) ∈
        ((net.nodes turn.who).acceptTrx turn.env trx).effects :=
      Node.send_mem_acceptTrx hqueued hpeer
    refine ⟨⟨sender, .trx trx⟩, List.mem_append_right _ ?_, hroute, trx, rfl, hhash⟩
    rw [Node.step_of_trx? htrx]
    exact List.mem_filterMap.mpr ⟨_, hsent, rfl⟩
  arrives := by
    intro net action last out j hnext hcoming
    obtain ⟨turn, hturn, rfl⟩ := next_eq_some hnext
    rcases turnOf_arrives hturn hcoming with ⟨p, hp, hrest⟩ | hbrings
    · exact .inl ⟨p, List.mem_append_left _ hp, hrest⟩
    · exact .inr hbrings
  reminded := by
    intro net action last out i hnext hmem
    obtain ⟨turn, hturn, rfl⟩ := next_eq_some hnext
    dsimp only [trxToken] at hmem ⊢
    by_cases hi : i = turn.who
    · subst hi
      rw [Function.update_self] at hmem
      rcases Node.step_seen hmem with hold | ⟨trx, htrx, hhash, hqueued⟩
      · exact .inl hold
      · exact .inr ⟨turn, trx, hturn, rfl, htrx, hhash, hqueued⟩
    · rw [Function.update_of_ne hi] at hmem
      exact .inl hmem

/-- A node that turns no transaction with the hash away does not refuse the token. -/
theorem not_refuses_of_room {actions : List (Action ι)} {i : ι}
    (hroom : AllSteps setup.next setup.start actions fun net action =>
      ¬setup.TurnsAway h net action i) :
    AllSteps setup.next setup.start actions fun net action =>
      ¬(setup.trxToken h).Refuses net action i := by
  intro before action after net out heq hbefore hrefuses
  exact hroom before action after net out heq hbefore (turnsAway_of_refuses hrefuses)

omit [DecidableEq ι] in
theorem not_coming_of_quiet
    (hquiet : ∀ p ∈ net.inFlight, ∀ trx, p.msg = .trx trx → trx.hash ≠ h) (i : ι) :
    ¬setup.Coming h net i := by
  rintro ⟨p, hp, -, trx, hmsg, hhash⟩
  exact hquiet p hp trx hmsg hhash

/-- In every run: once no transaction with the hash is in flight, one was queued
by every node that links lead to from a node that queued one, if none of these
nodes turned one away. -/
theorem run_trx_floods {actions : List (Action ι)} {out : List (ι × Effect)}
    (hrun : Run setup.next setup.start actions net out) {edge : ι → ι → Prop}
    (hlinked : ∀ i j, edge i j → AllSteps setup.next setup.start actions fun net action =>
      setup.Queues h net action i → setup.Linked net i j) {i : ι}
    (hroom : ∀ k, Relation.ReflTransGen edge i k →
      AllSteps setup.next setup.start actions fun net action => ¬setup.TurnsAway h net action k)
    (hquiet : ∀ p ∈ net.inFlight, ∀ trx, p.msg = .trx trx → trx.hash ≠ h)
    {j : ι} (hpath : Relation.ReflTransGen edge i j)
    (hqueued : Happened setup.next setup.start actions fun net action =>
      setup.Queues h net action i) :
    Happened setup.next setup.start actions fun net action => setup.Queues h net action j :=
  (trxToken_spreads setup h).run_floods hrun hlinked
    (fun k hk => not_refuses_of_room (hroom k hk)) (fun k => not_coming_of_quiet hquiet k) hpath
    hqueued

end Setup

end B4n

namespace B4n.Blockchain.Sample

open B4n.Lib Transport

/-- The first validator gets a peer and a transaction, which the second one
gets from it. -/
private def passedOn : List (Action Party) :=
  [.handle .first (env 10) (.addPeer 4 1),
    .handle .first (env 20) (.localTrx (trx 1 "coffee")), .deliver 2 (env 30)]

private def flooded : Network Party := (finish pair.next pair.start passedOn).1

def isTrx : ProtocolMessage → Bool
  | .trx _ => true
  | _ => false

private def isAddPeer : Action Party → Bool
  | .handle _ _ (.addPeer _ _) => true
  | _ => false

/-- The first validator has its peer, and both queues have room. -/
def readyToPass (net : Network Party) (action : Action Party) : Bool :=
  (isAddPeer action || (net.nodes .first).peers.lookup 4 == some 1) &&
    ((net.nodes .first).mempool.queue.length < 2 && (net.nodes .second).mempool.queue.length < 2)

private theorem passedOn_ok :
    (exec pair.next pair.start passedOn).isSome = true ∧
      everyStep pair.next readyToPass pair.start passedOn = true ∧
      (flooded.inFlight.all fun p => !isTrx p.msg) = true := by
  decide +kernel

/-- The one link: from the first validator to the second. -/
def toSecond (i j : Party) : Prop := i = .first ∧ j = .second

theorem linked_toSecond {actions : List (Action Party)}
    (hready : everyStep pair.next readyToPass pair.start actions = true) (h : Hash32Type)
    {i j : Party} (hlink : toSecond i j) :
    AllSteps pair.next pair.start actions fun net action =>
      pair.Queues h net action i → pair.Linked net i j := by
  obtain ⟨rfl, rfl⟩ := hlink
  rintro before action after net out heq hbefore ⟨turn, found, hturn, -, htrx, -⟩
  have hnow := allSteps_of_everyStep hready before action after net out heq hbefore
  simp only [readyToPass, Bool.and_eq_true, Bool.or_eq_true, beq_iff_eq] at hnow
  refine ⟨4, 1, hnow.1.resolve_left ?_, rfl⟩
  -- a peer that connects offers no transaction
  intro hpeer
  unfold isAddPeer at hpeer
  split at hpeer
  · cases hturn
    cases htrx
  · cases hpeer

theorem room_toPass {actions : List (Action Party)}
    (hready : everyStep pair.next readyToPass pair.start actions = true) (h : Hash32Type)
    (i : Party) :
    AllSteps pair.next pair.start actions fun net action => ¬pair.TurnsAway h net action i := by
  rintro before action after net out heq hbefore ⟨turn, found, -, -, -, -, hfull, -⟩
  have hnow := allSteps_of_everyStep hready before action after net out heq hbefore
  simp only [readyToPass, Bool.and_eq_true, decide_eq_true_eq] at hnow
  unfold MAX_MEMPOOL at hfull
  cases i with
  | first => omega
  | second => omega

theorem quiet_of_all {net : Network Party}
    (hquiet : (net.inFlight.all fun p => !isTrx p.msg) = true) (h : Hash32Type) :
    ∀ p ∈ net.inFlight, ∀ trx, p.msg = .trx trx → trx.hash ≠ h := by
  intro p hp found hmsg
  have hnone := List.all_eq_true.mp hquiet p hp
  rw [hmsg] at hnone
  cases hnone

theorem run_trx_floods_passedOn :
    Happened pair.next pair.start passedOn fun net action =>
      pair.Queues (trx 1 "coffee").hash net action .second := by
  obtain ⟨hlive, hready, hquiet⟩ := passedOn_ok
  have hrun : Run pair.next pair.start passedOn flooded _ := run_finish hlive
  apply Setup.run_trx_floods (i := .first) (j := .second) hrun
    (fun _ _ hlink => linked_toSecond hready _ hlink) (fun i _ => room_toPass hready _ i)
    (quiet_of_all hquiet _)
  · exact .single ⟨rfl, rfl⟩
  · exact ⟨[.handle .first (env 10) (.addPeer 4 1)], _, [.deliver 2 (env 30)], _, _, rfl,
      run_finish (by decide +kernel), _, trx 1 "coffee", rfl, rfl, rfl, rfl, by decide +kernel⟩

end B4n.Blockchain.Sample
