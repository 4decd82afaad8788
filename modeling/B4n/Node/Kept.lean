import B4n.Node.Caches
import B4n.Node.Proposing
import B4n.Node.Sample

/-!
# Transactions that were accepted

The queue of the pool loses transactions in two ways: a tick takes some of them
for a block, and a block that is received takes those whose hashes it has.  As long
as a tick loses none, a transaction that was queued is either still in the queue or
its hash is on the chain, where it stays.

## Main results

* `step_kept` — what one turn does to a transaction.
* `run_trx_kept` — and what a run does.
-/

namespace B4n

open Lib Blockchain Transport

variable [Primitives]

/-- A transaction with this hash is in a block of the chain. -/
def Confirmed (chain : BlockChain) (hash : Hash32Type) : Prop :=
  ∃ block ∈ chain.blocks, ∃ trx ∈ block.transactions, trx.hash = hash

theorem Blockchain.MemPool.mem_queue_push {pool : MemPool} {trx : Transaction}
    (other : Transaction) (h : trx ∈ pool.queue) : trx ∈ (pool.push other).2.queue := by
  unfold push
  split
  · exact h
  · dsimp only
    split
    · exact h
    · exact List.mem_append_left _ h

namespace Node

/-- The transaction is queued or in a block of the chain. -/
def Has (node : Node) (trx : Transaction) : Prop :=
  trx ∈ node.mempool.queue ∨ ∃ block ∈ node.chain.blocks, trx ∈ block.transactions

/-- The transaction is queued, or its hash is on the chain. -/
def Kept (node : Node) (trx : Transaction) : Prop :=
  trx ∈ node.mempool.queue ∨ Confirmed node.chain trx.hash

/-- The node has the transaction that it keeps, or one with the same hash. -/
theorem Kept.exists_has {node : Node} {trx : Transaction} (h : Kept node trx) :
    ∃ other, other.hash = trx.hash ∧ Has node other := by
  rcases h with hqueued | ⟨block, hblock, other, hother, hhash⟩
  · exact ⟨trx, rfl, .inl hqueued⟩
  · exact ⟨other, hhash, .inr ⟨block, hblock, hother⟩⟩

theorem confirmed_advance {node last : Node} {added : List Block}
    (h : Advance node last added) {hash : Hash32Type} (hconfirmed : Confirmed node.chain hash) :
    Confirmed last.chain hash := by
  obtain ⟨block, hblock, htrx⟩ := hconfirmed
  refine ⟨block, ?_, htrx⟩
  rw [h.blocks_eq]
  exact List.mem_append_left added hblock

/-- A turn that removes nothing from the queue. -/
theorem Kept.of_subset {node last : Node} {trx : Transaction} (h : Kept node trx)
    (hqueue : trx ∈ node.mempool.queue → trx ∈ last.mempool.queue)
    (hadvance : ∃ added, Advance node last added) : Kept last trx := by
  obtain ⟨added, hadded⟩ := hadvance
  rcases h with hqueued | hconfirmed
  · exact .inl (hqueue hqueued)
  · exact .inr (confirmed_advance hadded hconfirmed)

/-- Of the elementary steps, only the receipt of a block removes transactions. -/
theorem IntakeStep.kept {env : Env} {incoming : List Block} {node last : Node}
    {effects : List Effect} (hstep : IntakeStep env incoming node last effects)
    {trx : Transaction} (h : Kept node trx) : Kept last trx := by
  have hadvance := hstep.advance
  cases hstep with
  | mark b hb hnew => exact h.of_subset id hadvance
  | receive b hb hok =>
      rcases h with hqueued | hconfirmed
      · by_cases hincluded : trx.hash ∈ b.transactions.map Transaction.hash
        · obtain ⟨other, hother, hhash⟩ := List.mem_map.mp hincluded
          refine .inr ⟨b, ?_, other, hother, hhash⟩
          exact List.mem_append_right node.chain.blocks (List.mem_singleton_self b)
        · left
          show trx ∈ (node.mempool.removeIncluded b.transactions).queue
          rw [MemPool.removeIncluded_queue, List.mem_filter]
          exact ⟨hqueued, by simpa using hincluded⟩
      · obtain ⟨added, hadded⟩ := hadvance
        exact .inr (confirmed_advance hadded hconfirmed)
  | connect vec pos hvec hok => exact h.of_subset id hadvance
  | reorder orphans hsame hheld => exact h.of_subset id hadvance
  | orphan b hb hlt =>
      refine h.of_subset (fun hqueued => ?_) hadvance
      rwa [putOrphan_mempool]
  | sync pid start hpid =>
      refine h.of_subset (fun hqueued => ?_) hadvance
      rwa [startSync_mempool]

theorem Intake.kept {env : Env} {incoming : List Block} {node last : Node}
    {effects : List Effect} (h : Intake env incoming node last effects) {trx : Transaction}
    (hkept : Kept node trx) : Kept last trx :=
  h.invariant (P := fun node : Node => Kept node trx) (fun _ _ _ hnode hstep => hstep.kept hnode)
    hkept

theorem onMessage_kept (env : Env) {node : Node} (m : NodeMessage) {trx : Transaction}
    (h : Kept node trx) : Kept (node.onMessage env m).node trx := by
  have hadvance := node.onMessage_advance env m
  have hcase := node.onMessage_cases env m
  generalize node.onMessage env m = reaction at hcase hadvance ⊢
  cases hcase with
  | ignored m hnone => exact h
  | answered peerId msg reply hnone hserves => exact h
  | trx m other hnone =>
      refine h.of_subset (fun hqueued => ?_) hadvance
      rw [acceptTrx_pool]
      exact MemPool.mem_queue_push other hqueued
  | addPeer peerId sender => exact h.of_subset id hadvance
  | removePeer peerId =>
      refine h.of_subset (fun hqueued => ?_) hadvance
      show trx ∈ (node.removePeer peerId).mempool.queue
      unfold removePeer
      dsimp only
      split
      · exact hqueued
      · split <;> exact hqueued
  | started peerId height hash start =>
      refine h.of_subset (fun hqueued => ?_) hadvance
      rwa [startSync_mempool]
  | block peerId b =>
      exact (connectIfProgressed_intake (node.handleIncomingBlock_intake env b)).kept h
  | blocks peerId page connected hconnected =>
      have hmid : Kept connected.node trx := by
        rw [hconnected]
        exact (connectIfProgressed_intake (node.handleBatch_intake env page)).kept h
      have hcore := connected.node.nextPage_core peerId page
      refine hmid.of_subset (fun hqueued => ?_)
        ⟨[], .of_same hcore.chain hcore.consensus hcore.identity⟩
      show trx ∈ (connected.node.nextPage peerId page).node.mempool.queue
      rwa [nextPage_mempool]

/-- A tick of a proposer moves transactions from the queue to the chain. -/
theorem Proposer.onTick_kept {seed : Seed} {node : Node} (h : Proposer seed node) (env : Env)
    {trx : Transaction} (hkept : Kept node trx) : Kept (node.onTick env).node trx := by
  rcases h.onTick_lossless env with ⟨hchain, hqueue⟩ | ⟨b, hproposed⟩
  · unfold Kept at hkept ⊢
    rwa [hchain, hqueue]
  rcases hkept with hqueued | ⟨block, hblock, htrx⟩
  · rw [← List.take_append_drop node.takes node.mempool.queue, List.mem_append,
      ← hproposed.transactions_eq, ← hproposed.queue_eq] at hqueued
    rcases hqueued with htaken | hleft
    · refine .inr ⟨b, ?_, trx, htaken, rfl⟩
      rw [hproposed.blocks_eq]
      exact List.mem_append_right _ (List.mem_singleton_self b)
    · exact .inl hleft
  · refine .inr ⟨block, ?_, htrx⟩
    rw [hproposed.blocks_eq]
    exact List.mem_append_left _ hblock

theorem Proposer.step_kept {seed : Seed} {node : Node} (h : Proposer seed node) (env : Env)
    (input : Input) {trx : Transaction} (hkept : Kept node trx) :
    Kept (node.step env input).node trx := by
  cases input with
  | message m => exact onMessage_kept env m hkept
  | tick => exact h.onTick_kept env hkept

section Runs

variable {netId : UInt32} {seed : Seed} {chainId : UInt64} {consensus : PoAConsensus}
  {node last : Node} {inputs more : List (Env × Input)} {effects out : List Effect}

/-- Along a run that goes on, what was kept is kept. -/
theorem run_kept (hverify : SignaturesVerify consensus.verifier)
    (hsmall : consensus.config.validators.length ≤ 2 ^ 32)
    (hrun : Run Node.next (Node.new netId seed (BlockChain.new chainId) consensus) inputs node
      effects) (hmore : Run Node.next node more last out) {trx : Transaction}
    (hkept : Kept node trx) : Kept last trx := by
  induction hmore with
  | start => exact hkept
  | step hbefore hnext ih =>
      obtain ⟨rfl, -, -⟩ := next_eq_some hnext
      have hproposer := run_proposer hverify (ownNumber_of_length_le hsmall _)
        (hrun.append hbefore)
      exact hproposer.step_kept _ _ ih

/-- No transaction is lost: along every run, a transaction that is in the queue at
some time is in the queue at any later time, or a block of the chain then has a
transaction with its hash. -/
theorem run_trx_kept (hverify : SignaturesVerify consensus.verifier)
    (hsmall : consensus.config.validators.length ≤ 2 ^ 32)
    (hrun : Run Node.next (Node.new netId seed (BlockChain.new chainId) consensus) inputs node
      effects) (hmore : Run Node.next node more last out) {trx : Transaction}
    (hqueued : trx ∈ node.mempool.queue) :
    trx ∈ last.mempool.queue ∨ Confirmed last.chain trx.hash :=
  run_kept hverify hsmall hrun hmore (.inl hqueued)

end Runs

end Node

end B4n

namespace B4n.Blockchain.Sample

open B4n.Lib

/-- A validator queues a transaction; later it proposes a block of it. -/
private def queued : List (Env × Input) := [(env 10, .message (.localTrx (trx 1 "coffee")))]

private def ticked : List (Env × Input) := [(env 3100, .tick), (env 3200, .tick)]

private def queuedNode : Node :=
  (finish Node.next (node 1 1 (config [1] 8) config_one_ok) queued).1

private def tickedNode : Node := (finish Node.next queuedNode ticked).1

private theorem queued_ok :
    (exec Node.next (node 1 1 (config [1] 8) config_one_ok) queued).isSome = true ∧
      (exec Node.next queuedNode ticked).isSome = true ∧
      trx 1 "coffee" ∈ queuedNode.mempool.queue ∧ trx 1 "coffee" ∉ tickedNode.mempool.queue := by
  decide +kernel

theorem run_trx_kept_ticked : Confirmed tickedNode.chain (trx 1 "coffee").hash := by
  obtain ⟨hlive, hticks, hqueued, hgone⟩ := queued_ok
  have hrun : Run Node.next (node 1 1 (config [1] 8) config_one_ok) queued queuedNode _ :=
    run_finish hlive
  have hmore : Run Node.next queuedNode ticked tickedNode _ := run_finish hticks
  exact (Node.run_trx_kept signaturesVerify (by decide) hrun hmore hqueued).resolve_left hgone

end B4n.Blockchain.Sample
