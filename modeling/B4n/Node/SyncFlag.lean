import B4n.Node.Chain

/-!
# The sync flag

While `is_syncing` is set a node proposes nothing, so the flag must not outlive
the peer it waits for.  `remove_peer` clears it, but only for a peer that is
registered, and the `Status` handler starts a sync with whoever sent the
message.

## Main results

* `run_syncConsistent_iff` — the flag and the peer map agree along a run
  exactly as long as no status of an unregistered peer starts a sync.
-/

namespace B4n

open Lib Blockchain Transport

namespace Node

/-- The flag names a registered peer, or nobody. -/
structure SyncConsistent (node : Node) : Prop where
  syncing : node.isSyncing = true →
    ∃ p, node.syncPeer = some p ∧ (node.peers.lookup p).isSome
  idle : node.isSyncing = false → node.syncPeer = none

/-- The sync state and the peers are the same. -/
structure SameSync (node last : Node) : Prop where
  isSyncing : last.isSyncing = node.isSyncing
  syncPeer : last.syncPeer = node.syncPeer
  peers : last.peers = node.peers

theorem SameSync.trans {node mid last : Node} (h : SameSync node mid)
    (h' : SameSync mid last) : SameSync node last :=
  ⟨h'.isSyncing.trans h.isSyncing, h'.syncPeer.trans h.syncPeer,
    h'.peers.trans h.peers⟩

theorem SyncConsistent.of_same {node last : Node} (h : SyncConsistent node)
    (hsame : SameSync node last) : SyncConsistent last where
  syncing := by
    rw [hsame.isSyncing, hsame.syncPeer, hsame.peers]
    exact h.syncing
  idle := by
    rw [hsame.isSyncing, hsame.syncPeer]
    exact h.idle

/-- This turn starts a sync with a peer that is not registered. -/
def SyncsWithStranger (node : Node) (i : Env × Input) : Prop :=
  ∃ peerId height hash,
    i.2 = .message (.net peerId (.status height hash)) ∧
      node.isSyncing = false ∧ node.chain.getHeight < height ∧
      node.peers.lookup peerId = none

/-! ## What the handlers do to the flag -/

/-- A sync with a registered peer is consistent. -/
theorem startSync_syncConsistent {node : Node} (h : SyncConsistent node)
    {peerId : UInt32} (hpeer : (node.peers.lookup peerId).isSome)
    (start : UInt64) : SyncConsistent (node.startSync peerId start).node := by
  unfold startSync
  split
  · exact h
  · exact ⟨fun _ => ⟨peerId, rfl, hpeer⟩, by intro hidle; cases hidle⟩

/-- A node that waits for nobody sets the flag, whoever the peer is. -/
theorem startSync_of_idle {node : Node} (hidle : node.isSyncing = false)
    (peerId : UInt32) (start : UInt64) :
    (node.startSync peerId start).node.isSyncing = true ∧
      (node.startSync peerId start).node.syncPeer = some peerId ∧
      (node.startSync peerId start).node.peers = node.peers := by
  unfold startSync
  rw [if_neg (by simp [hidle])]
  exact ⟨rfl, rfl, rfl⟩

theorem nextPage_syncConsistent {node : Node} (h : SyncConsistent node)
    (peerId : UInt32) (blocks : List Block) :
    SyncConsistent (node.nextPage peerId blocks).node := by
  unfold nextPage
  split
  · dsimp only
    split
    · exact h.of_same ⟨rfl, rfl, rfl⟩
    · exact ⟨(by intro hsyncing; cases hsyncing), fun _ => rfl⟩
  · exact h

theorem addPeer_syncConsistent [Primitives] {node : Node}
    (h : SyncConsistent node) (peerId : UInt32) (sender : Sender) :
    SyncConsistent (node.addPeer peerId sender).node where
  syncing := by
    intro hsyncing
    obtain ⟨p, hp, hpeer⟩ := h.syncing hsyncing
    refine ⟨p, hp, ?_⟩
    change ((node.peers.insert peerId sender).lookup p).isSome
    by_cases hsame : p = peerId
    · rw [hsame, AList.lookup_insert]
      rfl
    · rwa [AList.lookup_insert_ne hsame]
  idle := h.idle

/-- Removing a peer clears the flag if it waits for that peer. -/
theorem removePeer_syncConsistent {node : Node} (h : SyncConsistent node)
    (peerId : UInt32) : SyncConsistent (node.removePeer peerId) := by
  -- the flag waits for another peer, whose entry stays
  have hother : node.syncPeer ≠ some peerId →
      SyncConsistent { node with peers := node.peers.erase peerId } := by
    intro hne
    refine ⟨fun hsyncing => ?_, h.idle⟩
    obtain ⟨p, hp, hpeer⟩ := h.syncing hsyncing
    refine ⟨p, hp, ?_⟩
    change ((node.peers.erase peerId).lookup p).isSome
    rwa [AList.lookup_erase_ne (by rintro rfl; exact hne hp)]
  unfold removePeer
  dsimp only
  split
  · rename_i hmissing
    refine hother fun hsync => ?_
    have hsyncing : node.isSyncing = true := by
      by_contra hidle
      rw [h.idle (Bool.eq_false_iff.mpr hidle)] at hsync
      cases hsync
    obtain ⟨p, hp, hpeer⟩ := h.syncing hsyncing
    rw [hsync, Option.some.injEq] at hp
    subst hp
    simp [hpeer] at hmissing
  · split
    · exact ⟨(by intro hsyncing; cases hsyncing), fun _ => rfl⟩
    · rename_i hne
      exact hother hne

variable [Primitives]

theorem IntakeStep.syncConsistent {env : Env} {incoming : List Block}
    {node last : Node} {effects : List Effect} (h : SyncConsistent node)
    (hstep : IntakeStep env incoming node last effects) :
    SyncConsistent last := by
  cases hstep with
  | mark b hb hnew => exact h.of_same ⟨rfl, rfl, rfl⟩
  | receive b hb hok => exact h.of_same ⟨rfl, rfl, rfl⟩
  | connect vec pos hvec hok => exact h.of_same ⟨rfl, rfl, rfl⟩
  | reorder orphans hsame hheld => exact h.of_same ⟨rfl, rfl, rfl⟩
  | orphan b hb hlt =>
      obtain ⟨orphans, total, hput⟩ := node.putOrphan_eq b
      exact h.of_same (hput ▸ ⟨rfl, rfl, rfl⟩)
  | sync pid start hpid => exact startSync_syncConsistent h hpid start

theorem Intake.syncConsistent {env : Env} {incoming : List Block}
    {node last : Node} {effects : List Effect} (h : SyncConsistent node)
    (hintake : Intake env incoming node last effects) :
    SyncConsistent last :=
  hintake.invariant (fun _ _ _ hnode hstep => hstep.syncConsistent hnode) h

theorem acceptTrx_sameSync (env : Env) (node : Node) (trx : Transaction) :
    SameSync node (node.acceptTrx env trx).node := by
  unfold acceptTrx
  dsimp only
  split <;> exact ⟨rfl, rfl, rfl⟩

omit [Primitives] in
theorem drained_sameSync (env : Env) (node : Node) :
    SameSync node (node.drained env) := by
  obtain ⟨consensus, pool, hdrained, -, -⟩ := node.drained_eq env
  rw [hdrained]
  exact ⟨rfl, rfl, rfl⟩

omit [Primitives] in
theorem markSeenBlock_sameSync (node : Node) (h : Hash32Type) :
    SameSync node (node.markSeenBlock h).2 := by
  unfold markSeenBlock
  split <;> exact ⟨rfl, rfl, rfl⟩

/-- A tick leaves the sync state alone. -/
theorem onTick_sameSync (env : Env) (node : Node) :
    SameSync node (node.onTick env).node := by
  have hcase := node.onTick_cases env
  generalize node.onTick env = reaction at hcase ⊢
  cases hcase with
  | waited consensus hconsensus hno => exact ⟨rfl, rfl, rfl⟩
  | keyless hturn htxs hbuild => exact node.drained_sameSync env
  | refused candidate hturn htxs hbuild hbad => exact node.drained_sameSync env
  | proposed candidate hturn htxs hbuild hok =>
      have hgrow : SameSync node ((node.drained env).grow env candidate) :=
        (node.drained_sameSync env).trans ⟨rfl, rfl, rfl⟩
      exact hgrow.trans (markSeenBlock_sameSync _ _)

/-! ## Runs -/

/-- A status of a peer starts a consistent sync, or none, unless the node is
idle and behind a peer that is not registered. -/
theorem onStatus_syncConsistent_iff (env : Env) {node : Node}
    (h : SyncConsistent node) (peerId : UInt32) (height : UInt64)
    (hash : Hash32Type) :
    SyncConsistent (node.onNet env peerId (.status height hash)).node ↔
      ¬ (node.isSyncing = false ∧ node.chain.getHeight < height ∧
        node.peers.lookup peerId = none) := by
  unfold onNet
  dsimp only
  by_cases hstarts : node.chain.getHeight < height ∧ !node.isSyncing
  swap
  · rw [if_neg hstarts]
    refine iff_of_true h fun hbad => hstarts ⟨hbad.2.1, by simp [hbad.1]⟩
  rw [if_pos hstarts]
  obtain ⟨hheight, hidle⟩ := hstarts
  have hidle : node.isSyncing = false := by simpa using hidle
  cases hpeer : node.peers.lookup peerId with
  | some sender =>
      exact iff_of_true (startSync_syncConsistent h (by simp [hpeer]) _)
        (by simp)
  | none =>
      obtain ⟨hflag, hsync, hpeers⟩ :=
        startSync_of_idle hidle peerId (node.chain.getHeight + 1)
      refine iff_of_false (fun hlast => ?_) (by simp [hidle, hheight])
      obtain ⟨p, hp, hp'⟩ := hlast.syncing hflag
      rw [hsync, Option.some.injEq] at hp
      rw [hpeers, ← hp, hpeer] at hp'
      cases hp'

/-- One turn keeps the flag consistent exactly if it does not start a sync with
an unregistered peer. -/
theorem step_syncConsistent_iff {env : Env} {node : Node}
    (h : SyncConsistent node) (input : Input) :
    SyncConsistent (node.step env input).node ↔
      ¬ SyncsWithStranger node (env, input) := by
  by_cases hstatus : ∃ peerId height hash,
      input = .message (.net peerId (.status height hash))
  · obtain ⟨peerId, height, hash, rfl⟩ := hstatus
    refine (onStatus_syncConsistent_iff env h peerId height hash).trans
      (not_congr ?_)
    constructor
    · exact fun hbad => ⟨peerId, height, hash, rfl, hbad⟩
    · rintro ⟨p, ht, hs, heq, hbad⟩
      cases heq
      exact hbad
  refine iff_of_true ?_ fun ⟨p, ht, hs, heq, _⟩ => hstatus ⟨p, ht, hs, heq⟩
  cases input with
  | tick => exact h.of_same (node.onTick_sameSync env)
  | message m =>
      show SyncConsistent (node.onMessage env m).node
      have hcase := node.onMessage_cases env m
      generalize node.onMessage env m = reaction at hcase ⊢
      cases hcase with
      | ignored m hnone => exact h
      | answered peerId msg reply hnone hserves => exact h
      | trx m trx hnone => exact h.of_same (node.acceptTrx_sameSync env trx)
      | addPeer peerId sender => exact addPeer_syncConsistent h peerId sender
      | removePeer peerId => exact removePeer_syncConsistent h peerId
      | started peerId height hash start =>
          exact absurd ⟨peerId, height, hash, rfl⟩ hstatus
      | block peerId b =>
          exact (connectIfProgressed_intake
            (node.handleIncomingBlock_intake env b)).syncConsistent h
      | blocks peerId page connected hconnected =>
          rw [hconnected]
          exact nextPage_syncConsistent ((connectIfProgressed_intake
            (node.handleBatch_intake env page)).syncConsistent h) _ _

/-- Along a run from `Node::new` the sync flag is consistent in every state if
and only if no turn starts a sync with an unregistered peer. -/
theorem run_syncConsistent_iff {netId : UInt32} {seed : Seed}
    {chain : BlockChain} {consensus : PoAConsensus} {last : Node}
    {inputs : List (Env × Input)} {effects : List Effect}
    (hrun : Run Node.next (Node.new netId seed chain consensus) inputs last
      effects) :
    AllStates Node.next (Node.new netId seed chain consensus) inputs
        SyncConsistent ↔
      AllSteps Node.next (Node.new netId seed chain consensus) inputs
        fun node i => ¬ SyncsWithStranger node i := by
  refine allStates_iff_allSteps (Q := fun _ => True)
    ⟨(by intro h; cases h), fun _ => rfl⟩ ?_ hrun fun _ _ _ _ _ _ => trivial
  intro node i last effects _ _ hnode hnext
  obtain ⟨rfl, -, -⟩ := next_eq_some hnext
  exact step_syncConsistent_iff hnode i.2

end Node

end B4n

namespace B4n.Blockchain.Sample

open B4n.Lib Transport

/-- Peer 7 sends a status without having been added, or after it was removed. -/
private def strangerStatus : List (Env × Input) :=
  [(env 10, .message (.net 7 (.status 1 (zeroBytes 32)))),
    (env 20, .message (.removePeer 7))]

private theorem strangerStatus_run : ∃ last effects, Run Node.next
    (node 1 1 (config [1] 8) config_one_ok) strangerStatus last effects ∧
      last.isSyncing = true ∧ last.syncPeer = some 7 ∧
      last.peers.lookup 7 = none :=
  exists_run (by decide +kernel)

/-- The flag is set, the peer is not there, and removing it does not help. -/
theorem strangerStatus_not_syncConsistent :
    ∃ last effects, Run Node.next
      (node 1 1 (config [1] 8) config_one_ok) strangerStatus last
        effects ∧ last.isSyncing = true ∧ ¬ Node.SyncConsistent last := by
  obtain ⟨last, effects, hrun, hsyncing, hsyncPeer, hstranger⟩ :=
    strangerStatus_run
  refine ⟨last, effects, hrun, hsyncing, ?_⟩
  intro h
  obtain ⟨p, hp, hpeer⟩ := h.syncing hsyncing
  cases hp.symm.trans hsyncPeer
  rw [hstranger] at hpeer
  cases hpeer

theorem run_syncConsistent_iff_strangerStatus :
    AllStates Node.next (node 1 1 (config [1] 8) config_one_ok)
        strangerStatus Node.SyncConsistent ↔
      AllSteps Node.next (node 1 1 (config [1] 8) config_one_ok)
        strangerStatus fun node i => ¬ Node.SyncsWithStranger node i := by
  obtain ⟨last, effects, hrun, -⟩ := strangerStatus_run
  exact Node.run_syncConsistent_iff hrun

end B4n.Blockchain.Sample
