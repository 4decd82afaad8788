import B4n.Node.Run

/-!
# The peer map

Only `AddPeer` and `RemovePeer` change the peer map, and they do so without
looking at the rest of the state.  Whatever a turn sends, it sends to a peer
that is registered after it, on the channel registered for it.

## Main results

* `step_peers` — the peer map after a turn.
* `step_registered` — messages go to registered peers.
-/

namespace B4n

open Lib Blockchain Transport

/-- What an input does to the peer map. -/
def Input.peersAfter (peers : HashMap UInt32 Sender) :
    Input → HashMap UInt32 Sender
  | .message (.addPeer peerId sender) => peers.insert peerId sender
  | .message (.removePeer peerId) => peers.erase peerId
  | _ => peers

/-- An entry of the map afterwards was there before, or it is the one that the
input brings. -/
theorem Input.lookup_peersAfter {peers : HashMap UInt32 Sender} {input : Input}
    {peerId : UInt32} {sender : Sender}
    (h : (input.peersAfter peers).lookup peerId = some sender) :
    peers.lookup peerId = some sender ∨
      input = .message (.addPeer peerId sender) := by
  cases input with
  | tick => exact .inl h
  | message m =>
      cases m with
      | localTrx trx => exact .inl h
      | net from' msg => exact .inl h
      | debugPrint => exact .inl h
      | stop => exact .inl h
      | addPeer added brought =>
          change (peers.insert added brought).lookup peerId = some sender at h
          by_cases hsame : peerId = added
          · rw [hsame, AList.lookup_insert] at h
            cases h
            exact .inr (by rw [hsame])
          · rw [AList.lookup_insert_ne hsame] at h
            exact .inl h
      | removePeer removed =>
          change (peers.erase removed).lookup peerId = some sender at h
          by_cases hsame : peerId = removed
          · rw [hsame, AList.lookup_erase] at h
            cases h
          · rw [AList.lookup_erase_ne hsame] at h
            exact .inl h

/-- An effect that sends to a peer of the map, on its channel. -/
def Registered (peers : HashMap UInt32 Sender) : Effect → Prop
  | .send peerId sender _ => peers.lookup peerId = some sender
  | .signed _ => True

namespace Node

theorem removePeer_peers (node : Node) (peerId : UInt32) :
    (node.removePeer peerId).peers = node.peers.erase peerId := by
  unfold removePeer
  dsimp only
  split
  · rfl
  · split <;> rfl

theorem startSync_peers (node : Node) (peerId : UInt32) (start : UInt64) :
    (node.startSync peerId start).node.peers = node.peers := by
  unfold startSync
  split <;> rfl

theorem nextPage_peers (node : Node) (peerId : UInt32) (blocks : List Block) :
    (node.nextPage peerId blocks).node.peers = node.peers := by
  unfold nextPage
  split
  · dsimp only
    split <;> rfl
  · rfl

theorem markSeenBlock_peers (node : Node) (h : Hash32Type) :
    (node.markSeenBlock h).2.peers = node.peers := by
  unfold markSeenBlock
  split <;> rfl

/-- The entries that are iterated over are the entries of the map. -/
theorem mem_peerEntries {env : Env} {node : Node} {peerId : UInt32}
    {sender : Sender} (h : (peerId, sender) ∈ node.peerEntries env) :
    node.peers.lookup peerId = some sender := by
  unfold peerEntries at h
  obtain ⟨key, -, hkey⟩ := List.mem_filterMap.mp h
  obtain ⟨found, hfound, heq⟩ := Option.map_eq_some_iff.mp hkey
  cases heq
  exact hfound

theorem gossip_registered (env : Env) (node : Node) (msg : ProtocolMessage) :
    ∀ e ∈ node.gossip env msg, Registered node.peers e := by
  intro e he
  unfold gossip at he
  obtain ⟨entry, hentry, rfl⟩ := List.mem_map.mp he
  exact mem_peerEntries hentry

theorem sendTo_registered (node : Node) (peerId : UInt32)
    (msg : ProtocolMessage) :
    ∀ e ∈ node.sendTo peerId msg, Registered node.peers e := by
  intro e he
  obtain ⟨sender, hsender, rfl⟩ := mem_sendTo he
  exact hsender

theorem startSync_registered (node : Node) (peerId : UInt32)
    (start : UInt64) :
    ∀ e ∈ (node.startSync peerId start).effects, Registered node.peers e := by
  intro e he
  obtain ⟨sender, hsender, rfl⟩ := mem_startSync_effects he
  exact hsender

theorem nextPage_registered (node : Node) (peerId : UInt32)
    (blocks : List Block) :
    ∀ e ∈ (node.nextPage peerId blocks).effects, Registered node.peers e := by
  unfold nextPage
  split
  · dsimp only
    split
    · exact sendTo_registered _ _ _
    · intro e he
      cases he
  · intro e he
    cases he

variable [Primitives]

/-! ## Every turn -/

theorem IntakeStep.peers {env : Env} {incoming : List Block}
    {node last : Node} {effects : List Effect}
    (hstep : IntakeStep env incoming node last effects) :
    last.peers = node.peers := by
  cases hstep with
  | mark b hb hnew => rfl
  | receive b hb hok => rfl
  | connect vec pos hvec hok => rfl
  | reorder orphans hsame hheld => rfl
  | orphan b hb hlt => exact node.putOrphan_peers b
  | sync pid start hpid => exact node.startSync_peers pid start

theorem Intake.peers {env : Env} {incoming : List Block}
    {node last : Node} {effects : List Effect}
    (h : Intake env incoming node last effects) : last.peers = node.peers := by
  induction h with
  | refl => rfl
  | head hstep _ ih => exact ih.trans hstep.peers

theorem acceptTrx_peers (env : Env) (node : Node) (trx : Transaction) :
    (node.acceptTrx env trx).node.peers = node.peers := by
  unfold acceptTrx
  dsimp only
  split <;> rfl

theorem onTick_peers (env : Env) (node : Node) :
    (node.onTick env).node.peers = node.peers := by
  have hcase := node.onTick_cases env
  generalize node.onTick env = reaction at hcase ⊢
  cases hcase with
  | waited consensus hconsensus hno => rfl
  | keyless hturn htxs hbuild => exact node.drained_peers env
  | refused candidate hturn htxs hbuild hbad => exact node.drained_peers env
  | proposed candidate hturn htxs hbuild hok =>
      rw [markSeenBlock_peers]
      exact node.drained_peers env

/-- Only `AddPeer` and `RemovePeer` touch the peer map. -/
theorem step_peers (env : Env) (node : Node) (input : Input) :
    (node.step env input).node.peers = input.peersAfter node.peers := by
  cases input with
  | tick => exact node.onTick_peers env
  | message m =>
      cases m with
      | localTrx trx => exact node.acceptTrx_peers env trx
      | debugPrint => rfl
      | stop => rfl
      | addPeer peerId sender => rfl
      | removePeer peerId => exact node.removePeer_peers peerId
      | net peerId msg =>
          cases msg with
          | hello id pubkey => rfl
          | helloAck id => rfl
          | trx trx => exact node.acceptTrx_peers env trx
          | getStatus => rfl
          | getBlocks start limit => rfl
          | status height hash =>
              show (node.onNet env peerId (.status height hash)).node.peers = _
              unfold onNet
              dsimp only
              split
              · exact node.startSync_peers peerId _
              · rfl
          | block b =>
              exact (connectIfProgressed_intake
                (node.handleIncomingBlock_intake env b)).peers
          | blocks page =>
              exact (nextPage_peers _ peerId page).trans
                (connectIfProgressed_intake
                  (node.handleBatch_intake env page)).peers

theorem next_peers {node last : Node} {env : Env} {input : Input}
    {effects : List Effect}
    (h : node.next (env, input) = some (last, effects)) :
    last.peers = input.peersAfter node.peers := by
  obtain ⟨rfl, -, -⟩ := next_eq_some h
  exact node.step_peers env input

/-! ## Who is sent to -/

theorem IntakeStep.registered {env : Env} {incoming : List Block}
    {node last : Node} {effects : List Effect}
    (hstep : IntakeStep env incoming node last effects) :
    ∀ e ∈ effects, Registered node.peers e := by
  cases hstep with
  | mark b hb hnew => simp
  | receive b hb hok => exact node.gossip_registered env _
  | connect vec pos hvec hok => exact node.gossip_registered env _
  | reorder orphans hsame hheld => simp
  | orphan b hb hlt => simp
  | sync pid start hpid => exact node.startSync_registered pid start

theorem Intake.registered {env : Env} {incoming : List Block}
    {node last : Node} {effects : List Effect}
    (h : Intake env incoming node last effects) :
    ∀ e ∈ effects, Registered node.peers e := by
  induction h with
  | refl => simp
  | head hstep _ ih =>
      intro e he
      rcases List.mem_append.mp he with hfirst | hlater
      · exact hstep.registered e hfirst
      · rw [← hstep.peers]
        exact ih e hlater

theorem acceptTrx_registered (env : Env) (node : Node) (trx : Transaction) :
    ∀ e ∈ (node.acceptTrx env trx).effects, Registered node.peers e := by
  unfold acceptTrx
  dsimp only
  split
  · exact gossip_registered env _ _
  · simp

theorem onTick_registered (env : Env) (node : Node) :
    ∀ e ∈ (node.onTick env).effects, Registered node.peers e := by
  have hcase := node.onTick_cases env
  generalize node.onTick env = reaction at hcase ⊢
  cases hcase with
  | waited consensus hconsensus hno => simp
  | keyless hturn htxs hbuild => simp
  | refused candidate hturn htxs hbuild hbad =>
      intro e he
      rw [List.mem_singleton.mp he]
      trivial
  | proposed candidate hturn htxs hbuild hok =>
      intro e he
      rcases List.mem_cons.mp he with rfl | hsent
      · trivial
      · exact node.gossip_registered env (.block candidate) e hsent

theorem onMessage_registered (env : Env) (node : Node) (m : NodeMessage) :
    ∀ e ∈ (node.onMessage env m).effects,
      Registered (node.onMessage env m).node.peers e := by
  have hcase := node.onMessage_cases env m
  generalize node.onMessage env m = reaction at hcase ⊢
  cases hcase with
  | ignored m hnone => exact fun e he => nomatch he
  | answered peerId msg reply hnone hserves =>
      exact node.sendTo_registered peerId reply
  | trx m trx hnone =>
      rw [acceptTrx_peers]
      exact node.acceptTrx_registered env trx
  | addPeer peerId sender =>
      intro e he
      rcases List.mem_append.mp he with hfirst | hlater
      · exact sendTo_registered _ _ _ e hfirst
      · exact sendTo_registered _ _ _ e hlater
  | removePeer peerId => exact fun e he => nomatch he
  | started peerId height hash start =>
      rw [startSync_peers]
      exact node.startSync_registered peerId start
  | block peerId b =>
      have hintake := connectIfProgressed_intake
        (node.handleIncomingBlock_intake env b)
      rw [hintake.peers]
      exact hintake.registered
  | blocks peerId page connected hconnected =>
      have hintake := connectIfProgressed_intake
        (node.handleBatch_intake env page)
      rw [← hconnected] at hintake
      intro e he
      rw [nextPage_peers]
      rcases List.mem_append.mp he with hfirst | hlater
      · rw [hintake.peers]
        exact hintake.registered e hfirst
      · exact nextPage_registered _ peerId page e hlater

/-- Every message goes to a peer that is registered after the turn, on its
channel. -/
theorem step_registered (env : Env) (node : Node) (input : Input) :
    ∀ e ∈ (node.step env input).effects,
      Registered (node.step env input).node.peers e := by
  cases input with
  | message m => exact node.onMessage_registered env m
  | tick =>
      show ∀ e ∈ (node.onTick env).effects,
        Registered (node.onTick env).node.peers e
      rw [onTick_peers]
      exact node.onTick_registered env

end Node

end B4n
