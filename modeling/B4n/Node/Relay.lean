import B4n.Node.Peers
import B4n.Node.Holds
import B4n.Node.Sample

/-!
# Relaying

A block is relayed to every registered peer in the moment it is appended,
whether it was received, waited in the orphan pool or was proposed.  Nothing
else sends a `Block` message.  The seen window may forget a hash, but the chain
does not, so a block that was relayed is never relayed again.

## Main results

* `step_relays` — a turn relays exactly the blocks it appends, in their order.
* `run_relays` — along a run no hash is relayed twice.
-/

namespace B4n

open Lib Blockchain Transport

/-- The block an effect relays to a peer on a channel. -/
def Effect.blockTo (peerId : UInt32) (sender : Sender) : Effect → Option Block
  | .send p s (.block b) => if p = peerId ∧ s = sender then some b else none
  | _ => none

/-- The blocks relayed to a peer on a channel, in order. -/
def relayedTo (peerId : UInt32) (sender : Sender) (effects : List Effect) :
    List Block :=
  effects.filterMap (Effect.blockTo peerId sender)

theorem relayedTo_append (peerId : UInt32) (sender : Sender)
    (effects more : List Effect) :
    relayedTo peerId sender (effects ++ more) =
      relayedTo peerId sender effects ++ relayedTo peerId sender more :=
  List.filterMap_append

theorem relayedTo_eq_nil {peerId : UInt32} {sender : Sender}
    {effects : List Effect}
    (h : ∀ e ∈ effects, ∀ p s b, e ≠ .send p s (.block b)) :
    relayedTo peerId sender effects = [] := by
  unfold relayedTo
  rw [List.filterMap_eq_nil_iff]
  intro e he
  unfold Effect.blockTo
  split
  · rename_i p s b
    exact absurd rfl (h _ he p s b)
  · rfl

/-- A list without repetitions meets one of its elements once. -/
theorem filterMap_ite_eq {α β : Type} [DecidableEq α] {l : List α}
    (hnodup : l.Nodup) {a : α} (ha : a ∈ l) (b : β) :
    l.filterMap (fun x => if x = a then some b else none) = [b] := by
  induction l with
  | nil => cases ha
  | cons x l ih =>
      have hcons := List.nodup_cons.mp hnodup
      rw [List.filterMap_cons]
      by_cases hx : x = a
      · subst hx
        have hrest : l.filterMap
            (fun y => if y = x then some b else none) = [] := by
          rw [List.filterMap_eq_nil_iff]
          intro y hy
          have hne : y ≠ x := fun heq => hcons.1 (heq ▸ hy)
          exact if_neg hne
        rw [if_pos rfl]
        dsimp only
        rw [hrest]
      · rw [if_neg hx]
        rcases List.mem_cons.mp ha with heq | hmem
        · exact absurd heq.symm hx
        · exact ih hcons.2 hmem

namespace Node

/-- Gossiping a block relays it once to every registered peer. -/
theorem relayedTo_gossip (env : Env) (node : Node) (b : Block)
    (peerId : UInt32) (sender : Sender) :
    relayedTo peerId sender (node.gossip env (.block b)) =
      if node.peers.lookup peerId = some sender then [b] else [] := by
  have hkeys : relayedTo peerId sender (node.gossip env (.block b)) =
      (env.peerOrder node.peers.keys).filterMap fun key =>
        if key = peerId ∧ node.peers.lookup key = some sender then some b
        else none := by
    unfold relayedTo gossip peerEntries
    rw [List.filterMap_map, List.filterMap_filterMap]
    apply List.filterMap_congr
    intro key _
    cases hfound : node.peers.lookup key with
    | none => simp
    | some found => simp [Effect.blockTo]
  rw [hkeys]
  split
  · rename_i hpeer
    have hperm := env.peerOrder_perm node.peers.keys
    have hmem : peerId ∈ env.peerOrder node.peers.keys := by
      rw [hperm.mem_iff, ← AList.mem_keys, ← AList.lookup_isSome, hpeer]
      rfl
    have hnodup : (env.peerOrder node.peers.keys).Nodup :=
      hperm.nodup_iff.mpr node.peers.nodupKeys
    have honly : (env.peerOrder node.peers.keys).filterMap (fun key =>
        if key = peerId ∧ node.peers.lookup key = some sender then some b
        else none) = (env.peerOrder node.peers.keys).filterMap fun key =>
          if key = peerId then some b else none := by
      apply List.filterMap_congr
      intro key _
      by_cases hkey : key = peerId
      · rw [hkey, hpeer]
        simp
      · simp [hkey]
    rw [honly]
    exact filterMap_ite_eq hnodup hmem b
  · rename_i hpeer
    rw [List.filterMap_eq_nil_iff]
    intro key _
    apply if_neg
    rintro ⟨rfl, hlookup⟩
    exact hpeer hlookup

/-- The chain grows by `added`, and exactly these blocks are relayed: to every
registered peer, on its channel, in the order of the chain. -/
structure RelaysAdded (node last : Node) (effects : List Effect)
    (added : List Block) : Prop where
  blocks_eq : last.chain.blocks = node.chain.blocks ++ added
  relayed_eq : ∀ peerId sender, relayedTo peerId sender effects =
    if node.peers.lookup peerId = some sender then added else []

/-- Neither a block appended nor a `Block` message sent. -/
theorem RelaysAdded.of_quiet {node last : Node} {effects : List Effect}
    (hchain : last.chain = node.chain)
    (hquiet : ∀ e ∈ effects, ∀ p s b, e ≠ .send p s (.block b)) :
    RelaysAdded node last effects [] where
  blocks_eq := by rw [hchain, List.append_nil]
  relayed_eq := by
    intro peerId sender
    rw [relayedTo_eq_nil hquiet, ite_self]

theorem RelaysAdded.trans {node mid last : Node} {effects rest : List Effect}
    {added more : List Block} (h : RelaysAdded node mid effects added)
    (hpeers : mid.peers = node.peers) (h' : RelaysAdded mid last rest more) :
    RelaysAdded node last (effects ++ rest) (added ++ more) where
  blocks_eq := by rw [h'.blocks_eq, h.blocks_eq, List.append_assoc]
  relayed_eq := by
    intro peerId sender
    rw [relayedTo_append, h.relayed_eq, h'.relayed_eq, hpeers]
    split <;> simp

variable [Primitives]

theorem IntakeStep.relays {env : Env} {incoming : List Block}
    {node last : Node} {effects : List Effect}
    (hstep : IntakeStep env incoming node last effects) :
    ∃ added, RelaysAdded node last effects added := by
  cases hstep with
  | mark b hb hnew => exact ⟨[], .of_quiet rfl (by simp)⟩
  | receive b hb hok => exact ⟨[b], rfl, node.relayedTo_gossip env b⟩
  | connect vec pos hvec hok =>
      exact ⟨[vec.get pos], rfl, node.relayedTo_gossip env _⟩
  | reorder orphans hsame hheld => exact ⟨[], .of_quiet rfl (by simp)⟩
  | orphan b hb hlt =>
      obtain ⟨orphans, total, hput⟩ := node.putOrphan_eq b
      exact ⟨[], .of_quiet (by rw [hput]) (by simp)⟩
  | sync pid start hpid =>
      refine ⟨[], .of_quiet (node.startSync_core pid start).chain ?_⟩
      intro e he p s b heq
      obtain ⟨sender, -, rfl⟩ := mem_startSync_effects he
      cases heq

theorem Intake.relays {env : Env} {incoming : List Block}
    {node last : Node} {effects : List Effect}
    (h : Intake env incoming node last effects) :
    ∃ added, RelaysAdded node last effects added := by
  induction h with
  | refl => exact ⟨[], .of_quiet rfl (by simp)⟩
  | head hstep _ ih =>
      obtain ⟨added, hadded⟩ := hstep.relays
      obtain ⟨more, hmore⟩ := ih
      exact ⟨added ++ more, hadded.trans hstep.peers hmore⟩

/-- What a message is answered with besides the relayed blocks is no `Block`
message. -/
theorem onMessage_relays (env : Env) (node : Node) (m : NodeMessage) :
    ∃ added, RelaysAdded node (node.onMessage env m).node
      (node.onMessage env m).effects added := by
  obtain ⟨mid, effects, rest, hintake, hcore, heffects, hserves⟩ :=
    node.onMessage_spec env m
  obtain ⟨added, hadded⟩ := hintake.relays
  have hquiet : RelaysAdded mid (node.onMessage env m).node rest [] := by
    apply RelaysAdded.of_quiet hcore.chain
    rintro e he p s b rfl
    exact (hserves _ he).2 b rfl
  rw [heffects]
  have hboth := hadded.trans hintake.peers hquiet
  rw [List.append_nil] at hboth
  exact ⟨added, hboth⟩

theorem onTick_relays (env : Env) (node : Node) :
    ∃ added, RelaysAdded node (node.onTick env).node
      (node.onTick env).effects added := by
  have hcase := node.onTick_cases env
  generalize node.onTick env = reaction at hcase ⊢
  cases hcase with
  | waited consensus hconsensus hno => exact ⟨[], .of_quiet rfl (by simp)⟩
  | keyless hturn htxs hbuild =>
      exact ⟨[], .of_quiet (node.drained_chain env) (by simp)⟩
  | refused candidate hturn htxs hbuild hbad =>
      exact ⟨[], .of_quiet (node.drained_chain env) (by simp)⟩
  | proposed candidate hturn htxs hbuild hok =>
      refine ⟨[candidate], (proposed_advance env hok).blocks_eq, ?_⟩
      intro peerId sender
      exact node.relayedTo_gossip env candidate peerId sender

/-- A turn relays exactly the blocks it appends. -/
theorem step_relays (env : Env) (node : Node) (input : Input) :
    ∃ added, RelaysAdded node (node.step env input).node
      (node.step env input).effects added := by
  cases input with
  | message m => exact node.onMessage_relays env m
  | tick => exact node.onTick_relays env

/-! ## Runs -/

/-- Every block relayed so far is on the chain. -/
theorem run_relayed_mem {node last : Node} {inputs : List (Env × Input)}
    {effects : List Effect}
    (hrun : Run Node.next node inputs last effects) :
    ∀ p s b, .send p s (.block b) ∈ effects → b ∈ last.chain.blocks := by
  apply hrun.invariant_outputs
    (P := fun last effects =>
      ∀ p s b, .send p s (.block b) ∈ effects → b ∈ last.chain.blocks)
  · intro p s b hb
    cases hb
  · intro mid out i t new hmid hnext p s b hb
    obtain ⟨rfl, rfl, -⟩ := next_eq_some hnext
    rcases List.mem_append.mp hb with hold | hnew
    · obtain ⟨added, hadded⟩ := mid.step_advance i.1 i.2
      rw [hadded.blocks_eq]
      exact List.mem_append_left _ (hmid p s b hold)
    · exact step_carried hnew (List.mem_singleton_self b)

/-- A run only appends to the chain. -/
theorem run_extends {node last : Node} {inputs : List (Env × Input)}
    {effects : List Effect}
    (hrun : Run Node.next node inputs last effects) :
    node.chain.blocks <+: last.chain.blocks := by
  apply hrun.invariant
    (P := fun last : Node => node.chain.blocks <+: last.chain.blocks)
  · exact List.prefix_refl _
  · intro s i t out hs hnext
    obtain ⟨added, hadded⟩ := next_advance hnext
    exact hs.trans ⟨added, hadded.blocks_eq.symm⟩

/-- In every run, every step relays to each registered peer exactly the blocks
it appends, in their order; their hashes are pairwise different, and none of
them was relayed to anyone before. -/
theorem run_relays {netId : UInt32} {seed : Seed} {chainId : UInt64}
    {consensus : PoAConsensus} {last : Node} {inputs : List (Env × Input)}
    {effects : List Effect}
    (hrun : Run Node.next
      (Node.new netId seed (BlockChain.new chainId) consensus) inputs last
      effects)
    (hInj : Set.InjOn calcHash (headerInputs last.chain.blocks)) :
    ∀ before i after node out, inputs = before ++ i :: after →
      Run Node.next (Node.new netId seed (BlockChain.new chainId) consensus)
        before node out →
      ∃ added,
        RelaysAdded node (node.step i.1 i.2).node (node.step i.1 i.2).effects
          added ∧
        (added.map Block.hash).Nodup ∧
        ∀ b ∈ added, ∀ p s c, .send p s (.block c) ∈ out →
          c.hash ≠ b.hash := by
  rintro before i after node out rfl hbefore
  obtain ⟨added, hadded⟩ := node.step_relays i.1 i.2
  refine ⟨added, hadded, ?_⟩
  -- the step is taken on the way to the last chain, which knows each hash once
  have hextends : node.chain.blocks ++ added <+: last.chain.blocks := by
    obtain ⟨mid, new, rest, hnext, hrest⟩ := hrun.split_cons hbefore
    obtain ⟨rfl, -, -⟩ := next_eq_some hnext
    rw [← hadded.blocks_eq]
    exact run_extends hrest
  have hlinked := (run_linked (new_linked _ _ _ _) hrun).follows
  have hhashes : (last.chain.blocks.map Block.hash).Nodup := by
    apply (nodup_of_isChain hlinked).map_on
    intro a ha b hb
    exact hash_inj_of_isChain hlinked hInj ha hb
  have hnodup := hhashes.sublist (hextends.sublist.map Block.hash)
  rw [List.map_append, List.nodup_append] at hnodup
  refine ⟨hnodup.2.1, ?_⟩
  intro b hb p s c hc
  have hmem := run_relayed_mem hbefore p s c hc
  exact hnodup.2.2 _ (List.mem_map_of_mem hmem) _ (List.mem_map_of_mem hb)

end Node

end B4n

namespace B4n.Blockchain.Sample

open B4n.Lib Transport

/-- Two blocks of validator 1, one after the other. -/
private def relayedFirst : Block := block genesis [trx 1 "coffee"] 0 0 1

private def relayedSecond : Block := block relayedFirst [trx 2 "tea"] 0 0 1

/-- Two peers, and the second block before the first. -/
private def orphanBefore : List (Env × Input) :=
  [(env 10, .message (.addPeer 7 70)), (env 20, .message (.addPeer 8 80)),
    (env 30, .message (.net 7 (.block relayedSecond)))]

private def firstArrives : Env × Input :=
  (env 40, .message (.net 7 (.block relayedFirst)))

private def reader : Node := node 1 9 (config [1] 8) config_one_ok

private def waiting : Node := (finish Node.next reader orphanBefore).1

private def connected : Node :=
  (finish Node.next reader (orphanBefore ++ [firstArrives])).1

private theorem orphanBefore_ok :
    (exec Node.next reader orphanBefore).isSome = true ∧
      (exec Node.next reader (orphanBefore ++ [firstArrives])).isSome = true ∧
      ((connected.chain.blocks.map Block.headerToBytes).dedup.map
        calcHash).Nodup ∧
      relayedTo 8 80 (waiting.step (env 40) firstArrives.2).effects =
        [relayedFirst, relayedSecond] := by
  decide +kernel

theorem run_relays_orphan :
    ∃ (node : Node) (i : Env × Input) (added : List Block),
      relayedTo 8 80 (node.step i.1 i.2).effects =
        [relayedFirst, relayedSecond] ∧
      Node.RelaysAdded node (node.step i.1 i.2).node
        (node.step i.1 i.2).effects added ∧ (added.map Block.hash).Nodup := by
  obtain ⟨hlive, hlive', hnodup, hrelayed⟩ := orphanBefore_ok
  have hbefore : Run Node.next reader orphanBefore waiting _ :=
    run_finish hlive
  have hrun : Run Node.next reader (orphanBefore ++ [firstArrives]) connected
      _ := run_finish hlive'
  obtain ⟨added, hadded, hhashes, -⟩ :=
    Node.run_relays hrun (injOn_headerInputs_of_nodup hnodup) orphanBefore
      firstArrives [] waiting _ rfl hbefore
  exact ⟨waiting, firstArrives, added, hrelayed, hadded, hhashes⟩

end B4n.Blockchain.Sample
