import B4n.Node.Signing
import B4n.Node.Holds
import B4n.Node.SyncFlag

/-!
# Proposing

A tick takes transactions out of the pool before it builds, signs and checks a
block of them, and drops them if one of these fails.  As long as the 32-bit
number of the node is its own, none of them can fail.

A tick that comes late raises the round and asks for the proposer of the new
round at once.  So the slots of successive late ticks run through all residues,
and after as many ticks as there are validators the node has had its turn.

## Main results

* `run_onTick_lossless` — a tick leaves chain and queue alone, or appends a
  valid block of exactly the transactions that leave the queue.
* `run_getsTurn` — among as many late ticks as there are validators one
  appends a block of this node.
-/

namespace B4n

open Lib Blockchain Transport

variable [Primitives]

namespace Node

/-- What makes the candidates of a node valid. -/
structure Proposer (seed : Seed) (node : Node) : Prop where
  identity_eq : node.identity = NodeIdentity.new seed node.consensus.config
  verify : SignaturesVerify node.consensus.verifier
  own : OwnNumber node.consensus.config.validators
    (Primitives.verifyingKey seed)
  height_lt : node.chain.getHeight.toNat + 1 < 2 ^ 64

theorem run_proposer {netId : UInt32} {seed : Seed} {chainId : UInt64}
    {consensus : PoAConsensus} {node : Node} {inputs : List (Env × Input)}
    {effects : List Effect}
    (hverify : SignaturesVerify consensus.verifier)
    (hown : OwnNumber consensus.config.validators
      (Primitives.verifyingKey seed))
    (hrun : Run Node.next
      (Node.new netId seed (BlockChain.new chainId) consensus) inputs node
      effects) : Proposer seed node := by
  have hrules := run_sameRules hrun
  have hconfig : node.consensus.config = consensus.config := hrules.config_eq
  have hverifier : node.consensus.verifier = consensus.verifier :=
    hrules.verifier_eq
  refine ⟨?_, ?_, ?_, run_height_lt hrun⟩
  · rw [hrules.identity_eq, hconfig]
    rfl
  · rw [hverifier]
    exact hverify
  · rw [hconfig]
    exact hown

/-- On its turn such a node appends what it builds. -/
theorem Proposer.proposes {env : Env} {seed : Seed} {node : Node}
    (h : Proposer seed node) (hturn : Turn env node)
    (htxs : node.nextTrxs ≠ []) : ∃ candidate, Proposes env node candidate := by
  have hid := hturn.nodeId_eq
  rw [h.identity_eq] at hid
  obtain ⟨candidate, hbuild⟩ : ∃ candidate,
      (node.drained env).buildBlock env node.nextTrxs = .ok candidate := by
    apply buildBlock_of_validator
    · rw [drained_identity]
      exact hturn.nodeId_eq
    · rw [drained_identity, h.identity_eq]
      exact NodeIdentity.privateKey_of_nodeId hid
  exact ⟨candidate, hturn, htxs, hbuild,
    candidate_accepted h.identity_eq h.verify h.own h.height_lt hturn hbuild⟩

/-! ## No transaction is lost -/

/-- How many transactions a tick takes. -/
def takes (node : Node) : Nat :=
  min node.consensus.config.maxTrxPerBlock node.mempool.queue.length

/-- The node appended one valid block, made of the front of the queue. -/
structure Proposed (node last : Node) (b : Block) : Prop where
  blocks_eq : last.chain.blocks = node.chain.blocks ++ [b]
  valid : node.consensus.validateBlock node.chain.last b = .ok ()
  takes_pos : 0 < node.takes
  transactions_eq : b.transactions = node.mempool.queue.take node.takes
  queue_eq : last.mempool.queue = node.mempool.queue.drop node.takes

theorem Proposes.proposed {env : Env} {node : Node} {candidate : Block}
    (h : Proposes env node candidate) :
    Proposed node (node.onTick env).node candidate where
  blocks_eq := h.blocks_eq
  valid := (PoAConsensus.validateBlock_eq_ok_iff _ _ _).mpr
    ((PoAConsensus.accepts_iff _ _ _).mp h.accepted)
  takes_pos := by
    have htxs : node.mempool.queue.take node.takes ≠ [] := h.trxs
    by_contra hzero
    rw [Nat.eq_zero_of_not_pos hzero] at htxs
    exact htxs rfl
  transactions_eq := (buildBlock_built h.built).transactions_eq
  queue_eq := by
    rw [h.onTick_eq]
    unfold markSeenBlock
    split <;> rfl

/-- A tick of such a node takes transactions only into a block. -/
theorem Proposer.onTick_lossless {seed : Seed} {node : Node}
    (h : Proposer seed node) (env : Env) :
    ((node.onTick env).node.chain = node.chain ∧
      (node.onTick env).node.mempool.queue = node.mempool.queue) ∨
      ∃ b, Proposed node (node.onTick env).node b := by
  by_cases hwhen : Turn env node ∧ node.nextTrxs ≠ []
  · obtain ⟨candidate, hproposes⟩ := h.proposes hwhen.1 hwhen.2
    exact Or.inr ⟨candidate, hproposes.proposed⟩
  · apply Or.inl
    rcases onTick_of_not_turn hwhen with htick | htick
    · rw [htick]
      exact ⟨rfl, rfl⟩
    · rw [htick]
      exact ⟨node.advanceRound_chain env,
        congrArg MemPool.queue (node.advanceRound_mempool env)⟩

/-- In every state of every run, a tick changes neither chain nor queue, or it
appends one valid block of exactly the transactions it takes. -/
theorem run_onTick_lossless {netId : UInt32} {seed : Seed} {chainId : UInt64}
    {consensus : PoAConsensus} {node : Node} {inputs : List (Env × Input)}
    {effects : List Effect}
    (hverify : SignaturesVerify consensus.verifier)
    (hsmall : consensus.config.validators.length ≤ 2 ^ 32)
    (hrun : Run Node.next
      (Node.new netId seed (BlockChain.new chainId) consensus) inputs node
      effects) (env : Env) :
    ((node.onTick env).node.chain = node.chain ∧
      (node.onTick env).node.mempool.queue = node.mempool.queue) ∨
      ∃ b, Proposed node (node.onTick env).node b :=
  (run_proposer hverify (ownNumber_of_length_le hsmall _) hrun).onTick_lossless
    env

/-! ## Every validator gets its turn -/

omit [Primitives] in
/-- The tick comes after the slot time and after the round timeout. -/
def Late (node : Node) (env : Env) : Prop :=
  max (fromMillis node.consensus.config.slotDurationMs)
    (fromMillis node.consensus.config.timeoutMs) ≤ node.elapsed env

omit [Primitives] in
instance (node : Node) (env : Env) : Decidable (Late node env) :=
  inferInstanceAs (Decidable (_ ≤ _))

omit [Primitives] in
/-- After `ticks` late ticks without a proposal only the round has changed. -/
structure Waiting (node s : Node) (ticks : Nat) : Prop where
  chain_eq : s.chain = node.chain
  mempool_eq : s.mempool = node.mempool
  identity_eq : s.identity = node.identity
  not_syncing : s.isSyncing = false
  config_eq : s.consensus.config = node.consensus.config
  verifier_eq : s.consensus.verifier = node.consensus.verifier
  round_eq : s.consensus.state.currentRound.toNat =
    node.consensus.state.currentRound.toNat + ticks

omit [Primitives] in
theorem Late.advanceRound_eq {node : Node} {env : Env} (h : Late node env) :
    node.advanceRound env =
      { node with
        consensus := node.consensus.updateState env.now none
          (saturatingAdd node.consensus.state.currentRound 1) } :=
  if_pos ((Nat.le_max_right _ _).trans h)

omit [Primitives] in
/-- Below the end of the numbers a round is followed by the next one. -/
theorem toNat_saturatingAdd_one {round : UInt64}
    (h : round.toNat + 1 < 2 ^ 64) :
    (saturatingAdd round 1).toNat = round.toNat + 1 := by
  unfold saturatingAdd
  rw [UInt64.toNat_one, if_pos h, UInt64.toNat_add, UInt64.toNat_one,
    Nat.mod_eq_of_lt h]

theorem Waiting.onTick {env : Env} {node s : Node} {ticks : Nat}
    (h : Waiting node s ticks) (hlate : Late s env)
    (hround : node.consensus.state.currentRound.toNat + ticks + 1 < 2 ^ 64)
    (hno : ¬ (Turn env s ∧ s.nextTrxs ≠ [])) :
    Waiting node (s.onTick env).node (ticks + 1) := by
  have hslot := (Nat.le_max_left _ _).trans hlate
  rw [onTick_of_slot_over h.not_syncing hslot hno, hlate.advanceRound_eq]
  refine ⟨h.chain_eq, h.mempool_eq, h.identity_eq, h.not_syncing, h.config_eq,
    h.verifier_eq, ?_⟩
  show (saturatingAdd s.consensus.state.currentRound 1).toNat = _
  have hs := h.round_eq
  rw [toNat_saturatingAdd_one (by omega)]
  omega

/-- A tick of a run at which the node proposes. -/
def ProposesAmong (node : Node) (ticks : List (Env × Input)) : Prop :=
  ∃ before env after s out candidate, ticks = before ++ (env, .tick) :: after ∧
    Run Node.next node before s out ∧ SameRules node s ∧
    Proposes env s candidate

theorem ProposesAmong.append {node : Node} {ticks : List (Env × Input)}
    (h : ProposesAmong node ticks) (more : List (Env × Input)) :
    ProposesAmong node (ticks ++ more) := by
  obtain ⟨before, env, after, s, out, candidate, rfl, hrest⟩ := h
  exact ⟨before, env, after ++ more, s, out, candidate, by simp, hrest⟩

/-- A state reached by waiting has the key and the rules of the first. -/
theorem Waiting.proposer {seed : Seed} {node s : Node} {ticks : Nat}
    (hwaiting : Waiting node s ticks) (h : Proposer seed node) :
    Proposer seed s where
  identity_eq := by
    rw [hwaiting.identity_eq, hwaiting.config_eq]
    exact h.identity_eq
  verify := by
    rw [hwaiting.verifier_eq]
    exact h.verify
  own := by
    rw [hwaiting.config_eq]
    exact h.own
  height_lt := by
    rw [hwaiting.chain_eq]
    exact h.height_lt

/-- Late ticks end in a proposal, or they all only raise the round. -/
theorem run_waiting {seed : Seed} {node last : Node}
    (h : Proposer seed node) (hsync : node.isSyncing = false)
    {ticks : List (Env × Input)} {out : List Effect}
    (hrun : Run Node.next node ticks last out)
    (htick : ∀ i ∈ ticks, i.2 = .tick)
    (hlate : AllSteps Node.next node ticks fun s i => Late s i.1)
    (hround : node.consensus.state.currentRound.toNat + ticks.length <
      2 ^ 64) :
    ProposesAmong node ticks ∨ Waiting node last ticks.length := by
  induction hrun with
  | start => exact Or.inr ⟨rfl, rfl, rfl, hsync, rfl, rfl, rfl⟩
  | step hprev hnext ih =>
      rename_i ticks s out i last more
      rw [List.length_append, List.length_singleton] at hround ⊢
      rcases ih (fun j hj => htick j (List.mem_append_left _ hj))
          hlate.of_append (by omega) with hproposed | hwaiting
      · exact Or.inl (hproposed.append [i])
      obtain ⟨env, input⟩ := i
      have hinput : input = .tick :=
        htick (env, input) (List.mem_append_right _ (List.mem_singleton_self _))
      subst hinput
      by_cases hwhen : Turn env s ∧ s.nextTrxs ≠ []
      · obtain ⟨candidate, hproposes⟩ :=
          (hwaiting.proposer h).proposes hwhen.1 hwhen.2
        exact Or.inl ⟨ticks, env, [], s, out, candidate, rfl, hprev,
          run_sameRules hprev, hproposes⟩
      · obtain ⟨rfl, -, -⟩ := next_eq_some hnext
        exact Or.inr (hwaiting.onTick (hlate.last hprev) (by omega) hwhen)

omit [Primitives] in
/-- Among `n` successive numbers one has the residue `i`. -/
theorem exists_residue {n i : Nat} (hi : i < n) (start : Nat) :
    ∃ d, d < n ∧ (start + d + 1) % n = i := by
  have hdiv := Nat.div_add_mod (start + 1) n
  have hmod := Nat.mod_lt (start + 1) (by omega : 0 < n)
  by_cases hle : (start + 1) % n ≤ i
  · refine ⟨i - (start + 1) % n, by omega, ?_⟩
    have heq : start + (i - (start + 1) % n) + 1 =
        n * ((start + 1) / n) + i := by omega
    rw [heq, Nat.mul_add_mod, Nat.mod_eq_of_lt hi]
  · refine ⟨n - (start + 1) % n + i, by omega, ?_⟩
    have heq : start + (n - (start + 1) % n + i) + 1 =
        n * ((start + 1) / n) + (n + i) := by omega
    rw [heq, Nat.mul_add_mod, Nat.add_mod_left, Nat.mod_eq_of_lt hi]

omit [Primitives] in
/-- The slot of a late tick, counted from the first state. -/
theorem Waiting.turn {env : Env} {node s : Node} {ticks i : Nat}
    (h : Waiting node s ticks) (hlate : Late s env)
    (hid : node.identity.nodeId = some (UInt32.ofNat i))
    (hbound : node.chain.getHeight.toNat +
      node.consensus.state.currentRound.toNat + ticks + 1 < 2 ^ 64)
    (hslot : (node.chain.getHeight.toNat +
      node.consensus.state.currentRound.toNat + ticks + 1) %
        node.consensus.config.validators.length = i) : Turn env s where
  not_syncing := h.not_syncing
  slot_over := (Nat.le_max_left _ _).trans hlate
  nodeId_eq := by
    have hround : (saturatingAdd s.consensus.state.currentRound 1).toNat =
        node.consensus.state.currentRound.toNat + ticks + 1 := by
      have hs := h.round_eq
      rw [toNat_saturatingAdd_one (by omega)]
      omega
    have hsum : (node.chain.getHeight + 1 - 1 +
        saturatingAdd s.consensus.state.currentRound 1).toNat =
          node.chain.getHeight.toNat +
            node.consensus.state.currentRound.toNat + ticks + 1 := by
      rw [UInt64.add_sub_cancel, UInt64.toNat_add, hround,
        Nat.mod_eq_of_lt (by omega)]
      omega
    rw [hlate.advanceRound_eq, h.identity_eq, hid, h.chain_eq]
    apply congrArg some
    show UInt32.ofNat i = UInt32.ofNat
      ((node.chain.getHeight + 1 - 1 +
        saturatingAdd s.consensus.state.currentRound 1).toNat %
          s.consensus.config.validators.length)
    rw [h.config_eq, hsum, hslot]

/-- The tick appends a block that this node proposed and signed. -/
structure AppendsOwn (seed : Seed) (env : Env) (node : Node) (b : Block) :
    Prop where
  blocks_eq : (node.onTick env).node.chain.blocks = node.chain.blocks ++ [b]
  signed : Effect.signed b ∈ (node.onTick env).effects
  proposerId_eq : node.identity.nodeId = some b.header.proposerId
  signature_eq : b.header.signature =
    Primitives.sign seed b.headerWoSignatureToBytes

theorem Proposes.appendsOwn {env : Env} {seed : Seed} {node : Node}
    {config : PoAConsensusConfig} {b : Block} (h : Proposes env node b)
    (hidentity : node.identity = NodeIdentity.new seed config) :
    AppendsOwn seed env node b := by
  have hbuilt := buildBlock_built h.built
  refine ⟨h.blocks_eq, ?_, ?_, ?_⟩
  · rw [h.onTick_eq]
    exact List.mem_cons_self ..
  · have hid := hbuilt.proposerId_eq
    rwa [drained_identity] at hid
  · obtain ⟨signingKey, hkey, hsignature⟩ := hbuilt.signature_eq
    rw [drained_identity, hidentity] at hkey
    rw [hsignature, privateKey_eq hkey]

/-- From every state of every run in which a validator is not syncing and has
transactions waiting, one of as many late ticks as there are validators appends
a block of its own. -/
theorem run_getsTurn {netId : UInt32} {seed : Seed} {chainId : UInt64}
    {consensus : PoAConsensus} {node last : Node} {inputs : List (Env × Input)}
    {effects out : List Effect} {ticks : List (Env × Input)} {nodeId : UInt32}
    (hverify : SignaturesVerify consensus.verifier)
    (hown : OwnNumber consensus.config.validators
      (Primitives.verifyingKey seed))
    (hrun : Run Node.next
      (Node.new netId seed (BlockChain.new chainId) consensus) inputs node
      effects)
    (hid : node.identity.nodeId = some nodeId)
    (hsync : node.isSyncing = false) (hqueue : node.mempool.queue ≠ [])
    (hmax : 0 < node.consensus.config.maxTrxPerBlock)
    (hbound : node.chain.getHeight.toNat +
      node.consensus.state.currentRound.toNat +
        node.consensus.config.validators.length < 2 ^ 64)
    (hlength : ticks.length = node.consensus.config.validators.length)
    (htick : ∀ i ∈ ticks, i.2 = .tick)
    (hlate : AllSteps Node.next node ticks fun s i => Late s i.1)
    (hticks : Run Node.next node ticks last out) :
    ∃ before env after s out b, ticks = before ++ (env, .tick) :: after ∧
      Run Node.next node before s out ∧ AppendsOwn seed env s b := by
  have hproposer := run_proposer hverify hown hrun
  suffices hamong : ProposesAmong node ticks by
    obtain ⟨before, env, after, s, out, b, hsplit, hs, hrules, hb⟩ := hamong
    exact ⟨before, env, after, s, out, b, hsplit, hs,
      hb.appendsOwn (hrules.identity_eq.trans hproposer.identity_eq)⟩
  have hnumber := hid
  rw [hproposer.identity_eq] at hnumber
  obtain ⟨i, hi, rfl⟩ := NodeIdentity.validator_of_nodeId hnumber
  have hlt := (List.getElem?_eq_some_iff.mp hi).1
  obtain ⟨d, hd, hslot⟩ := exists_residue hlt
    (node.chain.getHeight.toNat + node.consensus.state.currentRound.toNat)
  -- the first `d` ticks either propose or lead to the node's slot
  have hdrop : ticks.drop d = ticks[d] :: ticks.drop (d + 1) :=
    List.drop_eq_getElem_cons (by omega)
  have hsplit : ticks = ticks.take d ++ ticks[d] :: ticks.drop (d + 1) := by
    rw [← hdrop, List.take_append_drop]
  have hfirst : (ticks.take d).length = d := by
    rw [List.length_take]
    omega
  generalize hcut : ticks.take d = before at hsplit hfirst
  generalize ticks.drop (d + 1) = after at hsplit
  generalize hthen : ticks[d] = tick at hsplit
  subst hsplit
  obtain ⟨s, out', rest, hs, -⟩ := hticks.split
  rcases run_waiting hproposer hsync hs
      (fun j hj => htick j (List.mem_append_left _ hj)) hlate.of_append
      (by omega) with hamong | hwaiting
  · exact hamong.append _
  rw [hfirst] at hwaiting
  obtain ⟨env, input⟩ := tick
  have hinput : input = .tick := htick (env, input) (by simp)
  subst hinput
  have hturn : Turn env s :=
    hwaiting.turn (hlate before (env, .tick) after s out' rfl hs) hid
      (by omega) hslot
  have htxs : s.nextTrxs ≠ [] := by
    show s.mempool.queue.take (min s.consensus.config.maxTrxPerBlock
      s.mempool.queue.length) ≠ []
    rw [hwaiting.mempool_eq, hwaiting.config_eq, ne_eq,
      ← List.length_eq_zero_iff, List.length_take]
    have hpos := List.length_pos_of_ne_nil hqueue
    omega
  obtain ⟨candidate, hproposes⟩ :=
    (hwaiting.proposer hproposer).proposes hturn htxs
  exact ⟨before, env, after, s, out', candidate, rfl, hs, run_sameRules hs,
    hproposes⟩

end Node

end B4n

namespace B4n.Blockchain.Sample

open B4n.Lib

/-! ## A validator among three -/

/-- Two transactions for the last of three validators. -/
private def twoWaiting : List (Env × Input) :=
  [(env 10, .message (.localTrx (trx 1 "coffee"))),
    (env 20, .message (.localTrx (trx 2 "tea")))]

private def lastOfThree : Node := node 1 3 (config [1, 2, 3] 8) config_three_ok

private def hasTwo : Node := (finish Node.next lastOfThree twoWaiting).1

/-- Three ticks, each after the round timeout. -/
private def threeLate : List (Env × Input) :=
  [(env 3000, .tick), (env 6000, .tick), (env 9000, .tick)]

private theorem threeLate_ok :
    (exec Node.next lastOfThree twoWaiting).isSome = true ∧
      (exec Node.next hasTwo threeLate).isSome = true ∧
      hasTwo.identity.nodeId = some 2 ∧ hasTwo.isSyncing = false ∧
      hasTwo.mempool.queue = [trx 1 "coffee", trx 2 "tea"] ∧
      hasTwo.consensus.config = config [1, 2, 3] 8 ∧
      hasTwo.chain.getHeight.toNat +
        hasTwo.consensus.state.currentRound.toNat = 0 ∧
      everyStep Node.next (fun s i => decide (Node.Late s i.1)) hasTwo
        threeLate = true := by
  decide +kernel

/-- The first round is given up. -/
private def oneLate : List (Env × Input) := [(env 3000, .tick)]

private def hasTurn : Node := (finish Node.next hasTwo oneLate).1

private theorem oneLate_ok :
    (exec Node.next hasTwo oneLate).isSome = true ∧
      (hasTurn.onTick (env 6000)).node.chain.blocks.length = hasTurn.chain.blocks.length + 1 := by
  decide +kernel

/-- A tick that gives up the second round and proposes. -/
theorem run_onTick_lossless_hasTurn :
    ∃ b, Node.Proposed hasTurn (hasTurn.onTick (env 6000)).node b := by
  have hrun : Run Node.next lastOfThree (twoWaiting ++ oneLate) hasTurn _ :=
    (run_finish threeLate_ok.1).append (run_finish oneLate_ok.1)
  refine (Node.run_onTick_lossless signaturesVerify (by decide) hrun (env 6000)).resolve_left ?_
  rintro ⟨hchain, -⟩
  have hlength := oneLate_ok.2
  rw [hchain] at hlength
  omega

theorem run_getsTurn_threeLate :
    ∃ before env after s out b,
      threeLate = before ++ (env, .tick) :: after ∧
      Run Node.next hasTwo before s out ∧
      Node.AppendsOwn (seed 3) env s b := by
  obtain ⟨hlive, hlive', hid, hsync, hqueue, hconfig, hzero, hlate⟩ :=
    threeLate_ok
  have hrun : Run Node.next lastOfThree twoWaiting hasTwo _ :=
    run_finish hlive
  have hlate : AllSteps Node.next hasTwo threeLate fun s i =>
      Node.Late s i.1 := by
    intro before i after s out hsplit hs
    exact of_decide_eq_true (allSteps_of_everyStep hlate before i after s out
      hsplit hs)
  exact Node.run_getsTurn signaturesVerify
    (ownNumber_of_length_le (by decide) _) hrun hid hsync
    (by rw [hqueue]; simp) (by rw [hconfig]; decide)
    (by rw [hconfig, hzero]; decide) (by rw [hconfig]; rfl)
    (by simp [threeLate]) hlate (run_finish hlive')

/-! ## A validator without a number of its own -/

variable {n : Nat}

/-- The last of `2 ^ 32 + 2` validators has the number of the second one. -/
private structure Unlucky (n ticks : Nat) (node : Node) : Prop where
  identity_eq : node.identity = NodeIdentity.new (numbered n) (crowd n)
  config_eq : node.consensus.config = crowd n
  verifier_eq : node.consensus.verifier = verifier
  chain_eq : node.chain = BlockChain.new 1
  not_syncing : node.isSyncing = false
  startedAt_eq : node.consensus.state.roundStartedAt = 3000000000 * ticks
  queue_eq : node.mempool.queue =
    if ticks = 0 then [trx 1 "coffee"] else []
  round_eq : ticks = 0 → node.consensus.state.currentRound = 0

private theorem Unlucky.late {ticks : Nat} {node : Node}
    (h : Unlucky n ticks node) :
    Node.Late node (env (3000 * (ticks + 1))) := by
  show max (1000000 * node.consensus.config.slotDurationMs.toNat)
    (1000000 * node.consensus.config.timeoutMs.toNat) ≤
      1000000 * (3000 * (ticks + 1)) - node.consensus.state.roundStartedAt
  rw [h.config_eq, h.startedAt_eq]
  simp only [crowd, UInt64.reduceToNat]
  omega

private theorem Unlucky.now_eq (ticks : Nat) :
    (env (3000 * (ticks + 1))).now = 3000000000 * (ticks + 1) := by
  show 1000000 * (3000 * (ticks + 1)) = _
  omega

/-- The slot of the second validator comes first. -/
private theorem Unlucky.proposerIndex (hn : n = 2 ^ 32 + 1) {node : Node}
    (h : Unlucky n 0 node) :
    (node.advanceRound (env 3000)).consensus.proposerIndex
      (node.chain.getHeight + 1)
      (node.advanceRound (env 3000)).consensus.state.currentRound = 1 := by
  have hadvance : node.advanceRound (env 3000) = _ := h.late.advanceRound_eq
  rw [hadvance]
  show (node.chain.getHeight + 1 - 1 +
    Node.saturatingAdd node.consensus.state.currentRound 1).toNat %
      node.consensus.config.validators.length = 1
  rw [h.round_eq rfl, h.chain_eq, h.config_eq, length_crowd]
  show 1 % (n + 1) = 1
  exact Nat.mod_eq_of_lt (by omega)

/-- There the node takes the transaction and loses it. -/
private theorem Unlucky.first (hn : n = 2 ^ 32 + 1) {node : Node}
    (h : Unlucky n 0 node) : Unlucky n 1 (node.onTick (env 3000)).node := by
  have hlate : Node.Late node (env 3000) := h.late
  have hindex := h.proposerIndex hn
  have hturn : Node.Turn (env 3000) node := by
    refine ⟨h.not_syncing, (Nat.le_max_left _ _).trans hlate, ?_⟩
    have hconfig : (node.advanceRound (env 3000)).consensus.config =
        crowd n := by
      rw [Node.advanceRound_config, h.config_eq]
    rw [crowd_expected hconfig hindex, h.identity_eq,
      crowd_nodeId (by omega), hn]
    rfl
  have htxs : node.nextTrxs ≠ [] := by
    show node.mempool.queue.take (min node.consensus.config.maxTrxPerBlock
      node.mempool.queue.length) ≠ []
    rw [h.queue_eq, h.config_eq]
    simp [crowd]
  obtain ⟨candidate, -, htick⟩ := crowd_refused (by omega) h.identity_eq
    h.config_eq h.verifier_eq hturn (by rw [hindex]; omega) htxs
  rw [htick]
  unfold Node.drained
  rw [hlate.advanceRound_eq]
  refine ⟨h.identity_eq, h.config_eq, h.verifier_eq, h.chain_eq,
    h.not_syncing, Unlucky.now_eq 0, ?_, by omega⟩
  show node.mempool.queue.drop (min node.consensus.config.maxTrxPerBlock
    node.mempool.queue.length) = _
  rw [h.queue_eq, h.config_eq]
  simp [crowd]

/-- Later ticks find nothing to take. -/
private theorem Unlucky.later {ticks : Nat} {node : Node}
    (h : Unlucky n (ticks + 1) node) :
    Unlucky n (ticks + 2)
      (node.onTick (env (3000 * (ticks + 2)))).node := by
  have hqueue : node.mempool.queue = [] := h.queue_eq
  have hnone : node.nextTrxs = [] := by
    show node.mempool.queue.take _ = []
    rw [hqueue, List.take_nil]
  rw [Node.onTick_of_slot_over h.not_syncing
    ((Nat.le_max_left _ _).trans h.late) (fun hwhen => hwhen.2 hnone),
    h.late.advanceRound_eq]
  exact ⟨h.identity_eq, h.config_eq, h.verifier_eq, h.chain_eq, h.not_syncing,
    Unlucky.now_eq (ticks + 1), hqueue, by omega⟩

private theorem Unlucky.onTick (hn : n = 2 ^ 32 + 1) {ticks : Nat} {node : Node}
    (h : Unlucky n ticks node) :
    Unlucky n (ticks + 1)
      (node.onTick (env (3000 * (ticks + 1)))).node := by
  cases ticks with
  | zero => exact h.first hn
  | succ ticks => exact h.later

private theorem Unlucky.length_le {ticks : Nat} {node : Node}
    (h : Unlucky n ticks node) : node.chain.blocks.length ≤ MAX_VEC_LEN := by
  rw [h.chain_eq]
  decide +kernel

/-- A tick every three seconds. -/
private def lateTicks : Nat → List (Env × Input)
  | 0 => []
  | count + 1 => lateTicks count ++ [(env (3000 * (count + 1)), .tick)]

private theorem length_lateTicks (count : Nat) :
    (lateTicks count).length = count := by
  induction count with
  | zero => rfl
  | succ count ih =>
      unfold lateTicks
      rw [List.length_append, ih, List.length_singleton]

private theorem mem_lateTicks {count : Nat} {i : Env × Input}
    (hi : i ∈ lateTicks count) : i.2 = .tick := by
  induction count with
  | zero => cases hi
  | succ count ih =>
      unfold lateTicks at hi
      rcases List.mem_append.mp hi with hold | hnew
      · exact ih hold
      · rw [List.mem_singleton.mp hnew]

/-- However many ticks there are, none of them appends a block. -/
private theorem Unlucky.run (hn : n = 2 ^ 32 + 1) {node : Node}
    (h : Unlucky n 0 node) (count : Nat) :
    ∃ last out, Run Node.next node (lateTicks count) last out ∧
      Unlucky n count last ∧
      AllSteps Node.next node (lateTicks count) fun s i =>
        Node.Late s i.1 := by
  induction count with
  | zero => exact ⟨node, [], .start, h, .nil⟩
  | succ count ih =>
      obtain ⟨last, out, hrun, hlast, hlate⟩ := ih
      have hnext := hlast.onTick hn
      have hlength : (last.step (env (3000 * (count + 1)))
          .tick).node.chain.blocks.length ≤ MAX_VEC_LEN := hnext.length_le
      exact ⟨_, _, hrun.step (Node.next_of_length_le hlength), hnext,
        hlate.snoc hrun hlast.late⟩

/-- The node once it has a transaction. -/
private theorem acceptTrx_unlucky (hn : n = 2 ^ 32 + 1) :
    Unlucky n 0 ((Node.new 1 (numbered n) (BlockChain.new 1)
      (consensus (crowd n) (crowd_ok (by omega)))).acceptTrx (env 0)
        (trx 1 "coffee")).node := by
  generalize hnode : Node.new 1 (numbered n) (BlockChain.new 1)
    (consensus (crowd n) (crowd_ok (by omega))) = node
  have hcore := node.acceptTrx_core (env 0) (trx 1 "coffee")
  have hsync := (node.acceptTrx_sameSync (env 0) (trx 1 "coffee")).isSyncing
  have hpool := node.acceptTrx_pool (env 0) (trx 1 "coffee")
  have hconsensus : node.consensus =
      consensus (crowd n) (crowd_ok (by omega)) := by rw [← hnode]; rfl
  rw [← hcore.consensus] at hconsensus
  constructor
  · rw [hcore.identity, ← hnode]
    rfl
  · rw [hconsensus]
    rfl
  · rw [hconsensus]
    rfl
  · rw [hcore.chain, ← hnode]
    rfl
  · rw [hsync, ← hnode]
    rfl
  · rw [hconsensus]
    rfl
  · rw [hpool, ← hnode]
    show (MemPool.new.push (trx 1 "coffee")).2.queue = [trx 1 "coffee"]
    decide +kernel
  · intro _
    rw [hconsensus]
    rfl

private theorem unlucky_run (hn : n = 2 ^ 32 + 1) :
    ∃ node effects, Run Node.next (Node.new 1 (numbered n) (BlockChain.new 1)
      (consensus (crowd n) (crowd_ok (by omega))))
      [(env 0, .message (.localTrx (trx 1 "coffee")))] node effects ∧
        Unlucky n 0 node := by
  have hunlucky := acceptTrx_unlucky hn
  have hfits : ((Node.new 1 (numbered n) (BlockChain.new 1)
      (consensus (crowd n) (crowd_ok (by omega)))).step (env 0)
        (.message (.localTrx (trx 1 "coffee")))).node.chain.blocks.length ≤
          MAX_VEC_LEN := hunlucky.length_le
  exact ⟨_, _, Run.start.step (Node.next_of_length_le hfits), hunlucky⟩

/-- Its slot comes and goes without a block. -/
theorem crowd_missesTurn :
    ∃ (seed : Seed) (consensus : PoAConsensus) (inputs : List (Env × Input))
      (node : Node) (effects : List Effect) (ticks : List (Env × Input))
      (last : Node) (out : List Effect),
      SignaturesVerify consensus.verifier ∧
      Run Node.next (Node.new 1 seed (BlockChain.new 1) consensus) inputs node
        effects ∧
      (∃ nodeId, node.identity.nodeId = some nodeId) ∧
      node.isSyncing = false ∧ node.mempool.queue ≠ [] ∧
      0 < node.consensus.config.maxTrxPerBlock ∧
      node.chain.getHeight.toNat + node.consensus.state.currentRound.toNat +
        node.consensus.config.validators.length < 2 ^ 64 ∧
      ticks.length = node.consensus.config.validators.length ∧
      (∀ i ∈ ticks, i.2 = .tick) ∧
      (AllSteps Node.next node ticks fun s i => Node.Late s i.1) ∧
      Run Node.next node ticks last out ∧ last.chain = node.chain := by
  obtain ⟨n, hn⟩ : ∃ n, n = 2 ^ 32 + 1 := ⟨_, rfl⟩
  obtain ⟨node, effects, hrun, hunlucky⟩ := unlucky_run hn
  obtain ⟨last, out, hticks, hlast, hlate⟩ := hunlucky.run hn (n + 1)
  refine ⟨numbered n, _, _, node, effects, lateTicks (n + 1), last, out,
    signaturesVerify, hrun, ⟨UInt32.ofNat n, ?_⟩, hunlucky.not_syncing, ?_, ?_,
    ?_, ?_, ?_, hlate, hticks, ?_⟩
  · rw [hunlucky.identity_eq]
    exact crowd_nodeId (by omega)
  · rw [hunlucky.queue_eq]
    simp
  · rw [hunlucky.config_eq]
    exact Nat.one_pos
  · rw [hunlucky.chain_eq, hunlucky.round_eq rfl, hunlucky.config_eq,
      length_crowd]
    show 0 + 0 + (n + 1) < 2 ^ 64
    omega
  · rw [length_lateTicks, hunlucky.config_eq, length_crowd]
  · intro i hi
    exact mem_lateTicks hi
  · rw [hlast.chain_eq, hunlucky.chain_eq]

end B4n.Blockchain.Sample
