import B4n.Node.Proposing

/-!
# The clock of a round

`round_started_at` is set to the present when a block is appended and when a tick finds
the round overdue, and never otherwise.  A tick signs only when the slot time has passed
since then.
-/

namespace B4n

open Lib Blockchain Transport

namespace Node

/-- `round_started_at` -/
def roundStartedAt (node : Node) : Instant := node.consensus.state.roundStartedAt

/-- What the taking in of blocks does to the clock of the round. -/
inductive IntakeClock (env : Env) (node last : Node) : Prop where
  | kept (hchain : last.chain = node.chain)
      (hstate : last.consensus.state = node.consensus.state)
  | grown (hgrown : node.chain.blocks.length < last.chain.blocks.length)
      (hstarted : last.roundStartedAt = env.now)

/-- What a turn does to it. -/
inductive ClockCase (env : Env) (node last : Node) : Prop where
  | kept (hchain : last.chain = node.chain)
      (hstate : last.consensus.state = node.consensus.state)
  | raised (hchain : last.chain = node.chain)
      (hlate : fromMillis node.consensus.config.timeoutMs ≤ node.elapsed env)
      (hstarted : last.roundStartedAt = env.now)
  | grown (hgrown : node.chain.blocks.length < last.chain.blocks.length)
      (hstarted : last.roundStartedAt = env.now)

/-! ## Messages -/

theorem SameCore.intakeClock {env : Env} {node last : Node} (h : SameCore node last) :
    IntakeClock env node last :=
  .kept h.chain (congrArg PoAConsensus.state h.consensus)

theorem IntakeClock.trans {env : Env} {node mid last : Node} (h : IntakeClock env node mid)
    (hrest : IntakeClock env mid last) : IntakeClock env node last := by
  cases hrest with
  | kept hchain hstate =>
      cases h with
      | kept hfirst hstart => exact .kept (hchain.trans hfirst) (hstate.trans hstart)
      | grown hgrown hstarted =>
          refine .grown (by rw [hchain]; exact hgrown) ?_
          unfold roundStartedAt at hstarted ⊢
          rw [hstate, hstarted]
  | grown hmore hstarted =>
      cases h with
      | kept hfirst hstart => exact .grown (by rwa [hfirst] at hmore) hstarted
      | grown hgrown _ => exact .grown (hgrown.trans hmore) hstarted

theorem length_addBlock_lt (chain : BlockChain) (block : Block) :
    chain.blocks.length < (chain.addBlock block).blocks.length := by
  simp [BlockChain.blocks_addBlock]

variable [Primitives]

theorem IntakeStep.intakeClock {env : Env} {incoming : List Block} {node last : Node}
    {effects : List Effect} (hstep : IntakeStep env incoming node last effects) :
    IntakeClock env node last := by
  cases hstep with
  | mark b hb hnew => exact .kept rfl rfl
  | receive b hb hok => exact .grown (length_addBlock_lt node.chain b) rfl
  | connect vec pos hvec hok => exact .grown (length_addBlock_lt node.chain _) rfl
  | reorder orphans hsame hheld => exact .kept rfl rfl
  | orphan b hb hlt =>
      obtain ⟨orphans, total, hput⟩ := node.putOrphan_eq b
      rw [hput]
      exact .kept rfl rfl
  | sync pid start hpid => exact (node.startSync_core pid start).intakeClock

theorem onMessage_clock (env : Env) (node : Node) (m : NodeMessage) :
    IntakeClock env node (node.onMessage env m).node := by
  obtain ⟨mid, effects, rest, hintake, hcore, -, -⟩ := node.onMessage_spec env m
  have hmid : IntakeClock env node mid :=
    hintake.invariant (P := IntakeClock env node)
      (fun s t out hs hstep => hs.trans hstep.intakeClock) (.kept rfl rfl)
  exact hmid.trans hcore.intakeClock

/-! ## Ticks -/

omit [Primitives] in
theorem advanceRound_clock (env : Env) (node : Node) :
    ClockCase env node (node.advanceRound env) := by
  unfold advanceRound
  by_cases hlate : fromMillis node.consensus.config.timeoutMs ≤ node.elapsed env
  · rw [if_pos hlate]
    exact .raised rfl hlate rfl
  · rw [if_neg hlate]
    exact .kept rfl rfl

omit [Primitives] in
/-- The clock depends on the chain and the consensus state. -/
theorem ClockCase.of_same {env : Env} {node mid last : Node} (h : ClockCase env node mid)
    (hchain : last.chain = mid.chain)
    (hstate : last.consensus.state = mid.consensus.state) : ClockCase env node last := by
  have hsame : last.roundStartedAt = mid.roundStartedAt :=
    congrArg PoAConsensusState.roundStartedAt hstate
  cases h with
  | kept hfirst hstart => exact .kept (hchain.trans hfirst) (hstate.trans hstart)
  | raised hfirst hlate hstarted =>
      exact .raised (hchain.trans hfirst) hlate (hsame.trans hstarted)
  | grown hgrown hstarted =>
      exact .grown (by rw [hchain]; exact hgrown) (hsame.trans hstarted)

theorem onTick_clock (env : Env) (node : Node) :
    ClockCase env node (node.onTick env).node := by
  by_cases hwhen : Turn env node ∧ node.nextTrxs ≠ []
  swap
  · rcases onTick_of_not_turn hwhen with htick | htick
    · rw [htick]
      exact .kept rfl rfl
    · rw [htick]
      exact node.advanceRound_clock env
  have hdrained : ClockCase env node (node.drained env) :=
    (node.advanceRound_clock env).of_same rfl rfl
  have hcase := node.onTick_cases env
  generalize node.onTick env = reaction at hcase ⊢
  cases hcase with
  | waited consensus hconsensus hno => exact absurd hwhen hno
  | keyless hturn htxs hbuild => exact hdrained
  | refused candidate hturn htxs hbuild hbad => exact hdrained
  | proposed candidate hturn htxs hbuild hok =>
      have hgrown : ClockCase env node ((node.drained env).grow env candidate) := by
        refine .grown ?_ rfl
        show _ < ((node.drained env).chain.addBlock candidate).blocks.length
        rw [drained_chain]
        exact length_addBlock_lt node.chain candidate
      refine hgrown.of_same ?_ ?_
      · unfold markSeenBlock
        split <;> rfl
      · unfold markSeenBlock
        split <;> rfl

omit [Primitives] in
/-- The tick gets to the change of rounds, which changes the round or its clock. -/
structure GivesUp (env : Env) (node : Node) : Prop where
  not_syncing : node.isSyncing = false
  slot_over : fromMillis node.consensus.config.slotDurationMs ≤ node.elapsed env
  changed : (node.advanceRound env).consensus.state ≠ node.consensus.state

omit [Primitives] in
/-- A round is given up only once its timeout is over. -/
theorem GivesUp.late {env : Env} {node : Node} (h : GivesUp env node) :
    fromMillis node.consensus.config.timeoutMs ≤ node.elapsed env := by
  by_contra hearly
  apply h.changed
  unfold advanceRound
  rw [if_neg hearly]

omit [Primitives] in
theorem GivesUp.advanceRound_started {env : Env} {node : Node} (h : GivesUp env node) :
    (node.advanceRound env).roundStartedAt = env.now := by
  unfold advanceRound
  rw [if_pos h.late]
  rfl

/-- A tick that gives up on a round begins another one, also if it then proposes. -/
theorem GivesUp.started_eq {env : Env} {node : Node} (h : GivesUp env node) :
    (node.onTick env).node.roundStartedAt = env.now := by
  by_cases hwhen : Turn env node ∧ node.nextTrxs ≠ []
  swap
  · rw [onTick_of_slot_over h.not_syncing h.slot_over hwhen]
    exact h.advanceRound_started
  have hdrained : (node.drained env).roundStartedAt = env.now := h.advanceRound_started
  have hcase := node.onTick_cases env
  generalize node.onTick env = reaction at hcase ⊢
  cases hcase with
  | waited consensus hconsensus hno => exact absurd hwhen hno
  | keyless hturn htxs hbuild => exact hdrained
  | refused candidate hturn htxs hbuild hbad => exact hdrained
  | proposed candidate hturn htxs hbuild hok =>
      unfold markSeenBlock
      split <;> rfl

/-- A tick signs only once the slot time is over. -/
theorem slot_over_of_signed {env : Env} {node : Node} {b : Block}
    (h : Effect.signed b ∈ (node.onTick env).effects) :
    fromMillis node.consensus.config.slotDurationMs ≤ node.elapsed env := by
  have hcase := node.onTick_cases env
  generalize node.onTick env = reaction at hcase h
  cases hcase with
  | waited consensus hconsensus hno => cases h
  | keyless hturn htxs hbuild => cases h
  | refused candidate hturn htxs hbuild hbad => exact hturn.slot_over
  | proposed candidate hturn htxs hbuild hok => exact hturn.slot_over

/-- What a node that proposes valid blocks signs, it appends. -/
theorem Proposer.grown_of_signed {env : Env} {seed : Seed} {node : Node} {b : Block}
    (h : Proposer seed node) (hsigned : Effect.signed b ∈ (node.onTick env).effects) :
    node.chain.blocks.length < (node.onTick env).node.chain.blocks.length := by
  by_cases hwhen : Turn env node ∧ node.nextTrxs ≠ []
  · obtain ⟨candidate, hproposes⟩ := h.proposes hwhen.1 hwhen.2
    rw [hproposes.blocks_eq]
    simp
  · rcases onTick_of_not_turn hwhen with htick | htick
    · rw [htick] at hsigned
      cases hsigned
    · rw [htick] at hsigned
      cases hsigned

theorem step_clock (env : Env) (node : Node) (input : Input) :
    ClockCase env node (node.step env input).node := by
  cases input with
  | message m =>
      have hclock : IntakeClock env node (node.step env (.message m)).node :=
        node.onMessage_clock env m
      cases hclock with
      | kept hchain hstate => exact .kept hchain hstate
      | grown hgrown hstarted => exact .grown hgrown hstarted
  | tick => exact node.onTick_clock env

end Node

end B4n
