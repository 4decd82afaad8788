import B4n.Node.Chain

/-!
# Where the blocks of a node come from

A node has blocks on its chain and in its orphan pool.  A turn adds to them the
blocks of the message it handles and the block it proposes, and what it sends
carries blocks of its chain only.

## Main results

* `step_holds`, `step_carried` — these two facts about every turn.
-/

namespace B4n

open Lib Blockchain Transport

/-- The blocks an effect sends. -/
def Effect.carried : Effect → List Block
  | .send _ _ msg => msg.carried
  | .signed _ => []

/-- The blocks an input brings in. -/
def Input.incoming : Input → List Block
  | .message m => Node.incoming m
  | .tick => []

namespace Node

/-- The node has the block, on its chain or as an orphan. -/
def Holds (node : Node) (b : Block) : Prop :=
  b ∈ node.chain.blocks ∨ ∃ key, Files node.orphansByPrev key b

/-- Only the chain and the pool matter. -/
theorem holds_of_same {node last : Node} (hchain : last.chain = node.chain)
    (horphans : last.orphansByPrev = node.orphansByPrev) {b : Block}
    (hb : Holds last b) : Holds node b := by
  unfold Holds at hb ⊢
  rwa [hchain, horphans] at hb

/-- Filing an orphan adds it and nothing else. -/
theorem holds_putOrphan {node : Node} {block b : Block}
    (hb : Holds (node.putOrphan block) b) : Holds node b ∨ b = block := by
  have hchain : (node.putOrphan block).chain = node.chain := by
    obtain ⟨orphans, total, hput⟩ := node.putOrphan_eq block
    rw [hput]
  rcases hb with hmem | ⟨key, hfiles⟩
  · rw [hchain] at hmem
    exact Or.inl (Or.inl hmem)
  rcases files_putOrphan hfiles with hold | ⟨-, rfl⟩
  · exact Or.inl (Or.inr ⟨key, hold⟩)
  · exact Or.inr rfl

theorem carried_gossip {env : Env} {node : Node} {block : Block} {e : Effect}
    (he : e ∈ node.gossip env (.block block)) : e.carried = [block] := by
  obtain ⟨entry, -, rfl⟩ := List.mem_map.mp he
  rfl

variable [Primitives]

/-! ## Taking in blocks -/

/-- An elementary step holds what was held before and what comes in. -/
theorem IntakeStep.holds {env : Env} {incoming : List Block}
    {node last : Node} {effects : List Effect}
    (hstep : IntakeStep env incoming node last effects) {b : Block}
    (hb : Holds last b) : Holds node b ∨ b ∈ incoming := by
  cases hstep with
  | mark c hc hnew => exact Or.inl hb
  | receive c hc hok =>
      rcases hb with hmem | hfiles
      · rcases List.mem_append.mp hmem with hold | hnew
        · exact Or.inl (Or.inl hold)
        · rw [List.mem_singleton.mp hnew]
          exact Or.inr hc
      · exact Or.inl (Or.inr hfiles)
  | connect vec pos hvec hok =>
      apply Or.inl
      have hfiled : ∀ c ∈ vec, Holds node c := fun c hc =>
        Or.inr ⟨_, vec, hvec, hc⟩
      rcases hb with hmem | ⟨key, hfiles⟩
      · rcases List.mem_append.mp hmem with hold | hnew
        · exact Or.inl hold
        · rw [List.mem_singleton.mp hnew]
          exact hfiled _ (List.get_mem vec pos)
      · rcases files_refile hfiles with hold | ⟨-, hleft⟩
        · exact Or.inr ⟨key, ((files_erase _ _ _ _).mp hold).2⟩
        · exact hfiled b (mem_of_mem_swapRemove pos hleft)
  | reorder orphans hsame hheld =>
      apply Or.inl
      rcases hb with hmem | ⟨key, vec, hvec, hbvec⟩
      · exact Or.inl hmem
      · exact Or.inr ⟨key, vec, (hsame key).symm.trans hvec, hbvec⟩
  | orphan c hc hlt =>
      rcases holds_putOrphan hb with hold | rfl
      · exact Or.inl hold
      · exact Or.inr hc
  | sync pid start hpid =>
      have hcore := node.startSync_core pid start
      exact Or.inl (holds_of_same hcore.chain hcore.orphansByPrev hb)

/-- An elementary step sends blocks of the chain it ends with. -/
theorem IntakeStep.carried {env : Env} {incoming : List Block}
    {node last : Node} {effects : List Effect}
    (hstep : IntakeStep env incoming node last effects) {e : Effect}
    (he : e ∈ effects) {b : Block} (hb : b ∈ e.carried) :
    b ∈ last.chain.blocks := by
  cases hstep with
  | mark c hc hnew => cases he
  | receive c hc hok =>
      rw [carried_gossip he, List.mem_singleton] at hb
      subst hb
      exact List.mem_append_right _ (List.mem_singleton_self _)
  | connect vec pos hvec hok =>
      rw [carried_gossip he, List.mem_singleton] at hb
      subst hb
      exact List.mem_append_right _ (List.mem_singleton_self _)
  | reorder orphans hsame hheld => cases he
  | orphan c hc hlt => cases he
  | sync pid start hpid =>
      obtain ⟨sender, -, rfl⟩ := mem_startSync_effects he
      cases hb

theorem Intake.holds {env : Env} {incoming : List Block}
    {node last : Node} {effects : List Effect}
    (h : Intake env incoming node last effects) {b : Block}
    (hb : Holds last b) : Holds node b ∨ b ∈ incoming := by
  induction h with
  | refl => exact Or.inl hb
  | head hstep _ ih =>
      rcases ih hb with hmid | hin
      · exact hstep.holds hmid
      · exact Or.inr hin

theorem Intake.carried {env : Env} {incoming : List Block}
    {node last : Node} {effects : List Effect}
    (h : Intake env incoming node last effects) {e : Effect}
    (he : e ∈ effects) {b : Block} (hb : b ∈ e.carried) :
    b ∈ last.chain.blocks := by
  induction h with
  | refl => cases he
  | head hstep hrest ih =>
      rcases List.mem_append.mp he with hfirst | hlater
      · obtain ⟨added, hadvance⟩ := hrest.advance
        rw [hadvance.blocks_eq]
        exact List.mem_append_left _ (hstep.carried hfirst hb)
      · exact ih hlater

/-! ## Proposing -/

/-- A tick takes transactions from the pool, signs the candidate made of them
and appends it. -/
structure Proposes (env : Env) (node : Node) (candidate : Block) : Prop where
  turn : Turn env node
  trxs : node.nextTrxs ≠ []
  built : (node.drained env).buildBlock env node.nextTrxs = .ok candidate
  accepted : node.consensus.accepts node.chain.last candidate = true

theorem Proposes.onTick_eq {env : Env} {node : Node} {candidate : Block}
    (h : Proposes env node candidate) :
    node.onTick env =
      ⟨(((node.drained env).grow env candidate).markSeenBlock
          candidate.hash).2,
        .signed candidate :: node.broadcastBlock env candidate⟩ := by
  rw [onTick_of_turn h.turn h.trxs, proposeBlock_of_ok h.built,
    drained_broadcastBlock]
  rw [drained_chain, accepts_drained]
  exact h.accepted

theorem Proposes.blocks_eq {env : Env} {node : Node} {candidate : Block}
    (h : Proposes env node candidate) :
    (node.onTick env).node.chain.blocks = node.chain.blocks ++ [candidate] := by
  rw [h.onTick_eq]
  exact (proposed_advance env h.accepted).blocks_eq

/-- A tick proposes, or leaves the blocks alone and sends nothing. -/
theorem onTick_proposes (env : Env) (node : Node) :
    (∃ candidate, Proposes env node candidate) ∨
      (node.onTick env).node.chain = node.chain ∧
      (node.onTick env).node.orphansByPrev = node.orphansByPrev ∧
      ∀ e ∈ (node.onTick env).effects, e.carried = [] := by
  have hcase := node.onTick_cases env
  generalize node.onTick env = reaction at hcase ⊢
  cases hcase with
  | waited consensus hconsensus hno => exact Or.inr ⟨rfl, rfl, by simp⟩
  | keyless hturn htxs hbuild =>
      exact Or.inr ⟨node.drained_chain env, node.drained_orphansByPrev env,
        by simp⟩
  | refused candidate hturn htxs hbuild hbad =>
      refine Or.inr ⟨node.drained_chain env, node.drained_orphansByPrev env, ?_⟩
      intro e he
      rw [List.mem_singleton.mp he]
      rfl
  | proposed candidate hturn htxs hbuild hok =>
      exact Or.inl ⟨candidate, hturn, htxs, hbuild, hok⟩

/-- A proposal adds the candidate to what the node holds. -/
theorem Proposes.holds {env : Env} {node : Node} {candidate b : Block}
    (h : Proposes env node candidate) (hb : Holds (node.onTick env).node b) :
    Holds node b ∨ b = candidate := by
  rcases hb with hmem | ⟨key, hfiles⟩
  · rw [h.blocks_eq] at hmem
    rcases List.mem_append.mp hmem with hold | hnew
    · exact Or.inl (Or.inl hold)
    · exact Or.inr (List.mem_singleton.mp hnew)
  · have horphans : (node.onTick env).node.orphansByPrev =
        node.orphansByPrev := by
      rw [h.onTick_eq]
      unfold markSeenBlock
      split <;> exact node.drained_orphansByPrev env
    rw [horphans] at hfiles
    exact Or.inl (Or.inr ⟨key, hfiles⟩)

theorem Proposes.carried {env : Env} {node : Node} {candidate : Block}
    (h : Proposes env node candidate) {e : Effect}
    (he : e ∈ (node.onTick env).effects) {b : Block} (hb : b ∈ e.carried) :
    b ∈ (node.onTick env).node.chain.blocks := by
  rw [h.blocks_eq]
  rw [h.onTick_eq] at he
  rcases List.mem_cons.mp he with rfl | hsent
  · cases hb
  · obtain ⟨entry, -, rfl⟩ := List.mem_map.mp hsent
    rw [List.mem_singleton.mp hb]
    exact List.mem_append_right _ (List.mem_singleton_self _)

/-! ## Every turn -/

/-- After a turn the node holds what it held, what came in, and what it
proposed. -/
theorem step_holds {env : Env} {node : Node} {input : Input} {b : Block}
    (hb : Holds (node.step env input).node b) :
    Holds node b ∨ b ∈ input.incoming ∨
      (input = .tick ∧ Proposes env node b) := by
  cases input with
  | message m =>
      obtain ⟨mid, effects, rest, hintake, hcore, -, -⟩ :=
        node.onMessage_spec env m
      have hmid : Holds mid b :=
        holds_of_same hcore.chain hcore.orphansByPrev hb
      rcases hintake.holds hmid with hold | hin
      · exact Or.inl hold
      · exact Or.inr (Or.inl hin)
  | tick =>
      rcases node.onTick_proposes env with
        ⟨candidate, hproposes⟩ | ⟨hchain, horphans, -⟩
      · rcases hproposes.holds hb with hold | rfl
        · exact Or.inl hold
        · exact Or.inr (Or.inr ⟨rfl, hproposes⟩)
      · exact Or.inl (holds_of_same hchain horphans hb)

/-- A turn sends blocks of the chain it ends with. -/
theorem step_carried {env : Env} {node : Node} {input : Input} {e : Effect}
    (he : e ∈ (node.step env input).effects) {b : Block}
    (hb : b ∈ e.carried) : b ∈ (node.step env input).node.chain.blocks := by
  cases input with
  | message m =>
      obtain ⟨mid, effects, rest, hintake, hcore, heffects, hserves⟩ :=
        node.onMessage_spec env m
      change e ∈ (node.onMessage env m).effects at he
      show b ∈ (node.onMessage env m).node.chain.blocks
      rw [heffects] at he
      rw [hcore.chain]
      rcases List.mem_append.mp he with hintaken | hserved
      · exact hintake.carried hintaken hb
      · cases e with
        | send peerId sender msg => exact (hserves _ hserved).1 b hb
        | signed c => cases hb
  | tick =>
      rcases node.onTick_proposes env with
        ⟨candidate, hproposes⟩ | ⟨-, -, hnone⟩
      · exact hproposes.carried he hb
      · change e ∈ (node.onTick env).effects at he
        rw [hnone e he] at hb
        cases hb

end Node

end B4n
