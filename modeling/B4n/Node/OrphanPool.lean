import B4n.Node.Attachment
import B4n.Node.Chain

/-!
# What the orphan pool holds

A block enters the pool under its parent, and only while the chain is lower
than the block.  When a sibling of it attaches, it is moved under the new tip,
and from there under every tip that attaches after it.  The pool is looked into
under the tip only: nothing leaves it because the chain has grown.

## Main results

* `run_orphans_received` — every orphan came in while the chain was below it.
* `run_filedUnder` — every orphan is under its parent, or under a block of the
  chain above its parent.
* `run_connects_all` — the connection loop returns, and when it does no block of
  the whole pool fits the tip.
-/

namespace B4n

open Lib Blockchain Transport

variable [Primitives]

namespace Node

/-! ## What one turn does to the pool -/

/-- Where an orphan was before an elementary step: in its place, among the
blocks that come in, or under the tip that has just got a successor. -/
theorem IntakeStep.files {env : Env} {incoming : List Block}
    {node last : Node} {effects : List Effect}
    (hstep : IntakeStep env incoming node last effects) {key : Hash32Type}
    {b : Block} (h : Files last.orphansByPrev key b) :
    Files node.orphansByPrev key b ∨
      (b ∈ incoming ∧ b.header.previousHash = key ∧
        node.chain.getHeight < b.header.index) ∨
      ∃ c : Block, last.chain = node.chain.addBlock c ∧ key = c.hash ∧
        Files node.orphansByPrev node.chain.last.hash b := by
  cases hstep with
  | mark c hc hnew => exact Or.inl h
  | receive c hc hok => exact Or.inl h
  | reorder orphans hsame hheld =>
      obtain ⟨vec, hvec, hb⟩ := h
      exact Or.inl ⟨vec, (hsame key).symm.trans hvec, hb⟩
  | sync pid start hpid =>
      rw [(node.startSync_core pid start).orphansByPrev] at h
      exact Or.inl h
  | orphan c hc hlt =>
      rcases files_putOrphan h with hold | ⟨rfl, rfl⟩
      · exact Or.inl hold
      · exact Or.inr (Or.inl ⟨hc, rfl, hlt⟩)
  | connect vec pos hvec hok =>
      rcases files_refile h with hold | ⟨hkey, hleft⟩
      · exact Or.inl ((files_erase _ _ _ _).mp hold).2
      · exact Or.inr (Or.inr ⟨vec.get pos, rfl, hkey, vec, hvec,
          mem_of_mem_swapRemove pos hleft⟩)

/-- What taking in blocks adds to the pool was above the chain. -/
theorem Intake.files_received {env : Env} {incoming : List Block}
    {node last : Node} {effects : List Effect}
    (hintake : Intake env incoming node last effects) {b : Block}
    (h : ∃ key, Files last.orphansByPrev key b) :
    (∃ key, Files node.orphansByPrev key b) ∨
      (b ∈ incoming ∧ node.chain.getHeight < b.header.index) := by
  induction hintake with
  | refl node => exact Or.inl h
  | head hstep _ ih =>
      rename_i node mid last effects rest
      rcases ih h with ⟨key, hmid⟩ | ⟨hin, hlt⟩
      · rcases hstep.files hmid with hold | ⟨hin, -, hlt⟩ | ⟨c, -, -, hold⟩
        · exact Or.inl ⟨key, hold⟩
        · exact Or.inr ⟨hin, hlt⟩
        · exact Or.inl ⟨_, hold⟩
      · obtain ⟨added, hadvance⟩ := hstep.advance
        have hheight := hadvance.toNat_getHeight
        rw [UInt64.lt_iff_toNat_lt] at hlt ⊢
        exact Or.inr ⟨hin, by omega⟩

/-- A tick leaves the pool alone. -/
theorem onTick_orphansByPrev (env : Env) (node : Node) :
    (node.onTick env).node.orphansByPrev = node.orphansByPrev ∧
      (node.onTick env).node.orphansTotal = node.orphansTotal := by
  obtain ⟨consensus, pool, hdrained, -, -⟩ := node.drained_eq env
  have hcase := node.onTick_cases env
  generalize node.onTick env = reaction at hcase ⊢
  cases hcase with
  | waited consensus hconsensus hno => exact ⟨rfl, rfl⟩
  | keyless hturn htxs hbuild =>
      rw [hdrained]
      exact ⟨rfl, rfl⟩
  | refused candidate hturn htxs hbuild hbad =>
      rw [hdrained]
      exact ⟨rfl, rfl⟩
  | proposed candidate hturn htxs hbuild hok =>
      rw [hdrained]
      unfold markSeenBlock
      split <;> exact ⟨rfl, rfl⟩

/-- What a turn adds to the pool it brings in, above the chain. -/
theorem step_files_received {env : Env} {node : Node} {input : Input}
    {b : Block}
    (h : ∃ key, Files (node.step env input).node.orphansByPrev key b) :
    (∃ key, Files node.orphansByPrev key b) ∨
      (b ∈ input.incoming ∧ node.chain.getHeight < b.header.index) := by
  cases input with
  | tick =>
      change ∃ key, Files (node.onTick env).node.orphansByPrev key b at h
      rw [(node.onTick_orphansByPrev env).1] at h
      exact Or.inl h
  | message m =>
      obtain ⟨mid, effects, rest, hintake, hcore, -, -⟩ :=
        node.onMessage_spec env m
      change ∃ key, Files (node.onMessage env m).node.orphansByPrev key b at h
      rw [hcore.orphansByPrev] at h
      exact hintake.files_received h

/-! ## Every orphan came in above the chain -/

/-- Every block of the pool was brought in by an earlier message of the run,
which was handled while the chain was lower than the block. -/
theorem run_orphans_received {netId : UInt32} {seed : Seed}
    {chain : BlockChain} {consensus : PoAConsensus} {node : Node}
    {inputs : List (Env × Input)} {effects : List Effect}
    (hrun : Run Node.next (Node.new netId seed chain consensus) inputs node
      effects) {key : Hash32Type} {b : Block}
    (hfiles : Files node.orphansByPrev key b) :
    ∃ before i after mid out, inputs = before ++ i :: after ∧
      Run Node.next (Node.new netId seed chain consensus) before mid out ∧
      b ∈ i.2.incoming ∧ mid.chain.getHeight < b.header.index := by
  have hsome : ∃ key, Files node.orphansByPrev key b := ⟨key, hfiles⟩
  clear hfiles
  induction hrun with
  | start =>
      obtain ⟨key, vec, hvec, -⟩ := hsome
      cases hvec
  | step hprev hnext ih =>
      rename_i inputs mid outputs i last out
      obtain ⟨rfl, -, -⟩ := next_eq_some hnext
      rcases step_files_received hsome with hold | ⟨hin, hlt⟩
      · obtain ⟨before, j, after, s, outs, rfl, hbefore, hreceived⟩ := ih hold
        exact ⟨before, j, after ++ [i], s, outs, by simp, hbefore, hreceived⟩
      · exact ⟨inputs, i, [], mid, outputs, rfl, hprev, hin, hlt⟩

/-! ## Under which key an orphan is filed -/

/-- The chain has a block at this position with this hash. -/
def HashAt (chain : BlockChain) (i : Nat) (h : Hash32Type) :
    Prop :=
  ∃ c, chain.blocks[i]? = some c ∧ c.hash = h

/-- The block is filed under its parent, or it was moved: then its parent is on
the chain, and the key is a block of the chain above the parent. -/
def FiledUnder (chain : BlockChain) (key : Hash32Type) (b : Block) : Prop :=
  b.header.previousHash = key ∨
    ∃ i j, i < j ∧ HashAt chain i b.header.previousHash ∧ HashAt chain j key

theorem HashAt.append {chain longer : BlockChain} {added : List Block}
    (hblocks : longer.blocks = chain.blocks ++ added) {i : Nat}
    {h : Hash32Type} (hat : HashAt chain i h) : HashAt longer i h := by
  obtain ⟨c, hc, hhash⟩ := hat
  refine ⟨c, ?_, hhash⟩
  rw [hblocks, List.getElem?_append_left (List.getElem?_eq_some_iff.mp hc).1]
  exact hc

theorem HashAt.lt_length {chain : BlockChain} {i : Nat} {h : Hash32Type}
    (hat : HashAt chain i h) : i < chain.blocks.length := by
  obtain ⟨c, hc, -⟩ := hat
  exact (List.getElem?_eq_some_iff.mp hc).1

theorem hashAt_last (chain : BlockChain) :
    HashAt chain (chain.blocks.length - 1) chain.last.hash :=
  ⟨chain.last, chain.getElem?_tip, rfl⟩

theorem FiledUnder.append {chain longer : BlockChain} {added : List Block}
    (hblocks : longer.blocks = chain.blocks ++ added) {key : Hash32Type}
    {b : Block} (h : FiledUnder chain key b) : FiledUnder longer key b := by
  rcases h with hkey | ⟨i, j, hij, hi, hj⟩
  · exact Or.inl hkey
  · exact Or.inr ⟨i, j, hij, hi.append hblocks, hj.append hblocks⟩

/-- What was under the tip may go under its successor. -/
theorem FiledUnder.moved {chain : BlockChain} {b : Block}
    (h : FiledUnder chain chain.last.hash b) (c : Block) :
    FiledUnder (chain.addBlock c) c.hash b := by
  have hpos := chain.length_pos
  have hblocks : (chain.addBlock c).blocks = chain.blocks ++ [c] := rfl
  have htip : HashAt (chain.addBlock c) chain.blocks.length c.hash :=
    ⟨c, by rw [hblocks, List.getElem?_concat_length], rfl⟩
  rcases h with hparent | ⟨i, j, hij, hi, hj⟩
  · rw [FiledUnder, hparent]
    exact Or.inr ⟨chain.blocks.length - 1, chain.blocks.length, by omega,
      (hashAt_last chain).append hblocks, htip⟩
  · have hlt := hj.lt_length
    exact Or.inr ⟨i, chain.blocks.length, by omega, hi.append hblocks, htip⟩

/-- Every orphan of the node. -/
def PoolFiled (node : Node) : Prop :=
  ∀ key b, Files node.orphansByPrev key b → FiledUnder node.chain key b

theorem IntakeStep.poolFiled {env : Env} {incoming : List Block}
    {node last : Node} {effects : List Effect} (h : PoolFiled node)
    (hstep : IntakeStep env incoming node last effects) : PoolFiled last := by
  intro key b hfiles
  obtain ⟨added, hadvance⟩ := hstep.advance
  rcases hstep.files hfiles with hold | ⟨-, hparent, -⟩ | ⟨c, hchain, hkey, hold⟩
  · exact (h key b hold).append hadvance.blocks_eq
  · exact Or.inl hparent
  · rw [hchain, hkey]
    exact (h _ b hold).moved c

theorem step_poolFiled {node : Node} (h : PoolFiled node) (env : Env)
    (input : Input) : PoolFiled (node.step env input).node := by
  cases input with
  | tick =>
      obtain ⟨added, hadvance⟩ := node.onTick_advance env
      intro key b hfiles
      change Files (node.onTick env).node.orphansByPrev key b at hfiles
      rw [(node.onTick_orphansByPrev env).1] at hfiles
      exact (h key b hfiles).append hadvance.blocks_eq
  | message m =>
      obtain ⟨mid, effects, rest, hintake, hcore, -, -⟩ :=
        node.onMessage_spec env m
      have hmid : PoolFiled mid :=
        hintake.invariant (fun _ _ _ hs hstep => hstep.poolFiled hs) h
      intro key b hfiles
      change Files (node.onMessage env m).node.orphansByPrev key b at hfiles
      rw [hcore.orphansByPrev] at hfiles
      show FiledUnder (node.onMessage env m).node.chain key b
      rw [hcore.chain]
      exact hmid key b hfiles

theorem run_poolFiled {netId : UInt32} {seed : Seed} {chain : BlockChain}
    {consensus : PoAConsensus} {node : Node} {inputs : List (Env × Input)}
    {effects : List Effect}
    (hrun : Run Node.next (Node.new netId seed chain consensus) inputs node
      effects) : PoolFiled node := by
  refine hrun.invariant ?_ ?_
  · rintro key b ⟨vec, hvec, -⟩
    cases hvec
  · intro s i t out hs hnext
    obtain ⟨rfl, -, -⟩ := next_eq_some hnext
    exact step_poolFiled hs i.1 i.2

/-- In every reachable state every orphan is filed under its parent, or under a
block of the chain above its parent. -/
theorem run_filedUnder {netId : UInt32} {seed : Seed} {chain : BlockChain}
    {consensus : PoAConsensus} {node : Node} {inputs : List (Env × Input)}
    {effects : List Effect}
    (hrun : Run Node.next (Node.new netId seed chain consensus) inputs node
      effects) {key : Hash32Type} {b : Block}
    (hfiles : Files node.orphansByPrev key b) :
    FiledUnder node.chain key b :=
  run_poolFiled hrun key b hfiles

/-! ## The connection loop misses nothing -/

/-- On a chain without a hash collision, a position is determined by its
hash. -/
theorem HashAt.unique {node : Node} (hlinked : Linked node)
    (hfree : Set.InjOn calcHash (headerInputs node.chain.blocks)) {i j : Nat}
    {h : Hash32Type} (hi : HashAt node.chain i h) (hj : HashAt node.chain j h) :
    i = j := by
  obtain ⟨c, hc, rfl⟩ := hi
  obtain ⟨d, hd, hhash⟩ := hj
  have hbytes : d.headerToBytes = c.headerToBytes :=
    hfree ⟨d, List.mem_of_getElem? hd, rfl⟩ ⟨c, List.mem_of_getElem? hc, rfl⟩
      hhash
  rw [← hlinked.index_eq hc, ← hlinked.index_eq hd,
    Block.headerToBytes_inj hbytes]

/-- If nothing in the bucket of the tip fits, nothing in the pool does: what was
moved elsewhere has its parent below the tip. -/
theorem not_accepts_of_attach_eq_none {node : Node} (hlinked : Linked node)
    (hfree : Set.InjOn calcHash (headerInputs node.chain.blocks))
    (hfiled : PoolFiled node)
    (hnone : attach node.consensus.accepts node.orphansByPrev
      node.chain.last = none) {key : Hash32Type} {b : Block}
    (hfiles : Files node.orphansByPrev key b) :
    node.consensus.accepts node.chain.last b = false := by
  by_contra haccepts
  rw [Bool.not_eq_false] at haccepts
  have hprev : b.header.previousHash = node.chain.last.hash :=
    ((PoAConsensus.accepts_iff _ _ _).mp haccepts).follows.previousHash_eq
  rcases hfiled key b hfiles with hkey | ⟨i, j, hij, hi, hj⟩
  · rw [← hkey, hprev] at hfiles
    have hbad := attach_eq_none_iff.mp hnone b hfiles
    rw [haccepts] at hbad
    cases hbad
  · rw [hprev] at hi
    have hlast := hi.unique hlinked hfree (hashAt_last node.chain)
    have hlt := hj.lt_length
    omega

/-- A message that makes the chain longer ends with the connection loop. -/
theorem onMessage_attach_eq_none {env : Env} {node : Node} {m : NodeMessage}
    (hgrown : node.chain.blocks.length <
      (node.onMessage env m).node.chain.blocks.length) :
    attach (node.onMessage env m).node.consensus.accepts
      (node.onMessage env m).node.orphansByPrev
      (node.onMessage env m).node.chain.last = none := by
  have hcore := node.onMessage_batch env m
  rw [hcore.chain] at hgrown ⊢
  rw [hcore.consensus, hcore.orphansByPrev]
  unfold connectIfProgressed at hgrown ⊢
  split at hgrown
  · rename_i hprogressed
    rw [if_pos hprogressed]
    exact tryConnectOrphans_attach env _
  · rename_i hnone
    rw [handleBatch_chain (Bool.eq_false_iff.mpr hnone)] at hgrown
    omega

/-- The loop of `try_connect_orphans` returns for every pool after connecting at
most as many blocks as are held; and in every reachable state, after a message
that made the chain longer, no block of the pool is valid on the tip, if the
headers of the chain have no hash collision. -/
theorem run_connects_all :
    (∀ (env : Env) (node : Node), ∃ rounds ≤ held node.orphansByPrev,
      Loops env rounds node (node.tryConnectOrphans env) ∧
      (node.tryConnectOrphans env).node.chain.blocks.length =
        node.chain.blocks.length + rounds) ∧
    ∀ (netId : UInt32) (seed : Seed) (chainId : UInt64)
      (consensus : PoAConsensus) (node last : Node)
      (inputs : List (Env × Input)) (effects out : List Effect) (env : Env)
      (m : NodeMessage),
      Run Node.next (Node.new netId seed (BlockChain.new chainId) consensus)
        inputs node effects →
      node.next (env, .message m) = some (last, out) →
      node.chain.blocks.length < last.chain.blocks.length →
      Set.InjOn calcHash (headerInputs last.chain.blocks) →
      ∀ (key : Hash32Type) (b : Block), Files last.orphansByPrev key b →
        last.consensus.validateBlock last.chain.last b ≠ .ok () := by
  constructor
  · intro env node
    obtain ⟨hloops, hcount⟩ := node.tryConnectOrphans_loops env
    refine ⟨node.attachments.length, hcount, hloops, ?_⟩
    rw [(node.tryConnectOrphans_attached env).blocks_eq, List.length_append,
      List.length_map]
  · intro netId seed chainId consensus node last inputs effects out env m hrun
      hnext hgrown hfree key b hfiles hvalid
    have hlast := hrun.step hnext
    have hlinked := run_linked (new_linked _ _ _ _) hlast
    obtain ⟨rfl, -, -⟩ := next_eq_some hnext
    have hbad := not_accepts_of_attach_eq_none hlinked hfree
      (run_poolFiled hlast) (onMessage_attach_eq_none hgrown) hfiles
    rw [(PoAConsensus.accepts_iff _ _ _).mpr
      ((PoAConsensus.validateBlock_eq_ok_iff _ _ _).mp hvalid)] at hbad
    cases hbad

end Node

end B4n

namespace B4n.Blockchain.Sample

open B4n.Lib Transport

private def elderBlock : Block := block genesis [trx 1 "tea"] 0 0 1

private def trueSecond : Block := block elderBlock [trx 2 "tea"] 0 0 1

/-- A sibling of the second block, whose signature does not verify. -/
private def forgedSecond : Block :=
  { trueSecond with header := { trueSecond.header with timestamp := 9 } }

/-- The second block and its sibling arrive before the first block. -/
private def siblingsFirst : List (Env × Input) :=
  [(env 10, .message (.net 7
    (.blocks [trueSecond, forgedSecond, elderBlock])))]

private theorem siblingsFirst_run : ∃ last effects, Run Node.next
    (node 1 1 (config [1] 8) config_one_ok) siblingsFirst last effects ∧
      (last.chain.blocks = [genesis, elderBlock, trueSecond] ∧
        forgedSecond ∈ (last.orphansByPrev.lookup trueSecond.hash).getD [] ∧
        forgedSecond.header.previousHash ≠ trueSecond.hash ∧
        forgedSecond.header.index ≤ last.chain.getHeight) :=
  exists_run (by decide +kernel)

/-- The sibling is then filed under the second block, which is not its
parent. -/
theorem siblingsFirst_misfiled : ∃ last effects, Run Node.next
    (node 1 1 (config [1] 8) config_one_ok) siblingsFirst last effects ∧
      Files last.orphansByPrev trueSecond.hash forgedSecond ∧
      forgedSecond.header.previousHash ≠ trueSecond.hash := by
  obtain ⟨last, effects, hrun, -, hmem, hne, -⟩ := siblingsFirst_run
  exact ⟨last, effects, hrun, (mem_getD_iff _ _ _).mp hmem, hne⟩

theorem run_filedUnder_siblingsFirst : ∃ last effects, Run Node.next
    (node 1 1 (config [1] 8) config_one_ok) siblingsFirst last effects ∧
      Node.FiledUnder last.chain trueSecond.hash forgedSecond := by
  obtain ⟨last, effects, hrun, -, hmem, -, -⟩ := siblingsFirst_run
  exact ⟨last, effects, hrun,
    Node.run_filedUnder hrun ((mem_getD_iff _ _ _).mp hmem)⟩

/-- And it stays in the pool although the chain is as high as it. -/
theorem siblingsFirst_stale : ∃ last effects, Run Node.next
    (node 1 1 (config [1] 8) config_one_ok) siblingsFirst last effects ∧
      Files last.orphansByPrev trueSecond.hash forgedSecond ∧
      forgedSecond.header.index ≤ last.chain.getHeight := by
  obtain ⟨last, effects, hrun, -, hmem, -, hle⟩ := siblingsFirst_run
  exact ⟨last, effects, hrun, (mem_getD_iff _ _ _).mp hmem, hle⟩

theorem run_orphans_received_siblingsFirst :
    ∃ before i after mid out, siblingsFirst = before ++ i :: after ∧
      Run Node.next (node 1 1 (config [1] 8) config_one_ok) before mid out ∧
      forgedSecond ∈ i.2.incoming ∧
      mid.chain.getHeight < forgedSecond.header.index := by
  obtain ⟨last, effects, hrun, -, hmem, -, -⟩ := siblingsFirst_run
  exact Node.run_orphans_received hrun ((mem_getD_iff _ _ _).mp hmem)

private theorem siblingsFirst_next : ∃ last out,
    (node 1 1 (config [1] 8) config_one_ok).next
      (env 10, .message (.net 7
        (.blocks [trueSecond, forgedSecond, elderBlock]))) =
          some (last, out) ∧
      last.chain.blocks = [genesis, elderBlock, trueSecond] ∧
      Files last.orphansByPrev trueSecond.hash forgedSecond := by
  obtain ⟨last, effects, hrun, hchain, hmem, -, -⟩ := siblingsFirst_run
  obtain ⟨mid, out, rest, hnext, hrest, -⟩ := hrun.split_first
  obtain ⟨rfl, -⟩ := hrest.unique .start
  exact ⟨_, out, hnext, hchain, (mem_getD_iff _ _ _).mp hmem⟩

theorem run_connects_all_siblingsFirst : ∃ last : Node,
    last.chain.blocks = [genesis, elderBlock, trueSecond] ∧
      last.consensus.validateBlock last.chain.last forgedSecond ≠ .ok () := by
  obtain ⟨last, out, hnext, hchain, hfiles⟩ := siblingsFirst_next
  refine ⟨last, hchain, Node.run_connects_all.2 1 (seed 1) 1
    (consensus (config [1] 8) config_one_ok) _ last [] [] out (env 10) _ .start
    hnext ?_ ?_ _ forgedSecond hfiles⟩
  · rw [hchain]
    decide
  · rw [hchain]
    exact injOn_headerInputs_of_nodup (by decide +kernel)

end B4n.Blockchain.Sample
