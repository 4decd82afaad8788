import B4n.Node.Node
import B4n.Lib.Runs

/-!
# What the handlers can do

One case lemma for each handler of the node: it lists the branches with their
guards and the state and effects each of them ends in.  Later modules take
these apart and never unfold a handler again.

The runs of a node are the runs of the machine `Node.next`, whose inputs are
the messages and ticks of `run_loop`, each with its own environment.
-/

namespace B4n

open Lib Blockchain Transport

/-! ## The identity of a node -/

/-- A node with a number is the validator of that number. -/
theorem NodeIdentity.validator_of_nodeId [Primitives] {seed : Seed}
    {config : PoAConsensusConfig} {nodeId : UInt32}
    (hid : (NodeIdentity.new seed config).nodeId = some nodeId) :
    ∃ i, config.validators[i]? = some ⟨Primitives.verifyingKey seed⟩ ∧
      nodeId = UInt32.ofNat i := by
  obtain ⟨i, hi, hnumber⟩ := Option.map_eq_some_iff.mp hid
  obtain ⟨hlt, hkey, -⟩ := List.findIdx?_eq_some_iff_getElem.mp hi
  refine ⟨i, ?_, hnumber.symm⟩
  rw [List.getElem?_eq_getElem hlt, Option.some.injEq]
  exact congrArg Validator.mk (of_decide_eq_true hkey)

/-- And it has the key to sign with. -/
theorem NodeIdentity.privateKey_of_nodeId [Primitives] {seed : Seed}
    {config : PoAConsensusConfig} {nodeId : UInt32}
    (hid : (NodeIdentity.new seed config).nodeId = some nodeId) :
    (NodeIdentity.new seed config).privateKey = some seed := by
  unfold NodeIdentity.new at hid ⊢
  dsimp only at hid ⊢
  rw [hid, Option.map_some]

namespace Node

/-! ## Marking a block as seen -/

/-- The state of `mark_seen_block` for a new hash. -/
def mark (node : Node) (h : Hash32Type) : Node :=
  let window := remember MAX_SEEN_BLOCKS node.seenBlocks node.seenBlocksOrder h
  { node with seenBlocks := window.1, seenBlocksOrder := window.2 }

theorem markSeenBlock_of_mem {node : Node} {h : Hash32Type}
    (hmem : h ∈ node.seenBlocks) : node.markSeenBlock h = (false, node) :=
  if_pos hmem

theorem markSeenBlock_of_not_mem {node : Node} {h : Hash32Type}
    (hnew : h ∉ node.seenBlocks) :
    node.markSeenBlock h = (true, node.mark h) :=
  if_neg hnew

@[simp] theorem mark_chain (node : Node) (h : Hash32Type) :
    (node.mark h).chain = node.chain := rfl

@[simp] theorem mark_consensus (node : Node) (h : Hash32Type) :
    (node.mark h).consensus = node.consensus := rfl

@[simp] theorem mark_identity (node : Node) (h : Hash32Type) :
    (node.mark h).identity = node.identity := rfl

@[simp] theorem mark_peers (node : Node) (h : Hash32Type) :
    (node.mark h).peers = node.peers := rfl

@[simp] theorem mark_orphansByPrev (node : Node) (h : Hash32Type) :
    (node.mark h).orphansByPrev = node.orphansByPrev := rfl

@[simp] theorem mark_orphansTotal (node : Node) (h : Hash32Type) :
    (node.mark h).orphansTotal = node.orphansTotal := rfl

/-! ## Growing the chain -/

/-- The part all three ways of appending a block share: the chain grows by it
and the consensus state moves to its height. -/
def grow (env : Env) (node : Node) (block : Block) : Node :=
  { node with
    chain := node.chain.addBlock block
    consensus :=
      node.consensus.updateState env.now (some block.header.index) 0 }

variable [Primitives]

/-! ## `handle_incoming_block` -/

/-- The branches of `handle_incoming_block`. -/
inductive HandleCase (env : Env) (node : Node) (block : Block) :
    Handled → Prop where
  | seen (hseen : block.hash ∈ node.seenBlocks) :
      HandleCase env node block ⟨false, node, []⟩
  | stale (hnew : block.hash ∉ node.seenBlocks)
      (hle : block.header.index ≤ node.chain.getHeight) :
      HandleCase env node block ⟨false, node.mark block.hash, []⟩
  | orphaned (hnew : block.hash ∉ node.seenBlocks)
      (hlt : node.chain.getHeight < block.header.index)
      (hgap : block.header.index = node.chain.getHeight + 1 →
        block.header.previousHash ≠ node.chain.last.hash) :
      HandleCase env node block
        ((node.mark block.hash).orphanAndSync env block
          (node.chain.getHeight + 1))
  | rejected (hnew : block.hash ∉ node.seenBlocks)
      (hindex : block.header.index = node.chain.getHeight + 1)
      (hprev : block.header.previousHash = node.chain.last.hash)
      (hbad : node.consensus.accepts node.chain.last block = false) :
      HandleCase env node block ⟨false, node.mark block.hash, []⟩
  | appended (hnew : block.hash ∉ node.seenBlocks)
      (hok : node.consensus.accepts node.chain.last block = true) :
      HandleCase env node block
        ⟨true,
          { (node.mark block.hash).grow env block with
            mempool := node.mempool.removeIncluded block.transactions },
          node.gossip env (.block block)⟩

theorem handleIncomingBlock_of_mem {env : Env} {node : Node} {block : Block}
    (hseen : block.hash ∈ node.seenBlocks) :
    node.handleIncomingBlock env block = ⟨false, node, []⟩ := by
  simp [handleIncomingBlock, markSeenBlock_of_mem hseen]

theorem handleIncomingBlock_of_not_mem {env : Env} {node : Node}
    {block : Block} (hnew : block.hash ∉ node.seenBlocks) :
    node.handleIncomingBlock env block =
      (node.mark block.hash).handleUnseenBlock env block := by
  simp [handleIncomingBlock, markSeenBlock_of_not_mem hnew]

theorem handleIncomingBlock_cases (env : Env) (node : Node) (block : Block) :
    HandleCase env node block (node.handleIncomingBlock env block) := by
  by_cases hseen : block.hash ∈ node.seenBlocks
  · rw [handleIncomingBlock_of_mem hseen]
    exact .seen hseen
  rw [handleIncomingBlock_of_not_mem hseen]
  unfold handleUnseenBlock
  -- marking leaves the chain alone, so the guards are those of `node`
  generalize hmarked : node.mark block.hash = marked
  have hchain : marked.chain = node.chain := by rw [← hmarked, mark_chain]
  dsimp only
  by_cases hle : block.header.index ≤ marked.chain.getHeight
  · rw [if_pos hle, ← hmarked]
    exact .stale hseen (hchain ▸ hle)
  rw [if_neg hle]
  have hlt : node.chain.getHeight < block.header.index :=
    UInt64.not_le.mp (hchain ▸ hle)
  by_cases hindex : block.header.index = marked.chain.getHeight + 1
  swap
  · rw [if_neg hindex, hchain, ← hmarked]
    exact .orphaned hseen hlt fun h => absurd (hchain ▸ h) hindex
  rw [if_pos hindex]
  by_cases hprev : block.header.previousHash = marked.chain.last.hash
  swap
  · rw [if_pos hprev, ← hmarked]
    exact .orphaned hseen hlt fun _ => hchain ▸ hprev
  rw [if_neg (not_not.mpr hprev)]
  subst hmarked
  by_cases hok : (node.mark block.hash).consensus.accepts
      (node.mark block.hash).chain.last block = true
  · rw [if_neg (by rw [hok]; simp), BlockChain.last_addBlock,
      BlockChain.getHeight_addBlock]
    exact .appended hseen hok
  · rw [if_pos (by rw [Bool.eq_false_iff.mpr hok]; rfl)]
    exact .rejected hseen hindex hprev (Bool.eq_false_iff.mpr hok)

/-- A block that was not seen and is valid on the tip is appended. -/
theorem handleIncomingBlock_of_accepts {env : Env} {node : Node}
    {block : Block} (hnew : block.hash ∉ node.seenBlocks)
    (hok : node.consensus.accepts node.chain.last block = true) :
    node.handleIncomingBlock env block =
      ⟨true,
        { (node.mark block.hash).grow env block with
          mempool := node.mempool.removeIncluded block.transactions },
        node.gossip env (.block block)⟩ := by
  have hvalid := (PoAConsensus.accepts_iff _ _ _).mp hok
  have hindex : block.header.index.toNat = node.chain.getHeight.toNat + 1 :=
    hvalid.follows.toNat_index
  have hcase := node.handleIncomingBlock_cases env block
  generalize node.handleIncomingBlock env block = handled at hcase ⊢
  cases hcase with
  | seen hseen => exact absurd hseen hnew
  | stale _ hle =>
      rw [UInt64.le_iff_toNat_le] at hle
      omega
  | orphaned _ hlt hgap =>
      exact absurd hvalid.follows.previousHash_eq (hgap hvalid.follows.index_eq)
  | rejected _ _ _ hbad => rw [hok] at hbad; cases hbad
  | appended _ _ => rfl

/-! ## `put_orphan` -/

omit [Primitives] in
/-- Filing an orphan puts it under its parent and changes nothing else. -/
theorem files_putOrphan {node : Node} {block b : Block} {key : Hash32Type}
    (h : Files (node.putOrphan block).orphansByPrev key b) :
    Files node.orphansByPrev key b ∨
      (key = block.header.previousHash ∧ b = block) := by
  unfold putOrphan at h
  dsimp only at h
  split at h
  · exact Or.inl h
  · split at h
    · exact Or.inl h
    · rw [files_insert] at h
      split at h
      · rename_i hkey
        rcases List.mem_append.mp h with hold | hnew
        · exact Or.inl (hkey ▸ (mem_getD_iff _ _ _).mp hold)
        · exact Or.inr ⟨hkey, List.mem_singleton.mp hnew⟩
      · exact Or.inl h

/-! ## `try_connect_orphans` -/

omit [Primitives] in
/-- The bucket loop takes as many leftovers as there is room for. -/
theorem fillBucket_eq (entry vec : List Block) :
    fillBucket entry vec =
      entry ++ vec.take (MAX_ORPHANS_PER_PREV - entry.length) := by
  induction vec generalizing entry with
  | nil => simp [fillBucket]
  | cons b rest ih =>
      unfold fillBucket
      by_cases hFull : MAX_ORPHANS_PER_PREV ≤ entry.length
      · rw [if_pos hFull, Nat.sub_eq_zero_of_le hFull]
        simp
      · rw [if_neg hFull, ih,
          show MAX_ORPHANS_PER_PREV - entry.length =
            (MAX_ORPHANS_PER_PREV - (entry ++ [b]).length) + 1 by
              simp only [List.length_append, List.length_singleton]
              omega,
          List.take_succ_cons]
        simp

omit [Primitives] in
/-- Refiling moves leftovers under the new tip and files nothing else. -/
theorem files_refile {orphans : HashMap Hash32Type (List Block)}
    {newHash key : Hash32Type} {vec : List Block} {b : Block}
    (h : Files (refile orphans newHash vec) key b) :
    Files orphans key b ∨ (key = newHash ∧ b ∈ vec) := by
  unfold refile at h
  split at h
  · exact Or.inl h
  · rw [files_insert] at h
    split at h
    · rename_i hkey
      rw [fillBucket_eq, List.mem_append] at h
      rcases h with hOld | hNew
      · exact Or.inl (hkey ▸ (mem_getD_iff _ _ _).mp hOld)
      · exact Or.inr ⟨hkey, List.mem_of_mem_take hNew⟩
    · exact Or.inl h

omit [Primitives] in
/-- Refiling adds at most the leftovers to the count. -/
theorem held_refile_le (orphans : HashMap Hash32Type (List Block))
    (newHash : Hash32Type) (vec : List Block) :
    held (refile orphans newHash vec) ≤ held orphans + vec.length := by
  unfold refile
  split
  · omega
  · have hcount := held_insert_getD orphans newHash
      (fillBucket ((orphans.lookup newHash).getD []) vec)
    rw [fillBucket_eq, List.length_append] at hcount
    have htake := List.length_take_le'
      (MAX_ORPHANS_PER_PREV - ((orphans.lookup newHash).getD []).length) vec
    dsimp only
    rw [fillBucket_eq]
    omega

/-- The branches of one round of the connection loop. -/
inductive ConnectCase (env : Env) (node : Node) : Node ⊕ Reaction → Prop where
  | done (orphans : HashMap Hash32Type (List Block))
      (hsame : ∀ key, orphans.lookup key = node.orphansByPrev.lookup key)
      (hheld : held orphans = held node.orphansByPrev)
      (hnone : ∀ b, Files node.orphansByPrev node.chain.last.hash b →
        node.consensus.accepts node.chain.last b = false) :
      ConnectCase env node (.inl { node with orphansByPrev := orphans })
  | connected (vec : List Block) (pos : Fin vec.length)
      (hvec : node.orphansByPrev.lookup node.chain.last.hash = some vec)
      (hok : node.consensus.accepts node.chain.last (vec.get pos) = true) :
      ConnectCase env node (.inr
        ⟨{ node.grow env (vec.get pos) with
            orphansByPrev :=
              refile (node.orphansByPrev.erase node.chain.last.hash)
                (vec.get pos).hash (swapRemove vec pos)
            orphansTotal := node.orphansTotal - 1 },
          node.gossip env (.block (vec.get pos))⟩)

theorem connectOnce_cases (env : Env) (node : Node) :
    ConnectCase env node (node.connectOnce env) := by
  unfold connectOnce
  dsimp only
  split
  · rename_i hvec
    refine ConnectCase.done node.orphansByPrev (fun _ => rfl) rfl ?_
    rintro b ⟨vec, hlook, -⟩
    rw [hvec] at hlook
    cases hlook
  · rename_i vec hvec
    split
    · rename_i hfind
      refine ConnectCase.done _ (fun key => ?_) ?_ ?_
      · by_cases hkey : key = node.chain.last.hash
        · rw [hkey, AList.lookup_insert, hvec]
        · rw [AList.lookup_insert_ne hkey, AList.lookup_erase_ne hkey]
      · have herase := held_erase hvec
        rw [held_insert, AList.erase_erase]
        rw [held_erase_of_none (by rw [AList.lookup_erase])]
        omega
      · rintro b ⟨vec', hlook, hb⟩
        rw [hvec] at hlook
        cases hlook
        rw [List.findFinIdx?_eq_none_iff] at hfind
        exact Bool.eq_false_iff.mpr (by simpa using hfind b hb)
    · rename_i pos hfind
      have hok := (List.findFinIdx?_eq_some_iff.mp hfind).1
      have hcase : ConnectCase env node _ :=
        .connected vec pos hvec (by simpa using hok)
      rw [BlockChain.getHeight_addBlock, BlockChain.last_addBlock]
      exact hcase

/-! ## Taking in blocks

`Block` and `Blocks` messages run the two handlers above in many combinations.
All of them are sequences of the six elementary steps below, so what every
elementary step keeps, the handling of every such message keeps.
-/

/-- An elementary step of the handling of incoming blocks. -/
inductive IntakeStep (env : Env) (incoming : List Block) (node : Node) :
    Node → List Effect → Prop where
  | mark (b : Block) (hb : b ∈ incoming) (hnew : b.hash ∉ node.seenBlocks) :
      IntakeStep env incoming node (node.mark b.hash) []
  | receive (b : Block) (hb : b ∈ incoming)
      (hok : node.consensus.accepts node.chain.last b = true) :
      IntakeStep env incoming node
        { node.grow env b with
          mempool := node.mempool.removeIncluded b.transactions }
        (node.gossip env (.block b))
  | connect (vec : List Block) (pos : Fin vec.length)
      (hvec : node.orphansByPrev.lookup node.chain.last.hash = some vec)
      (hok : node.consensus.accepts node.chain.last (vec.get pos) = true) :
      IntakeStep env incoming node
        { node.grow env (vec.get pos) with
          orphansByPrev :=
            refile (node.orphansByPrev.erase node.chain.last.hash)
              (vec.get pos).hash (swapRemove vec pos)
          orphansTotal := node.orphansTotal - 1 }
        (node.gossip env (.block (vec.get pos)))
  | reorder (orphans : HashMap Hash32Type (List Block))
      (hsame : ∀ key, orphans.lookup key = node.orphansByPrev.lookup key)
      (hheld : held orphans = held node.orphansByPrev) :
      IntakeStep env incoming node { node with orphansByPrev := orphans } []
  | orphan (b : Block) (hb : b ∈ incoming)
      (hlt : node.chain.getHeight < b.header.index) :
      IntakeStep env incoming node (node.putOrphan b) []
  | sync (pid : UInt32) (start : UInt64)
      (hpid : (node.peers.lookup pid).isSome) :
      IntakeStep env incoming node (node.startSync pid start).node
        (node.startSync pid start).effects

/-- Finitely many elementary steps. -/
inductive Intake (env : Env) (incoming : List Block) :
    Node → Node → List Effect → Prop where
  | refl (node : Node) : Intake env incoming node node []
  | head {node mid last : Node} {effects rest : List Effect}
      (hstep : IntakeStep env incoming node mid effects)
      (hrest : Intake env incoming mid last rest) :
      Intake env incoming node last (effects ++ rest)

theorem Intake.trans {env : Env} {incoming : List Block}
    {node mid last : Node} {effects rest : List Effect}
    (hfirst : Intake env incoming node mid effects)
    (hrest : Intake env incoming mid last rest) :
    Intake env incoming node last (effects ++ rest) := by
  induction hfirst with
  | refl => exact hrest
  | head hstep _ ih =>
      rw [List.append_assoc]
      exact .head hstep (ih hrest)

theorem IntakeStep.intake {env : Env} {incoming : List Block}
    {node last : Node} {effects : List Effect}
    (hstep : IntakeStep env incoming node last effects) :
    Intake env incoming node last effects := by
  have h := Intake.head hstep (.refl last)
  rwa [List.append_nil] at h

theorem IntakeStep.mono {env : Env} {incoming more : List Block}
    (hsub : ∀ b ∈ incoming, b ∈ more) {node last : Node}
    {effects : List Effect}
    (hstep : IntakeStep env incoming node last effects) :
    IntakeStep env more node last effects := by
  cases hstep with
  | mark b hb hnew => exact .mark b (hsub b hb) hnew
  | receive b hb hok => exact .receive b (hsub b hb) hok
  | connect vec pos hvec hok => exact .connect vec pos hvec hok
  | reorder orphans hsame hheld => exact .reorder orphans hsame hheld
  | orphan b hb hlt => exact .orphan b (hsub b hb) hlt
  | sync pid start hpid => exact .sync pid start hpid

theorem Intake.mono {env : Env} {incoming more : List Block}
    (hsub : ∀ b ∈ incoming, b ∈ more) {node last : Node}
    {effects : List Effect} (h : Intake env incoming node last effects) :
    Intake env more node last effects := by
  induction h with
  | refl => exact .refl _
  | head hstep _ ih => exact .head (hstep.mono hsub) ih

/-- What every elementary step keeps, a sequence of them keeps. -/
theorem Intake.invariant {env : Env} {incoming : List Block}
    {P : Node → Prop}
    (hP : ∀ node last effects, P node →
      IntakeStep env incoming node last effects → P last)
    {node last : Node} {effects : List Effect}
    (h : Intake env incoming node last effects) (hnode : P node) : P last := by
  induction h with
  | refl => exact hnode
  | head hstep _ ih => exact ih (hP _ _ _ hnode hstep)

omit [Primitives] in
/-- The peer chosen for a sync is registered. -/
theorem lookup_of_anyPeerForSync {env : Env} {node : Node} {pid : UInt32}
    (h : node.anyPeerForSync env = some pid) :
    (node.peers.lookup pid).isSome := by
  have hmem : pid ∈ env.peerOrder node.peers.keys := List.mem_of_head? h
  rw [AList.lookup_isSome, AList.mem_keys]
  exact (env.peerOrder_perm _).mem_iff.mp hmem

omit [Primitives] in
/-- Filing an orphan touches the pool only. -/
theorem putOrphan_eq (node : Node) (block : Block) :
    ∃ orphans total, node.putOrphan block =
      { node with orphansByPrev := orphans, orphansTotal := total } := by
  unfold putOrphan
  dsimp only
  split
  · exact ⟨_, _, rfl⟩
  · split <;> exact ⟨_, _, rfl⟩

omit [Primitives] in
@[simp] theorem putOrphan_peers (node : Node) (block : Block) :
    (node.putOrphan block).peers = node.peers := by
  obtain ⟨orphans, total, h⟩ := node.putOrphan_eq block
  rw [h]

theorem orphanAndSync_intake (env : Env) {incoming : List Block} (node : Node)
    (b : Block) (hb : b ∈ incoming)
    (hlt : node.chain.getHeight < b.header.index) (start : UInt64) :
    Intake env incoming node (node.orphanAndSync env b start).node
      (node.orphanAndSync env b start).effects := by
  have hput : IntakeStep env incoming node (node.putOrphan b) [] :=
    .orphan b hb hlt
  unfold orphanAndSync
  dsimp only
  split
  · rename_i pid hpid
    exact Intake.head hput
      (IntakeStep.sync pid start (lookup_of_anyPeerForSync hpid)).intake
  · exact hput.intake

theorem handleIncomingBlock_intake (env : Env) (node : Node) (b : Block) :
    Intake env [b] node (node.handleIncomingBlock env b).node
      (node.handleIncomingBlock env b).effects := by
  have hb : b ∈ [b] := List.mem_singleton_self b
  have hcase := node.handleIncomingBlock_cases env b
  generalize node.handleIncomingBlock env b = handled at hcase ⊢
  cases hcase with
  | seen hseen => exact .refl node
  | stale hnew hle => exact (IntakeStep.mark b hb hnew).intake
  | orphaned hnew hlt hgap =>
      exact Intake.head (.mark b hb hnew)
        (orphanAndSync_intake env (node.mark b.hash) b hb hlt _)
  | rejected hnew hindex hprev hbad => exact (IntakeStep.mark b hb hnew).intake
  | appended hnew hok =>
      have hreceive : IntakeStep env [b] (node.mark b.hash) _ _ :=
        .receive b hb hok
      exact Intake.head (.mark b hb hnew) hreceive.intake

theorem handleBatch_intake (env : Env) (node : Node) (blocks : List Block) :
    Intake env blocks node (node.handleBatch env blocks).node
      (node.handleBatch env blocks).effects := by
  induction blocks generalizing node with
  | nil => exact .refl node
  | cons b blocks ih =>
      exact ((node.handleIncomingBlock_intake env b).mono (by simp)).trans
        ((ih _).mono fun c hc => List.mem_cons_of_mem b hc)

theorem connectLoop_intake (env : Env) (incoming : List Block) (fuel : Nat)
    (node : Node) :
    Intake env incoming node (node.connectLoop env fuel).node
      (node.connectLoop env fuel).effects := by
  induction fuel generalizing node with
  | zero => exact .refl node
  | succ fuel ih =>
      unfold connectLoop
      generalize hround : node.connectOnce env = round
      have hcase := hround ▸ node.connectOnce_cases env
      cases hcase with
      | done orphans hsame hheld hnone =>
          exact (IntakeStep.reorder orphans hsame hheld).intake
      | connected vec pos hvec hok =>
          exact Intake.head (.connect vec pos hvec hok) (ih _)

theorem connectIfProgressed_intake {env : Env} {incoming : List Block}
    {node : Node} {handled : Handled}
    (h : Intake env incoming node handled.node handled.effects) :
    Intake env incoming node (connectIfProgressed env handled).node
      (connectIfProgressed env handled).effects := by
  unfold connectIfProgressed
  split
  · exact h.trans (connectLoop_intake env incoming _ _)
  · exact h

end Node

end B4n
