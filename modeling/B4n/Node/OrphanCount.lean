import B4n.Node.Attachment
import B4n.Node.Bookkeeping
import B4n.Node.OrphanPool

/-!
# The counter of the orphan pool

`orphans_total` goes up and down beside the pool.  It goes up with every block
that is put in, and down by one with every block that attaches; but the rest of
a bucket that is moved under the new tip may not find room there, and what finds
no room is gone without the counter going down.  The *drift* of a node is the
number of blocks that the counter still counts and the pool no longer holds.

## Main results

* `step_drift` — a turn adds to the drift what its attachments lose.
* `run_exact_iff` — the counter is exact along a run if and only if every
  rest that is moved finds room.
-/

namespace B4n

open Lib Blockchain Transport

variable [Primitives]

/-- The rest of the bucket finds room under the new tip. -/
def Attachment.Roomy (a : Attachment) : Prop :=
  a.rest.length ≤ MAX_ORPHANS_PER_PREV - a.entry.length

theorem Attachment.roomy_iff (a : Attachment) : a.Roomy ↔ a.dropped = 0 := by
  unfold Attachment.Roomy Attachment.dropped
  omega

/-- The blocks that attachments lose. -/
def lost : List Attachment → Nat
  | [] => 0
  | a :: as => a.dropped + lost as

theorem lost_eq_zero_iff {as : List Attachment} :
    lost as = 0 ↔ ∀ a ∈ as, a.Roomy := by
  induction as with
  | nil => simp [lost]
  | cons a as ih =>
      rw [List.forall_mem_cons, ← ih, Attachment.roomy_iff, lost]
      omega

/-- Attachments take out of the pool themselves and what they lose. -/
theorem held_poolAfter (accepts : Block → Block → Bool) (fuel : Nat)
    (orphans : HashMap Hash32Type (List Block)) (tip : Block) :
    let as := attachments accepts fuel orphans tip
    held (poolAfter orphans as) + as.length + lost as = held orphans := by
  induction fuel generalizing orphans tip with
  | zero => rfl
  | succ fuel ih =>
      unfold attachments
      cases ha : attach accepts orphans tip with
      | none => rfl
      | some a =>
          obtain ⟨horphans, htip, hvec, -⟩ := attach_eq_some ha
          have hheld := a.held_after (by rw [horphans, htip]; exact hvec)
          have hrest := ih a.after a.block
          rw [horphans] at hheld
          show held (poolAfter a.after _) + (_ + 1) + (a.dropped + lost _) = _
          dsimp only at hrest
          omega

namespace Node

omit [Primitives] in
/-- How far the counter is ahead of the pool. -/
def drift (node : Node) : Nat :=
  node.orphansTotal - held node.orphansByPrev

omit [Primitives] in
/-- The counter is exact. -/
def Exact (node : Node) : Prop :=
  node.orphansTotal = held node.orphansByPrev

omit [Primitives] in
theorem exact_iff {node : Node} (h : Bookkeeping node) :
    Exact node ↔ node.drift = 0 := by
  have hle := h.held_le
  unfold Exact drift
  omega

omit [Primitives] in
theorem SameCore.drift_eq {node last : Node} (h : SameCore node last) :
    last.drift = node.drift := by
  unfold drift
  rw [h.orphansTotal, h.orphansByPrev]

omit [Primitives] in
theorem putOrphan_drift (node : Node) (block : Block) :
    (node.putOrphan block).drift = node.drift := by
  unfold putOrphan
  dsimp only
  split
  · rfl
  · split
    · rfl
    · have hcount := held_insert_getD node.orphansByPrev
        block.header.previousHash
        ((node.orphansByPrev.lookup block.header.previousHash).getD [] ++
          [block])
      rw [List.length_append, List.length_singleton] at hcount
      show node.orphansTotal + 1 - held (node.orphansByPrev.insert _ _) =
        node.orphansTotal - held node.orphansByPrev
      omega

/-- Blocks that come in do not make the counter drift. -/
theorem handleIncomingBlock_drift (env : Env) (node : Node) (b : Block) :
    (node.handleIncomingBlock env b).node.drift = node.drift := by
  have hcase := node.handleIncomingBlock_cases env b
  generalize node.handleIncomingBlock env b = handled at hcase ⊢
  cases hcase with
  | seen hseen => rfl
  | stale hnew hle => rfl
  | rejected hnew hindex hprev hbad => rfl
  | appended hnew hok => rfl
  | orphaned hnew hlt hgap =>
      rw [(orphanAndSync_core env _ b _).drift_eq, putOrphan_drift]
      rfl

theorem handleBatch_drift (env : Env) (node : Node) (page : List Block) :
    (node.handleBatch env page).node.drift = node.drift := by
  induction page generalizing node with
  | nil => rfl
  | cons b page ih =>
      unfold handleBatch
      dsimp only
      rw [ih, handleIncomingBlock_drift]

theorem handleBatch_bookkeeping {node : Node} (h : Bookkeeping node) (env : Env)
    (page : List Block) : Bookkeeping (node.handleBatch env page).node :=
  (node.handleBatch_intake env page).invariant
    (fun _ _ _ hs hstep => hstep.bookkeeping hs) h

/-- The connection loop makes the counter drift by what it loses. -/
theorem tryConnectOrphans_drift (env : Env) {node : Node}
    (h : Bookkeeping node) :
    (node.tryConnectOrphans env).node.drift =
      node.drift + lost node.attachments := by
  have hattached := node.tryConnectOrphans_attached env
  have hcount := held_poolAfter node.consensus.accepts
    (held node.orphansByPrev + 1) node.orphansByPrev node.chain.last
  have hle := h.held_le
  unfold drift
  rw [hattached.total_eq, hattached.held_eq]
  change held (poolAfter _ node.attachments) + node.attachments.length +
    lost node.attachments = _ at hcount
  omega

theorem onMessage_drift (env : Env) {node : Node} (h : Bookkeeping node)
    (m : NodeMessage) :
    (node.onMessage env m).node.drift =
      node.drift + lost (node.attachmentsIn env (.message m)) := by
  rw [(node.onMessage_batch env m).drift_eq]
  unfold connectIfProgressed attachmentsIn connectCall
  have hpage : Input.incoming (.message m) = incoming m := rfl
  dsimp only
  rw [hpage]
  split
  · rw [tryConnectOrphans_drift env (handleBatch_bookkeeping h env _),
      handleBatch_drift]
  · rw [handleBatch_drift]
    rfl

/-- A turn makes the counter drift by what its attachments lose. -/
theorem step_drift (env : Env) {node : Node} (h : Bookkeeping node)
    (input : Input) :
    (node.step env input).node.drift =
      node.drift + lost (node.attachmentsIn env input) := by
  cases input with
  | message m => exact onMessage_drift env h m
  | tick =>
      have htick := node.onTick_orphansByPrev env
      show (node.onTick env).node.drift = _
      unfold drift
      rw [htick.1, htick.2]
      rfl

/-! ## Runs -/

/-- Every rest that the turn moves finds room. -/
def Fits (node : Node) (i : Env × Input) : Prop :=
  ∀ a ∈ node.attachmentsIn i.1 i.2, a.Roomy

/-- In a run, the counter of the orphan pool is exact in every state if and only
if every rest of a bucket that is moved under a new tip finds room there. -/
theorem run_exact_iff {netId : UInt32} {seed : Seed} {chain : BlockChain}
    {consensus : PoAConsensus} {node : Node} {inputs : List (Env × Input)}
    {effects : List Effect}
    (hrun : Run Node.next (Node.new netId seed chain consensus) inputs node
      effects) :
    AllStates Node.next (Node.new netId seed chain consensus) inputs Exact ↔
      AllSteps Node.next (Node.new netId seed chain consensus) inputs Fits := by
  refine allStates_iff_allSteps (P := Exact) (Q := Bookkeeping) ?_ ?_ hrun ?_
  · show 0 = held _
    rfl
  · intro s i t out hs ht hexact hnext
    obtain ⟨rfl, -, -⟩ := next_eq_some hnext
    rw [exact_iff ht, step_drift i.1 hs, (exact_iff hs).mp hexact, Nat.zero_add,
      lost_eq_zero_iff]
    rfl
  · intro before after s outputs _ hbefore
    exact run_bookkeeping hbefore

end Node

end B4n

namespace B4n.Blockchain.Sample

open B4n.Lib Transport

private def parent : Block := block genesis [trx 1 "tea"] 0 0 1

private def child : Block := block parent [trx 2 "tea"] 0 0 1

private def grandchild : Block := block child [trx 3 "tea"] 0 0 1

/-- A block with the same parent, whose signature does not verify. -/
private def sibling (b : Block) (timestamp : UInt64) : Block :=
  { b with header := { b.header with timestamp := timestamp } }

/-- The child with seven forged siblings and two forged grandchildren arrive
before the parent. -/
private def crowded : List (Env × Input) :=
  [(env 10, .message (.net 7 (.blocks
    (child :: ([1, 2, 3, 4, 5, 6, 7].map (sibling child) ++
      [1, 2].map (sibling grandchild) ++ [parent])))))]

private theorem crowded_run : ∃ last effects, Run Node.next
    (node 1 1 (config [1] 8) config_one_ok) crowded last effects ∧
      (last.orphansTotal = 9 ∧ held last.orphansByPrev = 8) :=
  exists_run (by decide +kernel)

/-- Nine blocks are counted then, and eight are held. -/
theorem crowded_drifts : ∃ last effects, Run Node.next
    (node 1 1 (config [1] 8) config_one_ok) crowded last effects ∧
      last.orphansTotal ≠ held last.orphansByPrev := by
  obtain ⟨last, effects, hrun, htotal, hheld⟩ := crowded_run
  exact ⟨last, effects, hrun, by omega⟩

/-- The bucket of the child has no room for all seven siblings. -/
theorem run_exact_iff_crowded :
    ¬ AllSteps Node.next (node 1 1 (config [1] 8) config_one_ok) crowded
      Node.Fits := by
  obtain ⟨last, effects, hrun, htotal, hheld⟩ := crowded_run
  intro hfits
  have hexact := ((Node.run_exact_iff hrun).mpr hfits).last hrun
  unfold Node.Exact at hexact
  omega

end B4n.Blockchain.Sample
