import B4n.Node.Attachment
import B4n.Node.Chain
import B4n.Node.Sample

/-!
# Asking for the next page

A page of exactly `sync_limit` blocks makes the node ask for another one, which
starts above its height.  The number of blocks says nothing about the height,
and the start of the last request is at most one above the height; so the new
request starts further up if the last one was already overtaken, or if one of
the blocks is appended.

## Main results

* `run_syncBehind` — no request starts more than one above the height.
* `handleBatch_progressed_iff` — a batch appends a block if and only if one of
  its blocks is valid on the tip and not marked as seen when its turn comes.
* `run_paging_progress_iff` — when the request after a page starts further up.
-/

namespace B4n

open Lib Blockchain Transport

variable [Primitives]

namespace Node

/-! ## Which batches append a block -/

/-- The node once the hashes of some blocks were marked as seen. -/
def markAll (node : Node) (blocks : List Block) : Node :=
  blocks.foldl (fun node b => (node.markSeenBlock b.hash).2) node

omit [Primitives] in
/-- Marking reads and writes the window only. -/
theorem markSeenBlock_congr {node other : Node}
    (hseen : other.seenBlocks = node.seenBlocks)
    (horder : other.seenBlocksOrder = node.seenBlocksOrder)
    (h : Hash32Type) :
    (other.markSeenBlock h).2.seenBlocks = (node.markSeenBlock h).2.seenBlocks ∧
      (other.markSeenBlock h).2.seenBlocksOrder =
        (node.markSeenBlock h).2.seenBlocksOrder := by
  unfold markSeenBlock
  rw [hseen, horder]
  split
  · exact ⟨hseen, horder⟩
  · exact ⟨rfl, rfl⟩

theorem markAll_congr {node other : Node} (blocks : List Block)
    (hseen : other.seenBlocks = node.seenBlocks)
    (horder : other.seenBlocksOrder = node.seenBlocksOrder) :
    (other.markAll blocks).seenBlocks = (node.markAll blocks).seenBlocks := by
  induction blocks generalizing node other with
  | nil => exact hseen
  | cons b blocks ih =>
      have hmarked := markSeenBlock_congr hseen horder b.hash
      exact ih hmarked.1 hmarked.2

/-- A block that is not appended leaves behind that it was seen. -/
theorem handleIncomingBlock_of_not_progressed {env : Env} {node : Node}
    {b : Block} (h : (node.handleIncomingBlock env b).progressed = false) :
    let last := (node.handleIncomingBlock env b).node
    last.chain = node.chain ∧ last.consensus = node.consensus ∧
      last.seenBlocks = (node.markSeenBlock b.hash).2.seenBlocks ∧
      last.seenBlocksOrder = (node.markSeenBlock b.hash).2.seenBlocksOrder := by
  have hcase := node.handleIncomingBlock_cases env b
  generalize node.handleIncomingBlock env b = handled at hcase h ⊢
  cases hcase with
  | seen hseen =>
      rw [markSeenBlock_of_mem hseen]
      exact ⟨rfl, rfl, rfl, rfl⟩
  | stale hnew hle =>
      rw [markSeenBlock_of_not_mem hnew]
      exact ⟨rfl, rfl, rfl, rfl⟩
  | rejected hnew hindex hprev hbad =>
      rw [markSeenBlock_of_not_mem hnew]
      exact ⟨rfl, rfl, rfl, rfl⟩
  | appended hnew hok => cases h
  | orphaned hnew hlt hgap =>
      rw [markSeenBlock_of_not_mem hnew]
      have hcore := orphanAndSync_core env (node.mark b.hash) b
        (node.chain.getHeight + 1)
      obtain ⟨orphans, total, hput⟩ := (node.mark b.hash).putOrphan_eq b
      dsimp only
      rw [hcore.chain, hcore.consensus, hcore.seenBlocks, hcore.seenBlocksOrder,
        hput]
      exact ⟨rfl, rfl, rfl, rfl⟩

theorem handleIncomingBlock_progressed_iff {env : Env} {node : Node}
    {b : Block} :
    (node.handleIncomingBlock env b).progressed = true ↔
      node.consensus.accepts node.chain.last b = true ∧
        b.hash ∉ node.seenBlocks := by
  constructor
  · intro h
    have hcase := node.handleIncomingBlock_cases env b
    generalize node.handleIncomingBlock env b = handled at hcase h
    cases hcase with
    | appended hnew hok => exact ⟨hok, hnew⟩
    | seen hseen => cases h
    | stale hnew hle => cases h
    | rejected hnew hindex hprev hbad => cases h
    | orphaned hnew hlt hgap =>
        unfold orphanAndSync at h
        dsimp only at h
        split at h <;> cases h
  · rintro ⟨hok, hnew⟩
    rw [handleIncomingBlock_of_accepts hnew hok]

/-- Until a block is appended the tip stays, and so does what fits it. -/
theorem handleBatch_progressed_iff {env : Env} {node : Node}
    {page : List Block} :
    (node.handleBatch env page).progressed = true ↔
      ∃ before b after, page = before ++ b :: after ∧
        node.consensus.accepts node.chain.last b = true ∧
        b.hash ∉ (node.markAll before).seenBlocks := by
  induction page generalizing node with
  | nil => simp [handleBatch]
  | cons b page ih =>
      unfold handleBatch
      dsimp only
      rw [Bool.or_eq_true]
      by_cases hfirst : (node.handleIncomingBlock env b).progressed = true
      · refine iff_of_true (Or.inl hfirst) ⟨[], b, page, rfl, ?_⟩
        exact handleIncomingBlock_progressed_iff.mp hfirst
      obtain ⟨hchain, hconsensus, hseen, horder⟩ :=
        handleIncomingBlock_of_not_progressed (Bool.eq_false_iff.mpr hfirst)
      rw [or_iff_right hfirst, ih, hchain, hconsensus]
      have hmarks : ∀ before : List Block,
          ((node.handleIncomingBlock env b).node.markAll before).seenBlocks =
            (node.markAll (b :: before)).seenBlocks := fun before =>
        markAll_congr before hseen horder
      constructor
      · rintro ⟨before, c, after, rfl, hok, hnew⟩
        exact ⟨b :: before, c, after, rfl, hok, hmarks before ▸ hnew⟩
      · rintro ⟨before, c, after, heq, hok, hnew⟩
        cases before with
        | nil =>
            cases heq
            exact absurd
              (handleIncomingBlock_progressed_iff.mpr ⟨hok, hnew⟩) hfirst
        | cons d before =>
            cases heq
            exact ⟨before, c, after, rfl, hok, (hmarks before).symm ▸ hnew⟩

/-! ## The height that was asked for -/

omit [Primitives] in
theorem removePeer_syncNextHeight (node : Node) (peerId : UInt32) :
    (node.removePeer peerId).syncNextHeight = node.syncNextHeight := by
  unfold removePeer
  dsimp only
  split
  · rfl
  · split <;> rfl

theorem acceptTrx_syncNextHeight (env : Env) (node : Node)
    (trx : Transaction) :
    (node.acceptTrx env trx).node.syncNextHeight = node.syncNextHeight := by
  unfold acceptTrx
  dsimp only
  split <;> rfl

/-- A tick asks for nothing. -/
theorem onTick_syncNextHeight (env : Env) (node : Node) :
    (node.onTick env).node.syncNextHeight = node.syncNextHeight := by
  obtain ⟨consensus, pool, hdrained, -, -⟩ := node.drained_eq env
  have hcase := node.onTick_cases env
  generalize node.onTick env = reaction at hcase ⊢
  cases hcase with
  | waited consensus hconsensus hno => rfl
  | keyless hturn htxs hbuild => rw [hdrained]
  | refused candidate hturn htxs hbuild hbad => rw [hdrained]
  | proposed candidate hturn htxs hbuild hok =>
      rw [hdrained]
      unfold markSeenBlock
      split <;> rfl

/-! ## How far the last request is behind the height -/

omit [Primitives] in
/-- The last request starts at most one above the height. -/
def SyncBehind (node : Node) : Prop :=
  node.syncNextHeight.toNat ≤ node.chain.getHeight.toNat + 1

omit [Primitives] in
theorem toNat_add_one_le (a : UInt64) : (a + 1).toNat ≤ a.toNat + 1 := by
  rw [UInt64.toNat_add]
  exact Nat.mod_le _ _

/-- A chain that grows leaves the last request behind. -/
theorem SyncBehind.advance {node last : Node} (h : SyncBehind node)
    {added : List Block} (hadvance : Advance node last added)
    (hsync : last.syncNextHeight = node.syncNextHeight) : SyncBehind last := by
  unfold SyncBehind at h ⊢
  rw [hsync, hadvance.toNat_getHeight]
  omega

omit [Primitives] in
theorem SyncBehind.of_same {node last : Node} (h : SyncBehind node)
    (hchain : last.chain = node.chain)
    (hsync : last.syncNextHeight = node.syncNextHeight) : SyncBehind last := by
  unfold SyncBehind at h ⊢
  rw [hsync, hchain]
  exact h

omit [Primitives] in
/-- Every sync starts one above the height. -/
theorem startSync_syncNextHeight (node : Node) (peerId : UInt32)
    (start : UInt64) :
    (node.startSync peerId start).node.syncNextHeight = start := by
  unfold startSync
  split
  · rename_i hsame
    exact hsame.2.2
  · rfl

omit [Primitives] in
theorem syncBehind_startSync {node : Node} (peerId : UInt32) :
    SyncBehind (node.startSync peerId (node.chain.getHeight + 1)).node := by
  unfold SyncBehind
  rw [startSync_syncNextHeight, (startSync_core node peerId _).chain]
  exact toNat_add_one_le _

theorem handleIncomingBlock_syncBehind {node : Node} (h : SyncBehind node)
    (env : Env) (b : Block) :
    SyncBehind (node.handleIncomingBlock env b).node := by
  have hcase := node.handleIncomingBlock_cases env b
  generalize node.handleIncomingBlock env b = handled at hcase ⊢
  cases hcase with
  | seen hseen => exact h
  | stale hnew hle => exact h
  | rejected hnew hindex hprev hbad => exact h
  | appended hnew hok =>
      have hgrow : SyncBehind (node.grow env b) :=
        h.advance (grow_advance env hok) rfl
      exact hgrow
  | orphaned hnew hlt hgap =>
      obtain ⟨orphans, total, hput⟩ := (node.mark b.hash).putOrphan_eq b
      unfold orphanAndSync
      rw [hput]
      dsimp only
      split
      · exact syncBehind_startSync _
      · exact h

theorem handleBatch_syncBehind {node : Node} (h : SyncBehind node) (env : Env)
    (page : List Block) : SyncBehind (node.handleBatch env page).node := by
  induction page generalizing node with
  | nil => exact h
  | cons b page ih => exact ih (handleIncomingBlock_syncBehind h env b)

theorem connectIfProgressed_syncBehind {env : Env} {handled : Handled}
    (h : SyncBehind handled.node) :
    SyncBehind (connectIfProgressed env handled).node := by
  unfold connectIfProgressed
  split
  · obtain ⟨added, hadvance⟩ :=
      (connectLoop_intake env [] (held handled.node.orphansByPrev + 1)
        handled.node).advance
    exact h.advance hadvance
      (handled.node.tryConnectOrphans_attached env).syncNextHeight_eq
  · exact h

omit [Primitives] in
theorem nextPage_syncBehind {node : Node} (h : SyncBehind node)
    (peerId : UInt32) (page : List Block) :
    SyncBehind (node.nextPage peerId page).node := by
  unfold nextPage
  split
  · dsimp only
    split
    · exact toNat_add_one_le _
    · exact h
  · exact h

theorem onMessage_syncBehind {node : Node} (h : SyncBehind node) (env : Env)
    (m : NodeMessage) : SyncBehind (node.onMessage env m).node := by
  cases m with
  | localTrx trx =>
      exact h.of_same (acceptTrx_core env node trx).chain
        (acceptTrx_syncNextHeight env node trx)
  | debugPrint => exact h
  | stop => exact h
  | addPeer peerId sender => exact h
  | removePeer peerId =>
      exact h.of_same (removePeer_core node peerId).chain
        (removePeer_syncNextHeight node peerId)
  | net peerId msg =>
      cases msg with
      | hello id pubkey => exact h
      | helloAck id => exact h
      | getStatus => exact h
      | getBlocks start limit => exact h
      | trx trx =>
          exact h.of_same (acceptTrx_core env node trx).chain
            (acceptTrx_syncNextHeight env node trx)
      | block b =>
          exact connectIfProgressed_syncBehind
            (handleIncomingBlock_syncBehind h env b)
      | blocks page =>
          exact nextPage_syncBehind (connectIfProgressed_syncBehind
            (handleBatch_syncBehind h env page)) peerId page
      | status height hash =>
          unfold onMessage onNet
          dsimp only
          split
          · exact syncBehind_startSync peerId
          · exact h

theorem step_syncBehind {node : Node} (h : SyncBehind node) (env : Env)
    (input : Input) : SyncBehind (node.step env input).node := by
  cases input with
  | message m => exact onMessage_syncBehind h env m
  | tick =>
      obtain ⟨added, hadvance⟩ := node.onTick_advance env
      exact h.advance hadvance (node.onTick_syncNextHeight env)

/-- In every reachable state the last request starts at most one above the
height. -/
theorem run_syncBehind {netId : UInt32} {seed : Seed} {chain : BlockChain}
    {consensus : PoAConsensus} {node : Node} {inputs : List (Env × Input)}
    {effects : List Effect}
    (hrun : Run Node.next (Node.new netId seed chain consensus) inputs node
      effects) : SyncBehind node := by
  refine hrun.invariant (P := SyncBehind) (Nat.zero_le _) ?_
  intro s i t out hs hnext
  obtain ⟨rfl, -, -⟩ := next_eq_some hnext
  exact step_syncBehind hs i.1 i.2

/-! ## The request after a page -/

/-- What the paging of a `Blocks` message sends, once the page is handled. -/
def pageRequest (env : Env) (node : Node) (peerId : UInt32)
    (page : List Block) : List Effect :=
  ((connectIfProgressed env (node.handleBatch env page)).node.nextPage peerId
    page).effects

theorem Advance.length_le {node last : Node} {added : List Block}
    (h : Advance node last added) :
    node.chain.blocks.length ≤ last.chain.blocks.length := by
  rw [h.blocks_eq, List.length_append]
  omega

/-- A batch that appends a block makes the chain longer. -/
theorem handleBatch_length_lt {env : Env} {node : Node} {page : List Block}
    (h : (node.handleBatch env page).progressed = true) :
    node.chain.blocks.length <
      (node.handleBatch env page).node.chain.blocks.length := by
  induction page generalizing node with
  | nil => cases h
  | cons b page ih =>
      unfold handleBatch at h ⊢
      dsimp only at h ⊢
      by_cases hfirst : (node.handleIncomingBlock env b).progressed = true
      · obtain ⟨hok, hnew⟩ := handleIncomingBlock_progressed_iff.mp hfirst
        obtain ⟨added, hadvance⟩ := (handleBatch_intake env
          (node.handleIncomingBlock env b).node page).advance
        have hle := hadvance.length_le
        rw [handleIncomingBlock_of_accepts hnew hok] at hle ⊢
        change (node.chain.blocks ++ [b]).length ≤ _ at hle
        rw [List.length_append, List.length_singleton] at hle
        omega
      · rw [Bool.or_eq_true, or_iff_right hfirst] at h
        have hrest := ih h
        rw [(handleIncomingBlock_of_not_progressed
          (Bool.eq_false_iff.mpr hfirst)).1] at hrest
        exact hrest

/-- A page makes the chain longer exactly if one of its blocks is appended. -/
theorem length_connectIfProgressed_iff (env : Env) (node : Node)
    (page : List Block) :
    node.chain.blocks.length < (connectIfProgressed env
        (node.handleBatch env page)).node.chain.blocks.length ↔
      (node.handleBatch env page).progressed = true := by
  unfold connectIfProgressed
  split
  · rename_i hprogressed
    obtain ⟨added, hadvance⟩ := (connectLoop_intake env []
      (held (node.handleBatch env page).node.orphansByPrev + 1)
      (node.handleBatch env page).node).advance
    exact iff_of_true
      ((handleBatch_length_lt hprogressed).trans_le hadvance.length_le)
      hprogressed
  · rename_i hnone
    rw [handleBatch_chain (Bool.eq_false_iff.mpr hnone)]
    exact iff_of_false (Nat.lt_irrefl _) hnone

/-- In every reachable state, the request that the paging of a `Blocks` message
sends starts above the height that was asked for before, if and only if that
height was already reached, or the page has a block that is valid on the tip and
not marked as seen when its turn comes. -/
theorem run_paging_progress_iff {netId : UInt32} {seed : Seed}
    {chainId : UInt64} {consensus : PoAConsensus} {node last : Node}
    {inputs : List (Env × Input)} {effects out : List Effect}
    (hrun : Run Node.next
      (Node.new netId seed (BlockChain.new chainId) consensus) inputs node
      effects)
    {env : Env} {peerId : UInt32} {page : List Block}
    (hnext : node.next (env, .message (.net peerId (.blocks page))) =
      some (last, out))
    {sender : Sender} {start : UInt64} {limit : UInt32}
    (hrequest : .send peerId sender (.getBlocks start limit) ∈
      node.pageRequest env peerId page) :
    node.syncNextHeight < start ↔
      node.syncNextHeight ≤ node.chain.getHeight ∨
        ∃ before b after, page = before ++ b :: after ∧
          node.consensus.accepts node.chain.last b = true ∧
          b.hash ∉ (node.markAll before).seenBlocks := by
  have hlast := hrun.step hnext
  have hheight := (run_linked (new_linked _ _ _ _) hrun).height_eq
  have hlastHeight := (run_linked (new_linked _ _ _ _) hlast).height_eq
  have hfits := run_height_lt hlast
  have hbehind := run_syncBehind hrun
  have hpos := node.chain.length_pos
  have hlastPos := last.chain.length_pos
  obtain ⟨added, hadvance⟩ := next_advance hnext
  have hle := hadvance.length_le
  have hgrown := length_connectIfProgressed_iff env node page
  rw [handleBatch_progressed_iff] at hgrown
  -- the request starts one above the height after the message
  obtain ⟨peer, hsend⟩ := mem_nextPage_effects hrequest
  obtain ⟨rfl, -, -⟩ := next_eq_some hnext
  have hchain := (nextPage_core (connectIfProgressed env
    (node.handleBatch env page)).node peerId page).chain
  change (node.step env (.message (.net peerId (.blocks page)))).node.chain =
    _ at hchain
  rw [← hchain] at hgrown hsend
  have hstart : start.toNat = (node.step env (.message
      (.net peerId (.blocks page)))).node.chain.getHeight.toNat + 1 := by
    simp only [Effect.send.injEq, ProtocolMessage.getBlocks.injEq] at hsend
    rw [hsend.2.2.1, UInt64.toNat_add]
    exact Nat.mod_eq_of_lt hfits
  rw [← hgrown, UInt64.lt_iff_toNat_lt, UInt64.le_iff_toNat_le]
  unfold SyncBehind at hbehind
  dsimp only at hlastHeight hfits hle hlastPos hgrown hstart ⊢
  omega

end Node

end B4n

namespace B4n.Blockchain.Sample

open B4n.Lib Transport

/-- The node learns that peer 7 is ahead, and syncs with it. -/
private def behind : List (Env × Input) :=
  [(env 10, .message (.addPeer 7 70)),
    (env 20, .message (.net 7 (.status 5 (zeroBytes 32))))]

/-- A page of blocks that the node has. -/
private def stalePage : List Block := List.replicate 256 genesis

private theorem behind_run : ∃ node' effects, Run Node.next
    (node 1 1 (config [1] 8) config_one_ok) behind node' effects ∧
      (node'.isSyncing = true ∧ node'.syncPeer = some 7 ∧
        node'.syncNextHeight = 1 ∧ node'.chain.getHeight = 0 ∧
        (node'.next (env 30, .message (.net 7 (.blocks stalePage)))).isSome ∧
        node'.pageRequest (env 30) 7 stalePage =
          [.send 7 70 (.getBlocks 1 256)]) :=
  exists_run (by decide +kernel)

/-- After a full page of blocks that the node has, it asks for the page it asked
for before. -/
theorem stalePage_asks_again : ∃ node' effects, Run Node.next
    (node 1 1 (config [1] 8) config_one_ok) behind node' effects ∧
      node'.isSyncing = true ∧ node'.syncPeer = some 7 ∧
      node'.pageRequest (env 30) 7 stalePage =
        [.send 7 70 (.getBlocks node'.syncNextHeight 256)] := by
  obtain ⟨node', effects, hrun, hsyncing, hpeer, hnext, -, -, hrequest⟩ :=
    behind_run
  exact ⟨node', effects, hrun, hsyncing, hpeer, hnext ▸ hrequest⟩

theorem run_paging_progress_iff_stalePage : ∃ node' effects, Run Node.next
    (node 1 1 (config [1] 8) config_one_ok) behind node' effects ∧
      ¬ ∃ before b after, stalePage = before ++ b :: after ∧
        node'.consensus.accepts node'.chain.last b = true ∧
        b.hash ∉ (node'.markAll before).seenBlocks := by
  obtain ⟨node', effects, hrun, -, -, hnext, hheight, hlive, hrequest⟩ :=
    behind_run
  obtain ⟨⟨last, out⟩, hlast⟩ := Option.isSome_iff_exists.mp hlive
  refine ⟨node', effects, hrun, fun hsome => ?_⟩
  have hless := (Node.run_paging_progress_iff hrun hlast
    (hrequest ▸ List.mem_singleton_self _)).mpr (Or.inr hsome)
  rw [hnext] at hless
  exact absurd hless (by decide)

end B4n.Blockchain.Sample
