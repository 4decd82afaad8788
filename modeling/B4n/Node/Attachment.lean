import B4n.Node.Holds

/-!
# Orphans that attach

`try_connect_orphans` looks into the bucket of the tip for a block that fits,
appends it, files the rest of the bucket under the new tip and goes round
again.  Which orphans attach depends on the pool, the tip and the rules only:
`attachments` lists them, each with the pool it was found in.

## Main results

* `tryConnectOrphans_loops` — the loop of the source returns, whatever the pool,
  after at most as many rounds as it holds blocks.
* `tryConnectOrphans_attached` — what it does to the chain, the pool and the
  counter.
* `tryConnectOrphans_attach` — in the end nothing in the bucket of the tip fits.
-/

namespace B4n

open Lib Blockchain Transport

/-- An orphan that fits the tip, in the bucket it is taken from. -/
structure Attachment where
  orphans : HashMap Hash32Type (List Block)
  tip : Block
  vec : List Block
  pos : Fin vec.length

variable [Primitives]

namespace Attachment

omit [Primitives] in
/-- The orphan. -/
def block (a : Attachment) : Block := a.vec.get a.pos

omit [Primitives] in
/-- The rest of its bucket. -/
def rest (a : Attachment) : List Block := swapRemove a.vec a.pos

/-- The bucket the rest is moved to. -/
def entry (a : Attachment) : List Block :=
  ((a.orphans.erase a.tip.hash).lookup a.block.hash).getD []

/-- The pool once the orphan is attached. -/
def after (a : Attachment) : HashMap Hash32Type (List Block) :=
  refile (a.orphans.erase a.tip.hash) a.block.hash a.rest

/-- The number of blocks of the rest that find no room. -/
def dropped (a : Attachment) : Nat :=
  a.rest.length - (MAX_ORPHANS_PER_PREV - a.entry.length)

end Attachment

/-- The first orphan in the bucket of the tip that fits. -/
def attach (accepts : Block → Block → Bool)
    (orphans : HashMap Hash32Type (List Block)) (tip : Block) :
    Option Attachment :=
  match orphans.lookup tip.hash with
  | none => none
  | some vec =>
      (vec.findFinIdx? (accepts tip)).map fun pos => ⟨orphans, tip, vec, pos⟩

/-- The orphans that attach, each to the one before it, with a bound on their
number. -/
def attachments (accepts : Block → Block → Bool) :
    Nat → HashMap Hash32Type (List Block) → Block → List Attachment
  | 0, _, _ => []
  | fuel + 1, orphans, tip =>
      match attach accepts orphans tip with
      | none => []
      | some a => a :: attachments accepts fuel a.after a.block

/-- The pool after attachments. -/
def poolAfter (orphans : HashMap Hash32Type (List Block))
    (as : List Attachment) : HashMap Hash32Type (List Block) :=
  as.foldl (fun _ a => a.after) orphans

theorem attach_eq_some {accepts : Block → Block → Bool}
    {orphans : HashMap Hash32Type (List Block)} {tip : Block} {a : Attachment}
    (h : attach accepts orphans tip = some a) :
    a.orphans = orphans ∧ a.tip = tip ∧ orphans.lookup tip.hash = some a.vec ∧
      accepts tip a.block = true := by
  unfold attach at h
  split at h
  · cases h
  · rename_i vec hvec
    obtain ⟨pos, hpos, rfl⟩ := Option.map_eq_some_iff.mp h
    exact ⟨rfl, rfl, hvec, (List.findFinIdx?_eq_some_iff.mp hpos).1⟩

/-- Nothing attaches if and only if nothing in the bucket of the tip fits. -/
theorem attach_eq_none_iff {accepts : Block → Block → Bool}
    {orphans : HashMap Hash32Type (List Block)} {tip : Block} :
    attach accepts orphans tip = none ↔
      ∀ b, Files orphans tip.hash b → accepts tip b = false := by
  unfold attach Files
  split
  · rename_i hnone
    simp [hnone]
  · rename_i vec hvec
    simp [hvec, List.findFinIdx?_eq_none_iff]

namespace Attachment

/-- The attachment takes one block out of the pool, and loses those that find
no room. -/
theorem held_after {a : Attachment}
    (hvec : a.orphans.lookup a.tip.hash = some a.vec) :
    held a.after + 1 + a.dropped = held a.orphans := by
  have herase := held_erase hvec
  have hlength := length_swapRemove a.vec a.pos
  have hrest : a.rest.length + 1 = a.vec.length := hlength
  unfold after refile
  split
  · rename_i hnil
    have hzero : a.rest.length = 0 := by rw [hnil, List.length_nil]
    have hdropped : a.dropped = 0 := by
      unfold dropped
      omega
    omega
  · dsimp only
    have hinsert := held_insert_getD (a.orphans.erase a.tip.hash) a.block.hash
      (fillBucket a.entry a.rest)
    change _ + a.entry.length = _ at hinsert
    rw [Node.fillBucket_eq, List.length_append, List.length_take] at hinsert
    show held (AList.insert a.block.hash (fillBucket a.entry a.rest) _) + 1 +
      a.dropped = _
    rw [Node.fillBucket_eq]
    unfold dropped
    omega

end Attachment

namespace Node

/-! ## One round of the loop -/

/-- The attachments of the pool of a node. -/
def attachments (node : Node) : List Attachment :=
  B4n.attachments node.consensus.accepts (held node.orphansByPrev + 1)
    node.orphansByPrev node.chain.last

/-- The state after an attachment. -/
def attached (env : Env) (node : Node) (a : Attachment) : Node :=
  { node.grow env a.block with
    orphansByPrev := a.after
    orphansTotal := node.orphansTotal - 1 }

/-- A round of the loop attaches the first orphan that fits, or returns. -/
inductive AttachCase (env : Env) (node : Node) : Node ⊕ Reaction → Prop where
  | done (orphans : HashMap Hash32Type (List Block))
      (hnone : attach node.consensus.accepts node.orphansByPrev
        node.chain.last = none)
      (hsame : ∀ key, orphans.lookup key = node.orphansByPrev.lookup key)
      (hheld : held orphans = held node.orphansByPrev) :
      AttachCase env node (.inl { node with orphansByPrev := orphans })
  | attached (a : Attachment)
      (ha : attach node.consensus.accepts node.orphansByPrev
        node.chain.last = some a) :
      AttachCase env node (.inr
        ⟨node.attached env a, node.gossip env (.block a.block)⟩)

theorem connectOnce_attach (env : Env) (node : Node) :
    AttachCase env node (node.connectOnce env) := by
  have hcase := node.connectOnce_cases env
  generalize hround : node.connectOnce env = round at hcase ⊢
  unfold connectOnce at hround
  dsimp only at hround
  split at hround
  · rename_i hvec
    subst hround
    exact .done node.orphansByPrev (by simp [attach, hvec]) (fun _ => rfl) rfl
  · rename_i vec hvec
    split at hround
    · rename_i hfind
      cases hcase with
      | done orphans hsame hheld hnone =>
          exact .done orphans (by simp [attach, hvec, hfind]) hsame hheld
      | connected vec' pos hvec' hok => cases hround
    · rename_i pos hfind
      have ha : attach node.consensus.accepts node.orphansByPrev
          node.chain.last = some
            ⟨node.orphansByPrev, node.chain.last, vec, pos⟩ := by
        simp [attach, hvec, hfind]
      rw [← hround, BlockChain.getHeight_addBlock, BlockChain.last_addBlock]
      exact .attached _ ha

@[simp] theorem attached_chain (env : Env) (node : Node) (a : Attachment) :
    (node.attached env a).chain = node.chain.addBlock a.block := rfl

@[simp] theorem attached_orphansByPrev (env : Env) (node : Node)
    (a : Attachment) : (node.attached env a).orphansByPrev = a.after := rfl

/-- Attaching does not change what is accepted. -/
theorem attached_accepts (env : Env) (node : Node) (a : Attachment) :
    (node.attached env a).consensus.accepts = node.consensus.accepts := by
  funext prev current
  exact PoAConsensus.accepts_updateState _ _ _ _ _ _

/-! ## The loop -/

/-- The loop of the source: it attaches so many orphans and returns. -/
inductive Loops (env : Env) : Nat → Node → Reaction → Prop where
  | returned {node last : Node} (h : node.connectOnce env = .inl last) :
      Loops env 0 node ⟨last, []⟩
  | again {node : Node} {first rest : Reaction} {rounds : Nat}
      (h : node.connectOnce env = .inr first)
      (hrest : Loops env rounds first.node rest) :
      Loops env (rounds + 1) node ⟨rest.node, first.effects ++ rest.effects⟩

/-- What a number of attachments did. -/
structure Attached (node : Node) (as : List Attachment) (last : Node) :
    Prop where
  blocks_eq : last.chain.blocks =
    node.chain.blocks ++ as.map Attachment.block
  lookup_eq : ∀ key, last.orphansByPrev.lookup key =
    (poolAfter node.orphansByPrev as).lookup key
  held_eq : held last.orphansByPrev = held (poolAfter node.orphansByPrev as)
  total_eq : last.orphansTotal = node.orphansTotal - as.length
  mempool_eq : last.mempool = node.mempool
  syncNextHeight_eq : last.syncNextHeight = node.syncNextHeight

theorem Attached.cons {env : Env} {node last : Node} {a : Attachment}
    {as : List Attachment} (h : Attached (node.attached env a) as last) :
    Attached node (a :: as) last where
  blocks_eq := by
    rw [h.blocks_eq, attached_chain, BlockChain.blocks_addBlock,
      List.append_assoc]
    rfl
  lookup_eq := h.lookup_eq
  held_eq := h.held_eq
  total_eq := by
    have htotal := h.total_eq
    change _ = node.orphansTotal - 1 - _ at htotal
    rw [htotal, List.length_cons]
    omega
  mempool_eq := h.mempool_eq
  syncNextHeight_eq := h.syncNextHeight_eq

/-- With a bound above the number of blocks held, the bounded loop is the loop
of the source, and it attaches what `attachments` lists. -/
theorem connectLoop_attached (env : Env) {fuel : Nat} {node : Node}
    (hfuel : held node.orphansByPrev < fuel) :
    let as := B4n.attachments node.consensus.accepts fuel node.orphansByPrev
      node.chain.last
    Loops env as.length node (node.connectLoop env fuel) ∧
      Attached node as (node.connectLoop env fuel).node ∧
      as.length ≤ held node.orphansByPrev := by
  induction fuel generalizing node with
  | zero => omega
  | succ fuel ih =>
      unfold connectLoop B4n.attachments
      generalize hround : node.connectOnce env = round
      have hcase := hround ▸ node.connectOnce_attach env
      cases hcase with
      | done orphans hnone hsame hheld =>
          rw [hnone]
          exact ⟨.returned hround,
            ⟨by simp, hsame, hheld, rfl, rfl, rfl⟩, Nat.zero_le _⟩
      | attached a ha =>
          obtain ⟨horphans, htip, hvec, -⟩ := attach_eq_some ha
          have hheld := a.held_after (by rw [horphans, htip]; exact hvec)
          rw [horphans] at hheld
          have hless : held (node.attached env a).orphansByPrev < fuel := by
            rw [attached_orphansByPrev]
            omega
          obtain ⟨hloops, hattached, hcount⟩ := ih hless
          rw [attached_accepts, attached_chain, BlockChain.last_addBlock,
            attached_orphansByPrev] at hloops hattached hcount
          rw [ha]
          dsimp only
          refine ⟨.again hround hloops, hattached.cons, ?_⟩
          rw [List.length_cons]
          omega

/-- Whatever the pool, the loop of the source returns after attaching at most
as many blocks as the pool holds. -/
theorem tryConnectOrphans_loops (env : Env) (node : Node) :
    Loops env node.attachments.length node (node.tryConnectOrphans env) ∧
      node.attachments.length ≤ held node.orphansByPrev := by
  obtain ⟨hloops, -, hcount⟩ := connectLoop_attached env (Nat.lt_succ_self _)
  exact ⟨hloops, hcount⟩

theorem tryConnectOrphans_attached (env : Env) (node : Node) :
    Attached node node.attachments (node.tryConnectOrphans env).node :=
  (connectLoop_attached env (Nat.lt_succ_self _)).2.1

/-- The loop returns only when nothing in the bucket of the tip fits. -/
theorem Loops.attach_eq_none {env : Env} {rounds : Nat} {node : Node}
    {reaction : Reaction} (h : Loops env rounds node reaction) :
    attach reaction.node.consensus.accepts reaction.node.orphansByPrev
      reaction.node.chain.last = none := by
  induction h with
  | returned hround =>
      rename_i node last
      have hcase := hround ▸ node.connectOnce_attach env
      cases hcase with
      | done orphans hnone hsame hheld =>
          rw [attach_eq_none_iff] at hnone ⊢
          rintro b ⟨vec, hvec, hb⟩
          exact hnone b ⟨vec, (hsame _).symm.trans hvec, hb⟩
  | again _ _ ih => exact ih

theorem tryConnectOrphans_attach (env : Env) (node : Node) :
    let last := (node.tryConnectOrphans env).node
    attach last.consensus.accepts last.orphansByPrev last.chain.last = none :=
  (node.tryConnectOrphans_loops env).1.attach_eq_none

/-! ## The call of `try_connect_orphans` in a turn -/

/-- The state in which a turn calls `try_connect_orphans`, if it does: the
blocks it brings in were handled, and one of them was appended. -/
def connectCall (env : Env) (node : Node) (input : Input) : Option Node :=
  let handled := node.handleBatch env input.incoming
  if handled.progressed then some handled.node else none

/-- The orphans that attach in a turn. -/
def attachmentsIn (env : Env) (node : Node) (input : Input) :
    List Attachment :=
  match node.connectCall env input with
  | some call => call.attachments
  | none => []

/-- One block is handled as a batch of one. -/
theorem connectIfProgressed_singleton (env : Env) (node : Node) (b : Block) :
    connectIfProgressed env (node.handleIncomingBlock env b) =
      connectIfProgressed env (node.handleBatch env [b]) := by
  simp [handleBatch]

/-- A message changes the core as the batch of its blocks does. -/
theorem onMessage_batch (env : Env) (node : Node) (m : NodeMessage) :
    SameCore
      (connectIfProgressed env (node.handleBatch env (incoming m))).node
      (node.onMessage env m).node := by
  have hnone : incoming m = [] → connectIfProgressed env
      (node.handleBatch env (incoming m)) = ⟨node, []⟩ := by
    intro hm
    rw [hm]
    rfl
  have hcase := node.onMessage_cases env m
  generalize node.onMessage env m = reaction at hcase ⊢
  cases hcase with
  | block peerId b =>
      rw [connectIfProgressed_singleton]
      exact .refl _
  | blocks peerId page connected hconnected =>
      rw [hconnected]
      exact nextPage_core _ peerId page
  | ignored m hm =>
      rw [hnone hm]
      exact .refl node
  | answered peerId msg reply hm hserves =>
      rw [hnone hm]
      exact .refl node
  | trx m trx hm =>
      rw [hnone hm]
      exact acceptTrx_core env node trx
  | addPeer peerId sender =>
      rw [hnone rfl]
      exact ⟨rfl, rfl, rfl, rfl, rfl, rfl, rfl, rfl⟩
  | removePeer peerId =>
      rw [hnone rfl]
      exact removePeer_core node peerId
  | started peerId height hash start =>
      rw [hnone rfl]
      exact startSync_core node peerId start

/-- Unless a block was appended, the chain is as before. -/
theorem handleBatch_chain {env : Env} {node : Node} {page : List Block}
    (h : (node.handleBatch env page).progressed = false) :
    (node.handleBatch env page).node.chain = node.chain := by
  induction page generalizing node with
  | nil => rfl
  | cons b page ih =>
      unfold handleBatch at h ⊢
      dsimp only at h ⊢
      rw [Bool.or_eq_false_iff] at h
      rw [ih h.2]
      have hcase := node.handleIncomingBlock_cases env b
      replace h := h.1
      generalize node.handleIncomingBlock env b = handled at hcase h ⊢
      cases hcase with
      | seen hseen => rfl
      | stale hnew hle => rfl
      | rejected hnew hindex hprev hbad => rfl
      | appended hnew hok => cases h
      | orphaned hnew hlt hgap =>
          rw [orphanAndSync_chain]
          rfl

end Node

end B4n
