import B4n.Node.Bookkeeping
import B4n.Node.Chain
import B4n.Blockchain.Linked

/-!
# Pages of blocks

What the two parties of a catch-up do with each other's messages.  The node
that is behind asks for pages of 256 blocks, appends every block of a page it
gets, gossips it, and asks for the next page until one is shorter.  The node
that is ahead answers with the blocks from the height asked for on, and skips
the blocks it is sent.

## Main results

* `pageFrom_eq` — what a `GetBlocks` request is answered with.
* `onMessage_aside` — what registration puts on a channel does not disturb a
  sync.
* `Catching.onStatus`, `Catching.onBlocks_eq` — the steps of the node that is
  behind.
* `Serving.onBlock`, `Serving.onGetBlocks` — the steps of the other one.
-/

namespace B4n

open Lib Blockchain Transport

/-- The messages put on a channel. -/
def wires (sender : Sender) (effects : List Effect) : List ProtocolMessage :=
  effects.filterMap fun
    | .send _ recipient msg => if recipient = sender then some msg else none
    | .signed _ => none

/-! ## What registration puts on a channel -/

/-- What two nodes say to each other when they are registered.  None of it
belongs to the paging; the heights announced are at most `top`. -/
inductive Aside (top : Nat) : ProtocolMessage → Prop where
  | hello (peerId : UInt32) (pubkey : PubkeyType) :
      Aside top (.hello peerId pubkey)
  | helloAck (peerId : UInt32) : Aside top (.helloAck peerId)
  | getStatus : Aside top .getStatus
  | status {height : UInt64} (hash : Hash32Type)
      (h : height.toNat ≤ top) : Aside top (.status height hash)

theorem Aside.mono {top more : Nat} {msg : ProtocolMessage}
    (h : Aside top msg) (hle : top ≤ more) : Aside more msg := by
  cases h with
  | hello peerId pubkey => exact .hello peerId pubkey
  | helloAck peerId => exact .helloAck peerId
  | getStatus => exact .getStatus
  | status hash h => exact .status hash (Nat.le_trans h hle)

/-- What a message on its way counts for: more than what it is answered
with, blocks that are appended aside. -/
def weight : ProtocolMessage → Nat
  | .getStatus => 4
  | .status _ _ => 3
  | .getBlocks _ _ => 2
  | _ => 1

/-- What a queue counts for. -/
def load : List ProtocolMessage → Nat
  | [] => 0
  | msg :: msgs => weight msg + load msgs

@[simp] theorem load_nil : load [] = 0 := rfl

@[simp] theorem load_cons (msg : ProtocolMessage)
    (msgs : List ProtocolMessage) :
    load (msg :: msgs) = weight msg + load msgs := rfl

@[simp] theorem load_append (msgs more : List ProtocolMessage) :
    load (msgs ++ more) = load msgs + load more := by
  induction msgs with
  | nil =>
      rw [List.nil_append, load_nil, Nat.zero_add]
  | cons msg msgs ih =>
      rw [List.cons_append, load_cons, load_cons, ih, Nat.add_assoc]

/-- Blocks that are relayed count for one each. -/
theorem load_blocks {blocks : List Block} {msgs : List ProtocolMessage}
    (h : ∀ msg ∈ msgs, ∃ b ∈ blocks, msg = .block b) :
    load msgs = msgs.length := by
  induction msgs with
  | nil => rfl
  | cons msg msgs ih =>
      obtain ⟨b, -, rfl⟩ := h msg (List.mem_cons_self ..)
      rw [load_cons, List.length_cons,
        ih fun msg hmsg => h msg (List.mem_cons_of_mem _ hmsg)]
      exact Nat.add_comm 1 msgs.length

/-! ## The reply to `GetBlocks` -/

/-- The reply loop collects the blocks at the heights that are left. -/
theorem Node.collectBlocks_eq (chain : BlockChain) (left : Nat)
    (start : UInt64) (hleft : start.toNat + left < 2 ^ 64) :
    Node.collectBlocks chain start left =
      (chain.blocks.drop start.toNat).take left := by
  induction left generalizing start with
  | zero => rfl
  | succ left ih =>
      unfold Node.collectBlocks BlockChain.getBlock
      cases hblock : chain.blocks[start.toNat]? with
      | none =>
          have hlength := List.getElem?_eq_none_iff.mp hblock
          rw [List.drop_eq_nil_of_le hlength, List.take_nil]
      | some b =>
          obtain ⟨hlt, hget⟩ := List.getElem?_eq_some_iff.mp hblock
          have hone : (1 : UInt64).toNat = 1 := rfl
          have hnext : (start + 1).toNat = start.toNat + 1 := by
            rw [UInt64.toNat_add, hone]
            exact Nat.mod_eq_of_lt (by omega)
          dsimp only
          rw [ih (start + 1) (by omega), hnext, List.drop_eq_getElem_cons hlt,
            hget, List.take_succ_cons]

/-- A request is answered with the blocks from its start on, as many as its
limit says and as there are. -/
theorem Node.pageFrom_eq (node : Node) (start : UInt64) (limit : UInt32) :
    node.pageFrom start limit = (node.chain.blocks.drop start.toNat).take
      (min limit.toNat (2 ^ 64 - 1 - start.toNat)) := by
  have hstart := start.toNat_lt
  have hlimit : limit.toUInt64.toNat = limit.toNat := UInt32.toNat_toUInt64 limit
  unfold Node.pageFrom saturatingAdd
  dsimp only
  by_cases hfits : start.toNat + limit.toUInt64.toNat < 2 ^ 64
  · rw [if_pos hfits]
    have hsum : (start + limit.toUInt64).toNat =
        start.toNat + limit.toUInt64.toNat := by
      rw [UInt64.toNat_add]
      exact Nat.mod_eq_of_lt hfits
    rw [hsum, Nat.add_sub_cancel_left, hlimit,
      Node.collectBlocks_eq _ _ _ (by omega), Nat.min_eq_left (by omega)]
  · rw [if_neg hfits]
    have hlast : (UInt64.ofNat (2 ^ 64 - 1)).toNat = 2 ^ 64 - 1 := rfl
    rw [hlast, Node.collectBlocks_eq _ _ _ (by omega),
      Nat.min_eq_right (by omega)]

variable [Primitives]

namespace Node

/-! ## Messages beside the paging -/

/-- A node that is syncing, or as high as any height announced to it, only
answers `GetStatus`. -/
theorem onMessage_aside {node : Node} {peerId : UInt32} {sender : Sender}
    (hpeer : node.peers.lookup peerId = some sender) {top : Nat}
    (htop : node.chain.getHeight.toNat ≤ top) {msg : ProtocolMessage}
    (haside : Aside top msg)
    (hstay : node.isSyncing = true ∨ Aside node.chain.getHeight.toNat msg)
    (env : Env) :
    ∃ effects, node.onMessage env (.net peerId msg) = ⟨node, effects⟩ ∧
      (∀ reply ∈ wires sender effects, Aside top reply) ∧
      load (wires sender effects) < weight msg := by
  cases haside with
  | hello id pubkey => exact ⟨[], rfl, by simp [wires], Nat.one_pos⟩
  | helloAck id => exact ⟨[], rfl, by simp [wires], Nat.one_pos⟩
  | getStatus =>
      have hsent : wires sender (node.sendTo peerId node.statusMessage) =
          [node.statusMessage] := by
        unfold sendTo
        rw [hpeer]
        simp [wires]
      refine ⟨_, rfl, ?_, ?_⟩
      · intro reply hreply
        rw [hsent] at hreply
        obtain rfl := List.mem_singleton.mp hreply
        exact .status _ htop
      · rw [hsent]
        exact Nat.lt_succ_self 3
  | @status height hash hheight =>
      have hnot : ¬ (node.chain.getHeight < height ∧ !node.isSyncing) := by
        rintro ⟨hlt, hidle⟩
        rcases hstay with hsyncing | hlow
        · simp [hsyncing] at hidle
        · cases hlow with
          | status _ hle =>
              rw [UInt64.lt_iff_toNat_lt] at hlt
              omega
      refine ⟨[], ?_, by simp [wires], Nat.zero_lt_succ 2⟩
      unfold onMessage onNet
      dsimp only
      rw [if_neg hnot]

/-! ## The node that is behind -/

/-- What the exchange relies on of the chain to catch up with: it is valid and
its hashes are names. -/
structure Target (valid : Block → Block → Prop) (blocks : List Block) :
    Prop where
  head_eq : blocks.head? = some (Block.newGenesis BlockHeader.newGenesis)
  linked : blocks.IsChain valid
  follows : blocks.IsChain Block.Follows
  injOn : Set.InjOn calcHash (headerInputs blocks)
  length_le : blocks.length ≤ MAX_VEC_LEN

/-- The node has the blocks of the target up to a height and has not seen the
others; its pool is empty and its peers are the given ones. -/
structure Catching (blocks : List Block) (valid : Block → Block → Prop)
    (peers : HashMap UInt32 Sender) (height : Nat) (node : Node) : Prop where
  height_lt : height < blocks.length
  blocks_eq : node.chain.blocks = blocks.take (height + 1)
  valid_eq : node.consensus.Valid = valid
  fresh : ∀ b ∈ blocks.drop (height + 1), b.hash ∉ node.seenBlocks
  pool_empty : held node.orphansByPrev = 0
  peers_eq : node.peers = peers
  syncLimit_eq : node.syncLimit = 256

namespace Catching

variable {blocks : List Block} {valid : Block → Block → Prop}
  {peers : HashMap UInt32 Sender} {height : Nat} {node : Node}

theorem tip_eq (h : Catching blocks valid peers height node) :
    blocks[height]? = some node.chain.last := by
  have htip := node.chain.getElem?_tip
  have hlength : (blocks.take (height + 1)).length = height + 1 := by
    rw [List.length_take]
    exact Nat.min_eq_left h.height_lt
  rwa [h.blocks_eq, hlength, Nat.add_sub_cancel,
    List.getElem?_take_of_lt (Nat.lt_succ_self height)] at htip

theorem height_eq (htarget : Target valid blocks)
    (h : Catching blocks valid peers height node) :
    node.chain.getHeight.toNat = height := by
  have hindex := BlockChain.index_of_isChain htarget.follows htarget.head_eq
    height _ h.tip_eq
  have hgenesis : (Block.newGenesis BlockHeader.newGenesis).header.index.toNat
      = 0 := rfl
  rw [hgenesis, Nat.zero_add] at hindex
  exact hindex

/-- The request for the next page. -/
theorem nextHeight_eq (htarget : Target valid blocks)
    (h : Catching blocks valid peers height node) :
    node.chain.getHeight + 1 = UInt64.ofNat (height + 1) := by
  have hlt := h.height_lt
  have hlength := htarget.length_le
  have hone : (1 : UInt64).toNat = 1 := rfl
  unfold MAX_VEC_LEN at hlength
  rw [← UInt64.toNat_inj, UInt64.toNat_add, h.height_eq htarget, hone,
    UInt64.toNat_ofNat']

/-- The number of blocks the node has. -/
theorem length_eq (h : Catching blocks valid peers height node) :
    node.chain.blocks.length = height + 1 := by
  rw [h.blocks_eq, List.length_take]
  exact Nat.min_eq_left h.height_lt

theorem length_le (htarget : Target valid blocks)
    (h : Catching blocks valid peers height node) :
    node.chain.blocks.length ≤ MAX_VEC_LEN := by
  rw [h.length_eq]
  exact Nat.le_trans h.height_lt htarget.length_le

/-- The heights of a target are far from the end of `u64`. -/
theorem page_fits (htarget : Target valid blocks)
    (h : Catching blocks valid peers height node) :
    height + 1 + 256 < 2 ^ 64 := by
  have hlt := h.height_lt
  have hlength := htarget.length_le
  unfold MAX_VEC_LEN at hlength
  omega

/-- The next block of the target is appended. -/
theorem receive (htarget : Target valid blocks)
    (h : Catching blocks valid peers height node) (env : Env) {b : Block}
    (hb : blocks[height + 1]? = some b) :
    ∃ last, node.handleIncomingBlock env b =
        ⟨true, last, node.gossip env (.block b)⟩ ∧
      Catching blocks valid peers (height + 1) last ∧
      last.isSyncing = node.isSyncing ∧ last.syncPeer = node.syncPeer := by
  obtain ⟨hlt, hget⟩ := List.getElem?_eq_some_iff.mp hb
  obtain ⟨htipLt, htip⟩ := List.getElem?_eq_some_iff.mp h.tip_eq
  have hdrop : blocks.drop (height + 1) = b :: blocks.drop (height + 1 + 1) := by
    rw [List.drop_eq_getElem_cons hlt, hget]
  have hok : node.consensus.accepts node.chain.last b = true := by
    have hstep := List.isChain_iff_getElem.mp htarget.linked height hlt
    rw [PoAConsensus.accepts_iff, h.valid_eq]
    rwa [htip, hget] at hstep
  have hnew : b.hash ∉ node.seenBlocks := by
    apply h.fresh
    rw [hdrop]
    exact List.mem_cons_self ..
  refine ⟨_, handleIncomingBlock_of_accepts hnew hok, ?_, rfl, rfl⟩
  refine ⟨hlt, ?_, ?_, ?_, h.pool_empty, h.peers_eq, h.syncLimit_eq⟩
  · show node.chain.blocks ++ [b] = _
    rw [h.blocks_eq, List.take_succ_eq_append_getElem hlt, hget]
  · have hsame : (node.consensus.updateState env.now
        (some b.header.index) 0).Valid = node.consensus.Valid :=
      PoAConsensus.valid_congr rfl rfl
    exact hsame.trans h.valid_eq
  · intro c hc hmem
    have hc' : c ∈ blocks.drop (height + 1) := by
      rw [hdrop]
      exact List.mem_cons_of_mem b hc
    have hne : c ≠ b := by
      rintro rfl
      have hnodup := (nodup_of_isChain htarget.follows).sublist
        (List.drop_sublist (height + 1) blocks)
      rw [hdrop] at hnodup
      exact (List.nodup_cons.mp hnodup).1 hc
    refine not_mem_remember _ _ (fun hhash => hne ?_) (h.fresh c hc') hmem
    exact hash_inj_of_isChain htarget.follows htarget.injOn
      (List.mem_of_mem_drop hc') (List.mem_of_getElem? hb) hhash

/-- Only the chain, the rules, the seen window, the pool, the peers and the
page length matter. -/
theorem of_same {last : Node} (h : Catching blocks valid peers height node)
    (hchain : last.chain = node.chain)
    (hconsensus : last.consensus = node.consensus)
    (hseen : last.seenBlocks = node.seenBlocks)
    (hpool : held last.orphansByPrev = held node.orphansByPrev)
    (hpeers : last.peers = node.peers)
    (hlimit : last.syncLimit = node.syncLimit) :
    Catching blocks valid peers height last where
  height_lt := h.height_lt
  blocks_eq := hchain ▸ h.blocks_eq
  valid_eq := hconsensus ▸ h.valid_eq
  fresh := hseen ▸ h.fresh
  pool_empty := hpool.trans h.pool_empty
  peers_eq := hpeers.trans h.peers_eq
  syncLimit_eq := hlimit.trans h.syncLimit_eq

end Catching

omit [Primitives] in
/-- What the gossip of a block puts on a channel: copies of it, at most one for
each peer. -/
theorem wires_gossip (env : Env) (node : Node) (b : Block) (sender : Sender) :
    (∀ msg ∈ wires sender (node.gossip env (.block b)), msg = .block b) ∧
      (wires sender (node.gossip env (.block b))).length ≤
        node.peers.keys.length := by
  constructor
  · intro msg hmsg
    obtain ⟨e, he, hsome⟩ := List.mem_filterMap.mp hmsg
    obtain ⟨entry, -, rfl⟩ := List.mem_map.mp he
    dsimp only at hsome
    split at hsome
    · exact (Option.some.inj hsome).symm
    · cases hsome
  · have hsends := List.length_filterMap_le (fun e : Effect =>
      match e with
      | .send _ recipient msg => if recipient = sender then some msg else none
      | .signed _ => none) (node.gossip env (.block b))
    have hentries : (node.gossip env (.block b)).length ≤
        node.peers.keys.length := by
      unfold gossip peerEntries
      rw [List.length_map, ← (env.peerOrder_perm node.peers.keys).length_eq]
      exact List.length_filterMap_le _ _
    exact hsends.trans hentries

/-- The effects put blocks of the list on a channel and nothing else, at most as
many as counted. -/
structure Relays (blocks : List Block) (count : Nat) (sender : Sender)
    (effects : List Effect) : Prop where
  mem : ∀ msg ∈ wires sender effects, ∃ b ∈ blocks, msg = .block b
  length_le : (wires sender effects).length ≤ count

omit [Primitives] in
theorem wires_append (sender : Sender) (effects more : List Effect) :
    wires sender (effects ++ more) =
      wires sender effects ++ wires sender more :=
  List.filterMap_append

namespace Catching

variable {blocks : List Block} {valid : Block → Block → Prop}
  {peers : HashMap UInt32 Sender} {height : Nat} {node : Node}

/-- A page of next blocks is appended as a whole.  All that is put on a channel
are blocks of the target, at most one copy of each for every peer. -/
theorem handleBatch (htarget : Target valid blocks) (env : Env)
    {page : List Block} (hpage : page <+: blocks.drop (height + 1))
    (h : Catching blocks valid peers height node) :
    Catching blocks valid peers (height + page.length)
        (node.handleBatch env page).node ∧
      (node.handleBatch env page).node.isSyncing = node.isSyncing ∧
      (node.handleBatch env page).node.syncPeer = node.syncPeer ∧
      ∀ sender, Relays blocks (page.length * peers.keys.length) sender
        (node.handleBatch env page).effects := by
  induction page generalizing height node with
  | nil =>
      refine ⟨h, rfl, rfl, fun sender => ⟨?_, Nat.zero_le _⟩⟩
      intro msg hmsg
      cases hmsg
  | cons b page ih =>
      obtain ⟨rest, hrest⟩ := hpage
      have hlt : height + 1 < blocks.length := by
        have hlength := congrArg List.length hrest
        rw [List.length_drop, List.cons_append, List.length_cons] at hlength
        omega
      rw [List.drop_eq_getElem_cons hlt, List.cons_append,
        List.cons.injEq] at hrest
      have hb : blocks[height + 1]? = some b := by
        rw [List.getElem?_eq_getElem hlt, hrest.1]
      obtain ⟨mid, hmid, hcatching, hsync, hpeer⟩ := h.receive htarget env hb
      obtain ⟨hlast, hsync', hpeer', hrelays⟩ := ih ⟨rest, hrest.2⟩ hcatching
      unfold Node.handleBatch
      rw [hmid]
      dsimp only
      refine ⟨?_, hsync'.trans hsync, hpeer'.trans hpeer, ?_⟩
      · rw [List.length_cons, Nat.add_comm page.length 1, ← Nat.add_assoc]
        exact hlast
      intro sender
      obtain ⟨hgossip, hcopies⟩ := wires_gossip env node b sender
      constructor
      · intro msg hmsg
        rw [wires_append] at hmsg
        rcases List.mem_append.mp hmsg with hfirst | hmore
        · exact ⟨b, List.mem_of_getElem? hb, hgossip msg hfirst⟩
        · exact (hrelays sender).mem msg hmore
      · have hcount := (hrelays sender).length_le
        rw [wires_append, List.length_append, List.length_cons, Nat.add_mul,
          Nat.one_mul]
        rw [h.peers_eq] at hcopies
        omega

/-- With an empty pool the connection loop connects nothing. -/
theorem connectIfProgressed (env : Env) {handled : Handled}
    (h : Catching blocks valid peers height handled.node) :
    Catching blocks valid peers height
        (Node.connectIfProgressed env handled).node ∧
      (Node.connectIfProgressed env handled).node.isSyncing =
        handled.node.isSyncing ∧
      (Node.connectIfProgressed env handled).node.syncPeer =
        handled.node.syncPeer ∧
      (Node.connectIfProgressed env handled).effects = handled.effects := by
  unfold Node.connectIfProgressed
  split
  · unfold tryConnectOrphans connectLoop
    have hcase := handled.node.connectOnce_cases env
    generalize handled.node.connectOnce env = round at hcase ⊢
    cases hcase with
    | done orphans hsame hheld hnone =>
        exact ⟨h.of_same rfl rfl rfl hheld rfl rfl, rfl, rfl,
          List.append_nil _⟩
    | connected vec pos hvec hok =>
        exact absurd ⟨vec, hvec, List.get_mem vec pos⟩
          (not_files_of_held_eq_zero h.pool_empty _ (vec.get pos))
  · exact ⟨h, rfl, rfl, rfl⟩

/-- A status of a higher chain starts the sync. -/
theorem onStatus (htarget : Target valid blocks)
    (h : Catching blocks valid peers height node) (env : Env)
    {peerId : UInt32} {sender : Sender}
    (hpeer : peers.lookup peerId = some sender)
    (hidle : node.isSyncing = false) {top : UInt64} (hash : Hash32Type)
    (htop : height < top.toNat) :
    ∃ last, node.onMessage env (.net peerId (.status top hash)) =
        ⟨last, [.send peerId sender
          (.getBlocks (UInt64.ofNat (height + 1)) 256)]⟩ ∧
      Catching blocks valid peers height last ∧
      last.isSyncing = true ∧ last.syncPeer = some peerId := by
  have hbehind : node.chain.getHeight < top := by
    rw [UInt64.lt_iff_toNat_lt, h.height_eq htarget]
    exact htop
  have hlast : Catching blocks valid peers height { node with
      isSyncing := true
      syncPeer := some peerId
      syncNextHeight := node.chain.getHeight + 1 } :=
    h.of_same rfl rfl rfl rfl rfl rfl
  refine ⟨_, ?_, hlast, rfl, rfl⟩
  unfold onMessage onNet
  dsimp only
  rw [if_pos ⟨hbehind, by simp [hidle]⟩]
  unfold startSync
  rw [if_neg (by simp [hidle])]
  unfold requestBlocks sendTo
  dsimp only
  rw [h.peers_eq, hpeer, h.nextHeight_eq htarget, h.syncLimit_eq]

/-- A page of next blocks is appended and relayed; what follows is the
paging. -/
theorem onBlocks_eq (htarget : Target valid blocks)
    (h : Catching blocks valid peers height node) (env : Env)
    (peerId : UInt32) {page : List Block}
    (hpage : page <+: blocks.drop (height + 1)) :
    ∃ mid effects, Catching blocks valid peers (height + page.length) mid ∧
      mid.isSyncing = node.isSyncing ∧ mid.syncPeer = node.syncPeer ∧
      (∀ sender,
        Relays blocks (page.length * peers.keys.length) sender effects) ∧
      node.onMessage env (.net peerId (.blocks page)) =
        ⟨(mid.nextPage peerId page).node,
          effects ++ (mid.nextPage peerId page).effects⟩ := by
  obtain ⟨hbatch, hsync, hpeer, hrelays⟩ := h.handleBatch htarget env hpage
  obtain ⟨hlast, hsync', hpeer', heffects⟩ := hbatch.connectIfProgressed env
  refine ⟨_, _, hlast, hsync'.trans hsync, hpeer'.trans hpeer, ?_, rfl⟩
  rw [heffects]
  exact hrelays

/-- After a full page the node asks for the next one. -/
theorem nextPage_full (htarget : Target valid blocks)
    (h : Catching blocks valid peers height node) {peerId : UInt32}
    {sender : Sender} (hpeer : peers.lookup peerId = some sender)
    (hmine : node.isSyncing = true ∧ node.syncPeer = some peerId)
    {page : List Block} (hfull : page.length = 256) :
    Catching blocks valid peers height (node.nextPage peerId page).node ∧
      (node.nextPage peerId page).effects = [.send peerId sender
        (.getBlocks (UInt64.ofNat (height + 1)) 256)] ∧
      (node.nextPage peerId page).node.isSyncing = true ∧
      (node.nextPage peerId page).node.syncPeer = some peerId := by
  have hgot : UInt32.ofNat page.length = node.syncLimit := by
    rw [h.syncLimit_eq, hfull]
    rfl
  unfold nextPage
  rw [if_pos hmine]
  dsimp only
  rw [if_pos hgot]
  refine ⟨h.of_same rfl rfl rfl rfl rfl rfl, ?_, hmine⟩
  unfold requestBlocks sendTo
  dsimp only
  rw [h.peers_eq, hpeer, h.nextHeight_eq htarget, h.syncLimit_eq]

/-- After a shorter page the sync is over. -/
theorem nextPage_short (h : Catching blocks valid peers height node)
    {peerId : UInt32}
    (hmine : node.isSyncing = true ∧ node.syncPeer = some peerId)
    {page : List Block} (hshort : page.length < 256) :
    Catching blocks valid peers height (node.nextPage peerId page).node ∧
      (node.nextPage peerId page).effects = [] ∧
      (node.nextPage peerId page).node.isSyncing = false ∧
      (node.nextPage peerId page).node.syncPeer = none := by
  have hgot : UInt32.ofNat page.length ≠ node.syncLimit := by
    intro heq
    have hnat := congrArg UInt32.toNat heq
    have hlimit : (256 : UInt32).toNat = 256 := rfl
    rw [h.syncLimit_eq, UInt32.toNat_ofNat', hlimit] at hnat
    omega
  unfold nextPage
  rw [if_pos hmine]
  dsimp only
  rw [if_neg hgot]
  exact ⟨h.of_same rfl rfl rfl rfl rfl rfl, rfl, rfl, rfl⟩

end Catching

/-! ## The node that is ahead -/

/-- The node has the target chain and a peer is registered with it. -/
structure Serving (peerId : UInt32) (sender : Sender) (chain : BlockChain)
    (node : Node) : Prop where
  chain_eq : node.chain = chain
  peer : node.peers.lookup peerId = some sender

namespace Serving

variable {peerId : UInt32} {sender : Sender} {chain : BlockChain} {node : Node}
  {valid : Block → Block → Prop}

theorem length_le (htarget : Target valid chain.blocks)
    (h : Serving peerId sender chain node) :
    node.chain.blocks.length ≤ MAX_VEC_LEN := by
  rw [h.chain_eq]
  exact htarget.length_le

theorem height_eq (htarget : Target valid chain.blocks)
    (h : Serving peerId sender chain node) :
    node.chain.getHeight.toNat = chain.blocks.length - 1 := by
  have htip := BlockChain.index_of_isChain htarget.follows htarget.head_eq _ _
    chain.getElem?_tip
  have hgenesis : (Block.newGenesis BlockHeader.newGenesis).header.index.toNat
      = 0 := rfl
  rw [hgenesis, Nat.zero_add] at htip
  rw [h.chain_eq]
  exact htip

/-- Blocks it has do not disturb it. -/
theorem onBlock (htarget : Target valid chain.blocks)
    (h : Serving peerId sender chain node) (env : Env) (origin : UInt32)
    {b : Block} (hb : b ∈ chain.blocks) :
    ∃ last, node.onMessage env (.net origin (.block b)) = ⟨last, []⟩ ∧
      Serving peerId sender chain last := by
  have hunfold : node.onMessage env (.net origin (.block b)) =
      Node.connectIfProgressed env (node.handleIncomingBlock env b) := rfl
  have hindex : b.header.index.toNat ≤ node.chain.getHeight.toNat := by
    obtain ⟨i, hi⟩ := List.mem_iff_getElem?.mp hb
    have hmine := BlockChain.index_of_isChain htarget.follows htarget.head_eq i b hi
    have hgenesis : (Block.newGenesis BlockHeader.newGenesis).header.index.toNat
        = 0 := rfl
    have hlt := (List.getElem?_eq_some_iff.mp hi).1
    rw [h.height_eq htarget]
    omega
  rw [hunfold]
  have hcase := node.handleIncomingBlock_cases env b
  generalize node.handleIncomingBlock env b = handled at hcase ⊢
  cases hcase with
  | seen hseen => exact ⟨node, rfl, h⟩
  | stale hnew hle => exact ⟨node.mark b.hash, rfl, h.chain_eq, h.peer⟩
  | orphaned hnew hlt hgap =>
      rw [UInt64.lt_iff_toNat_lt] at hlt
      omega
  | rejected hnew hplace hprev hbad =>
      exact ⟨node.mark b.hash, rfl, h.chain_eq, h.peer⟩
  | appended hnew hok =>
      have hnext := ((PoAConsensus.accepts_iff _ _ _).mp hok).follows.toNat_index
      change b.header.index.toNat = node.chain.getHeight.toNat + 1 at hnext
      omega

/-- A request is answered with the page it asks for. -/
theorem onGetBlocks (h : Serving peerId sender chain node) (env : Env)
    {height : Nat} (hheight : height + 256 < 2 ^ 64) :
    node.onMessage env (.net peerId (.getBlocks (UInt64.ofNat height) 256)) =
      ⟨node, [.send peerId sender
        (.blocks ((chain.blocks.drop height).take 256))]⟩ := by
  have hstart : (UInt64.ofNat height).toNat = height := by
    rw [UInt64.toNat_ofNat']
    exact Nat.mod_eq_of_lt (by omega)
  have hlimit : (256 : UInt32).toNat = 256 := rfl
  have hpage := node.pageFrom_eq (UInt64.ofNat height) 256
  rw [hstart, hlimit, Nat.min_eq_left (by omega), h.chain_eq] at hpage
  unfold onMessage onNet
  dsimp only
  rw [hpage]
  unfold sendTo
  rw [h.peer]

end Serving

end Node

end B4n
