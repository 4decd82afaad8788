import B4n.Lib.Queues
import B4n.Node.Paging
import B4n.Node.Sample

/-!
# Catching up over a link

Two nodes that are registered with each other over a lossless first-in
first-out link.  One of them is behind: after the other's `Status` it asks for
pages of 256 blocks until a page is shorter.  Every block it appends it also
gossips back, so `Block` messages travel along with the requests, as does what
the registration of the two put on the link.

`Stage` says where the exchange is, whatever else is on its way.  A measure that
every delivery makes smaller shows that the exchange ends.

## Main results

* `Stage.step_a`, `Stage.step_b` — every delivery leads from a stage to a stage
  and makes the measure smaller.
* `link_catchUp` — the exchange ends, after `(N - m) / 256 + 1` requests, with
  equal chains and no sync going on.
-/

namespace B4n

open Lib Blockchain Transport

/-! ## The link -/

/-- How two nodes `a` and `b` know each other: the peer ids they have given
each other's connection and the channels of these connections. -/
structure Ends where
  /-- the id of `a` at `b` -/
  peerA : UInt32
  /-- the id of `b` at `a` -/
  peerB : UInt32
  senderA : Sender
  senderB : Sender

/-- Two nodes and the messages on their way to each. -/
structure Link where
  a : Node
  b : Node
  toA : List ProtocolMessage
  toB : List ProtocolMessage

/-- Who takes the next message that is on its way to it. -/
inductive Receiver where
  | a
  | b
deriving DecidableEq

/-- A message put on the link. -/
inductive Wire where
  | fromA (msg : ProtocolMessage)
  | fromB (msg : ProtocolMessage)
deriving DecidableEq

/-- The `GetBlocks` requests of `a`. -/
def requests (out : List Wire) : List (UInt64 × UInt32) :=
  out.filterMap fun
    | .fromA (.getBlocks start limit) => some (start, limit)
    | _ => none

/-- The `Blocks` replies of `b`. -/
def replies (out : List Wire) : List (List Block) :=
  out.filterMap fun
    | .fromB (.blocks page) => some page
    | _ => none

/-! ## What is put on the link -/

section Wires

variable {sent : List ProtocolMessage} {top : Nat}

theorem requests_fromB : requests (sent.map .fromB) = [] := by
  apply List.filterMap_eq_nil_iff.mpr
  intro wire hwire
  obtain ⟨msg, -, rfl⟩ := List.mem_map.mp hwire
  rfl

theorem replies_fromA : replies (sent.map .fromA) = [] := by
  apply List.filterMap_eq_nil_iff.mpr
  intro wire hwire
  obtain ⟨msg, -, rfl⟩ := List.mem_map.mp hwire
  rfl

theorem requests_asides (h : ∀ msg ∈ sent, Aside top msg) :
    requests (sent.map .fromA) = [] := by
  apply List.filterMap_eq_nil_iff.mpr
  intro wire hwire
  obtain ⟨msg, hmsg, rfl⟩ := List.mem_map.mp hwire
  cases h msg hmsg <;> rfl

theorem replies_asides (h : ∀ msg ∈ sent, Aside top msg) :
    replies (sent.map .fromB) = [] := by
  apply List.filterMap_eq_nil_iff.mpr
  intro wire hwire
  obtain ⟨msg, hmsg, rfl⟩ := List.mem_map.mp hwire
  cases h msg hmsg <;> rfl

/-- Relayed blocks are no requests. -/
theorem requests_blocks {blocks : List Block}
    (h : ∀ msg ∈ sent, ∃ b ∈ blocks, msg = .block b) :
    requests (sent.map .fromA) = [] := by
  apply List.filterMap_eq_nil_iff.mpr
  intro wire hwire
  obtain ⟨msg, hmsg, rfl⟩ := List.mem_map.mp hwire
  obtain ⟨b, -, rfl⟩ := h msg hmsg
  rfl

end Wires

variable [Primitives]

/-- One delivery over the link. -/
def Ends.next (ends : Ends) : Machine Link (Env × Receiver) Wire := fun link i =>
  match i.2 with
  | .a =>
      match link.toA with
      | [] => none
      | msg :: rest =>
          match link.a.next (i.1, .message (.net ends.peerB msg)) with
          | none => none
          | some (a, effects) =>
              let sent := wires ends.senderB effects
              some ({ link with a := a, toA := rest, toB := link.toB ++ sent },
                sent.map .fromA)
  | .b =>
      match link.toB with
      | [] => none
      | msg :: rest =>
          match link.b.next (i.1, .message (.net ends.peerA msg)) with
          | none => none
          | some (b, effects) =>
              let sent := wires ends.senderA effects
              some ({ link with b := b, toB := rest, toA := link.toA ++ sent },
                sent.map .fromB)

/-! ## Requests and pages in order -/

namespace Link

/-- The `i`-th request. -/
def nextRequest (base i : Nat) : UInt64 × UInt32 :=
  (UInt64.ofNat (base + 256 * i + 1), 256)

/-- The `i`-th page. -/
def nextPageOf (blocks : List Block) (base i : Nat) : List Block :=
  (blocks.drop (base + 256 * i + 1)).take 256

omit [Primitives] in
theorem length_nextPageOf (blocks : List Block) (base i : Nat) :
    (nextPageOf blocks base i).length =
      min 256 (blocks.length - (base + 256 * i + 1)) := by
  unfold nextPageOf
  rw [List.length_take, List.length_drop]

/-- As many requests and replies as given were put on the link, each the next
one in order. -/
structure Wrote (blocks : List Block) (base asked answered : Nat)
    (out : List Wire) : Prop where
  requests_eq : requests out = (List.range asked).map (nextRequest base)
  replies_eq :
    replies out = (List.range answered).map (nextPageOf blocks base)

variable {blocks : List Block} {base asked answered : Nat} {out more : List Wire}

omit [Primitives] in
theorem Wrote.append (h : Wrote blocks base asked answered out)
    (hrequests : requests more = []) (hreplies : replies more = []) :
    Wrote blocks base asked answered (out ++ more) where
  requests_eq := by
    rw [requests, List.filterMap_append]
    exact (congrArg₂ _ h.requests_eq hrequests).trans (List.append_nil _)
  replies_eq := by
    rw [replies, List.filterMap_append]
    exact (congrArg₂ _ h.replies_eq hreplies).trans (List.append_nil _)

omit [Primitives] in
/-- Other messages and one more request. -/
theorem Wrote.ask (h : Wrote blocks base asked answered out)
    (hrequests : requests more = []) (hreplies : replies more = []) :
    Wrote blocks base (asked + 1) answered
      (out ++ (more ++ [.fromA (.getBlocks (nextRequest base asked).1
        (nextRequest base asked).2)])) where
  requests_eq := by
    rw [← List.append_assoc, requests, List.filterMap_append, List.range_succ,
      List.map_append]
    exact congrArg₂ _ (h.append hrequests hreplies).requests_eq rfl
  replies_eq := by
    rw [← List.append_assoc, replies, List.filterMap_append]
    exact (congrArg₂ _ (h.append hrequests hreplies).replies_eq rfl).trans
      (List.append_nil _)

omit [Primitives] in
/-- One more page. -/
theorem Wrote.answer (h : Wrote blocks base asked answered out) :
    Wrote blocks base asked (answered + 1)
      (out ++ [.fromB (.blocks (nextPageOf blocks base answered))]) where
  requests_eq := by
    rw [requests, List.filterMap_append]
    exact (congrArg₂ _ h.requests_eq rfl).trans (List.append_nil _)
  replies_eq := by
    rw [replies, List.filterMap_append, List.range_succ, List.map_append]
    exact congrArg₂ _ h.replies_eq rfl

/-! ## The measure -/

/-- The measure of the exchange: the messages on their way, and what the blocks
that `a` misses will put on the link. -/
def remaining (total copies : Nat) (link : Link) : Nat :=
  load link.toA + load link.toB +
    (total - link.a.chain.blocks.length) * (copies + 1)

omit [Primitives] in
/-- A page makes the measure smaller: what it puts on the link is less than
what its blocks counted for. -/
theorem remaining_lt {total height copies length count extra : Nat}
    (hfits : height + length + 1 ≤ total) (hcount : count ≤ length * copies)
    (hextra : extra ≤ length) :
    count + extra + (total - (height + length + 1)) * (copies + 1) <
      1 + (total - (height + 1)) * (copies + 1) := by
  have hsplit : total - (height + 1) =
      (total - (height + length + 1)) + length := by omega
  rw [hsplit, Nat.add_mul, Nat.mul_add length copies 1]
  omega

/-! ## Deliveries -/

/-- The link after `a` took a message. -/
def tookA (ends : Ends) (env : Env) (link : Link) (msg : ProtocolMessage)
    (rest : List ProtocolMessage) : Link :=
  { link with
    a := (link.a.onMessage env (.net ends.peerB msg)).node
    toA := rest
    toB := link.toB ++ wires ends.senderB
      (link.a.onMessage env (.net ends.peerB msg)).effects }

/-- What `a` puts on the link when it takes a message. -/
def putA (ends : Ends) (env : Env) (link : Link) (msg : ProtocolMessage) :
    List Wire :=
  (wires ends.senderB (link.a.onMessage env (.net ends.peerB msg)).effects).map
    .fromA

/-- The link after `b` took a message. -/
def tookB (ends : Ends) (env : Env) (link : Link) (msg : ProtocolMessage)
    (rest : List ProtocolMessage) : Link :=
  { link with
    b := (link.b.onMessage env (.net ends.peerA msg)).node
    toB := rest
    toA := link.toA ++ wires ends.senderA
      (link.b.onMessage env (.net ends.peerA msg)).effects }

/-- What `b` puts on the link when it takes a message. -/
def putB (ends : Ends) (env : Env) (link : Link) (msg : ProtocolMessage) :
    List Wire :=
  (wires ends.senderA (link.b.onMessage env (.net ends.peerA msg)).effects).map
    .fromB

variable {ends : Ends} {link last : Link} {env : Env} {msg : ProtocolMessage}
  {rest : List ProtocolMessage}

theorem next_eq_some_a (h : ends.next link (env, .a) = some (last, more)) :
    ∃ msg rest, link.toA = msg :: rest ∧ last = tookA ends env link msg rest ∧
      more = putA ends env link msg := by
  unfold Ends.next at h
  dsimp only at h
  split at h
  · cases h
  · rename_i msg rest htoA
    split at h
    · cases h
    · rename_i a effects hnext
      obtain ⟨rfl, rfl, -⟩ := Node.next_eq_some hnext
      cases h
      exact ⟨msg, rest, htoA, rfl, rfl⟩

theorem next_eq_some_b (h : ends.next link (env, .b) = some (last, more)) :
    ∃ msg rest, link.toB = msg :: rest ∧ last = tookB ends env link msg rest ∧
      more = putB ends env link msg := by
  unfold Ends.next at h
  dsimp only at h
  split at h
  · cases h
  · rename_i msg rest htoB
    split at h
    · cases h
    · rename_i b effects hnext
      obtain ⟨rfl, rfl, -⟩ := Node.next_eq_some hnext
      cases h
      exact ⟨msg, rest, htoB, rfl, rfl⟩

theorem next_isSome_a (htoA : link.toA = msg :: rest)
    (hlength : (tookA ends env link msg rest).a.chain.blocks.length ≤
      MAX_VEC_LEN) : (ends.next link (env, .a)).isSome := by
  have hnext := Node.next_of_length_le
    (i := (env, .message (.net ends.peerB msg))) hlength
  unfold Ends.next
  dsimp only
  rw [htoA]
  dsimp only
  rw [hnext]
  rfl

theorem next_isSome_b (htoB : link.toB = msg :: rest)
    (hlength : (tookB ends env link msg rest).b.chain.blocks.length ≤
      MAX_VEC_LEN) : (ends.next link (env, .b)).isSome := by
  have hnext := Node.next_of_length_le
    (i := (env, .message (.net ends.peerA msg))) hlength
  unfold Ends.next
  dsimp only
  rw [htoB]
  dsimp only
  rw [hnext]
  rfl

/-- Nothing is on its way any more. -/
def Quiet (link : Link) : Prop := link.toA = [] ∧ link.toB = []

end Link

/-! ## The stages of an exchange -/

/-- An exchange that can be completed: `a` has the blocks of `chain` up to
height `base`, and knows `b`. -/
structure Exchange where
  ends : Ends
  /-- the chain of `b` -/
  chain : BlockChain
  valid : Block → Block → Prop
  /-- the peers of `a` -/
  peers : HashMap UInt32 Sender
  base : Nat
  target : Node.Target valid chain.blocks
  peerB : peers.lookup ends.peerB = some ends.senderB

namespace Exchange

open Link

/-- The height of the chain of `b`. -/
def top (ex : Exchange) : Nat := ex.chain.blocks.length - 1

/-- What is on its way to `b` beside requests: what registration puts there, and
the blocks that `a` relays. -/
def Chatter (ex : Exchange) (msg : ProtocolMessage) : Prop :=
  Aside ex.top msg ∨ ∃ b ∈ ex.chain.blocks, msg = .block b

/-- How far `a` is, that `b` has the whole chain, and the messages of the
paging that are on their way. -/
structure At (ex : Exchange) (height : Nat)
    (mainA mainB : List ProtocolMessage) (link : Link) : Prop where
  behind : Node.Catching ex.chain.blocks ex.valid ex.peers height link.a
  ahead : Node.Serving ex.ends.peerA ex.ends.senderA ex.chain link.b
  toA : Carries (Aside ex.top) mainA link.toA
  toB : Carries ex.Chatter mainB link.toB

/-- A status of `b` is on its way. -/
structure Greeted (ex : Exchange) (link : Link) (out : List Wire) : Prop
    extends At ex ex.base [] [] link where
  idle : link.a.isSyncing = false
  greeting : ∃ height hash, ex.base < UInt64.toNat height ∧
    ProtocolMessage.status height hash ∈ link.toA
  wrote : Wrote ex.chain.blocks ex.base 0 0 out

/-- A request is on its way. -/
structure Asked (ex : Exchange) (pages : Nat) (link : Link) (out : List Wire) :
    Prop extends At ex (ex.base + 256 * pages) []
      [.getBlocks (nextRequest ex.base pages).1
        (nextRequest ex.base pages).2] link where
  syncing : link.a.isSyncing = true
  syncPeer_eq : link.a.syncPeer = some ex.ends.peerB
  wrote : Wrote ex.chain.blocks ex.base (pages + 1) pages out

/-- A page is on its way. -/
structure Answered (ex : Exchange) (pages : Nat) (link : Link)
    (out : List Wire) : Prop
    extends At ex (ex.base + 256 * pages)
      [.blocks (nextPageOf ex.chain.blocks ex.base pages)] [] link where
  syncing : link.a.isSyncing = true
  syncPeer_eq : link.a.syncPeer = some ex.ends.peerB
  wrote : Wrote ex.chain.blocks ex.base (pages + 1) (pages + 1) out

/-- `a` has everything. -/
structure CaughtUp (ex : Exchange) (pages : Nat) (link : Link)
    (out : List Wire) : Prop extends At ex ex.top [] [] link where
  idle : link.a.isSyncing = false
  syncPeer_eq : link.a.syncPeer = none
  pages_eq : (ex.top - ex.base) / 256 = pages
  wrote : Wrote ex.chain.blocks ex.base (pages + 1) (pages + 1) out

/-- Where an exchange is. -/
inductive Stage (ex : Exchange) (link : Link) (out : List Wire) : Prop where
  | greeted (h : Greeted ex link out)
  | asked (pages : Nat) (h : Asked ex pages link out)
  | answered (pages : Nat) (h : Answered ex pages link out)
  | caughtUp (pages : Nat) (h : CaughtUp ex pages link out)

/-- The measure of an exchange. -/
def remaining (ex : Exchange) (link : Link) : Nat :=
  link.remaining ex.chain.blocks.length ex.peers.keys.length

variable {ex : Exchange} {link last : Link} {out more : List Wire}
  {msg : ProtocolMessage} {rest : List ProtocolMessage} {height pages : Nat}
  {mainA mainB : List ProtocolMessage}

theorem remaining_lt_of_load (ha : last.a = link.a)
    (hload : load last.toA + load last.toB < load link.toA + load link.toB) :
    ex.remaining last < ex.remaining link := by
  unfold remaining Link.remaining
  rw [ha]
  exact Nat.add_lt_add_right hload _

/-! ### Messages beside the paging -/

/-- A delivery that leaves the exchange where it is. -/
structure Chatted (ex : Exchange) (height : Nat)
    (mainA mainB : List ProtocolMessage) (link last : Link)
    (more : List Wire) : Prop extends At ex height mainA mainB last where
  a_eq : last.a = link.a
  requests_eq : requests more = []
  replies_eq : replies more = []
  less : ex.remaining last < ex.remaining link

theorem At.height_le_top (h : At ex height mainA mainB link) :
    height ≤ ex.top := by
  have hlt := h.behind.height_lt
  unfold top
  omega

/-- `a` takes a message that registration put on the link. -/
theorem At.chat_a (h : At ex height mainA mainB link)
    (htoA : link.toA = msg :: rest) (haside : Aside ex.top msg)
    (hrest : Carries (Aside ex.top) mainA rest)
    (hstay : link.a.isSyncing = true ∨ Aside height msg) (env : Env) :
    Chatted ex height mainA mainB link (tookA ex.ends env link msg rest)
      (putA ex.ends env link msg) := by
  have hheight := h.behind.height_eq ex.target
  have hpeer : link.a.peers.lookup ex.ends.peerB = some ex.ends.senderB := by
    rw [h.behind.peers_eq]
    exact ex.peerB
  rw [← hheight] at hstay
  have htop : link.a.chain.getHeight.toNat ≤ ex.top :=
    hheight ▸ h.height_le_top
  obtain ⟨effects, hreaction, hasides, hload⟩ :=
    Node.onMessage_aside hpeer htop haside hstay env
  unfold tookA putA
  rw [hreaction]
  refine ⟨⟨h.behind, h.ahead, hrest, ?_⟩, rfl, ?_, replies_fromA, ?_⟩
  · apply h.toB.append_others
    intro reply hreply
    exact .inl (hasides reply hreply)
  · exact requests_asides hasides
  · apply remaining_lt_of_load
    · rfl
    show load rest + load (link.toB ++ wires ex.ends.senderB effects) < _
    rw [htoA, load_cons, load_append]
    omega

/-- `b` takes a message that is no request. -/
theorem At.chat_b (h : At ex height mainA mainB link)
    (htoB : link.toB = msg :: rest) (hchatter : ex.Chatter msg)
    (hrest : Carries ex.Chatter mainB rest) (env : Env) :
    Chatted ex height mainA mainB link (tookB ex.ends env link msg rest)
      (putB ex.ends env link msg) := by
  obtain ⟨node, effects, hreaction, hahead, hasides, hload⟩ :
      ∃ node effects, link.b.onMessage env (.net ex.ends.peerA msg) =
        ⟨node, effects⟩ ∧
        Node.Serving ex.ends.peerA ex.ends.senderA ex.chain node ∧
        (∀ reply ∈ wires ex.ends.senderA effects, Aside ex.top reply) ∧
        load (wires ex.ends.senderA effects) < weight msg := by
    have htop := h.ahead.height_eq ex.target
    change _ = ex.top at htop
    rcases hchatter with haside | ⟨block, hblock, rfl⟩
    · obtain ⟨effects, hreaction, hreplies⟩ := Node.onMessage_aside
        h.ahead.peer htop.le haside (.inr (htop ▸ haside)) env
      exact ⟨link.b, effects, hreaction, h.ahead, hreplies⟩
    · obtain ⟨node, hreaction, hahead⟩ :=
        h.ahead.onBlock ex.target env ex.ends.peerA hblock
      exact ⟨node, [], hreaction, hahead, by simp [wires], Nat.one_pos⟩
  unfold tookB putB
  rw [hreaction]
  refine ⟨⟨h.behind, hahead, ?_, hrest⟩, rfl, requests_fromB, ?_, ?_⟩
  · exact h.toA.append_others hasides
  · exact replies_asides hasides
  · apply remaining_lt_of_load
    · rfl
    show load (link.toA ++ wires ex.ends.senderA effects) + load rest < _
    rw [htoB, load_cons, load_append]
    omega

theorem Asked.of_chatted (h : Asked ex pages link out)
    (hlast : Chatted ex (ex.base + 256 * pages) [] [.getBlocks
      (nextRequest ex.base pages).1 (nextRequest ex.base pages).2]
      link last more) : Asked ex pages last (out ++ more) where
  toAt := hlast.toAt
  syncing := hlast.a_eq ▸ h.syncing
  syncPeer_eq := hlast.a_eq ▸ h.syncPeer_eq
  wrote := h.wrote.append hlast.requests_eq hlast.replies_eq

theorem Answered.of_chatted (h : Answered ex pages link out)
    (hlast : Chatted ex (ex.base + 256 * pages)
      [.blocks (nextPageOf ex.chain.blocks ex.base pages)] []
      link last more) : Answered ex pages last (out ++ more) where
  toAt := hlast.toAt
  syncing := hlast.a_eq ▸ h.syncing
  syncPeer_eq := hlast.a_eq ▸ h.syncPeer_eq
  wrote := h.wrote.append hlast.requests_eq hlast.replies_eq

theorem CaughtUp.of_chatted (h : CaughtUp ex pages link out)
    (hlast : Chatted ex ex.top [] [] link last more) :
    CaughtUp ex pages last (out ++ more) where
  toAt := hlast.toAt
  idle := hlast.a_eq ▸ h.idle
  syncPeer_eq := hlast.a_eq ▸ h.syncPeer_eq
  pages_eq := h.pages_eq
  wrote := h.wrote.append hlast.requests_eq hlast.replies_eq

/-! ### One delivery -/

/-- The status arrives: the first request is on its way. -/
theorem Greeted.step_status (h : Greeted ex link out) {top : UInt64}
    {hash : Hash32Type} (htoA : link.toA = .status top hash :: rest)
    (htop : ex.base < top.toNat) (hrest : Carries (Aside ex.top) [] rest)
    (env : Env) :
    Asked ex 0 (tookA ex.ends env link (.status top hash) rest)
        (out ++ putA ex.ends env link (.status top hash)) ∧
      ex.remaining (tookA ex.ends env link (.status top hash) rest) <
        ex.remaining link := by
  obtain ⟨node, hreaction, hbehind, hsyncing, hsyncPeer⟩ :=
    h.behind.onStatus ex.target env ex.peerB h.idle hash htop
  have hwires : wires ex.ends.senderB [.send ex.ends.peerB ex.ends.senderB
      (.getBlocks (UInt64.ofNat (ex.base + 1)) 256)] =
      [.getBlocks (nextRequest ex.base 0).1 (nextRequest ex.base 0).2] := by
    simp [wires, nextRequest]
  have hrequests : requests [] = [] := rfl
  have hreplies : replies [] = [] := rfl
  unfold tookA putA
  rw [hreaction, hwires]
  constructor
  · refine ⟨⟨hbehind, h.ahead, hrest, ?_⟩, hsyncing, hsyncPeer, ?_⟩
    · exact h.toB.append (.take .nil)
    · exact h.wrote.ask hrequests hreplies
  · show load rest + load (link.toB ++ [_]) +
      (_ - node.chain.blocks.length) * _ < load link.toA + load link.toB + _
    rw [hbehind.length_eq, h.behind.length_eq, htoA, load_append]
    simp only [load_cons, load_nil, weight]
    omega

/-- `a` takes a message before the sync: the status that starts it, or another
one. -/
theorem Greeted.step_a (h : Greeted ex link out)
    (htoA : link.toA = msg :: rest) (env : Env) :
    Stage ex (tookA ex.ends env link msg rest)
        (out ++ putA ex.ends env link msg) ∧
      ex.remaining (tookA ex.ends env link msg rest) < ex.remaining link := by
  have hcarries := h.toA
  rw [htoA] at hcarries
  cases hcarries with
  | skip haside hrest =>
      by_cases hlow : Aside ex.base msg
      · have hlast := h.chat_a htoA haside hrest (.inr hlow) env
        refine ⟨.greeted ⟨hlast.toAt, hlast.a_eq ▸ h.idle, ?_,
          h.wrote.append hlast.requests_eq hlast.replies_eq⟩, hlast.less⟩
        obtain ⟨top, hash, htop, hmem⟩ := h.greeting
        refine ⟨top, hash, htop, ?_⟩
        rw [htoA] at hmem
        rcases List.mem_cons.mp hmem with rfl | hmem
        · cases hlow with
          | status _ hle => omega
        · exact hmem
      · cases haside with
        | hello id pubkey => exact absurd (.hello id pubkey) hlow
        | helloAck id => exact absurd (.helloAck id) hlow
        | getStatus => exact absurd .getStatus hlow
        | @status top hash hle =>
            have htop : ex.base < top.toNat := by
              by_contra hge
              exact hlow (.status hash (Nat.le_of_not_lt hge))
            obtain ⟨hasked, hless⟩ := h.step_status htoA htop hrest env
            exact ⟨.asked 0 hasked, hless⟩

theorem Greeted.step_b (h : Greeted ex link out)
    (htoB : link.toB = msg :: rest) (env : Env) :
    Greeted ex (tookB ex.ends env link msg rest)
        (out ++ putB ex.ends env link msg) ∧
      ex.remaining (tookB ex.ends env link msg rest) < ex.remaining link := by
  have hcarries := h.toB
  rw [htoB] at hcarries
  cases hcarries with
  | skip hchatter hrest =>
      have hlast := h.chat_b htoB hchatter hrest env
      obtain ⟨top, hash, htop, hmem⟩ := h.greeting
      exact ⟨⟨hlast.toAt, hlast.a_eq ▸ h.idle,
        ⟨top, hash, htop, List.mem_append_left _ hmem⟩,
        h.wrote.append hlast.requests_eq hlast.replies_eq⟩, hlast.less⟩

theorem Asked.step_a (h : Asked ex pages link out)
    (htoA : link.toA = msg :: rest) (env : Env) :
    Asked ex pages (tookA ex.ends env link msg rest)
        (out ++ putA ex.ends env link msg) ∧
      ex.remaining (tookA ex.ends env link msg rest) < ex.remaining link := by
  have hcarries := h.toA
  rw [htoA] at hcarries
  cases hcarries with
  | skip haside hrest =>
      have hlast := h.chat_a htoA haside hrest (.inl h.syncing) env
      exact ⟨h.of_chatted hlast, hlast.less⟩

/-- `b` takes the request, and the page is on its way; or it takes another
message. -/
theorem Asked.step_b (h : Asked ex pages link out)
    (htoB : link.toB = msg :: rest) (env : Env) :
    Stage ex (tookB ex.ends env link msg rest)
        (out ++ putB ex.ends env link msg) ∧
      ex.remaining (tookB ex.ends env link msg rest) < ex.remaining link := by
  have hcarries := h.toB
  rw [htoB] at hcarries
  cases hcarries with
  | skip hchatter hrest =>
      have hlast := h.chat_b htoB hchatter hrest env
      exact ⟨.asked pages (h.of_chatted hlast), hlast.less⟩
  | take hrest =>
      have hpage : wires ex.ends.senderA [.send ex.ends.peerA ex.ends.senderA
          (.blocks ((ex.chain.blocks.drop
            (ex.base + 256 * pages + 1)).take 256))] =
          [.blocks (nextPageOf ex.chain.blocks ex.base pages)] := by
        simp [wires, nextPageOf]
      unfold tookB putB nextRequest
      rw [h.ahead.onGetBlocks env (h.behind.page_fits ex.target), hpage]
      constructor
      · refine .answered pages ⟨⟨h.behind, h.ahead, ?_, hrest⟩, h.syncing,
          h.syncPeer_eq, h.wrote.answer⟩
        exact h.toA.append (.take .nil)
      · apply remaining_lt_of_load
        · rfl
        show load (link.toA ++ [_]) + load rest < load link.toA + load link.toB
        rw [htoB, load_append]
        simp only [load_cons, load_nil, weight]
        omega

/-- `a` appends the page and relays its blocks; what follows is the paging. -/
theorem Answered.handled (h : Answered ex pages link out) (env : Env) :
    ∃ mid effects,
      Node.Catching ex.chain.blocks ex.valid ex.peers (ex.base + 256 * pages +
        (nextPageOf ex.chain.blocks ex.base pages).length) mid ∧
      (mid.isSyncing = true ∧ mid.syncPeer = some ex.ends.peerB) ∧
      Node.Relays ex.chain.blocks ((nextPageOf ex.chain.blocks ex.base
        pages).length * ex.peers.keys.length) ex.ends.senderB effects ∧
      link.a.onMessage env (.net ex.ends.peerB
          (.blocks (nextPageOf ex.chain.blocks ex.base pages))) =
        ⟨(mid.nextPage ex.ends.peerB
            (nextPageOf ex.chain.blocks ex.base pages)).node,
          effects ++ (mid.nextPage ex.ends.peerB
            (nextPageOf ex.chain.blocks ex.base pages)).effects⟩ := by
  have hpage : nextPageOf ex.chain.blocks ex.base pages <+:
      ex.chain.blocks.drop (ex.base + 256 * pages + 1) :=
    List.take_prefix _ _
  obtain ⟨mid, effects, hmid, hsync, hsyncTo, hrelays, hblocks⟩ :=
    h.behind.onBlocks_eq ex.target env ex.ends.peerB hpage
  exact ⟨mid, effects, hmid,
    ⟨hsync.trans h.syncing, hsyncTo.trans h.syncPeer_eq⟩,
    hrelays ex.ends.senderB, hblocks⟩

/-- A full page arrives: the next request is on its way after the relayed
blocks. -/
theorem Answered.step_full (h : Answered ex pages link out)
    (htoA : link.toA =
      .blocks (nextPageOf ex.chain.blocks ex.base pages) :: rest)
    (hrest : Carries (Aside ex.top) [] rest)
    (hfull : (nextPageOf ex.chain.blocks ex.base pages).length = 256)
    (env : Env) :
    Asked ex (pages + 1) (tookA ex.ends env link
          (.blocks (nextPageOf ex.chain.blocks ex.base pages)) rest)
        (out ++ putA ex.ends env link
          (.blocks (nextPageOf ex.chain.blocks ex.base pages))) ∧
      ex.remaining (tookA ex.ends env link
          (.blocks (nextPageOf ex.chain.blocks ex.base pages)) rest) <
        ex.remaining link := by
  obtain ⟨mid, effects, hmid, hmine, hrelays, hblocks⟩ := h.handled env
  obtain ⟨hbehind, heffects, hsyncing, hsyncPeer⟩ :=
    hmid.nextPage_full ex.target ex.peerB hmine hfull
  have hask : wires ex.ends.senderB [.send ex.ends.peerB ex.ends.senderB
      (.getBlocks (UInt64.ofNat (ex.base + 256 * pages +
        (nextPageOf ex.chain.blocks ex.base pages).length + 1)) 256)] =
      [.getBlocks (nextRequest ex.base (pages + 1)).1
        (nextRequest ex.base (pages + 1)).2] := by
    simp [wires, nextRequest, hfull, Nat.mul_add, Nat.add_assoc]
  have hchatter : ∀ msg ∈ wires ex.ends.senderB effects, ex.Chatter msg := by
    intro msg hmsg
    exact .inr (hrelays.mem msg hmsg)
  have hheight : ex.base + 256 * pages +
      (nextPageOf ex.chain.blocks ex.base pages).length =
        ex.base + 256 * (pages + 1) := by omega
  unfold tookA putA
  rw [hblocks, heffects, Node.wires_append, hask, List.map_append]
  constructor
  · refine ⟨⟨hheight ▸ hbehind, h.ahead, hrest, ?_⟩, hsyncing, hsyncPeer, ?_⟩
    · rw [← List.append_assoc]
      exact (h.toB.append_others hchatter).append (.take .nil)
    · exact h.wrote.ask (requests_blocks hrelays.mem) replies_fromA
  · have hless := remaining_lt hbehind.height_lt hrelays.length_le
      (by omega : 2 ≤ (nextPageOf ex.chain.blocks ex.base pages).length)
    have hlength := hbehind.length_eq
    unfold remaining Link.remaining
    rw [h.behind.length_eq, htoA]
    simp only [load_append, load_blocks hrelays.mem, load_cons, load_nil,
      weight]
    rw [hlength]
    omega

/-- A shorter page arrives: everything is there. -/
theorem Answered.step_last (h : Answered ex pages link out)
    (htoA : link.toA =
      .blocks (nextPageOf ex.chain.blocks ex.base pages) :: rest)
    (hrest : Carries (Aside ex.top) [] rest)
    (hshort : (nextPageOf ex.chain.blocks ex.base pages).length < 256)
    (env : Env) :
    CaughtUp ex pages (tookA ex.ends env link
          (.blocks (nextPageOf ex.chain.blocks ex.base pages)) rest)
        (out ++ putA ex.ends env link
          (.blocks (nextPageOf ex.chain.blocks ex.base pages))) ∧
      ex.remaining (tookA ex.ends env link
          (.blocks (nextPageOf ex.chain.blocks ex.base pages)) rest) <
        ex.remaining link := by
  obtain ⟨mid, effects, hmid, hmine, hrelays, hblocks⟩ := h.handled env
  obtain ⟨hbehind, heffects, hidle, hsyncPeer⟩ :=
    hmid.nextPage_short hmine hshort
  have hchatter : ∀ msg ∈ wires ex.ends.senderB effects, ex.Chatter msg := by
    intro msg hmsg
    exact .inr (hrelays.mem msg hmsg)
  have hlength := length_nextPageOf ex.chain.blocks ex.base pages
  have hlt := h.behind.height_lt
  have htop : ex.base + 256 * pages +
      (nextPageOf ex.chain.blocks ex.base pages).length = ex.top := by
    unfold top
    omega
  have hpages : (ex.top - ex.base) / 256 = pages := by omega
  unfold tookA putA
  rw [hblocks, heffects, List.append_nil]
  constructor
  · refine ⟨⟨htop ▸ hbehind, h.ahead, hrest, ?_⟩, hidle, hsyncPeer, hpages, ?_⟩
    · exact h.toB.append_others hchatter
    · exact h.wrote.append (requests_blocks hrelays.mem) replies_fromA
  · have hless := remaining_lt hbehind.height_lt hrelays.length_le
      (Nat.zero_le _)
    have hafter := hbehind.length_eq
    unfold remaining Link.remaining
    rw [h.behind.length_eq, htoA]
    simp only [load_append, load_blocks hrelays.mem, load_cons, weight]
    rw [hafter]
    omega

/-- `a` takes the page, or another message. -/
theorem Answered.step_a (h : Answered ex pages link out)
    (htoA : link.toA = msg :: rest) (env : Env) :
    Stage ex (tookA ex.ends env link msg rest)
        (out ++ putA ex.ends env link msg) ∧
      ex.remaining (tookA ex.ends env link msg rest) < ex.remaining link := by
  have hcarries := h.toA
  rw [htoA] at hcarries
  cases hcarries with
  | skip haside hrest =>
      have hlast := h.chat_a htoA haside hrest (.inl h.syncing) env
      exact ⟨.answered pages (h.of_chatted hlast), hlast.less⟩
  | take hrest =>
      have hlength := length_nextPageOf ex.chain.blocks ex.base pages
      rcases Nat.lt_or_eq_of_le (by omega : (nextPageOf ex.chain.blocks
        ex.base pages).length ≤ 256) with hshort | hfull
      · obtain ⟨hcaught, hless⟩ := h.step_last htoA hrest hshort env
        exact ⟨.caughtUp pages hcaught, hless⟩
      · obtain ⟨hasked, hless⟩ := h.step_full htoA hrest hfull env
        exact ⟨.asked (pages + 1) hasked, hless⟩

theorem Answered.step_b (h : Answered ex pages link out)
    (htoB : link.toB = msg :: rest) (env : Env) :
    Answered ex pages (tookB ex.ends env link msg rest)
        (out ++ putB ex.ends env link msg) ∧
      ex.remaining (tookB ex.ends env link msg rest) < ex.remaining link := by
  have hcarries := h.toB
  rw [htoB] at hcarries
  cases hcarries with
  | skip hchatter hrest =>
      have hlast := h.chat_b htoB hchatter hrest env
      exact ⟨h.of_chatted hlast, hlast.less⟩

theorem CaughtUp.step_a (h : CaughtUp ex pages link out)
    (htoA : link.toA = msg :: rest) (env : Env) :
    CaughtUp ex pages (tookA ex.ends env link msg rest)
        (out ++ putA ex.ends env link msg) ∧
      ex.remaining (tookA ex.ends env link msg rest) < ex.remaining link := by
  have hcarries := h.toA
  rw [htoA] at hcarries
  cases hcarries with
  | skip haside hrest =>
      have hlast := h.chat_a htoA haside hrest (.inr haside) env
      exact ⟨h.of_chatted hlast, hlast.less⟩

/-- `b` takes the blocks that `a` relayed last, or another message. -/
theorem CaughtUp.step_b (h : CaughtUp ex pages link out)
    (htoB : link.toB = msg :: rest) (env : Env) :
    CaughtUp ex pages (tookB ex.ends env link msg rest)
        (out ++ putB ex.ends env link msg) ∧
      ex.remaining (tookB ex.ends env link msg rest) < ex.remaining link := by
  have hcarries := h.toB
  rw [htoB] at hcarries
  cases hcarries with
  | skip hchatter hrest =>
      have hlast := h.chat_b htoB hchatter hrest env
      exact ⟨h.of_chatted hlast, hlast.less⟩

/-- Whatever `a` takes, the exchange is at a stage, with a smaller measure. -/
theorem Stage.step_a (h : Stage ex link out) (htoA : link.toA = msg :: rest)
    (env : Env) :
    Stage ex (tookA ex.ends env link msg rest)
        (out ++ putA ex.ends env link msg) ∧
      ex.remaining (tookA ex.ends env link msg rest) < ex.remaining link := by
  cases h with
  | greeted h => exact h.step_a htoA env
  | asked pages h =>
      obtain ⟨hlast, hless⟩ := h.step_a htoA env
      exact ⟨.asked pages hlast, hless⟩
  | answered pages h => exact h.step_a htoA env
  | caughtUp pages h =>
      obtain ⟨hlast, hless⟩ := h.step_a htoA env
      exact ⟨.caughtUp pages hlast, hless⟩

/-- Whatever `b` takes, the exchange is at a stage, with a smaller measure. -/
theorem Stage.step_b (h : Stage ex link out) (htoB : link.toB = msg :: rest)
    (env : Env) :
    Stage ex (tookB ex.ends env link msg rest)
        (out ++ putB ex.ends env link msg) ∧
      ex.remaining (tookB ex.ends env link msg rest) < ex.remaining link := by
  cases h with
  | greeted h =>
      obtain ⟨hlast, hless⟩ := h.step_b htoB env
      exact ⟨.greeted hlast, hless⟩
  | asked pages h => exact h.step_b htoB env
  | answered pages h =>
      obtain ⟨hlast, hless⟩ := h.step_b htoB env
      exact ⟨.answered pages hlast, hless⟩
  | caughtUp pages h =>
      obtain ⟨hlast, hless⟩ := h.step_b htoB env
      exact ⟨.caughtUp pages hlast, hless⟩

/-! ### Whole runs -/

/-- At every stage the two chains are within what a node can hold. -/
theorem Stage.length_le (h : Stage ex link out) :
    link.a.chain.blocks.length ≤ MAX_VEC_LEN ∧
      link.b.chain.blocks.length ≤ MAX_VEC_LEN := by
  cases h with
  | greeted h =>
      exact ⟨h.behind.length_le ex.target, h.ahead.length_le ex.target⟩
  | asked pages h =>
      exact ⟨h.behind.length_le ex.target, h.ahead.length_le ex.target⟩
  | answered pages h =>
      exact ⟨h.behind.length_le ex.target, h.ahead.length_le ex.target⟩
  | caughtUp pages h =>
      exact ⟨h.behind.length_le ex.target, h.ahead.length_le ex.target⟩

/-- As long as a message is on its way, one can be delivered. -/
theorem Stage.progress (h : Stage ex link out) (hbusy : ¬ link.Quiet) :
    ∃ receiver, ∀ env, (ex.ends.next link (env, receiver)).isSome := by
  cases htoA : link.toA with
  | cons msg rest =>
      refine ⟨.a, fun env => next_isSome_a htoA ?_⟩
      exact (h.step_a htoA env).1.length_le.1
  | nil =>
      cases htoB : link.toB with
      | cons msg rest =>
          refine ⟨.b, fun env => next_isSome_b htoB ?_⟩
          exact (h.step_b htoB env).1.length_le.2
      | nil => exact absurd ⟨htoA, htoB⟩ hbusy

/-- Once the link is quiet, everything is there. -/
theorem Stage.caughtUp_of_quiet (h : Stage ex link out) (hquiet : link.Quiet) :
    ∃ pages, CaughtUp ex pages link out := by
  obtain ⟨htoA, htoB⟩ := hquiet
  cases h with
  | greeted h =>
      obtain ⟨height, hash, -, hmem⟩ := h.greeting
      rw [htoA] at hmem
      cases hmem
  | asked pages h =>
      have hcarries := h.toB
      rw [htoB] at hcarries
      cases hcarries
  | answered pages h =>
      have hcarries := h.toA
      rw [htoA] at hcarries
      cases hcarries
  | caughtUp pages h => exact ⟨pages, h⟩

/-- The requests and the pages of a stage. -/
theorem Stage.wrote (h : Stage ex link out) :
    ∃ asked answered, Wrote ex.chain.blocks ex.base asked answered out := by
  cases h with
  | greeted h => exact ⟨_, _, h.wrote⟩
  | asked pages h => exact ⟨_, _, h.wrote⟩
  | answered pages h => exact ⟨_, _, h.wrote⟩
  | caughtUp pages h => exact ⟨_, _, h.wrote⟩

theorem Stage.step (h : Stage ex link out) {i : Env × Receiver}
    (hnext : ex.ends.next link i = some (last, more)) :
    Stage ex last (out ++ more) ∧ ex.remaining last < ex.remaining link := by
  obtain ⟨env, receiver⟩ := i
  cases receiver with
  | a =>
      obtain ⟨msg, rest, htoA, rfl, rfl⟩ := next_eq_some_a hnext
      exact h.step_a htoA env
  | b =>
      obtain ⟨msg, rest, htoB, rfl, rfl⟩ := next_eq_some_b hnext
      exact h.step_b htoB env

/-- A run of deliveries is at a stage, and no longer than the measure it starts
with. -/
theorem run_stage {first : Link} (hfirst : ex.Stage first [])
    {inputs : List (Env × Receiver)}
    (hrun : Run ex.ends.next first inputs link out) :
    ex.Stage link out ∧ inputs.length ≤ ex.remaining first := by
  have hstep : ∀ s outputs (i : Env × Receiver) t more, ex.Stage s outputs →
      ex.ends.next s i = some (t, more) →
      ex.Stage t (outputs ++ more) ∧ ex.remaining t < ex.remaining s := by
    intro s outputs i t more hs hnext
    exact hs.step hnext
  constructor
  · apply hrun.invariant_outputs hfirst
    intro s outputs i t more hs hnext
    exact (hstep s outputs i t more hs hnext).1
  · have hlength := hrun.length_add_le hfirst hstep
    omega

end Exchange

/-! ## The exchange of two reachable nodes -/

namespace Node

/-- The chain of a reachable node is something to catch up with. -/
theorem target_of_run {netId : UInt32} {seed : Seed} {chainId : UInt64}
    {consensus : PoAConsensus} {node : Node} {inputs : List (Env × Input)}
    {effects : List Effect}
    (hrun : Run Node.next
      (Node.new netId seed (BlockChain.new chainId) consensus) inputs node
      effects)
    (hinj : Set.InjOn calcHash (headerInputs node.chain.blocks)) :
    Target node.consensus.Valid node.chain.blocks := by
  have hlinked := run_linked (new_linked _ _ _ _) hrun
  refine ⟨hlinked.head_eq, hlinked.linked, hlinked.follows, hinj, ?_⟩
  apply run_length_le _ hrun
  show 1 ≤ MAX_VEC_LEN
  decide

/-- A reachable node that is behind is one that can catch up. -/
theorem catching_of_run {netId : UInt32} {seed : Seed} {chain : BlockChain}
    {consensus : PoAConsensus} {node : Node} {inputs : List (Env × Input)}
    {effects : List Effect}
    (hrun : Run Node.next (Node.new netId seed chain consensus) inputs node
      effects)
    {blocks : List Block} (hfront : node.chain.blocks <+: blocks)
    (hbehind : node.chain.blocks.length < blocks.length)
    (hempty : held node.orphansByPrev = 0)
    (hmissing : ∀ b ∈ blocks.drop node.chain.blocks.length,
      b.hash ∉ node.seenBlocks) :
    Catching blocks node.consensus.Valid node.peers
      (node.chain.blocks.length - 1) node := by
  have hpos : 0 < node.chain.blocks.length :=
    List.length_pos_iff.mpr node.chain.nonempty
  have hlength : node.chain.blocks.length - 1 + 1 =
      node.chain.blocks.length := Nat.sub_add_cancel hpos
  refine ⟨by omega, ?_, rfl, ?_, hempty, rfl,
    (run_bookkeeping hrun).syncLimit_eq⟩
  · rw [hlength]
    exact List.prefix_iff_eq_take.mp hfront
  · rw [hlength]
    exact hmissing

/-- Let `a` and `b` be reachable nodes with the same validators that are
registered with each other, the chain of `a` a strict prefix of that of `b`,
its pool empty and the missing blocks not seen.  On its way are the `Status` of
`b` and, in any number and order, what registration puts on a link and blocks
that `a` relayed.  Then every order of deliveries comes to an end; until then
one of the two can take a message; the requests and the pages are the expected
ones in order; and at the end the chains are equal and no sync is going on. -/
theorem link_catchUp {netIdA netIdB : UInt32} {seedA seedB : Seed}
    {chainIdA chainIdB : UInt64} {consensusA consensusB : PoAConsensus}
    {a b : Node} {inputsA inputsB : List (Env × Input)}
    {effectsA effectsB : List Effect}
    (hrunA : Run Node.next
      (Node.new netIdA seedA (BlockChain.new chainIdA) consensusA) inputsA a
      effectsA)
    (hrunB : Run Node.next
      (Node.new netIdB seedB (BlockChain.new chainIdB) consensusB) inputsB b
      effectsB)
    (hvalidators :
      consensusA.config.validators = consensusB.config.validators)
    (hverifier : consensusA.verifier = consensusB.verifier) {ends : Ends}
    (hpeerA : b.peers.lookup ends.peerA = some ends.senderA)
    (hpeerB : a.peers.lookup ends.peerB = some ends.senderB)
    (hidle : a.isSyncing = false)
    (hfront : a.chain.blocks <+: b.chain.blocks)
    (hbehind : a.chain.blocks.length < b.chain.blocks.length)
    (hempty : held a.orphansByPrev = 0)
    (hmissing : ∀ block ∈ b.chain.blocks.drop a.chain.blocks.length,
      block.hash ∉ a.seenBlocks)
    (hinj : Set.InjOn calcHash (headerInputs b.chain.blocks))
    {toA toB : List ProtocolMessage}
    (htoA : ∀ msg ∈ toA, Aside b.chain.getHeight.toNat msg)
    (htoB : ∀ msg ∈ toB, Aside b.chain.getHeight.toNat msg ∨
      ∃ block ∈ b.chain.blocks, msg = .block block)
    (hstatus : b.statusMessage ∈ toA)
    {inputs : List (Env × Receiver)} {link : Link} {out : List Wire}
    (hrun : Run ends.next ⟨a, b, toA, toB⟩ inputs link out) :
    inputs.length ≤ load toA + load toB +
        (b.chain.blocks.length - a.chain.blocks.length) *
          (a.peers.keys.length + 1) ∧
      (¬ link.Quiet →
        ∃ receiver, ∀ env, (ends.next link (env, receiver)).isSome) ∧
      (∃ asked answered,
        requests out = (List.range asked).map
          (Link.nextRequest a.chain.getHeight.toNat) ∧
        replies out = (List.range answered).map
          (Link.nextPageOf b.chain.blocks a.chain.getHeight.toNat)) ∧
      (link.Quiet →
        link.a.chain.blocks = b.chain.blocks ∧ link.b.chain = b.chain ∧
        link.a.isSyncing = false ∧ link.a.syncPeer = none ∧
        (requests out).length =
          (b.chain.getHeight.toNat - a.chain.getHeight.toNat) / 256 + 1) := by
  have htarget := target_of_run hrunB hinj
  have hvalid : a.consensus.Valid = b.consensus.Valid := by
    have hrulesA := run_sameRules hrunA
    have hrulesB := run_sameRules hrunB
    apply PoAConsensus.valid_congr
    · rw [hrulesA.config_eq, hrulesB.config_eq]
      exact hvalidators
    · rw [hrulesA.verifier_eq, hrulesB.verifier_eq]
      exact hverifier
  have hA := catching_of_run hrunA hfront hbehind hempty hmissing
  rw [hvalid] at hA
  have hheightA : a.chain.getHeight.toNat = a.chain.blocks.length - 1 :=
    hA.height_eq htarget
  have hheightB : b.chain.getHeight.toNat = b.chain.blocks.length - 1 :=
    (run_linked (new_linked _ _ _ _) hrunB).height_eq
  rw [← hheightA] at hA
  let ex : Exchange :=
    { ends := ends
      chain := b.chain
      valid := b.consensus.Valid
      peers := a.peers
      base := a.chain.getHeight.toNat
      target := htarget
      peerB := hpeerB }
  have hpos : 0 < a.chain.blocks.length :=
    List.length_pos_iff.mpr a.chain.nonempty
  have hlower : a.chain.getHeight.toNat < b.chain.getHeight.toNat := by omega
  rw [hheightB] at htoA htoB
  have hgreeted : ex.Stage ⟨a, b, toA, toB⟩ [] :=
    .greeted ⟨⟨hA, ⟨rfl, hpeerA⟩, .of_forall htoA, .of_forall htoB⟩, hidle,
      ⟨b.chain.getHeight, b.chain.last.hash, hlower, hstatus⟩, rfl, rfl⟩
  obtain ⟨hstage, hlength⟩ := Exchange.run_stage hgreeted hrun
  refine ⟨hlength, hstage.progress, ?_, ?_⟩
  · obtain ⟨asked, answered, hwrote⟩ := hstage.wrote
    exact ⟨asked, answered, hwrote.requests_eq, hwrote.replies_eq⟩
  · intro hquiet
    obtain ⟨pages, hcaught⟩ := hstage.caughtUp_of_quiet hquiet
    refine ⟨?_, hcaught.ahead.chain_eq, hcaught.idle, hcaught.syncPeer_eq, ?_⟩
    · rw [hcaught.behind.blocks_eq]
      apply List.take_of_length_le
      show b.chain.blocks.length ≤ b.chain.blocks.length - 1 + 1
      omega
    · rw [hcaught.wrote.requests_eq, List.length_map, List.length_range,
        ← hcaught.pages_eq, hheightB]
      rfl

end Node

end B4n

namespace B4n.Blockchain.Sample

open B4n.Lib Transport

private def coffeeBlock : Block := block genesis [trx 1 "coffee"] 0 0 1
private def teaBlock : Block := block coffeeBlock [trx 2 "tea"] 0 1 2

private def aheadStart : Node :=
  node 1 1 (config [1, 2] 8) config_two_ok

private def behindStart : Node :=
  node 2 2 (config [1, 2] 8) config_two_ok

/-- The node that is ahead has two blocks when the other one is registered with
it as peer 5. -/
private def aheadInputs : List (Env × Input) :=
  [(env 10, .message (.net 9 (.block coffeeBlock))),
    (env 20, .message (.net 9 (.block teaBlock))),
    (env 30, .message (.addPeer 5 50))]

/-- The node that is behind knows the other one as peer 6. -/
private def behindInputs : List (Env × Input) :=
  [(env 30, .message (.addPeer 6 60))]

private def aheadNode : Node := (finish Node.next aheadStart aheadInputs).1

private def aheadEffects : List Effect :=
  (finish Node.next aheadStart aheadInputs).2

private def behindNode : Node := (finish Node.next behindStart behindInputs).1

private def behindEffects : List Effect :=
  (finish Node.next behindStart behindInputs).2

private def sampleEnds : Ends := ⟨5, 6, 50, 60⟩

/-- What registration put on the two channels is on its way. -/
private def greeting : Link :=
  ⟨behindNode, aheadNode, wires 50 aheadEffects, wires 60 behindEffects⟩

/-- The node that is behind takes the status and asks, the other one takes what
came before the request and answers; after another status the page arrives, and
its two blocks come back as gossip. -/
private def deliveries : List (Env × Receiver) :=
  [(env 100, .a), (env 110, .a), (env 120, .b), (env 130, .b), (env 140, .b),
    (env 150, .b), (env 160, .a), (env 170, .a), (env 180, .b), (env 190, .b)]

private def lastLink : Link :=
  (finish sampleEnds.next greeting deliveries).1

/-- The node that is behind can catch up with the other one. -/
private theorem greeting_ok :
    (exec Node.next aheadStart aheadInputs).isSome = true ∧
      (exec Node.next behindStart behindInputs).isSome = true ∧
      aheadNode.peers.lookup sampleEnds.peerA = some sampleEnds.senderA ∧
      behindNode.peers.lookup sampleEnds.peerB = some sampleEnds.senderB ∧
      behindNode.isSyncing = false ∧
      behindNode.chain.blocks <+: aheadNode.chain.blocks ∧
      behindNode.chain.blocks.length < aheadNode.chain.blocks.length ∧
      held behindNode.orphansByPrev = 0 ∧
      (∀ block ∈ aheadNode.chain.blocks.drop behindNode.chain.blocks.length,
        block.hash ∉ behindNode.seenBlocks) ∧
      ((aheadNode.chain.blocks.map Block.headerToBytes).dedup.map calcHash).Nodup ∧
      wires 50 aheadEffects = [.getStatus, aheadNode.statusMessage] ∧
      wires 60 behindEffects = [.getStatus, behindNode.statusMessage] ∧
      behindNode.chain.getHeight.toNat ≤ aheadNode.chain.getHeight.toNat := by
  decide +kernel

private theorem deliveries_ok :
    (exec sampleEnds.next greeting deliveries).isSome = true ∧
      lastLink.toA = [] ∧ lastLink.toB = [] ∧
      (aheadNode.chain.getHeight.toNat - behindNode.chain.getHeight.toNat) / 256 + 1
        = 1 := by
  decide +kernel

private theorem asides_of_registration {node : Node} {top : Nat}
    (htop : node.chain.getHeight.toNat ≤ top) :
    ∀ msg ∈ [.getStatus, node.statusMessage], Aside top msg := by
  intro msg hmsg
  rcases List.mem_pair.mp hmsg with rfl | rfl
  · exact .getStatus
  · exact .status _ htop

theorem link_catchUp_twoBlocks :
    ∃ link out, Run sampleEnds.next greeting deliveries link out ∧
      link.a.chain.blocks = aheadNode.chain.blocks ∧
      link.a.isSyncing = false ∧ (requests out).length = 1 := by
  obtain ⟨hahead, hbehind, hpeerA, hpeerB, hidle, hfront, hshorter, hempty,
    hmissing, hnodup, htoA, htoB, hlower⟩ := greeting_ok
  obtain ⟨hlive, hquietA, hquietB, hone⟩ := deliveries_ok
  have hasidesA := asides_of_registration
    (Nat.le_refl aheadNode.chain.getHeight.toNat)
  have hasidesB := asides_of_registration hlower
  rw [← htoA] at hasidesA
  rw [← htoB] at hasidesB
  have hstatus : aheadNode.statusMessage ∈ wires 50 aheadEffects := by
    rw [htoA]
    simp
  have hrunA : Run Node.next behindStart behindInputs behindNode
      behindEffects := run_finish hbehind
  have hrunB : Run Node.next aheadStart aheadInputs aheadNode aheadEffects :=
    run_finish hahead
  have hrun : Run sampleEnds.next greeting deliveries lastLink _ :=
    run_finish hlive
  obtain ⟨-, -, -, hend⟩ := Node.link_catchUp hrunA hrunB rfl rfl hpeerA hpeerB hidle
    hfront hshorter hempty hmissing (injOn_headerInputs_of_nodup hnodup) hasidesA
    (fun msg hmsg => .inl (hasidesB msg hmsg)) hstatus hrun
  obtain ⟨hblocks, -, hdone, -, hcount⟩ := hend ⟨hquietA, hquietB⟩
  exact ⟨_, _, hrun, hblocks, hdone, hcount.trans hone⟩

end B4n.Blockchain.Sample
