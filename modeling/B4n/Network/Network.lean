import B4n.Node.Holds

/-!
# A network of nodes

Any number of nodes that all run this code with the same validators.  What a
node puts on a channel stays on its way until it is delivered to the node at
the other end; deliveries come in any order, and a message that is never
delivered is lost.  Between deliveries the nodes' own command lines and
transports hand them transactions and peers, and they tick, with any readings
of their clocks.

## Main results

* `next_circulates` — a block that circulates after a step circulated before
  it, or was proposed in it.
-/

namespace B4n

open Lib Blockchain Transport

/-- A message on its way, with the channel it was put on. -/
structure Packet where
  sender : Sender
  msg : ProtocolMessage
deriving DecidableEq

/-- The nodes and the messages on their way, the oldest first. -/
structure Network (ι : Type) where
  nodes : ι → Node
  inFlight : List Packet

/-- What happens next in a network. -/
inductive Action (ι : Type) where
  /-- a message of the node's own command line or transport -/
  | handle (i : ι) (env : Env) (m : NodeMessage)
  | tick (i : ι) (env : Env)
  /-- the message at a position in flight arrives -/
  | deliver (k : Nat) (env : Env)

/-- Whose turn an action is, on what, and what stays in flight. -/
structure NodeTurn (ι : Type) where
  who : ι
  env : Env
  input : Input
  rest : List Packet

/-- A message from a peer, which only a delivery brings. -/
def NodeMessage.isNet : NodeMessage → Bool
  | .net _ _ => true
  | _ => false

/-- The messages that effects put on channels. -/
def packets (effects : List Effect) : List Packet :=
  effects.filterMap fun
    | .send _ sender msg => some ⟨sender, msg⟩
    | .signed _ => none

variable [Primitives]

/-- How the nodes of a network are set up: the same validators for all, every
validator's key used by one node, and where every channel leads. -/
structure Setup (ι : Type) where
  validators : List Validator
  verifier : Verifier
  netId : ι → UInt32
  seed : ι → Seed
  chainId : ι → UInt64
  consensus : ι → PoAConsensus
  /-- the node at the other end of a channel, and the peer id of the connection
  there -/
  route : Sender → ι × UInt32
  validators_eq : ∀ i, (consensus i).config.validators = validators
  verifier_eq : ∀ i, (consensus i).verifier = verifier
  keys_inj : ∀ i j, ⟨Primitives.verifyingKey (seed i)⟩ ∈ validators →
    Primitives.verifyingKey (seed i) = Primitives.verifyingKey (seed j) → i = j

namespace Setup

variable {ι : Type}

/-- A node as it starts. -/
def startNode (setup : Setup ι) (i : ι) : Node :=
  Node.new (setup.netId i) (setup.seed i) (BlockChain.new (setup.chainId i))
    (setup.consensus i)

/-- The network before anything happens. -/
def start (setup : Setup ι) : Network ι where
  nodes := setup.startNode
  inFlight := []

/-- The turn that an action asks for. -/
def turnOf (setup : Setup ι) (net : Network ι) : Action ι → Option (NodeTurn ι)
  | .handle i env m =>
      if m.isNet then none else some ⟨i, env, .message m, net.inFlight⟩
  | .tick i env => some ⟨i, env, .tick, net.inFlight⟩
  | .deliver k env =>
      match net.inFlight[k]? with
      | none => none
      | some packet =>
          let target := setup.route packet.sender
          some ⟨target.1, env, .message (.net target.2 packet.msg),
            net.inFlight.eraseIdx k⟩

/-- One step of the network: one node takes its turn. -/
def next [DecidableEq ι] (setup : Setup ι) :
    Machine (Network ι) (Action ι) (ι × Effect) := fun net action =>
  match setup.turnOf net action with
  | none => none
  | some turn =>
      match (net.nodes turn.who).next (turn.env, turn.input) with
      | none => none
      | some (node, effects) =>
          some ({ nodes := Function.update net.nodes turn.who node
                  inFlight := turn.rest ++ packets effects },
            effects.map fun effect => (turn.who, effect))

end Setup

/-! ## What a step does -/

/-- The block is somewhere in the network: at a node or in a message. -/
def Network.Circulates {ι : Type} (net : Network ι) (b : Block) : Prop :=
  (∃ i, (net.nodes i).Holds b) ∨ ∃ p ∈ net.inFlight, b ∈ p.msg.carried

omit [Primitives] in
theorem carried_of_mem_packets {effects : List Effect} {p : Packet}
    (hp : p ∈ packets effects) :
    ∃ e ∈ effects, e.carried = p.msg.carried := by
  obtain ⟨e, he, hsome⟩ := List.mem_filterMap.mp hp
  refine ⟨e, he, ?_⟩
  cases e with
  | send peerId sender msg =>
      cases hsome
      rfl
  | signed b => cases hsome

namespace Setup

variable {ι : Type} {setup : Setup ι} {net last : Network ι} {action : Action ι}

/-- Nothing enters a network from outside: what stays in flight was in flight,
and the blocks a turn takes in were in flight. -/
theorem turnOf_spec {turn : NodeTurn ι}
    (hturn : setup.turnOf net action = some turn) :
    (∀ p ∈ turn.rest, p ∈ net.inFlight) ∧
      ∀ b ∈ turn.input.incoming, ∃ p ∈ net.inFlight, b ∈ p.msg.carried := by
  cases action with
  | handle i env m =>
      unfold turnOf at hturn
      dsimp only at hturn
      split at hturn
      · cases hturn
      · rename_i hlocal
        cases hturn
        refine ⟨fun p hp => hp, ?_⟩
        intro b hb
        cases m with
        | net peerId msg => exact absurd rfl hlocal
        | localTrx trx => cases hb
        | debugPrint => cases hb
        | stop => cases hb
        | addPeer peerId sender => cases hb
        | removePeer peerId => cases hb
  | tick i env =>
      cases hturn
      exact ⟨fun p hp => hp, by simp [Input.incoming]⟩
  | deliver k env =>
      unfold turnOf at hturn
      dsimp only at hturn
      split at hturn
      · cases hturn
      · rename_i packet hpacket
        cases hturn
        refine ⟨fun p hp => List.mem_of_mem_eraseIdx hp, ?_⟩
        intro b hb
        exact ⟨packet, List.mem_of_getElem? hpacket, hb⟩

/-- Only a tick makes a node tick. -/
theorem turnOf_tick {turn : NodeTurn ι}
    (hturn : setup.turnOf net action = some turn)
    (hinput : turn.input = .tick) : action = .tick turn.who turn.env := by
  cases action with
  | handle i env m =>
      unfold turnOf at hturn
      dsimp only at hturn
      split at hturn
      · cases hturn
      · cases hturn
        cases hinput
  | tick i env =>
      cases hturn
      rfl
  | deliver k env =>
      unfold turnOf at hturn
      dsimp only at hturn
      split at hturn
      · cases hturn
      · cases hturn
        cases hinput

variable [DecidableEq ι]

/-- A step is the turn of one node; the others stay as they are. -/
theorem next_eq_some {out : List (ι × Effect)}
    (hnext : setup.next net action = some (last, out)) :
    ∃ turn, setup.turnOf net action = some turn ∧
      last =
        { nodes := Function.update net.nodes turn.who
            ((net.nodes turn.who).step turn.env turn.input).node
          inFlight := turn.rest ++ packets
            ((net.nodes turn.who).step turn.env turn.input).effects } := by
  unfold next at hnext
  split at hnext
  · cases hnext
  · rename_i turn hturn
    split at hnext
    · cases hnext
    · rename_i node effects hnode
      obtain ⟨rfl, rfl, -⟩ := Node.next_eq_some hnode
      cases hnext
      exact ⟨turn, hturn, rfl⟩

/-- Every chain only grows, by a valid extension. -/
theorem next_advance {out : List (ι × Effect)}
    (hnext : setup.next net action = some (last, out)) (i : ι) :
    ∃ added, Node.Advance (net.nodes i) (last.nodes i) added := by
  obtain ⟨turn, -, rfl⟩ := next_eq_some hnext
  dsimp only
  by_cases hi : i = turn.who
  · subst hi
    rw [Function.update_self]
    exact Node.step_advance _ _ _
  · rw [Function.update_of_ne hi]
    exact ⟨[], .of_same rfl rfl rfl⟩

/-- A tick of the network is the tick of one node. -/
theorem next_tick {i : ι} {env : Env} {out : List (ι × Effect)}
    (hnext : setup.next net (.tick i env) = some (last, out)) :
    last.nodes = Function.update net.nodes i
      ((net.nodes i).onTick env).node := by
  obtain ⟨turn, hturn, rfl⟩ := next_eq_some hnext
  cases hturn
  rfl

/-- A block that circulates after a step circulated before, or the step is a
tick that proposed it. -/
theorem next_circulates {out : List (ι × Effect)}
    (hnext : setup.next net action = some (last, out)) {b : Block}
    (hb : last.Circulates b) :
    net.Circulates b ∨
      ∃ i env, action = .tick i env ∧ Node.Proposes env (net.nodes i) b := by
  obtain ⟨turn, hturn, rfl⟩ := next_eq_some hnext
  obtain ⟨hrest, hincoming⟩ := turnOf_spec hturn
  -- it is enough to look at what the node on turn has afterwards
  have hstep : Node.Holds
      ((net.nodes turn.who).step turn.env turn.input).node b →
      net.Circulates b ∨
        ∃ i env, action = .tick i env ∧ Node.Proposes env (net.nodes i) b := by
    intro hholds
    rcases Node.step_holds hholds with hold | hin | ⟨htick, hproposes⟩
    · exact Or.inl (Or.inl ⟨_, hold⟩)
    · exact Or.inl (Or.inr (hincoming b hin))
    · exact Or.inr ⟨turn.who, turn.env, turnOf_tick hturn htick, hproposes⟩
  rcases hb with ⟨i, hholds⟩ | ⟨p, hp, hbp⟩
  · dsimp only at hholds
    by_cases hi : i = turn.who
    · subst hi
      rw [Function.update_self] at hholds
      exact hstep hholds
    · rw [Function.update_of_ne hi] at hholds
      exact Or.inl (Or.inl ⟨i, hholds⟩)
  · rcases List.mem_append.mp hp with hkept | hsent
    · exact Or.inl (Or.inr ⟨p, hrest p hkept, hbp⟩)
    · obtain ⟨e, he, hcarried⟩ := carried_of_mem_packets hsent
      rw [← hcarried] at hbp
      exact hstep (Or.inl (Node.step_carried he hbp))

end Setup

end B4n
