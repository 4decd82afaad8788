import B4n.Lib.Components
import B4n.Network.Gossip
import B4n.Node.Kept

/-!
# Where transactions come from and where they stay

Transactions enter a network by the command lines of its nodes only.  What is in
a queue, in a block or on its way was handed to some node before, and what was
handed to one node is, when the flood is over, in the queue or in the chain of
every node that links lead to.

Seen from one of its nodes, a run of the network is a run of this node alone, with
what the network delivers as input (`component`); so what is known of the runs of
a node is known of the nodes of a network.

## Main results

* `run_sourced` — every transaction anywhere was handed to some node.
* `run_posted_kept` — what was handed to one node, the others have.
-/

namespace B4n

open Lib Blockchain Transport

/-- The node's own command line hands it the transaction. -/
def PostedAt {ι : Type} (actions : List (Action ι)) (i : ι) (trx : Transaction) : Prop :=
  ∃ env, Action.handle i env (.localTrx trx) ∈ actions

/-- Some node was handed the transaction. -/
def Posted {ι : Type} (actions : List (Action ι)) (trx : Transaction) : Prop :=
  ∃ i, PostedAt actions i trx

theorem Posted.append {ι : Type} {actions : List (Action ι)} {trx : Transaction}
    (h : Posted actions trx) (more : List (Action ι)) : Posted (actions ++ more) trx := by
  obtain ⟨i, env, hmem⟩ := h
  exact ⟨i, env, List.mem_append_left more hmem⟩

variable [Primitives]

/-- A proposed block is made of queued transactions. -/
theorem Node.Proposes.mem_queue {env : Env} {node : Node} {candidate : Block}
    (h : Node.Proposes env node candidate) {trx : Transaction}
    (htrx : trx ∈ candidate.transactions) : trx ∈ node.mempool.queue := by
  rw [(Node.buildBlock_built h.built).transactions_eq] at htrx
  exact List.mem_of_mem_take htrx

namespace Setup

variable {ι : Type} {setup : Setup ι} {net last : Network ι} {action : Action ι}
  {actions more : List (Action ι)} {out outs : List (ι × Effect)}

/-! ## A node of the network -/

section Component

variable [DecidableEq ι]

/-- What the action brings to the node, if it is the node's turn. -/
def inputOf (setup : Setup ι) (i : ι) (net : Network ι) (action : Action ι) :
    Option (Env × Input) :=
  match setup.turnOf net action with
  | none => none
  | some turn => if turn.who = i then some (turn.env, turn.input) else none

/-- What the node takes in along a run of the network. -/
def inputsOf (setup : Setup ι) (i : ι) (actions : List (Action ι)) : List (Env × Input) :=
  turnsOf setup.next (setup.inputOf i) setup.start actions

/-- A node of the network does what it would do alone. -/
theorem component (setup : Setup ι) (i : ι) :
    Component setup.next (fun net => net.nodes i) (setup.inputOf i) Node.next where
  moves := by
    intro net action last out k hnext hinput
    unfold inputOf at hinput
    unfold next at hnext
    split at hinput
    · cases hinput
    · rename_i turn hturn
      rw [hturn] at hnext
      dsimp only at hnext
      split at hinput
      · rename_i hwho
        cases hinput
        subst hwho
        split at hnext
        · cases hnext
        · rename_i node effects hnode
          cases hnext
          refine ⟨effects, ?_⟩
          rw [hnode]
          dsimp only
          rw [Function.update_self]
      · cases hinput
  rests := by
    intro net action last out hnext hinput
    obtain ⟨turn, hturn, rfl⟩ := next_eq_some hnext
    unfold inputOf at hinput
    rw [hturn] at hinput
    dsimp only at hinput ⊢
    split at hinput
    · cases hinput
    · rename_i hwho
      rw [Function.update_of_ne (Ne.symm hwho)]

/-- What a node keeps, it keeps along every run of the network that goes on. -/
theorem run_kept (hverify : SignaturesVerify setup.verifier)
    (hsmall : setup.validators.length ≤ 2 ^ 32)
    (hrun : Run setup.next setup.start actions net out)
    (hmore : Run setup.next net more last outs) {i : ι} {trx : Transaction}
    (hkept : Node.Kept (net.nodes i) trx) : Node.Kept (last.nodes i) trx := by
  obtain ⟨effects, hbefore⟩ := (setup.component i).run hrun
  obtain ⟨new, hafter⟩ := (setup.component i).run hmore
  rw [← setup.verifier_eq i] at hverify
  rw [← setup.validators_eq i] at hsmall
  exact Node.run_kept hverify hsmall hbefore hafter hkept

end Component

/-! ## Where transactions come from -/

/-- Every transaction in flight, in a queue or in a block was handed to some node. -/
structure Sourced (actions : List (Action ι)) (net : Network ι) : Prop where
  flying : ∀ p ∈ net.inFlight, ∀ trx, p.msg = .trx trx → Posted actions trx
  queued : ∀ i, ∀ trx ∈ (net.nodes i).mempool.queue, Posted actions trx
  carried : ∀ b, net.Circulates b → ∀ trx ∈ b.transactions, Posted actions trx

omit [Primitives] in
theorem Sourced.has (h : Sourced actions net) {i : ι} {trx : Transaction}
    (hhas : (net.nodes i).Has trx) : Posted actions trx := by
  rcases hhas with hqueued | ⟨block, hblock, htrx⟩
  · exact h.queued i trx hqueued
  · exact h.carried block (.inl ⟨i, .inl hblock⟩) trx htrx

theorem start_sourced (setup : Setup ι) : Sourced [] setup.start where
  flying := by
    intro p hp
    cases hp
  queued := by
    intro i trx htrx
    cases htrx
  carried := by
    rintro b (⟨i, hmem | ⟨key, vec, hvec, -⟩⟩ | ⟨p, hp, -⟩) trx htrx
    · rw [List.mem_singleton.mp hmem] at htrx
      cases htrx
    · cases hvec
    · cases hp

/-- A turn brings a transaction that is handed to the node or was on its way. -/
theorem posted_of_turnOf {turn : NodeTurn ι} (hturn : setup.turnOf net action = some turn)
    (hflying : ∀ p ∈ net.inFlight, ∀ trx, p.msg = .trx trx → Posted actions trx)
    {trx : Transaction} (htrx : turn.input.trx? = some trx) :
    Posted (actions ++ [action]) trx := by
  cases action with
  | handle i env m =>
      unfold turnOf at hturn
      dsimp only at hturn
      split at hturn
      · cases hturn
      · rename_i hlocal
        cases hturn
        cases m with
        | localTrx found =>
            cases htrx
            exact ⟨i, env, List.mem_append_right _ (List.mem_singleton_self _)⟩
        | net peerId msg => exact absurd rfl hlocal
        | debugPrint => cases htrx
        | stop => cases htrx
        | addPeer peerId sender => cases htrx
        | removePeer peerId => cases htrx
  | tick i env =>
      cases hturn
      cases htrx
  | deliver k env =>
      unfold turnOf at hturn
      dsimp only at hturn
      split at hturn
      · cases hturn
      · rename_i packet hpacket
        cases hturn
        dsimp only at htrx
        unfold Input.trx? at htrx
        split at htrx
        · rename_i heq
          cases heq
        · rename_i peerId found heq
          cases htrx
          obtain ⟨-, hmsg⟩ := NodeMessage.net.inj (Input.message.inj heq)
          exact (hflying packet (List.mem_of_getElem? hpacket) trx hmsg).append _
        · cases htrx

variable [DecidableEq ι]

theorem next_sourced (h : Sourced actions net)
    (hnext : setup.next net action = some (last, out)) : Sourced (actions ++ [action]) last := by
  have hcirculates := fun b (hb : last.Circulates b) => next_circulates hnext hb
  obtain ⟨turn, hturn, rfl⟩ := next_eq_some hnext
  have hbrought : ∀ trx, turn.input.trx? = some trx → Posted (actions ++ [action]) trx :=
    fun trx htrx => posted_of_turnOf hturn h.flying htrx
  constructor
  · intro p hp trx hmsg
    rcases List.mem_append.mp hp with hold | hsent
    · exact (h.flying p ((turnOf_spec hturn).1 p hold) trx hmsg).append [action]
    · obtain ⟨e, he, heq⟩ := List.mem_filterMap.mp hsent
      apply hbrought
      apply Node.step_sends he
      cases e with
      | send peerId sender msg =>
          cases heq
          dsimp only at hmsg
          rw [hmsg]
          rfl
      | signed b => cases heq
  · intro i trx htrx
    dsimp only at htrx
    by_cases hi : i = turn.who
    · subst hi
      rw [Function.update_self] at htrx
      rcases Node.step_queue htrx with hold | ⟨hnew, -⟩
      · exact (h.queued _ trx hold).append [action]
      · exact hbrought trx hnew
    · rw [Function.update_of_ne hi] at htrx
      exact (h.queued i trx htrx).append [action]
  · intro b hb trx htrx
    rcases hcirculates b hb with hold | ⟨i, env, -, hproposes⟩
    · exact (h.carried b hold trx htrx).append [action]
    · exact (h.queued i trx (hproposes.mem_queue htrx)).append [action]

/-- In every run, whatever was delivered in whatever order: no transaction is
anywhere that was not handed to some node. -/
theorem run_sourced (hrun : Run setup.next setup.start actions net out) :
    Sourced actions net := by
  induction hrun with
  | start => exact start_sourced setup
  | step _ hnext ih => exact next_sourced ih hnext

/-! ## Where transactions stay -/

/-- The flood of a hash from a node is over: no transaction with the hash is in flight,
every link was there when it was needed, and none of the nodes that links lead to turned
one away. -/
structure Settled (setup : Setup ι) (actions : List (Action ι)) (net : Network ι)
    (edge : ι → ι → Prop) (i : ι) (h : Hash32Type) : Prop where
  linked : ∀ j k, edge j k → AllSteps setup.next setup.start actions fun net action =>
    setup.Queues h net action j → setup.Linked net j k
  room : ∀ k, Relation.ReflTransGen edge i k →
    AllSteps setup.next setup.start actions fun net action => ¬setup.TurnsAway h net action k
  quiet : ∀ p ∈ net.inFlight, ∀ trx, p.msg = .trx trx → trx.hash ≠ h

/-- What is handed to a node is offered to its pool. -/
theorem happened_offers (hrun : Run setup.next setup.start actions net out) {i : ι}
    {trx : Transaction} (hposted : PostedAt actions i trx) :
    Happened setup.next setup.start actions fun net action =>
      setup.Offers trx.hash net action i fun _ _ => True := by
  obtain ⟨env, hmem⟩ := hposted
  obtain ⟨before, after, rfl⟩ := List.append_of_mem hmem
  obtain ⟨mid, first, -, hbefore, -⟩ := hrun.split
  exact ⟨before, _, after, mid, first, rfl, hbefore, _, trx, rfl, rfl, rfl, rfl, trivial⟩

/-- What a node queued at some time of a run, it keeps to the end. -/
theorem run_queued_kept (hverify : SignaturesVerify setup.verifier)
    (hsmall : setup.validators.length ≤ 2 ^ 32)
    (hrun : Run setup.next setup.start actions net out) {h : Hash32Type} {i : ι}
    (hqueued : Happened setup.next setup.start actions fun net action =>
      setup.Queues h net action i) :
    ∃ trx, trx.hash = h ∧ Node.Kept (net.nodes i) trx := by
  obtain ⟨before, action, after, mid, first, rfl, hbefore, turn, trx, hturn, rfl, htrx, rfl,
    hpushed⟩ := hqueued
  obtain ⟨next, new, rest, hnext, hafter⟩ := hrun.split_cons hbefore
  refine ⟨trx, rfl, run_kept hverify hsmall (hbefore.step hnext) hafter (.inl ?_)⟩
  obtain ⟨found, hfound, rfl⟩ := next_eq_some hnext
  rw [hturn] at hfound
  cases hfound
  dsimp only
  rw [Function.update_self, Node.step_of_trx? htrx, Node.acceptTrx_pool, MemPool.queue_push,
    if_pos hpushed]
  exact List.mem_append_right _ (List.mem_singleton_self trx)

/-- In every run: when the flood is over, what was handed to a node is in the queue or
in the chain of every node that links lead to, and there it stays. -/
theorem run_posted_kept (hverify : SignaturesVerify setup.verifier)
    (hsmall : setup.validators.length ≤ 2 ^ 32)
    (hrun : Run setup.next setup.start actions net out) {edge : ι → ι → Prop}
    {trx : Transaction} {i j : ι} (hsettled : setup.Settled actions net edge i trx.hash)
    (hpath : Relation.ReflTransGen edge i j) (hposted : PostedAt actions i trx)
    (hmore : Run setup.next net more last outs)
    (hfree : ∀ other, Posted (actions ++ more) other → other.hash = trx.hash → other = trx) :
    (last.nodes j).Has trx := by
  have hspreads := setup.trxToken_spreads trx.hash
  have hopen := fun k hk => not_refuses_of_room (hsettled.room k hk)
  have hfirst := hspreads.run_took_of_brings (hopen i .refl) (happened_offers hrun hposted)
  have hqueued := hspreads.run_floods hrun hsettled.linked hopen
    (fun k => not_coming_of_quiet hsettled.quiet k) hpath hfirst
  obtain ⟨queued, hhash, hkept⟩ := run_queued_kept hverify hsmall hrun hqueued
  obtain ⟨other, hother, hhas⟩ := (run_kept hverify hsmall hrun hmore hkept).exists_has
  have hsource : Posted (actions ++ more) other := (run_sourced (hrun.append hmore)).has hhas
  rw [← hfree other hsource (hother.trans hhash)]
  exact hhas

end Setup

end B4n
