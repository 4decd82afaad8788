import B4n.Network.Agreement
import Mathlib.Data.List.Flatten

/-!
# Which transactions are included twice

Nothing in a block's validation looks for transactions that are on the chain
already.  What keeps them out is the pool of the node that proposes: the window
of seen hashes, and `remove_included`, which only the handling of directly
received blocks calls.  A transaction that is in the queue while its block is
connected from the orphan pool, or that arrives after its block, is proposed
again.

Relaying, syncing and connecting never repeat a transaction by themselves:
every chain is at every time a prefix of a chain that a proposer made.

## Main results

* `next_noRepeats_iff` — a step keeps the chains free of repeated transactions
  if and only if it is not the proposal of one.
* `run_noRepeats_iff` — so do the steps of a run.
-/

namespace B4n

open Lib Blockchain Transport

variable [Primitives]

/-- The hashes of all transactions of the blocks, in order. -/
def trxHashes (blocks : List Block) : List Hash32Type :=
  blocks.flatMap fun b => b.transactions.map Transaction.hash

theorem trxHashes_append (blocks more : List Block) :
    trxHashes (blocks ++ more) = trxHashes blocks ++ trxHashes more :=
  List.flatMap_append

/-- No chain has two transactions with one hash. -/
def Network.NoRepeats {ι : Type} (net : Network ι) : Prop :=
  ∀ i, (trxHashes (net.nodes i).chain.blocks).Nodup

/-- The transactions that the node would propose next have different hashes,
and none of them is on its chain. -/
structure Node.FreshTrxs (node : Node) : Prop where
  nodup : (node.nextTrxs.map Transaction.hash).Nodup
  notMem : ∀ trx ∈ node.nextTrxs, trx.hash ∉ trxHashes node.chain.blocks

/-- If the action makes a node propose, it proposes fresh transactions. -/
def ProposesFresh {ι : Type} (net : Network ι) (action : Action ι) : Prop :=
  ∀ i env candidate, action = .tick i env →
    Node.Proposes env (net.nodes i) candidate → (net.nodes i).FreshTrxs

/-- What is hashed for the hashes of the blocks on all chains. -/
def Network.headers {ι : Type} (net : Network ι) : Set (List UInt8) :=
  {bytes | ∃ i, bytes ∈ headerInputs (net.nodes i).chain.blocks}

/-- A proposal keeps the proposer's chain free of repetitions exactly if the
transactions are fresh. -/
theorem Node.Proposes.nodup_iff {env : Env} {node : Node} {candidate : Block}
    (h : Node.Proposes env node candidate)
    (hnode : (trxHashes node.chain.blocks).Nodup) :
    (trxHashes (node.onTick env).node.chain.blocks).Nodup ↔
      node.FreshTrxs := by
  have htrxs := (Node.buildBlock_built h.built).transactions_eq
  have hlast : trxHashes [candidate] =
      node.nextTrxs.map Transaction.hash := by
    rw [← htrxs]
    exact List.append_nil _
  rw [h.blocks_eq, trxHashes_append, hlast, List.nodup_append]
  constructor
  · rintro ⟨-, hnodup, hdisjoint⟩
    refine ⟨hnodup, ?_⟩
    intro trx htrx hmem
    exact hdisjoint _ hmem _ (List.mem_map_of_mem htrx) rfl
  · intro hfresh
    refine ⟨hnode, hfresh.nodup, ?_⟩
    rintro hash hmem other hother rfl
    obtain ⟨trx, htrx, rfl⟩ := List.mem_map.mp hother
    exact hfresh.notMem trx htrx hmem

namespace Setup

variable {ι : Type} {setup : Setup ι} {net last : Network ι}

/-- A chain whose tip circulated before the step is a prefix of a chain from
before the step. -/
theorem Sound.prefix_of_circulates [DecidableEq ι] (h : setup.Sound net)
    (hlast : setup.Sound last) (hinj : Set.InjOn calcHash last.headers)
    {action : Action ι} {out : List (ι × Effect)}
    (hnext : setup.next net action = some (last, out)) {i : ι}
    (htip : net.Circulates (last.nodes i).chain.last) :
    ∃ j, (last.nodes i).chain.blocks <+: (net.nodes j).chain.blocks := by
  have hplace := (last.nodes i).chain.getElem?_tip
  have hindex := (hlast.linked i).index_eq hplace
  have hpos := (last.nodes i).chain.length_pos
  rcases h.owned _ htip with hgenesis | ⟨j, howns⟩
  · -- the chain is the genesis block, with which all chains begin
    rw [hgenesis] at hindex
    have hzero : 0 = (last.nodes i).chain.blocks.length - 1 := hindex
    have hone : (last.nodes i).chain.blocks.length = 1 := by omega
    obtain ⟨first, hfirst⟩ := List.length_eq_one_iff.mp hone
    have hhead := (hlast.linked i).head_eq
    rw [hfirst] at hhead
    obtain ⟨rest, hrest⟩ := List.head?_eq_some_iff.mp (h.linked i).head_eq
    refine ⟨i, rest, ?_⟩
    rw [hfirst, hrest, Option.some.inj hhead]
    rfl
  · obtain ⟨added, hadvance⟩ := next_advance hnext j
    have hafter := (howns.advance hadvance).placed
    have hlt := (List.getElem?_eq_some_iff.mp howns.placed).1
    rw [hindex] at hafter hlt
    have hagree := hlast.agree_of_round (hinj.mono fun bytes hbytes => by
      obtain ⟨b, hb, hheader⟩ := hbytes
      rcases List.mem_append.mp hb with hmem | hmem
      · exact ⟨i, b, hmem, hheader⟩
      · exact ⟨j, b, hmem, hheader⟩) hplace hafter rfl
    refine ⟨j, List.prefix_iff_getElem?.mpr ?_⟩
    intro k hk
    have hsame := hagree k (by omega)
    rw [hadvance.blocks_eq, List.getElem?_append_left (by omega)] at hsame
    rw [← hsame]
    exact List.getElem?_eq_getElem hk

/-- One step keeps the chains free of repetitions if and only if it is not the
proposal of a transaction that is there already. -/
theorem next_noRepeats_iff [DecidableEq ι] (h : setup.Sound net)
    (hlast : setup.Sound last) (hinj : Set.InjOn calcHash last.headers)
    (hnet : net.NoRepeats) {action : Action ι} {out : List (ι × Effect)}
    (hnext : setup.next net action = some (last, out)) :
    last.NoRepeats ↔ ProposesFresh net action := by
  constructor
  · rintro hrepeats i env candidate rfl hproposes
    rw [← hproposes.nodup_iff (hnet i)]
    have hi := hrepeats i
    rwa [next_tick hnext, Function.update_self] at hi
  · intro hfresh i
    have htip : last.Circulates (last.nodes i).chain.last :=
      Or.inl ⟨i, Or.inl (List.mem_of_getElem? (last.nodes i).chain.getElem?_tip)⟩
    rcases next_circulates hnext htip with hold | ⟨k, env, rfl, hproposes⟩
    · obtain ⟨j, hfront⟩ := h.prefix_of_circulates hlast hinj hnext hold
      exact (hnet j).sublist (hfront.sublist.flatMap _)
    · rw [next_tick hnext]
      by_cases hi : i = k
      · subst hi
        rw [Function.update_self, hproposes.nodup_iff (hnet i)]
        exact hfresh i env _ rfl hproposes
      · rw [Function.update_of_ne hi]
        exact hnet i

/-! ## Runs -/

/-- The chains of a state are prefixes of those of every later one. -/
theorem run_grows [DecidableEq ι] {actions : List (Action ι)}
    {out : List (ι × Effect)} (hrun : Run setup.next net actions last out)
    (i : ι) : (net.nodes i).chain.blocks <+: (last.nodes i).chain.blocks := by
  apply hrun.invariant (P := fun s : Network ι =>
    (net.nodes i).chain.blocks <+: (s.nodes i).chain.blocks)
  · exact List.prefix_refl _
  · intro s action t effects hs hnext
    obtain ⟨added, hadvance⟩ := next_advance hnext i
    exact hs.trans ⟨added, hadvance.blocks_eq.symm⟩

/-- Every state of a run is sound, and SHA-256 does not collide on its headers
if it does not on those of the last state. -/
theorem run_known [DecidableEq ι]
    (hunforgeable : SignaturesUnforgeable setup.verifier)
    {actions : List (Action ι)} {out : List (ι × Effect)}
    (hrun : Run setup.next setup.start actions last out)
    (hinj : Set.InjOn calcHash last.headers) :
    AllStates setup.next setup.start actions fun net =>
      setup.Sound net ∧ Set.InjOn calcHash net.headers := by
  rintro before after net outputs rfl hbefore
  obtain ⟨mid, first, rest, hfirst, hrest⟩ := hrun.split
  obtain ⟨rfl, -⟩ := hbefore.unique hfirst
  refine ⟨run_sound hunforgeable hbefore, hinj.mono ?_⟩
  rintro bytes ⟨i, b, hb, hheader⟩
  exact ⟨i, b, (run_grows hrest i).subset hb, hheader⟩

/-- Along every run of a network, no chain ever has two transactions with one
hash if and only if whenever a tick proposes, the transactions it takes have
different hashes and none of them is on the proposer's chain. -/
theorem run_noRepeats_iff [DecidableEq ι]
    (hunforgeable : SignaturesUnforgeable setup.verifier)
    {actions : List (Action ι)} {out : List (ι × Effect)}
    (hrun : Run setup.next setup.start actions last out)
    (hinj : Set.InjOn calcHash last.headers) :
    AllStates setup.next setup.start actions Network.NoRepeats ↔
      AllSteps setup.next setup.start actions ProposesFresh := by
  apply allStates_iff_allSteps _ _ hrun (run_known hunforgeable hrun hinj)
  · intro i
    exact List.nodup_nil
  · intro s action t effects hs ht hrepeats hnext
    exact next_noRepeats_iff hs.1 ht.1 ht.2 hrepeats hnext

end Setup

end B4n

namespace B4n.Blockchain.Sample

open B4n.Lib

/-- The first validator proposes "coffee" before the second one is there, takes
in "tea" and passes it on, and proposes it at height 2 when the turn of the
second one is over. -/
private def beforehand : List (Action Party) :=
  [.handle .first (env 10) (.localTrx (trx 1 "coffee")), .tick .first (env 1000),
    .handle .first (env 1100) (.addPeer 4 1), .handle .second (env 1100) (.addPeer 3 2),
    .handle .first (env 1200) (.localTrx (trx 2 "tea")), .tick .first (env 4000)]

/-- The messages arrive in the order in which they were sent: the second
validator gets "tea", then its block, which becomes an orphan, and then the
page that lets the orphan be connected.  It has "tea" in its queue still, and
proposes it at height 3. -/
private def repeated : List (Action Party) :=
  beforehand ++ List.replicate 11 (.deliver 0 (env 4100)) ++
    [.tick .second (env 8000)]

private def twice : Network Party :=
  (finish pair.next pair.start repeated).1

private def once : Network Party :=
  (finish pair.next pair.start beforehand).1

private theorem repeated_ok :
    (exec pair.next pair.start repeated).isSome = true ∧
      ((((twice.nodes .first).chain.blocks ++
        (twice.nodes .second).chain.blocks).map
          Block.headerToBytes).dedup.map calcHash).Nodup ∧
      ¬ (trxHashes (twice.nodes .second).chain.blocks).Nodup := by
  decide +kernel

private theorem beforehand_ok :
    (exec pair.next pair.start beforehand).isSome = true ∧
      ((((once.nodes .first).chain.blocks ++
        (once.nodes .second).chain.blocks).map
          Block.headerToBytes).dedup.map calcHash).Nodup := by
  decide +kernel

private theorem injOn_headers_of_nodup {net : Network Party}
    (h : ((((net.nodes .first).chain.blocks ++ (net.nodes .second).chain.blocks).map
      Block.headerToBytes).dedup.map calcHash).Nodup) :
    Set.InjOn calcHash net.headers := by
  apply (injOn_headerInputs_of_nodup h).mono
  rintro bytes ⟨i, b, hb, hheader⟩
  refine ⟨b, List.mem_append.mpr ?_, hheader⟩
  cases i with
  | first => exact Or.inl hb
  | second => exact Or.inr hb

/-- A transaction is twice on the second validator's chain. -/
theorem connectedOrphan_repeats :
    SignaturesUnforgeable pair.verifier ∧
      ∃ actions out, Run pair.next pair.start actions twice out ∧
      Set.InjOn calcHash twice.headers ∧
      ¬ (trxHashes (twice.nodes .second).chain.blocks).Nodup := by
  obtain ⟨hlive, hnodup, htwice⟩ := repeated_ok
  have hrun : Run pair.next pair.start repeated twice _ := run_finish hlive
  exact ⟨signaturesUnforgeable, repeated, _, hrun,
    injOn_headers_of_nodup hnodup, htwice⟩

theorem run_noRepeats_iff_beforehand :
    AllStates pair.next pair.start beforehand Network.NoRepeats ↔
      AllSteps pair.next pair.start beforehand ProposesFresh := by
  obtain ⟨hlive, hnodup⟩ := beforehand_ok
  have hrun : Run pair.next pair.start beforehand once _ := run_finish hlive
  exact Setup.run_noRepeats_iff signaturesUnforgeable hrun
    (injOn_headers_of_nodup hnodup)

end B4n.Blockchain.Sample
