import B4n.Node.Chain

/-!
# The tip commits to the history

Every block names the hash of the block before it, the hash covers the header
with the signature, and the index counts the position.  So two nodes whose
tips have one hash have the same headers from the genesis block on, whatever
validators, clocks and messages brought them there.  The transactions below
the headers may still differ, since the Merkle root does not fix their number.

## Main results

* `run_headers_eq` — equal tip hashes, equal headers at every height.
-/

namespace B4n

open Lib Blockchain Transport

namespace Node

variable [Primitives]

/-- Two chains reached in any two runs that end in one hash have one length and
the same header at every height. -/
theorem run_headers_eq {netId netId' : UInt32} {seed seed' : Seed}
    {chainId chainId' : UInt64} {consensus consensus' : PoAConsensus}
    {node node' : Node} {inputs inputs' : List (Env × Input)}
    {effects effects' : List Effect}
    (hrun : Run Node.next
      (Node.new netId seed (BlockChain.new chainId) consensus) inputs node
      effects)
    (hrun' : Run Node.next
      (Node.new netId' seed' (BlockChain.new chainId') consensus') inputs'
      node' effects')
    (hInj : Set.InjOn calcHash
      (headerInputs (node.chain.blocks ++ node'.chain.blocks)))
    (hhash : node.chain.last.hash = node'.chain.last.hash) :
    node.chain.blocks.length = node'.chain.blocks.length ∧
      ∀ (height : Nat) (b b' : Block),
        node.chain.blocks[height]? = some b →
        node'.chain.blocks[height]? = some b' → b.header = b'.header := by
  have hlinked := run_linked (new_linked _ _ _ _) hrun
  have hlinked' := run_linked (new_linked _ _ _ _) hrun'
  exact history_eq_of_hash_eq hlinked.follows hlinked'.follows hlinked.head_eq
    hlinked'.head_eq rfl hInj node.chain.getElem?_tip node'.chain.getElem?_tip
    hhash

end Node

end B4n

namespace B4n.Blockchain.Sample

open B4n.Lib Transport

/-- A block of three transactions, and its header over four. -/
private def threeTransfers : Block :=
  block genesis [trx 1 "a", trx 2 "b", trx 3 "c"] 0 0 1

private def lastDoubled : Block :=
  { threeTransfers with
    transactions := [trx 1 "a", trx 2 "b", trx 3 "c", trx 3 "c"] }

/-- Two nodes with different keys; each receives one of the two. -/
private def firstReader : Node := node 1 1 (config [1] 8) config_one_ok

private def secondReader : Node := node 2 9 (config [1] 8) config_one_ok

private def readsThree : List (Env × Input) :=
  [(env 10, .message (.net 7 (.block threeTransfers)))]

private def readsDoubled : List (Env × Input) :=
  [(env 10, .tick), (env 5000, .tick),
    (env 6000, .message (.net 8 (.blocks [lastDoubled])))]

private def afterThree : Node := (finish Node.next firstReader readsThree).1

private def afterDoubled : Node :=
  (finish Node.next secondReader readsDoubled).1

private theorem readers_ok :
    (exec Node.next firstReader readsThree).isSome = true ∧
      (exec Node.next secondReader readsDoubled).isSome = true ∧
      (((afterThree.chain.blocks ++ afterDoubled.chain.blocks).map
        Block.headerToBytes).dedup.map calcHash).Nodup ∧
      afterThree.chain.last.hash = afterDoubled.chain.last.hash ∧
      afterThree.chain.blocks ≠ afterDoubled.chain.blocks ∧
      afterThree.chain.blocks.length = 2 := by
  decide +kernel

/-- The chains differ, their headers do not. -/
theorem run_headers_eq_readers :
    ∃ node node' : Node, node.chain.blocks ≠ node'.chain.blocks ∧
      node.chain.blocks.length = 2 ∧
      node.chain.blocks.length = node'.chain.blocks.length ∧
      ∀ (height : Nat) (b b' : Block),
        node.chain.blocks[height]? = some b →
        node'.chain.blocks[height]? = some b' → b.header = b'.header := by
  obtain ⟨hlive, hlive', hnodup, hhash, hne, hlength⟩ := readers_ok
  have hrun : Run Node.next firstReader readsThree afterThree _ :=
    run_finish hlive
  have hrun' : Run Node.next secondReader readsDoubled afterDoubled _ :=
    run_finish hlive'
  exact ⟨afterThree, afterDoubled, hne, hlength,
    Node.run_headers_eq hrun hrun' (injOn_headerInputs_of_nodup hnodup) hhash⟩

end B4n.Blockchain.Sample
