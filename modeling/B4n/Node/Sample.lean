import B4n.Node.Run
import B4n.Blockchain.Sample

/-!
# Sample nodes

Nodes over the sample primitives, for the evaluation of runs.
-/

namespace B4n.Blockchain.Sample

open B4n.Lib

/-- A clock reading, given in milliseconds; the peers come in map order. -/
def env (ms : Nat) : Env where
  now := 1000000 * ms
  unixSecs := UInt64.ofNat (ms / 1000)
  peerOrder := id
  peerOrder_perm := fun _ => .refl _

/-- The consensus of `cli::run` at start-up time zero. -/
def consensus (config : PoAConsensusConfig)
    (hok : config.validateConfig = true) : PoAConsensus where
  config := config
  state := PoAConsensusState.new 0 0 0
  verifier := verifier
  config_ok := hok

/-- The node of `cli::run` at start-up time zero. -/
def node (netId : UInt32) (key : UInt8) (config : PoAConsensusConfig)
    (hok : config.validateConfig = true) : Node :=
  Node.new netId (seed key) (BlockChain.new 1) (consensus config hok)

theorem boot_node (netId : UInt32) (key : UInt8) (config : PoAConsensusConfig)
    (hok : config.validateConfig = true) :
    Node.boot 0 netId (seed key) 1 config verifier =
      .ok (node netId key config hok) :=
  Node.boot_eq_ok_iff.mpr ⟨hok, rfl⟩

end B4n.Blockchain.Sample
