import B4n.Blockchain.Block

/-!
# Protocol messages

`transport/message.rs`: what travels between two nodes.
-/

namespace B4n.Transport

open B4n.Blockchain

/-- `ProtocolMessage` -/
inductive ProtocolMessage where
  | hello (peerId : UInt32) (pubkey : PubkeyType)
  | helloAck (peerId : UInt32)
  | getStatus
  | status (height : UInt64) (lastBlockHash : Hash32Type)
  | getBlocks (start : UInt64) (limit : UInt32)
  | blocks (blocks : List Block)
  | trx (trx : Transaction)
  | block (block : Block)
deriving DecidableEq

/-- The blocks a message carries. -/
def ProtocolMessage.carried : ProtocolMessage → List Block
  | .blocks page => page
  | .block b => [b]
  | _ => []

/-- The `Sender` end of a channel to a connection's writer thread, named by a
number. -/
abbrev Sender := Nat

end B4n.Transport
