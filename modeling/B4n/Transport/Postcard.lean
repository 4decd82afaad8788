import B4n.Lib.PrefixCode
import B4n.Transport.Message

/-!
# Serialisation of messages

The functions of the external crate `postcard` that `transport/tcp.rs` calls,
and an executable stand-in for them in the format of the crate: an enumeration
is the number of its variant and then the fields, integers are base-128
integers, byte arrays stand as they are, texts and lists come after their
length.  As `from_bytes` does, the reader ignores what follows the message.

## Main results

* `Sample.roundTrips` — a serialised message is read back.
-/

namespace B4n.Transport

open B4n.Lib
open B4n.Blockchain

/-- The functions of the crate `postcard`. -/
class Postcard where
  /-- `postcard::to_stdvec` -/
  toStdvec : ProtocolMessage → Option (List UInt8)
  /-- `postcard::from_bytes` -/
  fromBytes : List UInt8 → Option ProtocolMessage

/-- What was serialised is read back. -/
def Postcard.RoundTrips [Postcard] : Prop :=
  ∀ (msg : ProtocolMessage) (payload : List UInt8),
    toStdvec msg = some payload → fromBytes payload = some msg

namespace Sample

/-! ## Fields of a message -/

def u32 : PrefixCode UInt32 :=
  PrefixCode.nat.via UInt32.toNat
    (fun n => if n < 2 ^ 32 then some (UInt32.ofNat n) else none) (by
      intro value
      show (if value.toNat < 2 ^ 32 then _ else _) = _
      rw [if_pos value.toNat_lt, UInt32.ofNat_toNat])

def u64 : PrefixCode UInt64 :=
  PrefixCode.nat.via UInt64.toNat
    (fun n => if n < 2 ^ 64 then some (UInt64.ofNat n) else none) (by
      intro value
      show (if value.toNat < 2 ^ 64 then _ else _) = _
      rw [if_pos value.toNat_lt, UInt64.ofNat_toNat])

def transaction : PrefixCode Transaction :=
  (u64.pair (u64.pair (u64.pair .text))).via
    (fun trx => (trx.id, trx.fromId, trx.toId, trx.text))
    (fun (id, fromId, toId, text) => some ⟨id, fromId, toId, text⟩)
    (fun _ => rfl)

def blockHeader : PrefixCode BlockHeader :=
  (u32.pair (u64.pair ((PrefixCode.bytes 32).pair ((PrefixCode.bytes 32).pair
    (u64.pair (u64.pair (u32.pair (.bytes 64)))))))).via
    (fun header => (header.version, header.index, header.previousHash,
      header.merkleRoot, header.timestamp, header.round, header.proposerId,
      header.signature))
    (fun (version, index, previousHash, merkleRoot, timestamp, round,
        proposerId, signature) =>
      some ⟨version, index, previousHash, merkleRoot, timestamp, round,
        proposerId, signature⟩)
    (fun _ => rfl)

def block : PrefixCode Block :=
  (blockHeader.pair transaction.list).via
    (fun b => (b.header, b.transactions))
    (fun (header, transactions) => some ⟨header, transactions⟩)
    (fun _ => rfl)

/-! ## Messages -/

def encode : ProtocolMessage → List UInt8
  | .hello peerId pubkey =>
      0 :: (u32.pair (.bytes 32)).encode (peerId, pubkey)
  | .helloAck peerId => 1 :: u32.encode peerId
  | .getStatus => [2]
  | .status height lastBlockHash =>
      3 :: (u64.pair (.bytes 32)).encode (height, lastBlockHash)
  | .getBlocks start limit => 4 :: (u64.pair u32).encode (start, limit)
  | .blocks page => 5 :: block.list.encode page
  | .trx trx => 6 :: transaction.encode trx
  | .block b => 7 :: block.encode b

/-- The fields of a variant. -/
def fields {α : Type} (code : PrefixCode α) (variant : α → ProtocolMessage)
    (bytes : List UInt8) : Option ProtocolMessage :=
  (code.decode bytes).map fun read => variant read.1

theorem fields_encode {α : Type} (code : PrefixCode α)
    (variant : α → ProtocolMessage) (a : α) :
    fields code variant (code.encode a) = some (variant a) := by
  have hread := code.decode_encode a []
  rw [List.append_nil] at hread
  unfold fields
  rw [hread]
  rfl

def decode : List UInt8 → Option ProtocolMessage
  | [] => none
  | tag :: bytes =>
      match tag.toNat with
      | 0 =>
          fields (u32.pair (.bytes 32)) (fun msg => .hello msg.1 msg.2) bytes
      | 1 => fields u32 .helloAck bytes
      | 2 => some .getStatus
      | 3 =>
          fields (u64.pair (.bytes 32)) (fun msg => .status msg.1 msg.2) bytes
      | 4 => fields (u64.pair u32) (fun msg => .getBlocks msg.1 msg.2) bytes
      | 5 => fields block.list .blocks bytes
      | 6 => fields transaction .trx bytes
      | 7 => fields block .block bytes
      | _ => none

scoped instance postcard : Postcard where
  toStdvec msg := some (encode msg)
  fromBytes := decode

theorem decode_encode (msg : ProtocolMessage) :
    decode (encode msg) = some msg := by
  cases msg with
  | hello peerId pubkey =>
      exact fields_encode (u32.pair (.bytes 32))
        (fun msg => .hello msg.1 msg.2) (peerId, pubkey)
  | helloAck peerId => exact fields_encode u32 _ peerId
  | getStatus => rfl
  | status height lastBlockHash =>
      exact fields_encode (u64.pair (.bytes 32))
        (fun msg => .status msg.1 msg.2) (height, lastBlockHash)
  | getBlocks start limit =>
      exact fields_encode (u64.pair u32)
        (fun msg => .getBlocks msg.1 msg.2) (start, limit)
  | blocks page => exact fields_encode block.list _ page
  | trx trx => exact fields_encode transaction _ trx
  | block b => exact fields_encode block _ b

theorem roundTrips : Postcard.RoundTrips := by
  intro msg payload hpayload
  obtain rfl : encode msg = payload := Option.some.inj hpayload
  exact decode_encode msg

end Sample

end B4n.Transport
