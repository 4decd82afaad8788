import B4n.Lib.ByteCodec
import B4n.Lib.MerkleLevels
import Mathlib.Data.Set.Function

/-!
# Types, transactions and hashing

The data of `blockchain/mod.rs`, `transaction.rs`, `errors.rs` and
`crypto.rs`.  SHA-256, Ed25519 and the postcard serialiser are external
crates; they enter as the fields of `Primitives`, and what a result needs to
know about them is a named hypothesis at that result.

Collision freedom is never assumed of the whole hash function, which maps
infinitely many byte strings to 32 bytes.  It is assumed of the byte strings
that a statement is about, as `Set.InjOn calcHash inputs`.
-/

namespace B4n.Blockchain

open B4n.Lib

/-- `VERSION` -/
def VERSION : UInt32 := 0

abbrev Hash32Type := Bytes 32
abbrev PubkeyType := Bytes 32
abbrev SignatureType := Bytes 64

/-- The 32 seed bytes a `SigningKey` is made from. -/
abbrev Seed := Bytes 32

/-- `Transaction`; the source fields `from` and `to` are `fromId` and
`toId`. -/
structure Transaction where
  id : UInt64
  fromId : UInt64
  toId : UInt64
  text : String
deriving DecidableEq, Repr

inductive BlockError where
  | genesisNotAllowedHere
  | invalidIndex (expected got : UInt64)
  | invalidPrevHash
  | invalidMerkleRoot
  | invalidProposer (expected got : UInt32)
  | invalidSignature
deriving DecidableEq, Repr

inductive SignError where
  | notValidator
deriving DecidableEq, Repr

/-- The functions of the external crates. -/
class Primitives where
  /-- `Sha256` over a whole byte string -/
  sha256 : List UInt8 → Hash32Type
  /-- `postcard::to_stdvec` of a transaction -/
  toStdvec : Transaction → List UInt8
  /-- `SigningKey::from_bytes(seed).verifying_key().to_bytes()` -/
  verifyingKey : Seed → PubkeyType
  /-- `SigningKey::from_bytes(seed).sign(data).to_bytes()` -/
  sign : Seed → List UInt8 → SignatureType

/-- The `Verifier` trait. -/
structure Verifier where
  verify : PubkeyType → List UInt8 → SignatureType → Bool

/-- A signature verifies under the public key of the seed that made it. -/
def SignaturesVerify [Primitives] (verifier : Verifier) : Prop :=
  ∀ (seed : Seed) (data : List UInt8),
    verifier.verify (Primitives.verifyingKey seed) data
      (Primitives.sign seed data) = true

/-- A signature made with one key verifies under no other key. -/
def SignaturesUnforgeable [Primitives] (verifier : Verifier) : Prop :=
  ∀ (seed : Seed) (pubkey : PubkeyType) (data signed : List UInt8),
    verifier.verify pubkey data (Primitives.sign seed signed) = true →
      Primitives.verifyingKey seed = pubkey

variable [Primitives]

/-- `calc_hash` -/
def calcHash (bytes : List UInt8) : Hash32Type := Primitives.sha256 bytes

/-- `Transaction::to_bytes` -/
def Transaction.toBytes (trx : Transaction) : List UInt8 :=
  Primitives.toStdvec trx

/-- `Transaction::hash` -/
def Transaction.hash (trx : Transaction) : Hash32Type := calcHash trx.toBytes

/-- `hash_pair` -/
def hashPair (left right : Hash32Type) : Hash32Type :=
  calcHash (left.toList ++ right.toList)

/-- `calc_merkle_root`; its loop runs at most as often as there are leaves and
ends with exactly one node (`length_foldLevels`). -/
def calcMerkleRoot (transactions : List Transaction) : Hash32Type :=
  let result := transactions.map Transaction.hash
  if h : result = [] then calcHash [] else foldRoot hashPair result h

/-- Every byte string that `calc_merkle_root` hashes. -/
def merkleInputs (transactions : List Transaction) : List (List UInt8) :=
  let result := transactions.map Transaction.hash
  if result = [] then [[]]
  else transactions.map Transaction.toBytes ++
    (foldPairs hashPair result.length result).map fun pair =>
      pair.1.toList ++ pair.2.toList

/-- Two pairs with the same hash are the same pair, as far as the hash is
collision free on their concatenations. -/
theorem hashPair_injOn {inputs : Set (List UInt8)}
    (hInj : Set.InjOn calcHash inputs) :
    CombineInjOn hashPair
      {pair | pair.1.toList ++ pair.2.toList ∈ inputs} := by
  intro p hp q hq heq
  obtain ⟨hLeft, hRight⟩ := bytes_append_inj (hInj hp hq heq)
  exact Prod.ext hLeft (List.Vector.toList_injective hRight)

/-- Leaf hashes determine the transactions. -/
theorem map_hash_inj {inputs : Set (List UInt8)}
    (hInj : Set.InjOn calcHash inputs)
    (hCodec : Function.Injective (Primitives.toStdvec)) :
    ∀ {txs txs' : List Transaction},
      (∀ trx ∈ txs, trx.toBytes ∈ inputs) →
      (∀ trx ∈ txs', trx.toBytes ∈ inputs) →
      txs.map Transaction.hash = txs'.map Transaction.hash → txs = txs'
  | [], [], _, _, _ => rfl
  | [], _ :: _, _, _, h => by simp at h
  | _ :: _, [], _, _, h => by simp at h
  | trx :: txs, trx' :: txs', hin, hin', h => by
      simp only [List.map_cons, List.cons.injEq] at h
      have hBytes : trx.toBytes = trx'.toBytes :=
        hInj (hin trx (by simp)) (hin' trx' (by simp)) h.1
      have hRest := map_hash_inj hInj hCodec (fun t ht => hin t (by simp [ht]))
        (fun t ht => hin' t (by simp [ht])) h.2
      rw [hCodec hBytes, hRest]

/-- The Merkle root determines the transaction list among the lists of the
same length: equal lengths give trees of the same shape, so equality descends
from the root to the leaves. -/
theorem calcMerkleRoot_inj {inputs : Set (List UInt8)}
    (hInj : Set.InjOn calcHash inputs)
    (hCodec : Function.Injective (Primitives.toStdvec))
    {txs txs' : List Transaction} (hlen : txs.length = txs'.length)
    (hin : ∀ x ∈ merkleInputs txs, x ∈ inputs)
    (hin' : ∀ x ∈ merkleInputs txs', x ∈ inputs)
    (hroot : calcMerkleRoot txs = calcMerkleRoot txs') : txs = txs' := by
  by_cases hne : txs.map Transaction.hash = []
  · have htxs : txs = [] := List.map_eq_nil_iff.mp hne
    subst htxs
    exact (List.length_eq_zero_iff.mp hlen.symm).symm
  · have hne' : txs'.map Transaction.hash ≠ [] := by
      intro hnil
      rw [List.map_eq_nil_iff.mp hnil] at hlen
      exact hne (by rw [List.length_eq_zero_iff.mp hlen]; rfl)
    unfold merkleInputs at hin hin'
    simp only [if_neg hne, if_neg hne', List.mem_append] at hin hin'
    have hLeaves : txs.map Transaction.hash = txs'.map Transaction.hash :=
      foldRoot_inj (hashPair_injOn hInj) hne hne' (by simp [hlen])
        (fun pair hp => hin _ (Or.inr (List.mem_map_of_mem hp)))
        (fun pair hp => hin' _ (Or.inr (List.mem_map_of_mem hp)))
        (by simpa only [calcMerkleRoot, dif_neg hne, dif_neg hne'] using hroot)
    exact map_hash_inj hInj hCodec
      (fun trx ht => hin _ (Or.inl (List.mem_map_of_mem ht)))
      (fun trx ht => hin' _ (Or.inl (List.mem_map_of_mem ht))) hLeaves

end B4n.Blockchain
