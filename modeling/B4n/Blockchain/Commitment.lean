import B4n.Blockchain.Sample

/-!
# What a block hash commits to

Hash and signature of a block cover its header, and the header covers the
transactions by their Merkle root.  An odd level of the Merkle tree is padded
with a copy of its last node, so a list and the same list with its tail
repeated can have one root.  Among lists of one length the root is injective.

## Main results

* `header_eq_of_hash_eq` — the hash commits to the whole header.
* `transactions_eq_iff` — two accepted blocks with one hash carry the same
  transactions if and only if they carry equally many.
-/

namespace B4n.Blockchain

open B4n.Lib

variable [Primitives]

namespace Block

/-- Every byte string that is hashed for a block: its header and the nodes of
its Merkle tree. -/
def hashInputs (block : Block) : List (List UInt8) :=
  block.headerToBytes :: merkleInputs block.transactions

/-- The hash commits to the header. -/
theorem header_eq_of_hash_eq {inputs : Set (List UInt8)}
    (hInj : Set.InjOn calcHash inputs) {a b : Block}
    (ha : a.headerToBytes ∈ inputs) (hb : b.headerToBytes ∈ inputs)
    (hhash : a.hash = b.hash) : a.header = b.header :=
  headerToBytes_inj (hInj ha hb hhash)

end Block

namespace PoAConsensus

/-- Two accepted blocks with the same hash carry the same transactions if and
only if they carry the same number of them, as long as SHA-256 does not collide
on what is hashed for the two blocks. -/
theorem transactions_eq_iff (consensus : PoAConsensus) (prev : Block)
    {b₁ b₂ : Block}
    (hCodec : Function.Injective Primitives.toStdvec)
    (hInj : Set.InjOn calcHash
      {bytes | bytes ∈ b₁.hashInputs ∨ bytes ∈ b₂.hashInputs})
    (h₁ : consensus.validateBlock prev b₁ = .ok ())
    (h₂ : consensus.validateBlock prev b₂ = .ok ())
    (hhash : b₁.hash = b₂.hash) :
    b₁.transactions = b₂.transactions ↔
      b₁.transactions.length = b₂.transactions.length := by
  constructor
  · exact congrArg List.length
  intro hlen
  have hheader : b₁.header = b₂.header :=
    Block.header_eq_of_hash_eq hInj (Or.inl (List.mem_cons_self ..))
      (Or.inr (List.mem_cons_self ..)) hhash
  have hvalid₁ := (validateBlock_eq_ok_iff _ _ _).mp h₁
  have hvalid₂ := (validateBlock_eq_ok_iff _ _ _).mp h₂
  have hroot : calcMerkleRoot b₁.transactions =
      calcMerkleRoot b₂.transactions := by
    rw [← hvalid₁.follows.merkleRoot_eq, ← hvalid₂.follows.merkleRoot_eq,
      hheader]
  exact calcMerkleRoot_inj hInj hCodec hlen
    (fun _ hx => Or.inl (List.mem_cons_of_mem _ hx))
    (fun _ hx => Or.inr (List.mem_cons_of_mem _ hx)) hroot

end PoAConsensus

end B4n.Blockchain

namespace B4n.Blockchain.Sample

open B4n.Lib

/-- A signed block with three transactions. -/
private def threeTrxs : Block :=
  block genesis [trx 1 "a", trx 2 "b", trx 3 "c"] 0 0 1

/-- The same block with its last transaction repeated. -/
private def repeatedTrx : Block :=
  { threeTrxs with
    transactions := [trx 1 "a", trx 2 "b", trx 3 "c", trx 3 "c"] }

private def soleValidator : PoAConsensus where
  config := config [1] 8
  state := PoAConsensusState.new 0 0 0
  verifier := verifier
  config_ok := config_one_ok

private theorem repeatedTrx_injOn : Set.InjOn calcHash
    {bytes | bytes ∈ threeTrxs.hashInputs ∨ bytes ∈ repeatedTrx.hashInputs} :=
  injOn_of_nodup (by decide +kernel)

/-- Both blocks are accepted on the genesis block and have one hash, nothing
collides, and the transactions differ. -/
theorem repeatedTrx_accepted :
    ∃ (consensus : PoAConsensus) (b₁ b₂ : Block),
      Function.Injective Primitives.toStdvec ∧
      Set.InjOn calcHash
        {bytes | bytes ∈ b₁.hashInputs ∨ bytes ∈ b₂.hashInputs} ∧
      consensus.validateBlock genesis b₁ = .ok () ∧
      consensus.validateBlock genesis b₂ = .ok () ∧
      b₁.hash = b₂.hash ∧ b₁.transactions ≠ b₂.transactions := by
  refine ⟨soleValidator, threeTrxs, repeatedTrx, toStdvec_injective,
    repeatedTrx_injOn, ?_, ?_, ?_, ?_⟩ <;> decide +kernel

theorem transactions_eq_iff_repeatedTrx :
    threeTrxs.transactions = repeatedTrx.transactions ↔
      threeTrxs.transactions.length = repeatedTrx.transactions.length :=
  PoAConsensus.transactions_eq_iff soleValidator genesis toStdvec_injective repeatedTrx_injOn
    (by decide +kernel) (by decide +kernel) (by decide +kernel)

end B4n.Blockchain.Sample
