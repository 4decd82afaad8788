import B4n.Blockchain.Crypto

/-!
# Blocks and the chain

The data and operations of `blockchain/block.rs`.  A block's hash and its
signature cover the header only; the body enters through the Merkle root that
`Block.validate` recomputes.  `BlockChain.addBlock` checks nothing, so what a
chain is worth depends on its callers.

Integers have the width of the source and wrap, as in the release profile.

## Main results

* `headerToBytes_inj` — the header encoding is injective in every field.
* `validate_eq_ok_iff` — what an accepted block satisfies.
* `windowsValid_of_isChain` — a chain of accepted blocks passes `isValid`.
* `index_of_isChain` — on such a chain the index is the position.
-/

namespace B4n.Blockchain

open B4n.Lib

/-- `BlockHeader` -/
structure BlockHeader where
  version : UInt32
  index : UInt64
  previousHash : Hash32Type
  merkleRoot : Hash32Type
  timestamp : UInt64
  round : UInt64
  proposerId : UInt32
  signature : SignatureType
deriving DecidableEq

/-- `Block` -/
structure Block where
  header : BlockHeader
  transactions : List Transaction
deriving DecidableEq

/-- The all-zero byte array. -/
def zeroBytes (n : Nat) : Bytes n := List.Vector.replicate n 0

namespace BlockHeader

/-- `BlockHeader::new_genesis` -/
def newGenesis [Primitives] : BlockHeader where
  version := VERSION
  index := 0
  previousHash := zeroBytes 32
  merkleRoot := calcHash []
  timestamp := 0
  round := 0
  proposerId := 0
  signature := zeroBytes 64

end BlockHeader

namespace Block

/-! ## Header encodings -/

/-- `header_to_bytes` -/
def headerToBytes (block : Block) : List UInt8 :=
  beBytes 4 block.header.version.toNat ++
  (beBytes 8 block.header.index.toNat ++
  (block.header.previousHash.toList ++
  (block.header.merkleRoot.toList ++
  (beBytes 8 block.header.timestamp.toNat ++
  (beBytes 8 block.header.round.toNat ++
  (beBytes 4 block.header.proposerId.toNat ++
  (block.header.signature.toList ++ [])))))))

/-- `header_wo_signature_to_bytes` -/
def headerWoSignatureToBytes (block : Block) : List UInt8 :=
  beBytes 4 block.header.version.toNat ++
  (beBytes 8 block.header.index.toNat ++
  (block.header.previousHash.toList ++
  (block.header.merkleRoot.toList ++
  (beBytes 8 block.header.timestamp.toNat ++
  (beBytes 8 block.header.round.toNat ++
  (beBytes 4 block.header.proposerId.toNat ++ []))))))

/-- `HEADER_CAPACITY_BYTES` -/
theorem length_headerToBytes (block : Block) :
    block.headerToBytes.length = 4 + 8 + 32 + 32 + 8 + 8 + 4 + 64 := by
  simp [headerToBytes]

/-- The encoding determines every header field. -/
theorem headerToBytes_inj {a b : Block}
    (h : a.headerToBytes = b.headerToBytes) : a.header = b.header := by
  have w32 : ∀ x : UInt32, x.toNat < 256 ^ 4 := fun x => x.toNat_lt
  have w64 : ∀ x : UInt64, x.toNat < 256 ^ 8 := fun x => x.toNat_lt
  unfold headerToBytes at h
  obtain ⟨hVersion, h⟩ := beBytes_append_inj (w32 _) (w32 _) h
  obtain ⟨hIndex, h⟩ := beBytes_append_inj (w64 _) (w64 _) h
  obtain ⟨hPrevious, h⟩ := bytes_append_inj h
  obtain ⟨hMerkle, h⟩ := bytes_append_inj h
  obtain ⟨hTimestamp, h⟩ := beBytes_append_inj (w64 _) (w64 _) h
  obtain ⟨hRound, h⟩ := beBytes_append_inj (w64 _) (w64 _) h
  obtain ⟨hProposer, h⟩ := beBytes_append_inj (w32 _) (w32 _) h
  obtain ⟨hSignature, -⟩ := bytes_append_inj h
  cases ha : a.header
  cases hb : b.header
  simp only [ha, hb, UInt32.toNat_inj, UInt64.toNat_inj] at *
  simp only [hVersion, hIndex, hPrevious, hMerkle, hTimestamp, hRound, hProposer,
    hSignature]

variable [Primitives]

/-! ## Operations -/

/-- `Block::new_genesis` -/
def newGenesis (genesisHeader : BlockHeader) : Block where
  header := genesisHeader
  transactions := []

/-- `Block::build_unsigned`; `timestamp` is the reading of the system clock. -/
def buildUnsigned (timestamp : UInt64) (index : UInt64)
    (previousHash : Hash32Type) (transactions : List Transaction)
    (round : UInt64) (proposerId : UInt32) : Block where
  header :=
    { version := VERSION
      index := index
      previousHash := previousHash
      merkleRoot := calcMerkleRoot transactions
      timestamp := timestamp
      round := round
      proposerId := proposerId
      signature := zeroBytes 64 }
  transactions := transactions

/-- `Block::sign`; `signer` is the `Signer` trait's `sign`. -/
def sign (block : Block) (signer : List UInt8 → Except SignError SignatureType) :
    Except SignError Block :=
  let headerData := block.headerWoSignatureToBytes
  match signer headerData with
  | .error e => .error e
  | .ok signature =>
      .ok { block with header := { block.header with signature := signature } }

/-- `Block::hash` -/
def hash (block : Block) : Hash32Type := calcHash block.headerToBytes

/-- `Block::validate` -/
def validate (block prev : Block) : Except BlockError Unit :=
  if block.header.index = 0 then .error .genesisNotAllowedHere
  else
    let expectedIndex := prev.header.index + 1
    if block.header.index ≠ expectedIndex then
      .error (.invalidIndex expectedIndex block.header.index)
    else if block.header.previousHash ≠ prev.hash then .error .invalidPrevHash
    else
      let expectedMerkle := calcMerkleRoot block.transactions
      if block.header.merkleRoot ≠ expectedMerkle then .error .invalidMerkleRoot
      else .ok ()

/-- What `Block::validate` accepts. -/
structure Follows (prev block : Block) : Prop where
  index_ne_zero : block.header.index ≠ 0
  index_eq : block.header.index = prev.header.index + 1
  previousHash_eq : block.header.previousHash = prev.hash
  merkleRoot_eq : block.header.merkleRoot = calcMerkleRoot block.transactions

theorem validate_eq_ok_iff (block prev : Block) :
    block.validate prev = .ok () ↔ Follows prev block := by
  constructor
  · intro h
    by_cases hZero : block.header.index = 0
    · simp [validate, hZero] at h
    by_cases hIndex : block.header.index = prev.header.index + 1
    swap
    · simp [validate, hZero, hIndex] at h
    by_cases hPrev : block.header.previousHash = prev.hash
    swap
    · simp [validate, hZero, ← hIndex, hPrev] at h
    by_cases hMerkle : block.header.merkleRoot = calcMerkleRoot block.transactions
    swap
    · simp [validate, hZero, ← hIndex, hPrev, hMerkle] at h
    exact ⟨hZero, hIndex, hPrev, hMerkle⟩
  · intro h
    unfold validate
    rw [if_neg h.index_ne_zero]
    simp only [← h.index_eq, h.previousHash_eq, h.merkleRoot_eq, ne_eq,
      not_true_eq_false, if_false]

/-- The index of an accepted block does not wrap around. -/
theorem Follows.toNat_index {prev block : Block} (h : Follows prev block) :
    block.header.index.toNat = prev.header.index.toNat + 1 := by
  have hne : prev.header.index.toNat + 1 ≠ 2 ^ 64 := by
    intro hWrap
    apply h.index_ne_zero
    rw [h.index_eq, ← UInt64.toNat_inj, UInt64.toNat_add]
    simp [hWrap]
  have hlt := prev.header.index.toNat_lt
  rw [h.index_eq, UInt64.toNat_add]
  exact Nat.mod_eq_of_lt (by simp; omega)

end Block

/-! ## The chain -/

/-- `BlockChain`; its only constructor puts in a genesis block and nothing is
ever removed, so `last` cannot fail. -/
structure BlockChain where
  chainId : UInt64
  blocks : List Block
  nonempty : blocks ≠ []
deriving DecidableEq

namespace BlockChain

/-- `add_block` -/
def addBlock (chain : BlockChain) (block : Block) : BlockChain where
  chainId := chain.chainId
  blocks := chain.blocks ++ [block]
  nonempty := by simp

/-- `last` -/
def last (chain : BlockChain) : Block := chain.blocks.getLast chain.nonempty

/-- `get_block`; an index is a `usize` position on the 64-bit targets. -/
def getBlock (chain : BlockChain) (index : UInt64) : Option Block :=
  chain.blocks[index.toNat]?

/-- `get_height` -/
def getHeight (chain : BlockChain) : UInt64 := chain.last.header.index

/-- `get_round` -/
def getRound (chain : BlockChain) : UInt64 := chain.last.header.round

@[simp] theorem blocks_addBlock (chain : BlockChain) (block : Block) :
    (chain.addBlock block).blocks = chain.blocks ++ [block] := rfl

@[simp] theorem last_addBlock (chain : BlockChain) (block : Block) :
    (chain.addBlock block).last = block := by
  simp [last]

@[simp] theorem getHeight_addBlock (chain : BlockChain) (block : Block) :
    (chain.addBlock block).getHeight = block.header.index := by
  simp [getHeight]

theorem length_pos (chain : BlockChain) : 0 < chain.blocks.length :=
  List.length_pos_iff.mpr chain.nonempty

/-- The tip is the block at the last position. -/
theorem getElem?_tip (chain : BlockChain) :
    chain.blocks[chain.blocks.length - 1]? = some chain.last := by
  rw [last, List.getLast_eq_getElem, List.getElem?_eq_getElem]

variable [Primitives]

/-- `BlockChain::new` -/
def new (chainId : UInt64) : BlockChain where
  chainId := chainId
  blocks := [Block.newGenesis BlockHeader.newGenesis]
  nonempty := by simp

/-- The window loop of `is_valid`. -/
def windowsValid : List Block → Bool
  | prevBlock :: curBlock :: rest =>
      if curBlock.header.previousHash ≠ prevBlock.hash then false
      else if curBlock.header.index ≠ prevBlock.header.index + 1 then false
      else if curBlock.header.merkleRoot ≠
          calcMerkleRoot curBlock.transactions then false
      else windowsValid (curBlock :: rest)
  | _ => true

/-- `is_valid` -/
def isValid (chain : BlockChain) : Bool := windowsValid chain.blocks

theorem windowsValid_of_isChain :
    ∀ {blocks : List Block}, blocks.IsChain Block.Follows →
      windowsValid blocks = true
  | [], _ => rfl
  | [_], _ => rfl
  | prevBlock :: curBlock :: rest, h => by
      obtain ⟨hLink, hRest⟩ := List.isChain_cons_cons.mp h
      simp only [windowsValid, hLink.previousHash_eq, ← hLink.index_eq,
        ← hLink.merkleRoot_eq, ne_eq, not_true_eq_false, if_false]
      exact windowsValid_of_isChain hRest

/-- Along linked blocks the index counts positions. -/
theorem index_of_isChain {blocks : List Block}
    (h : blocks.IsChain Block.Follows) {first : Block}
    (hFirst : blocks.head? = some first) :
    ∀ (i : Nat) (block : Block), blocks[i]? = some block →
      block.header.index.toNat = first.header.index.toNat + i := by
  intro i
  induction i with
  | zero =>
      intro block hblock
      rw [List.head?_eq_getElem?, hblock] at hFirst
      cases hFirst
      rfl
  | succ i ih =>
      intro block hblock
      obtain ⟨hi, rfl⟩ := List.getElem?_eq_some_iff.mp hblock
      have hPrev := ih _ (List.getElem?_eq_getElem (by omega))
      have hLink := List.isChain_iff_getElem.mp h i hi
      rw [hLink.toNat_index, hPrev]
      omega

end BlockChain

end B4n.Blockchain
