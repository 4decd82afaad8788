import B4n.Node.Chain

/-!
# Arithmetic in the validation of untrusted blocks

`validate_block` does its arithmetic on header fields of a block from a peer,
before the signature is looked at.  `validateBlockChecked` is the same function
with every arithmetic operation and index checked, as in the development
profile.  The index is pinned to the tip by `Block::validate`; the round is not,
and `block_index - 1 + round` is a plain sum.

## Main results

* `run_arithmeticExact_iff` — on every reachable tip, validating a block is free
  of faults and expects the right proposer if and only if the sum fits in 64
  bits (and the position in 32).
-/

namespace B4n

open Lib Blockchain

/-! ## Checked operations -/

/-- What stops a checked operation. -/
inductive Fault where
  | overflow
  | divisionByZero
  | outOfRange
deriving DecidableEq

def checkedAdd (a b : UInt64) : Except Fault UInt64 :=
  if a.toNat + b.toNat < 2 ^ 64 then .ok (a + b) else .error .overflow

def checkedSub (a b : UInt64) : Except Fault UInt64 :=
  if b ≤ a then .ok (a - b) else .error .overflow

/-- The remainder by a list length. -/
def checkedRem (a : UInt64) (length : Nat) : Except Fault Nat :=
  if length = 0 then .error .divisionByZero else .ok (a.toNat % length)

theorem checkedAdd_eq_ok_iff {a b c : UInt64} :
    checkedAdd a b = .ok c ↔ a.toNat + b.toNat < 2 ^ 64 ∧ c = a + b := by
  unfold checkedAdd
  split
  · simp_all [eq_comm]
  · simp_all

theorem toNat_add_of_lt {a b : UInt64} (h : a.toNat + b.toNat < 2 ^ 64) :
    (a + b).toNat = a.toNat + b.toNat := by
  rw [UInt64.toNat_add]
  exact Nat.mod_eq_of_lt h

theorem toNat_pred {a : UInt64} (h : a ≠ 0) : (a - 1).toNat = a.toNat - 1 := by
  have hpos : 1 ≤ a := by
    rw [UInt64.le_iff_toNat_le]
    have hne : a.toNat ≠ 0 := fun hzero => h (UInt64.toNat_inj.mp hzero)
    exact Nat.one_le_iff_ne_zero.mpr hne
  rw [UInt64.toNat_sub_of_le _ _ hpos]
  rfl

namespace Blockchain

/-- `Block::validate`, checked. -/
def Block.validateChecked [Primitives] (block prev : Block) :
    Except Fault (Except BlockError Unit) :=
  if block.header.index = 0 then .ok (.error .genesisNotAllowedHere)
  else
    match checkedAdd prev.header.index 1 with
    | .error fault => .error fault
    | .ok expectedIndex =>
        if block.header.index ≠ expectedIndex then
          .ok (.error (.invalidIndex expectedIndex block.header.index))
        else if block.header.previousHash ≠ prev.hash then
          .ok (.error .invalidPrevHash)
        else
          let expectedMerkle := calcMerkleRoot block.transactions
          if block.header.merkleRoot ≠ expectedMerkle then
            .ok (.error .invalidMerkleRoot)
          else .ok (.ok ())

namespace PoAConsensus

/-- `expected_proposer`, checked. -/
def expectedProposerChecked (consensus : PoAConsensus)
    (blockIndex round : UInt64) : Except Fault (UInt32 × Validator) :=
  match checkedSub blockIndex 1 with
  | .error fault => .error fault
  | .ok before =>
      match checkedAdd before round with
      | .error fault => .error fault
      | .ok sum =>
          match checkedRem sum consensus.config.validators.length with
          | .error fault => .error fault
          | .ok proposerIndex =>
              match consensus.config.validators[proposerIndex]? with
              | none => .error .outOfRange
              | some validator => .ok (UInt32.ofNat proposerIndex, validator)

/-- `validate_block`, checked. -/
def validateBlockChecked [Primitives] (consensus : PoAConsensus)
    (prev current : Block) : Except Fault (Except BlockError Unit) :=
  match current.validateChecked prev with
  | .error fault => .error fault
  | .ok (.error e) => .ok (.error e)
  | .ok (.ok ()) =>
      match consensus.expectedProposerChecked current.header.index
          current.header.round with
      | .error fault => .error fault
      | .ok expected =>
          if current.header.proposerId ≠ expected.1 then
            .ok (.error
              (.invalidProposer expected.1 current.header.proposerId))
          else
            let bytes := current.headerWoSignatureToBytes
            let ok := consensus.verifier.verify expected.2.pubkey bytes
              current.header.signature
            if !ok then .ok (.error .invalidSignature) else .ok (.ok ())

/-- The validator whose turn it is, over the unbounded integers. -/
def slot (consensus : PoAConsensus) (blockIndex round : UInt64) : Nat :=
  (blockIndex.toNat - 1 + round.toNat) % consensus.config.validators.length

/-! ## When the checks pass -/

/-- The checks of `expected_proposer` come down to one: the sum of the rotation
fits. -/
theorem expectedProposerChecked_eq {consensus : PoAConsensus}
    {blockIndex round : UInt64} (hindex : blockIndex ≠ 0) :
    consensus.expectedProposerChecked blockIndex round =
      if blockIndex.toNat - 1 + round.toNat < 2 ^ 64 then
        .ok (consensus.expectedProposer blockIndex round)
      else .error .overflow := by
  have hpos : (1 : UInt64) ≤ blockIndex := by
    rw [UInt64.le_iff_toNat_le]
    have hne : blockIndex.toNat ≠ 0 :=
      fun hzero => hindex (UInt64.toNat_inj.mp hzero)
    exact Nat.one_le_iff_ne_zero.mpr hne
  unfold expectedProposerChecked
  rw [checkedSub, if_pos hpos]
  dsimp only
  rw [checkedAdd, toNat_pred hindex]
  by_cases hfits : blockIndex.toNat - 1 + round.toNat < 2 ^ 64
  · have hlength := consensus.validators_length_pos
    have hlt := consensus.proposerIndex_lt blockIndex round
    rw [if_pos hfits, if_pos hfits]
    dsimp only
    rw [checkedRem, if_neg hlength.ne']
    dsimp only
    rw [← proposerIndex, List.getElem?_eq_getElem hlt]
    rfl
  · rw [if_neg hfits, if_neg hfits]

theorem expectedProposerChecked_eq_ok_iff {consensus : PoAConsensus}
    {blockIndex round : UInt64} (hindex : blockIndex ≠ 0) :
    consensus.expectedProposerChecked blockIndex round =
        .ok (consensus.expectedProposer blockIndex round) ↔
      blockIndex.toNat - 1 + round.toNat < 2 ^ 64 := by
  rw [expectedProposerChecked_eq hindex]
  split
  · rename_i hfits
    exact iff_of_true rfl hfits
  · rename_i hfits
    exact iff_of_false (by simp) hfits

/-- Without overflow the rotation is exact as far as the position is. -/
theorem proposerIndex_eq_slot (consensus : PoAConsensus)
    {blockIndex round : UInt64} (hindex : blockIndex ≠ 0)
    (hfits : blockIndex.toNat - 1 + round.toNat < 2 ^ 64) :
    consensus.proposerIndex blockIndex round =
      consensus.slot blockIndex round := by
  rw [← toNat_pred hindex] at hfits
  rw [proposerIndex, slot, toNat_add_of_lt hfits, toNat_pred hindex]

variable [Primitives]

/-- Validating the block runs without a fault and gives the verdict of
`validate_block`, and the proposer that a block on the right place is held
against is the one of its slot, number and key. -/
structure ArithmeticExact (consensus : PoAConsensus) (prev current : Block) :
    Prop where
  faultless : consensus.validateBlockChecked prev current =
    .ok (consensus.validateBlock prev current)
  proposer : current.validate prev = .ok () →
    (consensus.expectedProposer current.header.index
        current.header.round).1.toNat =
      consensus.slot current.header.index current.header.round ∧
    consensus.config.validators[consensus.slot current.header.index
        current.header.round]? =
      some (consensus.expectedProposer current.header.index
        current.header.round).2

omit [Primitives] in
/-- The position survives the cast to 32 bits if it is that small. -/
theorem expectedProposer_exact_iff {consensus : PoAConsensus}
    {blockIndex round : UInt64} (hindex : blockIndex ≠ 0)
    (hfits : blockIndex.toNat - 1 + round.toNat < 2 ^ 64) :
    ((consensus.expectedProposer blockIndex round).1.toNat =
        consensus.slot blockIndex round ∧
      consensus.config.validators[consensus.slot blockIndex round]? =
        some (consensus.expectedProposer blockIndex round).2) ↔
      consensus.slot blockIndex round < 2 ^ 32 := by
  have hslot := proposerIndex_eq_slot consensus hindex hfits
  have hlt := consensus.proposerIndex_lt blockIndex round
  have hnumber : (consensus.expectedProposer blockIndex round).1.toNat =
      consensus.slot blockIndex round % 2 ^ 32 := by
    rw [← hslot]
    exact UInt32.toNat_ofNat'
  constructor
  · rintro ⟨hexact, -⟩
    rw [← hexact]
    exact UInt32.toNat_lt _
  · intro hsmall
    refine ⟨hnumber.trans (Nat.mod_eq_of_lt hsmall), ?_⟩
    rw [← hslot, List.getElem?_eq_getElem hlt]
    rfl

end PoAConsensus

variable [Primitives]

/-- `Block::validate` is free of faults on a tip that has a next index. -/
theorem Block.validateChecked_eq {block prev : Block}
    (hprev : prev.header.index.toNat + 1 < 2 ^ 64) :
    block.validateChecked prev = .ok (block.validate prev) := by
  unfold Block.validateChecked Block.validate
  have hnext : checkedAdd prev.header.index 1 =
      .ok (prev.header.index + 1) :=
    checkedAdd_eq_ok_iff.mpr ⟨hprev, rfl⟩
  rw [hnext]
  dsimp only
  split_ifs <;> rfl

/-- A fault in `validate_block` is a fault in the rotation. -/
theorem PoAConsensus.validateBlockChecked_eq_iff {consensus : PoAConsensus}
    {prev current : Block} (hprev : prev.header.index.toNat + 1 < 2 ^ 64) :
    consensus.validateBlockChecked prev current =
        .ok (consensus.validateBlock prev current) ↔
      (current.validate prev = .ok () →
        consensus.expectedProposerChecked current.header.index
            current.header.round =
          .ok (consensus.expectedProposer current.header.index
            current.header.round)) := by
  unfold validateBlockChecked validateBlock
  rw [Block.validateChecked_eq hprev]
  cases hplace : current.validate prev with
  | error e => simp
  | ok u =>
      cases u
      have hindex : current.header.index ≠ 0 :=
        ((Block.validate_eq_ok_iff _ _).mp hplace).index_ne_zero
      rw [expectedProposerChecked_eq hindex]
      by_cases hfits :
          current.header.index.toNat - 1 + current.header.round.toNat < 2 ^ 64
      · rw [if_pos hfits]
        refine iff_of_true ?_ fun _ => rfl
        dsimp only
        split_ifs <;> rfl
      · rw [if_neg hfits]
        exact iff_of_false (by simp) (by simp)

/-- Validation on a tip with a next index is exact if and only if the rotation
of a block on the right place neither overflows nor leaves 32 bits. -/
theorem PoAConsensus.arithmeticExact_iff {consensus : PoAConsensus}
    {prev current : Block} (hprev : prev.header.index.toNat + 1 < 2 ^ 64) :
    consensus.ArithmeticExact prev current ↔
      (current.validate prev = .ok () →
        current.header.index.toNat - 1 + current.header.round.toNat < 2 ^ 64 ∧
        consensus.slot current.header.index current.header.round < 2 ^ 32) := by
  constructor
  · rintro ⟨hfaultless, hproposer⟩ hplace
    have hindex : current.header.index ≠ 0 :=
      ((Block.validate_eq_ok_iff _ _).mp hplace).index_ne_zero
    have hfits := (expectedProposerChecked_eq_ok_iff hindex).mp
      ((validateBlockChecked_eq_iff hprev).mp hfaultless hplace)
    exact ⟨hfits,
      (expectedProposer_exact_iff hindex hfits).mp (hproposer hplace)⟩
  · intro hsmall
    refine ⟨(validateBlockChecked_eq_iff hprev).mpr fun hplace => ?_,
      fun hplace => ?_⟩
    all_goals
      have hindex : current.header.index ≠ 0 :=
        ((Block.validate_eq_ok_iff _ _).mp hplace).index_ne_zero
    · exact (expectedProposerChecked_eq_ok_iff hindex).mpr (hsmall hplace).1
    · exact (expectedProposer_exact_iff hindex (hsmall hplace).1).mpr
        (hsmall hplace).2

end Blockchain

namespace Node

variable [Primitives]

/-- On the tip of every reachable chain, validating a block that a peer sent is
free of faults and exact if and only if, should the block be on the right
place, the sum of its rotation fits in 64 bits and the slot in 32. -/
theorem run_arithmeticExact_iff {netId : UInt32} {seed : Seed}
    {chainId : UInt64} {consensus : PoAConsensus} {node : Node}
    {inputs : List (Env × Input)} {effects : List Effect}
    (hrun : Run Node.next
      (Node.new netId seed (BlockChain.new chainId) consensus) inputs node
      effects) (b : Block) :
    node.consensus.ArithmeticExact node.chain.last b ↔
      (b.validate node.chain.last = .ok () →
        b.header.index.toNat - 1 + b.header.round.toNat < 2 ^ 64 ∧
        node.consensus.slot b.header.index b.header.round < 2 ^ 32) :=
  PoAConsensus.arithmeticExact_iff (run_height_lt hrun)

end Node

end B4n

namespace B4n.Blockchain.Sample

open B4n.Lib

/-- Validator 1 of three proposes the first block. -/
private def firstOfThree : List (Env × Input) :=
  [(env 10, .message (.localTrx (trx 1 "coffee"))), (env 1000, .tick)]

/-- The node after the first block. -/
private def firstTip : Node := (finish Node.next
  (node 1 1 (config [1, 2, 3] 8) config_three_ok) firstOfThree).1

/-- A block of the last round on the first block. -/
private def lastRound : Block :=
  block firstTip.chain.last [] (UInt64.ofNat (2 ^ 64 - 1)) 0 1

private theorem firstTip_ok : (exec Node.next
    (node 1 1 (config [1, 2, 3] 8) config_three_ok) firstOfThree).isSome =
      true ∧
      firstTip.consensus.validateBlockChecked firstTip.chain.last lastRound =
        .error .overflow ∧
      (firstTip.consensus.expectedProposer lastRound.header.index
        lastRound.header.round).1 = 0 ∧
      firstTip.consensus.slot lastRound.header.index lastRound.header.round =
        1 := by
  decide +kernel

private theorem firstTip_run : ∃ effects, Run Node.next
    (node 1 1 (config [1, 2, 3] 8) config_three_ok) firstOfThree firstTip
      effects :=
  ⟨_, run_finish firstTip_ok.1⟩

/-- On the first block, a block of the last round is held against validator 0
by wrapping and stopped by an overflow check; its slot is that of validator
1. -/
theorem lastRound_overflows :
    (∃ effects, Run Node.next
      (node 1 1 (config [1, 2, 3] 8) config_three_ok) firstOfThree firstTip
        effects) ∧
    ∃ b : Block,
      firstTip.consensus.validateBlockChecked firstTip.chain.last b =
        .error .overflow ∧
      (firstTip.consensus.expectedProposer b.header.index b.header.round).1 =
        0 ∧
      firstTip.consensus.slot b.header.index b.header.round = 1 ∧
      ¬ firstTip.consensus.ArithmeticExact firstTip.chain.last b := by
  obtain ⟨-, hoverflow, hexpected, hslot⟩ := firstTip_ok
  refine ⟨firstTip_run, lastRound, hoverflow, hexpected, hslot, ?_⟩
  intro hexact
  have hfaultless := hexact.faultless
  rw [hoverflow] at hfaultless
  exact absurd hfaultless (by decide)

theorem run_arithmeticExact_iff_second :
    firstTip.consensus.ArithmeticExact firstTip.chain.last
      (block firstTip.chain.last [trx 2 "tea"] 0 1 2) := by
  obtain ⟨effects, hrun⟩ := firstTip_run
  exact (Node.run_arithmeticExact_iff hrun _).mpr fun _ => by decide +kernel

end B4n.Blockchain.Sample
