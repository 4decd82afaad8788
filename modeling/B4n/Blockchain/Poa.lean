import B4n.Blockchain.Block
import Mathlib.Data.Finset.Card

/-!
# Proof-of-authority consensus

`blockchain/consensus/poa.rs`: the validator list, the rotation that says whose
turn a height and round is, and the validation of a block against its
predecessor.  `PoAConsensus` carries the check that its constructor makes, so
the validator list of a consensus value is never empty.

## Main results

* `validateBlock_eq_ok_iff` — what an accepted block satisfies.
* `validators_nodup` — no key is listed twice.
-/

namespace B4n.Blockchain

open B4n.Lib

/-- `Validator` -/
structure Validator where
  pubkey : PubkeyType
deriving DecidableEq

inductive ConsensusError where
  | invalidConfig
deriving DecidableEq

/-- `PoAConsensusConfig` -/
structure PoAConsensusConfig where
  validators : List Validator
  slotDurationMs : UInt64
  timeoutMs : UInt64
  maxTrxPerBlock : Nat
deriving DecidableEq

/-- `validate_config` -/
def PoAConsensusConfig.validateConfig (config : PoAConsensusConfig) : Bool :=
  if config.validators.isEmpty then false
  else
    let uniqPubkeys := (config.validators.map Validator.pubkey).toFinset
    if uniqPubkeys.card ≠ config.validators.length then false else true

/-- A validator list without repetition is a valid configuration. -/
theorem PoAConsensusConfig.validateConfig_of_nodup {config : PoAConsensusConfig}
    (hne : config.validators ≠ [])
    (hnodup : (config.validators.map Validator.pubkey).Nodup) :
    config.validateConfig = true := by
  unfold validateConfig
  rw [if_neg (by simpa using hne)]
  dsimp only
  rw [List.toFinset_card_of_nodup hnodup, List.length_map, if_neg (by simp)]

/-- A clock reading, in nanoseconds. -/
abbrev Instant := Nat

/-- `PoAConsensusState` -/
structure PoAConsensusState where
  currentHeight : UInt64
  currentRound : UInt64
  roundStartedAt : Instant
deriving DecidableEq

/-- `PoAConsensusState::new`, with the clock reading it takes. -/
def PoAConsensusState.new (now : Instant)
    (currentHeight currentRound : UInt64) : PoAConsensusState where
  currentHeight := currentHeight
  currentRound := currentRound
  roundStartedAt := now

/-- `PoAConsensus`, with the check of its constructor as a field. -/
structure PoAConsensus where
  config : PoAConsensusConfig
  state : PoAConsensusState
  verifier : Verifier
  config_ok : config.validateConfig = true

namespace PoAConsensus

/-- `PoAConsensus::new` -/
def new (config : PoAConsensusConfig) (state : PoAConsensusState)
    (verifier : Verifier) : Except ConsensusError PoAConsensus :=
  if h : config.validateConfig = true then
    .ok { config := config, state := state, verifier := verifier, config_ok := h }
  else .error .invalidConfig

/-- `get_current_round` -/
def getCurrentRound (consensus : PoAConsensus) : UInt64 :=
  consensus.state.currentRound

/-- `update_state`, with the clock reading it takes. -/
def updateState (consensus : PoAConsensus) (now : Instant)
    (height : Option UInt64) (round : UInt64) : PoAConsensus :=
  { consensus with
    state :=
      { currentHeight := height.getD consensus.state.currentHeight
        currentRound := round
        roundStartedAt := now } }

theorem validators_ne_nil (consensus : PoAConsensus) :
    consensus.config.validators ≠ [] := by
  intro hnil
  have hok := consensus.config_ok
  simp [PoAConsensusConfig.validateConfig, hnil] at hok

theorem validators_length_pos (consensus : PoAConsensus) :
    0 < consensus.config.validators.length :=
  List.length_pos_iff.mpr consensus.validators_ne_nil

theorem validators_nodup (consensus : PoAConsensus) :
    (consensus.config.validators.map Validator.pubkey).Nodup := by
  have hok := consensus.config_ok
  unfold PoAConsensusConfig.validateConfig at hok
  rw [if_neg (by simpa using consensus.validators_ne_nil)] at hok
  dsimp only at hok
  split at hok
  · cases hok
  · rename_i hcard
    have hlen : (consensus.config.validators.map Validator.pubkey).length =
        consensus.config.validators.length := List.length_map _
    rw [not_not, List.card_toFinset, ← hlen] at hcard
    exact List.dedup_eq_self.mp
      ((List.dedup_sublist _).eq_of_length hcard)

/-- The position in the validator list whose turn it is.  A list length is a
`usize`, so the source's `proposer_count as u64` loses nothing. -/
def proposerIndex (consensus : PoAConsensus) (blockIndex round : UInt64) : Nat :=
  (blockIndex - 1 + round).toNat % consensus.config.validators.length

theorem proposerIndex_lt (consensus : PoAConsensus)
    (blockIndex round : UInt64) :
    consensus.proposerIndex blockIndex round <
      consensus.config.validators.length :=
  Nat.mod_lt _ consensus.validators_length_pos

/-- `expected_proposer` -/
def expectedProposer (consensus : PoAConsensus) (blockIndex round : UInt64) :
    UInt32 × Validator :=
  let proposerIndex := consensus.proposerIndex blockIndex round
  let validator := consensus.config.validators.get
    ⟨proposerIndex, consensus.proposerIndex_lt blockIndex round⟩
  (UInt32.ofNat proposerIndex, validator)

theorem getElem?_proposerIndex (consensus : PoAConsensus)
    (blockIndex round : UInt64) :
    consensus.config.validators[consensus.proposerIndex blockIndex round]? =
      some (consensus.expectedProposer blockIndex round).2 :=
  List.getElem?_eq_getElem (consensus.proposerIndex_lt blockIndex round)

variable [Primitives]

/-- `validate_block` -/
def validateBlock (consensus : PoAConsensus) (prev current : Block) :
    Except BlockError Unit :=
  match current.validate prev with
  | .error e => .error e
  | .ok () =>
      let expected := consensus.expectedProposer current.header.index
        current.header.round
      if current.header.proposerId ≠ expected.1 then
        .error (.invalidProposer expected.1 current.header.proposerId)
      else
        let bytes := current.headerWoSignatureToBytes
        let ok := consensus.verifier.verify expected.2.pubkey bytes
          current.header.signature
        if !ok then .error .invalidSignature else .ok ()

/-- `validate_block(prev, current).is_ok()` -/
def accepts (consensus : PoAConsensus) (prev current : Block) : Bool :=
  match consensus.validateBlock prev current with
  | .ok () => true
  | .error _ => false

/-- What `validate_block` accepts. -/
structure Valid (consensus : PoAConsensus) (prev current : Block) : Prop where
  follows : Block.Follows prev current
  proposerId_eq : current.header.proposerId =
    (consensus.expectedProposer current.header.index current.header.round).1
  signature_ok : consensus.verifier.verify
    (consensus.expectedProposer current.header.index
      current.header.round).2.pubkey
    current.headerWoSignatureToBytes current.header.signature = true

theorem validateBlock_eq_ok_iff (consensus : PoAConsensus)
    (prev current : Block) :
    consensus.validateBlock prev current = .ok () ↔
      consensus.Valid prev current := by
  constructor
  · intro h
    unfold validateBlock at h
    cases hLink : current.validate prev with
    | error e => simp [hLink] at h
    | ok u =>
        cases u
        simp only [hLink] at h
        by_cases hId : current.header.proposerId =
            (consensus.expectedProposer current.header.index
              current.header.round).1
        swap
        · simp [hId] at h
        by_cases hSig : consensus.verifier.verify
            (consensus.expectedProposer current.header.index
              current.header.round).2.pubkey
            current.headerWoSignatureToBytes current.header.signature = true
        swap
        · simp [hId, hSig] at h
        exact ⟨(Block.validate_eq_ok_iff _ _).mp hLink, hId, hSig⟩
  · intro h
    unfold validateBlock
    rw [(Block.validate_eq_ok_iff _ _).mpr h.follows]
    simp [← h.proposerId_eq, h.signature_ok]

theorem accepts_iff (consensus : PoAConsensus) (prev current : Block) :
    consensus.accepts prev current = true ↔ consensus.Valid prev current := by
  rw [← validateBlock_eq_ok_iff]
  unfold accepts
  cases consensus.validateBlock prev current with
  | error e => simp
  | ok u => simp

/-- Validation does not read the mutable consensus state. -/
@[simp] theorem accepts_updateState (consensus : PoAConsensus) (now : Instant)
    (height : Option UInt64) (round : UInt64) (prev current : Block) :
    (consensus.updateState now height round).accepts prev current =
      consensus.accepts prev current := rfl

end PoAConsensus

end B4n.Blockchain
