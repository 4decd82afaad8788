import B4n.Cli.ParseArgs
import B4n.Network.Network
import B4n.Node.Sample

/-!
# The start of a node

`run` of `cli/commands.rs`: the configuration of the consensus, the node, and everything
that is started beside it.  The bridge from the transport to the node is modelled with the
connections.

The members of a network that all name the same validators, in the same order, are set up
as the networks of this development are: what is proved of every network holds of the
nodes that these command lines start.

## Main results

* `run_eq_ok_iff` — a node starts for every command line that is accepted and names no
  validator twice.
* `run_members` — the command lines of a network start its nodes.
-/

namespace B4n.Cli

open B4n.Lib Blockchain Transport

/-! ## The functions of the source -/

/-- What `run` starts beside the node. -/
inductive Spawned where
  | tcpListener (bindAddr : String) (selfPeerId : UInt32) (selfPubkey : PubkeyType)
  | adminListener (bindAddr : String) (fromId : UInt32)
  | connectPeer (peerAddr : String) (expectedPeerId selfPeerId : UInt32)
      (selfPubkey : PubkeyType)
  | localTrx (trx : Transaction)
deriving DecidableEq

/-- The configuration of the consensus. -/
def consensusConfig (args : CliArgs) : PoAConsensusConfig where
  validators := args.validatorPubkeys.map Validator.mk
  slotDurationMs := 3000
  timeoutMs := 10000
  maxTrxPerBlock := 100

variable [Primitives]

/-- `pubkey_from_seed` -/
def pubkeyFromSeed (seed : Seed) : PubkeyType := Primitives.verifyingKey seed

/-- The transaction that every node sends itself when it starts. -/
def startTrx (nodeId : UInt32) : Transaction :=
  ⟨1000000 + nodeId.toUInt64, 0, 0, "i'm alive!"⟩

/-- The listeners, the connections and the first transaction. -/
def spawned (args : CliArgs) : List Spawned :=
  let selfPubkey := pubkeyFromSeed args.seed
  [.tcpListener args.listen args.nodeId selfPubkey, .adminListener args.adminListen args.nodeId] ++
    args.peers.map (fun p => .connectPeer p.2 p.1 args.nodeId selfPubkey) ++
    [.localTrx (startTrx args.nodeId)]

/-- `run`, for the random bytes of `--gen-seed`, the time and the words of the command line. -/
def run (verifier : Verifier) (random : Option Seed) (now : Instant) (args : List String) :
    Except Halt (Node × List Spawned) :=
  match parseArgs random args with
  | .error halt => .error halt
  | .ok args =>
      let config := consensusConfig args
      if !config.validateConfig then .error (.exit 254 [] ["invalid consensus config"])
      else
        match Node.boot now args.nodeId args.seed 1 config verifier with
        | .error _ => .error (.panic "called Result::unwrap() on an Err value: InvalidConfig")
        | .ok node => .ok (node, spawned args)

/-! ## Starting a node -/

variable {verifier : Verifier} {random : Option Seed} {now : Instant} {words : List String}

omit [Primitives] in
/-- A configuration is refused for a validator that is named twice, or if there is none. -/
theorem validateConfig_consensusConfig (verifier : Verifier) {args : CliArgs} :
    (consensusConfig args).validateConfig = true ↔
      args.validatorPubkeys ≠ [] ∧ args.validatorPubkeys.Nodup := by
  have hpubkeys : (consensusConfig args).validators.map Validator.pubkey =
      args.validatorPubkeys := by
    simp [consensusConfig, Function.comp_def]
  constructor
  · intro h
    let consensus : PoAConsensus := ⟨consensusConfig args, .new 0 0 0, verifier, h⟩
    have hne : (consensusConfig args).validators ≠ [] := consensus.validators_ne_nil
    have hnodup := consensus.validators_nodup
    rw [hpubkeys] at hnodup
    exact ⟨by simpa [consensusConfig] using hne, hnodup⟩
  · rintro ⟨hne, hnodup⟩
    apply PoAConsensusConfig.validateConfig_of_nodup
    · simpa [consensusConfig] using hne
    · rw [hpubkeys]
      exact hnodup

/-- The consensus of a node that starts. -/
def startConsensus (verifier : Verifier) (now : Instant) (args : CliArgs)
    (hok : (consensusConfig args).validateConfig = true) : PoAConsensus where
  config := consensusConfig args
  state := .new now (BlockChain.new 1).getHeight (BlockChain.new 1).getRound
  verifier := verifier
  config_ok := hok

theorem run_of_parseArgs {args : CliArgs} (hargs : parseArgs random words = .ok args)
    (hnodup : args.validatorPubkeys.Nodup) :
    ∃ hok : (consensusConfig args).validateConfig = true,
      run verifier random now words =
        .ok (Node.new args.nodeId args.seed (BlockChain.new 1)
          (startConsensus verifier now args hok), spawned args) := by
  obtain ⟨options, -, hdescribes⟩ := exists_describes hargs
  have hok := (validateConfig_consensusConfig verifier).mpr ⟨hdescribes.someValidator, hnodup⟩
  have hboot : Node.boot now args.nodeId args.seed 1 (consensusConfig args) verifier =
      .ok (Node.new args.nodeId args.seed (BlockChain.new 1)
        (startConsensus verifier now args hok)) := Node.boot_eq_ok_iff.mpr ⟨hok, rfl⟩
  refine ⟨hok, ?_⟩
  unfold run
  rw [hargs]
  dsimp only
  rw [hok, hboot]
  rfl

/-- A node starts for exactly the accepted command lines that name no validator twice; the
`unwrap` behind the check of the configuration never panics. -/
theorem run_eq_ok_iff :
    (∃ node others, run verifier random now words = .ok (node, others)) ↔
      ∃ args, parseArgs random words = .ok args ∧ args.validatorPubkeys.Nodup := by
  constructor
  · rintro ⟨node, others, h⟩
    unfold run at h
    split at h
    · cases h
    · rename_i args hargs
      dsimp only at h
      split at h
      · cases h
      · rename_i hvalid
        have hok : (consensusConfig args).validateConfig = true := by simpa using hvalid
        exact ⟨args, hargs, ((validateConfig_consensusConfig verifier).mp hok).2⟩
  · rintro ⟨args, hargs, hnodup⟩
    obtain ⟨hok, hrun⟩ : ∃ hok : (consensusConfig args).validateConfig = true,
        run verifier random now words = .ok (_, _) := run_of_parseArgs hargs hnodup
    exact ⟨_, _, hrun⟩

/-! ## Starting a network -/

/-- A node that is to be started, and the address at which the others find it. -/
structure Member where
  seed : Seed
  listen : String
  admin : String
  addr : String

def Member.pubkey (m : Member) : PubkeyType := Primitives.verifyingKey m.seed

omit [Primitives] in
def Member.nodeId (m : Member) : UInt32 := nodeIdOf m.seed

/-- The options of a member, as the usage shows them: all validators in one order, itself
among them, and the others as peers. -/
def memberOptions (validators : List PubkeyType) (others : List Member) (self : Member) :
    List CliOption :=
  plainOptions self.listen self.admin (bytesToHex self.seed.toList)
    (validators.map fun key => bytesToHex key.toList)
    (others.map fun m => peerSpec m.nodeId m.addr)

/-- The command line of a member. -/
def memberWords (validators : List PubkeyType) (others : List Member) (self : Member) :
    List String :=
  (memberOptions validators others self).flatMap CliOption.words

omit [Primitives] in
/-- What is written one by one is read one by one. -/
theorem mapM_map_eq_ok {α β : Type} {f : String → Except String β} {g : α → String} {h : α → β}
    {items : List α} (hread : ∀ item ∈ items, f (g item) = .ok (h item)) :
    (items.map g).mapM f = .ok (items.map h) := by
  induction items with
  | nil => rfl
  | cons item items ih =>
      rw [List.forall_mem_cons] at hread
      rw [List.map_cons, List.mapM_cons, hread.1, ih hread.2]
      rfl

/-- What the command line of a member says. -/
def memberArgs (validators : List PubkeyType) (others : List Member) (self : Member) : CliArgs where
  nodeId := self.nodeId
  listen := self.listen
  adminListen := self.admin
  seed := self.seed
  validatorPubkeys := validators
  peers := others.map fun m => (m.nodeId, m.addr)

omit [Primitives] in
theorem describes_member {validators : List PubkeyType} {others : List Member} {self : Member}
    (hsome : validators ≠ []) (haddr : ∀ m ∈ others, trim m.addr.toList ≠ [])
    (hids : ∀ m ∈ others, m.nodeId ≠ self.nodeId) :
    Describes (memberOptions validators others self) (memberArgs validators others self) := by
  have hkeys : (validators.map fun key => bytesToHex key.toList).mapM hexTo32 =
      .ok (validators.map id) :=
    mapM_map_eq_ok fun key _ => hexTo32_bytesToHex key
  have hpeers : (others.map fun m => peerSpec m.nodeId m.addr).mapM parsePeerSpec =
      .ok (others.map fun m => (m.nodeId, m.addr)) :=
    mapM_map_eq_ok fun m hm => parsePeerSpec_peerSpec m.nodeId (haddr m hm)
  rw [List.map_id] at hkeys
  refine describes_plainOptions_iff.mpr ⟨rfl, rfl, hexTo32_bytesToHex self.seed, rfl, hkeys, hsome,
    hpeers, ?_⟩
  intro p hp
  obtain ⟨m, hm, rfl⟩ := List.mem_map.mp hp
  exact hids m hm

omit [Primitives] in
/-- The first transactions of two nodes have different ids. -/
theorem startTrx_id_inj {id id' : UInt32} (h : (startTrx id).id = (startTrx id').id) :
    id = id' := by
  have hid : 1000000 + id.toUInt64 = 1000000 + id'.toUInt64 := h
  have hnat := congrArg UInt64.toNat (UInt64.add_right_inj 1000000 |>.mp hid)
  rw [UInt32.toNat_toUInt64, UInt32.toNat_toUInt64] at hnat
  exact UInt32.toNat_inj.mp hnat

omit [Primitives] in
/-- The others are those at another position. -/
theorem mem_others {members : List Member} {i j : Fin members.length} (h : j ≠ i) :
    members[j] ∈ members.eraseIdx i := by
  rw [List.mem_eraseIdx_iff_getElem]
  exact ⟨j, j.isLt, fun heq => h (Fin.ext heq), rfl⟩

/-- A validator finds its own key. -/
theorem identity_nodeId {seed : Seed} {config : PoAConsensusConfig} {n : Nat}
    (hnodup : (config.validators.map Validator.pubkey).Nodup)
    (hn : (config.validators.map Validator.pubkey)[n]? = some (Primitives.verifyingKey seed)) :
    (NodeIdentity.new seed config).nodeId = some (UInt32.ofNat n) := by
  obtain ⟨hlt, hkey⟩ := List.getElem?_eq_some_iff.mp hn
  rw [List.length_map] at hlt
  rw [List.getElem_map] at hkey
  have hfind : config.validators.findIdx? (fun v => v.pubkey = Primitives.verifyingKey seed) =
      some n := by
    rw [List.findIdx?_eq_some_iff_getElem]
    refine ⟨hlt, by simpa using hkey, fun m hm => ?_⟩
    intro hsame
    -- the key would stand at two positions
    have hm' : m < (config.validators.map Validator.pubkey).length := by
      rw [List.length_map]
      omega
    have hn' : n < (config.validators.map Validator.pubkey).length := by
      rw [List.length_map]
      exact hlt
    have heq : m = n := hnodup.getElem_inj_iff.mp (by
      rw [List.getElem_map, List.getElem_map, hkey]
      simpa using hsame : (config.validators.map Validator.pubkey)[m] =
        (config.validators.map Validator.pubkey)[n])
    omega
  unfold NodeIdentity.new
  dsimp only
  rw [hfind]
  rfl

omit [Primitives] in
/-- Members that differ in something stand at one position only. -/
theorem index_inj {α : Type} {f : Member → α} {members : List Member}
    (h : (members.map f).Nodup) {i j : Fin members.length} (hsame : f members[i] = f members[j]) :
    i = j := by
  have hi : (i : Nat) < (members.map f).length := by simp
  have hj : (j : Nat) < (members.map f).length := by simp
  apply Fin.ext
  apply h.getElem_inj_iff.mp
  show (members.map f).get ⟨i, hi⟩ = (members.map f).get ⟨j, hj⟩
  simpa using hsame

omit [Primitives] in
/-- The others have other ids. -/
theorem nodeId_ne_of_mem_others {members : List Member}
    (hids : (members.map Member.nodeId).Nodup) {i : Fin members.length} {m : Member}
    (hm : m ∈ members.eraseIdx i) : m.nodeId ≠ members[i].nodeId := by
  obtain ⟨j, hj, hne, rfl⟩ := List.mem_eraseIdx_iff_getElem.mp hm
  intro hsame
  have heq : (⟨j, hj⟩ : Fin members.length) = i := index_inj hids hsame
  exact hne (congrArg Fin.val heq)

/-- The set-up that the command lines of the members describe, whatever the channels. -/
def memberSetup (verifier : Verifier) (now : Nat → Instant) (validators : List PubkeyType)
    (members : List Member) (hsome : validators ≠ []) (hnodup : validators.Nodup)
    (hkeys : (members.map Member.pubkey).Nodup)
    (route : Sender → Fin members.length × UInt32) : Setup (Fin members.length) where
  validators := validators.map Validator.mk
  verifier := verifier
  netId := fun i => members[i].nodeId
  seed := fun i => members[i].seed
  chainId := fun _ => 1
  consensus := fun i => startConsensus verifier (now i)
    (memberArgs validators (members.eraseIdx i) members[i])
    ((validateConfig_consensusConfig verifier).mpr ⟨hsome, hnodup⟩)
  route := route
  validators_eq := fun _ => rfl
  verifier_eq := fun _ => rfl
  keys_inj := fun _ _ _ hsame => index_inj hkeys hsame

/-- The command lines of a network, whose members have different ids and keys and all name
the same validators in one order, start its nodes: all with the same validators, a
validator under its own number; each of them listens at its addresses, dials every other
one under the id that the other one answers with, and sends itself a first transaction with
an id that no other one uses for its own. -/
theorem run_members (verifier : Verifier) (random : Option Seed) (now : Nat → Instant)
    {validators : List PubkeyType} {members : List Member} (hsome : validators ≠ [])
    (hnodup : validators.Nodup) (hkeys : (members.map Member.pubkey).Nodup)
    (hids : (members.map Member.nodeId).Nodup)
    (haddr : ∀ m ∈ members, trim m.addr.toList ≠ [])
    (route : Sender → Fin members.length × UInt32) (i : Fin members.length) :
    ∃ others : List Spawned,
      run verifier random (now i) (memberWords validators (members.eraseIdx i) members[i]) =
        .ok ((memberSetup verifier now validators members hsome hnodup hkeys route).startNode i,
          others) ∧
      (.tcpListener members[i].listen members[i].nodeId members[i].pubkey ∈ others ∧
        .adminListener members[i].admin members[i].nodeId ∈ others ∧
        .localTrx (startTrx members[i].nodeId) ∈ others) ∧
      (∀ j : Fin members.length, j ≠ i →
        .connectPeer members[j].addr members[j].nodeId members[i].nodeId members[i].pubkey ∈
          others ∧
        (startTrx members[j].nodeId).id ≠ (startTrx members[i].nodeId).id) ∧
      ∀ n, validators[n]? = some members[i].pubkey →
        ((memberSetup verifier now validators members hsome hnodup hkeys route).startNode
          i).identity.nodeId = some (UInt32.ofNat n) := by
  have hdescribes : Describes (memberOptions validators (members.eraseIdx i) members[i])
      (memberArgs validators (members.eraseIdx i) members[i]) :=
    describes_member hsome (fun m hm => haddr m (List.mem_of_mem_eraseIdx hm))
      fun m => nodeId_ne_of_mem_others hids
  obtain ⟨hok, hrun⟩ : ∃ hok : (consensusConfig (memberArgs validators (members.eraseIdx i)
      members[i])).validateConfig = true, run verifier random (now i)
        (memberWords validators (members.eraseIdx i) members[i]) = .ok (_, _) :=
    run_of_parseArgs (parseArgs_flatMap_words.mpr hdescribes) hnodup
  refine ⟨_, hrun, ?_, ?_, ?_⟩
  · refine ⟨?_, ?_, List.mem_append_right _ (List.mem_singleton_self _)⟩
    · exact List.mem_append_left _ (List.mem_append_left _ List.mem_cons_self)
    · exact List.mem_append_left _ (List.mem_append_left _ (List.mem_cons_of_mem _
        (List.mem_singleton_self _)))
  · intro j hj
    constructor
    · apply List.mem_append_left
      apply List.mem_append_right
      exact List.mem_map.mpr ⟨(members[j].nodeId, members[j].addr),
        List.mem_map_of_mem (mem_others hj), rfl⟩
    · exact fun hsame => nodeId_ne_of_mem_others hids (mem_others hj) (startTrx_id_inj hsame)
  · intro n hn
    have hpubkeys : (consensusConfig (memberArgs validators (members.eraseIdx i)
        members[i])).validators.map Validator.pubkey = validators := by
      simp [consensusConfig, memberArgs, Function.comp_def]
    exact identity_nodeId (hpubkeys.symm ▸ hnodup) (hpubkeys.symm ▸ hn)

end B4n.Cli

namespace B4n.Blockchain.Sample

open B4n.Cli

private def members : List Member :=
  [⟨seed 1, "0.0.0.0:7001", "127.0.0.1:17001", "10.0.0.11:7001"⟩,
    ⟨seed 2, "0.0.0.0:7001", "127.0.0.1:17001", "10.0.0.12:7001"⟩]

private theorem members_ok :
    ([seed 1, seed 2].Nodup ∧ (members.map Member.pubkey).Nodup ∧
      (members.map Member.nodeId).Nodup) ∧ ∀ m ∈ members, trim m.addr.toList ≠ [] := by
  decide +kernel

theorem run_members_two : ∃ (second : Node) (others : List Spawned),
    run verifier none 0 (memberWords [seed 1, seed 2]
      [⟨seed 1, "0.0.0.0:7001", "127.0.0.1:17001", "10.0.0.11:7001"⟩]
      ⟨seed 2, "0.0.0.0:7001", "127.0.0.1:17001", "10.0.0.12:7001"⟩) = .ok (second, others) ∧
    second.identity.nodeId = some 1 ∧
    .connectPeer "10.0.0.11:7001" (nodeIdOf (seed 1)) (nodeIdOf (seed 2)) (seed 2) ∈ others ∧
    .localTrx (startTrx (nodeIdOf (seed 2))) ∈ others := by
  obtain ⟨⟨hnodup, hkeys, hids⟩, haddr⟩ := members_ok
  obtain ⟨others, hrun, ⟨-, -, hlocal⟩, hdials, hid⟩ := run_members verifier none (fun _ => 0)
    (List.cons_ne_nil (seed 1) [seed 2]) hnodup hkeys hids haddr
    (fun _ => (⟨0, by decide⟩, 0)) ⟨1, by decide⟩
  exact ⟨_, others, hrun, hid 1 rfl, (hdials ⟨0, by decide⟩ (by decide)).1, hlocal⟩

end B4n.Blockchain.Sample
