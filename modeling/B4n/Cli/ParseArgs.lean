import B4n.Blockchain.Crypto
import B4n.Cli.Args
import B4n.Lib.Separators
import B4n.Node.Admin

/-!
# The command line

`parse_args` of `cli/args.rs`.  The loop goes through the words of the command line; an
option with a value takes the word behind it, whatever it looks like.  An error of any
kind ends the process with the usage and the exit code 2.

A command line that is accepted is a sequence of options.  Of `--listen`, `--admin` and
`--seed` the last one counts, of `--validator-pubkey` and `--peer` all of them, in their
order.

## Main results

* `parsePeerSpec_peerSpec` — a peer is read as it is written.
* `parseLoop_eq_ok_iff` — the loop accepts the sequences of valid options.
* `parseArgs_eq_ok_iff` — what is accepted, and with which result.
-/

namespace B4n.Cli

open B4n.Lib Blockchain

/-! ## The functions of the source -/

/-- `CliArgs` -/
structure CliArgs where
  nodeId : UInt32
  listen : String
  adminListen : String
  seed : Seed
  validatorPubkeys : List PubkeyType
  peers : List (UInt32 × String)
deriving DecidableEq

/-- How the process ends where it does not go on. -/
inductive Halt where
  | exit (code : Nat) (stdout stderr : List String)
  | panic (message : String)
deriving DecidableEq

def USAGE : String :=
  "Usage:
  --gen-seed                генерация сида с последующим выходом
  --listen <ip:port>        tcp bind addr, пример: 0.0.0.0:7001
  --seed <hex64>            приватный ключ (32 bytes hex)
  --validator-pubkey <hex64>  публичный ключ валидатора (может быть несколько)
  --peer <id@ip:port>       сосед в формате 2@10.0.0.12:7001 (может быть несколько)

Пример
  Node3:
    --listen 0.0.0.0:7001 --seed <hex64_3> \\
    --validator-pubkey <hex64_1> --validator-pubkey <hex64_2> --validator-pubkey <hex64_3> \\
    --peer 1@10.0.0.11:7001 --peer 2@10.0.0.12:7001
"

/-- `print_usage_and_exit`, with what has been printed before. -/
def printUsageAndExit (stderr : List String) : Halt := .exit 2 [] (stderr ++ [USAGE])

/-- The id of a node: the first four bytes of its seed. -/
def nodeIdOf (seed : Seed) : UInt32 := UInt32.ofNat (beValue (seed.toList.take 4))

/-- `gen_seed_and_print`, with what `fill` returns; `none` is its error. -/
def genSeedAndPrint [Primitives] : Option Seed → Halt
  | none => .panic "getrandom failed"
  | some seed =>
      .exit 0 ["seed=" ++ bytesToHex seed.toList,
        "pubkey=" ++ bytesToHex (Primitives.verifyingKey seed).toList,
        "node_id=" ++ toString (nodeIdOf seed).toNat] []

/-- `u32::from_str` -/
def parseU32 (text : List Char) : Option UInt32 :=
  let digits := if text.head? = some '+' then text.tail else text
  if digits.isEmpty || !digits.all Char.isDigit then none
  else
    let n := Nat.ofDigitChars 10 digits 0
    if n < 2 ^ 32 then some (UInt32.ofNat n) else none

/-- `parse_peer_spec` -/
def parsePeerSpec (s : String) : Except String (UInt32 × String) :=
  match Text.splitOnce '@' s.toList with
  | none => .error "peer must be in format <id@ip:port>"
  | some (idStr, addr) =>
      match parseU32 idStr with
      | none => .error ("invalid peer id '" ++ String.ofList idStr ++ "'")
      | some id =>
          if (trim addr).isEmpty then .error "peer addr is empty"
          else .ok (id, String.ofList addr)

/-- The variables of the loop. -/
structure Options where
  listen : Option String
  seed : Option Seed
  validatorPubkeys : List PubkeyType
  peers : List (UInt32 × String)
  genSeed : Bool
  adminListen : Option String
deriving DecidableEq

def Options.new : Options where
  listen := none
  seed := none
  validatorPubkeys := []
  peers := []
  genSeed := false
  adminListen := none

/-- The options with a value. -/
inductive ValueOption where
  | admin
  | listen
  | seed
  | validatorPubkey
  | peer
deriving DecidableEq

/-- The arms of the loop that call `it.next()`. -/
def valueOption? (arg : String) : Option ValueOption :=
  if arg = "--admin" then some .admin
  else if arg = "--listen" then some .listen
  else if arg = "--seed" then some .seed
  else if arg = "--validator-pubkey" then some .validatorPubkey
  else if arg = "--peer" then some .peer
  else none

/-- What an option does with its value `v`; `none` leads to the usage. -/
def Options.set (o : Options) (option : ValueOption) (v : String) : Option Options :=
  match option with
  | .admin => some { o with adminListen := some v }
  | .listen => some { o with listen := some v }
  | .seed => (hexTo32 v).toOption.map fun seed => { o with seed := some seed }
  | .validatorPubkey =>
      (hexTo32 v).toOption.map fun vs => { o with validatorPubkeys := o.validatorPubkeys ++ [vs] }
  | .peer => (parsePeerSpec v).toOption.map fun p => { o with peers := o.peers ++ [p] }

/-- The loop of `parse_args` -/
def parseLoop (o : Options) : List String → Except Halt Options
  | [] => .ok o
  | arg :: it =>
      if arg = "--gen-seed" then parseLoop { o with genSeed := true } it
      else
        match valueOption? arg with
        | some option =>
            match it with
            | [] => .error (printUsageAndExit [])
            | v :: it =>
                match o.set option v with
                | none => .error (printUsageAndExit [])
                | some o => parseLoop o it
        | none =>
            if arg = "--help" ∨ arg = "-h" then .error (printUsageAndExit [])
            else .error (printUsageAndExit ["unknown arg: " ++ arg])

/-- What `parse_args` does with the options, once all words are read. -/
def checkOptions (o : Options) : Except Halt CliArgs :=
  match o.listen, o.seed, o.adminListen with
  | some listen, some seed, some adminListen =>
      let nodeId := nodeIdOf seed
      if o.validatorPubkeys.isEmpty then
        .error (printUsageAndExit ["at least one --validator-pubkey is required"])
      else if o.peers.any fun p => p.1 == nodeId then
        .error (printUsageAndExit
          ["peer id must not be equal to own node_id (" ++ toString nodeId.toNat ++ ")"])
      else
        .ok
          { nodeId := nodeId
            listen := listen
            adminListen := adminListen
            seed := seed
            validatorPubkeys := o.validatorPubkeys
            peers := o.peers }
  | _, _, _ => .error (printUsageAndExit [])

/-- `parse_args`, for the words behind the name of the program and the random bytes that
`--gen-seed` gets. -/
def parseArgs [Primitives] (random : Option Seed) (args : List String) : Except Halt CliArgs :=
  match parseLoop .new args with
  | .error halt => .error halt
  | .ok o => if o.genSeed then .error (genSeedAndPrint random) else checkOptions o

/-! ## Peers -/

/-- A peer as it is written on the command line. -/
def peerSpec (id : UInt32) (addr : String) : String := toString id.toNat ++ "@" ++ addr

theorem all_isDigit_toDigits (n : Nat) : (Nat.toDigits 10 n).all Char.isDigit = true :=
  List.all_eq_true.mpr fun _ hc => Nat.isDigit_of_mem_toDigits (by decide) (by decide) hc

/-- The digits of a number are digits. -/
theorem digit_of_mem_toDigits {n : Nat} {c : Char} (hc : c ∈ Nat.toDigits 10 n) :
    48 ≤ c.toNat ∧ c.toNat ≤ 57 := by
  have hd := List.all_eq_true.mp (all_isDigit_toDigits n) c hc
  simp only [Char.isDigit, Bool.and_eq_true, decide_eq_true_eq] at hd
  exact ⟨hd.1, hd.2⟩

theorem not_mem_toDigits (n : Nat) {c : Char} (hc : ¬ (48 ≤ c.toNat ∧ c.toNat ≤ 57)) :
    c ∉ Nat.toDigits 10 n := fun hmem => hc (digit_of_mem_toDigits hmem)

/-- A number is read as it is written. -/
theorem parseU32_toDigits (n : UInt32) : parseU32 (Nat.toDigits 10 n.toNat) = some n := by
  have hdigits := all_isDigit_toDigits n.toNat
  have hne : (Nat.toDigits 10 n.toNat).isEmpty = false := by
    rw [List.isEmpty_eq_false_iff, ← List.length_pos_iff]
    exact Nat.length_toDigits_pos
  have hsign : (Nat.toDigits 10 n.toNat).head? ≠ some '+' := fun hhead =>
    not_mem_toDigits n.toNat (by decide) (List.mem_of_mem_head? hhead)
  unfold parseU32
  simp only [if_neg hsign, hdigits, hne, Bool.not_true, Bool.or_false, Bool.false_eq_true,
    if_false, Nat.ofDigitChars_ten_toDigits]
  rw [if_pos n.toNat_lt, UInt32.ofNat_toNat]

theorem parsePeerSpec_eq_ok_iff {s addr : String} {id : UInt32} :
    parsePeerSpec s = .ok (id, addr) ↔
      ∃ idStr, s.toList = idStr ++ '@' :: addr.toList ∧ '@' ∉ idStr ∧
        parseU32 idStr = some id ∧ trim addr.toList ≠ [] := by
  unfold parsePeerSpec
  constructor
  · intro h
    split at h
    · cases h
    · rename_i idStr rest hsplit
      obtain ⟨hs, hat⟩ := Text.splitOnce_eq_some_iff.mp hsplit
      split at h
      · cases h
      · rename_i found hid
        split at h
        · cases h
        · rename_i hblank
          cases h
          rw [String.toList_ofList]
          exact ⟨idStr, hs, hat, hid, by simpa using hblank⟩
  · rintro ⟨idStr, hs, hat, hid, hblank⟩
    have hsplit := Text.splitOnce_eq_some_iff.mpr ⟨hs, hat⟩
    simp only [hsplit, hid]
    rw [if_neg (by simpa using hblank), String.ofList_toList]

/-- A peer is read as it is written. -/
theorem parsePeerSpec_peerSpec (id : UInt32) {addr : String} (haddr : trim addr.toList ≠ []) :
    parsePeerSpec (peerSpec id addr) = .ok (id, addr) := by
  rw [parsePeerSpec_eq_ok_iff]
  refine ⟨Nat.toDigits 10 id.toNat, ?_, not_mem_toDigits id.toNat (by decide),
    parseU32_toDigits id, haddr⟩
  unfold peerSpec
  simp

/-! ## Command lines as sequences of options -/

/-- An option of the command line. -/
inductive CliOption where
  | genSeed
  | value (option : ValueOption) (v : String)
deriving DecidableEq

/-- The name of an option. -/
def ValueOption.word : ValueOption → String
  | .admin => "--admin"
  | .listen => "--listen"
  | .seed => "--seed"
  | .validatorPubkey => "--validator-pubkey"
  | .peer => "--peer"

/-- An option as it is written. -/
def CliOption.words : CliOption → List String
  | .genSeed => ["--gen-seed"]
  | .value option v => [option.word, v]

/-- What an option does. -/
def CliOption.apply (o : Options) : CliOption → Option Options
  | .genSeed => some { o with genSeed := true }
  | .value option v => o.set option v

theorem valueOption?_word (option : ValueOption) : valueOption? option.word = some option := by
  cases option <;> decide

theorem word_ne_genSeed (option : ValueOption) : option.word ≠ "--gen-seed" := by
  cases option <;> decide

theorem eq_word_of_valueOption? {arg : String} {option : ValueOption}
    (h : valueOption? arg = some option) : arg = option.word := by
  unfold valueOption? at h
  split at h
  · rename_i harg
    cases h
    exact harg
  · split at h
    · rename_i harg
      cases h
      exact harg
    · split at h
      · rename_i harg
        cases h
        exact harg
      · split at h
        · rename_i harg
          cases h
          exact harg
        · split at h
          · rename_i harg
            cases h
            exact harg
          · cases h

/-- The loop takes an option as one step. -/
theorem parseLoop_words {o o' : Options} {option : CliOption} (h : option.apply o = some o')
    (it : List String) : parseLoop o (option.words ++ it) = parseLoop o' it := by
  cases option with
  | genSeed =>
      cases h
      rfl
  | value option v =>
      show parseLoop o (option.word :: v :: it) = parseLoop o' it
      rw [parseLoop, if_neg (word_ne_genSeed option), valueOption?_word]
      dsimp only
      rw [show o.set option v = some o' from h]

/-- An option that cannot be applied ends the loop. -/
theorem parseLoop_words_none {o : Options} {option : CliOption} (h : option.apply o = none)
    (it : List String) :
    parseLoop o (option.words ++ it) = .error (printUsageAndExit []) := by
  cases option with
  | genSeed => cases h
  | value option v =>
      show parseLoop o (option.word :: v :: it) = _
      rw [parseLoop, if_neg (word_ne_genSeed option), valueOption?_word]
      dsimp only
      rw [show o.set option v = none from h]

/-- Whatever their values look like, options are taken one by one. -/
theorem parseLoop_flatMap_words {o o' : Options} {options : List CliOption} :
    parseLoop o (options.flatMap CliOption.words) = .ok o' ↔
      options.foldlM CliOption.apply o = some o' := by
  induction options generalizing o with
  | nil =>
      show Except.ok o = .ok o' ↔ some o = some o'
      rw [Except.ok.injEq, Option.some.injEq]
  | cons option options ih =>
      rw [List.flatMap_cons, List.foldlM_cons]
      cases hfirst : option.apply o with
      | none =>
          rw [parseLoop_words_none hfirst]
          exact ⟨nofun, nofun⟩
      | some mid =>
          rw [parseLoop_words hfirst]
          exact ih

/-- The loop accepts the sequences of options that can all be applied. -/
theorem parseLoop_eq_ok_iff {o o' : Options} {args : List String} :
    parseLoop o args = .ok o' ↔
      ∃ options : List CliOption, args = options.flatMap CliOption.words ∧
        options.foldlM CliOption.apply o = some o' := by
  constructor
  · intro h
    fun_induction parseLoop o args with
    | case1 o =>
        cases h
        exact ⟨[], rfl, rfl⟩
    | case2 o it ih =>
        obtain ⟨options, rfl, hall⟩ := ih h
        exact ⟨.genSeed :: options, rfl, hall⟩
    | case5 o arg harg option hoption v it mid hset ih =>
        obtain ⟨options, rfl, hall⟩ := ih h
        refine ⟨.value option v :: options, ?_, ?_⟩
        · rw [eq_word_of_valueOption? hoption]
          rfl
        · rw [List.foldlM_cons, CliOption.apply, hset]
          exact hall
    | _ => cases h
  · rintro ⟨options, rfl, hall⟩
    exact parseLoop_flatMap_words.mpr hall

/-! ## What the options add up to -/

/-- The value of an option, if it is the one that is asked for. -/
def CliOption.valueOf (wanted : ValueOption) : CliOption → Option String
  | .genSeed => none
  | .value option v => if option = wanted then some v else none

/-- The values that an option is given, in their order. -/
def valuesOf (wanted : ValueOption) (options : List CliOption) : List String :=
  options.filterMap (CliOption.valueOf wanted)

/-- The keys among some values. -/
def keysOf (values : List String) : List (Bytes 32) :=
  values.filterMap fun v => (hexTo32 v).toOption

/-- The peers among some values. -/
def peersOf (values : List String) : List (UInt32 × String) :=
  values.filterMap fun v => (parsePeerSpec v).toOption

/-- A key has to be one, and a peer too. -/
def CliOption.isValid : CliOption → Bool
  | .genSeed => true
  | .value .admin _ => true
  | .value .listen _ => true
  | .value .seed v => (hexTo32 v).toOption.isSome
  | .value .validatorPubkey v => (hexTo32 v).toOption.isSome
  | .value .peer v => (parsePeerSpec v).toOption.isSome

/-- The variables of the loop at its end. -/
def collect (options : List CliOption) : Options where
  listen := (valuesOf .listen options).getLast?
  seed := (keysOf (valuesOf .seed options)).getLast?
  validatorPubkeys := keysOf (valuesOf .validatorPubkey options)
  peers := peersOf (valuesOf .peer options)
  genSeed := options.contains .genSeed
  adminListen := (valuesOf .admin options).getLast?

theorem valuesOf_concat (wanted : ValueOption) (options : List CliOption) (option : CliOption) :
    valuesOf wanted (options ++ [option]) =
      valuesOf wanted options ++ (option.valueOf wanted).toList := by
  unfold valuesOf
  rw [List.filterMap_append]
  cases hvalue : option.valueOf wanted <;> simp [hvalue]

theorem apply_collect {options : List CliOption} {option : CliOption} {o : Options} :
    option.apply (collect options) = some o ↔
      option.isValid = true ∧ o = collect (options ++ [option]) := by
  cases option with
  | genSeed =>
      simp [CliOption.apply, CliOption.isValid, collect, valuesOf_concat, CliOption.valueOf,
        eq_comm]
  | value option v =>
      cases option with
      | admin =>
          simp [CliOption.apply, CliOption.isValid, collect, valuesOf_concat, CliOption.valueOf,
            Options.set, eq_comm]
      | listen =>
          simp [CliOption.apply, CliOption.isValid, collect, valuesOf_concat, CliOption.valueOf,
            Options.set, eq_comm]
      | seed =>
          cases hkey : hexTo32 v with
          | error e => simp [CliOption.apply, CliOption.isValid, Options.set, hkey, Except.toOption]
          | ok key =>
              simp [CliOption.apply, CliOption.isValid, collect, valuesOf_concat,
                CliOption.valueOf, Options.set, hkey, keysOf, Except.toOption, eq_comm]
      | validatorPubkey =>
          cases hkey : hexTo32 v with
          | error e => simp [CliOption.apply, CliOption.isValid, Options.set, hkey, Except.toOption]
          | ok key =>
              simp [CliOption.apply, CliOption.isValid, collect, valuesOf_concat,
                CliOption.valueOf, Options.set, hkey, keysOf, Except.toOption, eq_comm]
      | peer =>
          cases hpeer : parsePeerSpec v with
          | error e =>
            simp [CliOption.apply, CliOption.isValid, Options.set, hpeer, Except.toOption]
          | ok peer =>
              simp [CliOption.apply, CliOption.isValid, collect, valuesOf_concat,
                CliOption.valueOf, Options.set, hpeer, peersOf, Except.toOption, eq_comm]

theorem foldlM_apply_eq_some_iff {options : List CliOption} {o : Options} :
    options.foldlM CliOption.apply .new = some o ↔
      (∀ option ∈ options, option.isValid = true) ∧ o = collect options := by
  induction options using List.reverseRecOn generalizing o with
  | nil =>
      show some Options.new = some o ↔ _
      rw [Option.some.injEq]
      exact ⟨fun h => ⟨List.forall_mem_nil _, h.symm⟩, fun h => h.2.symm⟩
  | append_singleton options option ih =>
      rw [List.foldlM_append]
      constructor
      · intro h
        obtain ⟨mid, hmid, hlast⟩ := Option.bind_eq_some_iff.mp h
        obtain ⟨hvalid, rfl⟩ := ih.mp hmid
        rw [List.foldlM_cons] at hlast
        obtain ⟨final, hfinal, hdone⟩ := Option.bind_eq_some_iff.mp hlast
        cases hdone
        obtain ⟨hoption, hsame⟩ := apply_collect.mp hfinal
        refine ⟨?_, hsame⟩
        intro other hother
        rcases List.mem_append.mp hother with hold | hnew
        · exact hvalid other hold
        · rw [List.mem_singleton.mp hnew]
          exact hoption
      · rintro ⟨hvalid, rfl⟩
        have hmid := ih.mpr ⟨fun other hother => hvalid other (List.mem_append_left _ hother), rfl⟩
        have hlast : option.apply (collect options) = some (collect (options ++ [option])) :=
          apply_collect.mpr
            ⟨hvalid option (List.mem_append_right _ (List.mem_singleton_self _)), rfl⟩
        rw [hmid]
        show [option].foldlM CliOption.apply (collect options) = some _
        rw [List.foldlM_cons, hlast]
        rfl

/-- A command line, taken apart, and what is made of it. -/
structure Describes (options : List CliOption) (cli : CliArgs) : Prop where
  valid : ∀ option ∈ options, option.isValid = true
  noGenSeed : .genSeed ∉ options
  listen : (valuesOf .listen options).getLast? = some cli.listen
  adminListen : (valuesOf .admin options).getLast? = some cli.adminListen
  seed : (keysOf (valuesOf .seed options)).getLast? = some cli.seed
  nodeId : cli.nodeId = nodeIdOf cli.seed
  validatorPubkeys : cli.validatorPubkeys = keysOf (valuesOf .validatorPubkey options)
  someValidator : cli.validatorPubkeys ≠ []
  peers : cli.peers = peersOf (valuesOf .peer options)
  notItself : ∀ p ∈ cli.peers, p.1 ≠ cli.nodeId

theorem checkOptions_eq_ok_iff {o : Options} {cli : CliArgs} :
    checkOptions o = .ok cli ↔
      o.listen = some cli.listen ∧ o.adminListen = some cli.adminListen ∧
        o.seed = some cli.seed ∧ cli.nodeId = nodeIdOf cli.seed ∧
        cli.validatorPubkeys = o.validatorPubkeys ∧ cli.validatorPubkeys ≠ [] ∧
        cli.peers = o.peers ∧ ∀ p ∈ cli.peers, p.1 ≠ cli.nodeId := by
  unfold checkOptions
  constructor
  · intro h
    split at h
    · rename_i listen seed admin hlisten hseed hadmin
      dsimp only at h
      split at h
      · cases h
      · rename_i hvalidators
        split at h
        · cases h
        · rename_i hpeers
          cases h
          refine ⟨hlisten, hadmin, hseed, rfl, rfl, by simpa using hvalidators, rfl, ?_⟩
          intro p hp hsame
          exact hpeers (List.any_eq_true.mpr ⟨p, hp, beq_iff_eq.mpr hsame⟩)
    · cases h
  · rintro ⟨hlisten, hadmin, hseed, hid, hvalidators, hsome, hpeers, hself⟩
    rw [hid, hpeers] at hself
    rw [hvalidators] at hsome
    rw [hlisten, hadmin, hseed]
    dsimp only
    have hnone : ¬ (o.peers.any fun p => p.1 == nodeIdOf cli.seed) = true := by
      intro hany
      obtain ⟨p, hp, hsame⟩ := List.any_eq_true.mp hany
      exact hself p hp (beq_iff_eq.mp hsame)
    rw [if_neg (by simpa using hsome), if_neg hnone, ← hid, ← hvalidators, ← hpeers]

/-! ## What is accepted -/

theorem valuesOf_append (wanted : ValueOption) (options more : List CliOption) :
    valuesOf wanted (options ++ more) = valuesOf wanted options ++ valuesOf wanted more :=
  List.filterMap_append

/-- The values of options that are all the same one. -/
theorem valuesOf_map {α : Type} (wanted option : ValueOption) (v : α → String) (items : List α) :
    valuesOf wanted (items.map fun item => .value option (v item)) =
      if option = wanted then items.map v else [] := by
  unfold valuesOf
  rw [List.filterMap_map]
  by_cases hoption : option = wanted
  · rw [if_pos hoption, ← List.filterMap_eq_map]
    apply List.filterMap_congr
    intro item hitem
    simp [CliOption.valueOf, hoption]
  · rw [if_neg hoption, List.filterMap_eq_nil_iff]
    intro item hitem
    simp [CliOption.valueOf, hoption]

/-- Values that can all be read. -/
theorem mapM_eq_ok_iff {α : Type} {f : String → Except String α} {values : List String}
    {results : List α} :
    values.mapM f = .ok results ↔
      (∀ v ∈ values, (f v).toOption.isSome = true) ∧
        results = values.filterMap fun v => (f v).toOption := by
  induction values generalizing results with
  | nil =>
      show Except.ok [] = .ok results ↔ _
      rw [Except.ok.injEq]
      exact ⟨fun h => ⟨List.forall_mem_nil _, h.symm⟩, fun h => h.2.symm⟩
  | cons v values ih =>
      rw [List.mapM_cons, List.forall_mem_cons]
      cases hfirst : f v with
      | error e => exact ⟨nofun, fun h => absurd h.1.1 Bool.false_ne_true⟩
      | ok x =>
          have hread : (v :: values).filterMap (fun v => (f v).toOption) =
              x :: values.filterMap fun v => (f v).toOption :=
            List.filterMap_cons_some (by rw [hfirst]; rfl)
          rw [hread]
          cases hrest : values.mapM f with
          | error e =>
              constructor
              · exact nofun
              · rintro ⟨⟨-, hall⟩, -⟩
                rw [ih.mpr ⟨hall, rfl⟩] at hrest
                cases hrest
          | ok rest =>
              obtain ⟨hall, rfl⟩ := ih.mp hrest
              show Except.ok _ = .ok results ↔ _
              rw [Except.ok.injEq]
              exact ⟨fun h => ⟨⟨rfl, hall⟩, h.symm⟩, fun h => h.2.symm⟩

/-- One option of each of the first three kinds, then the validators and the peers. -/
def plainOptions (listen admin seed : String) (validators peers : List String) :
    List CliOption :=
  [.value .listen listen, .value .admin admin, .value .seed seed] ++
    validators.map (.value .validatorPubkey) ++ peers.map (.value .peer)

theorem valuesOf_plainOptions (wanted : ValueOption) (listen admin seed : String)
    (validators peers : List String) :
    valuesOf wanted (plainOptions listen admin seed validators peers) =
      valuesOf wanted [.value .listen listen, .value .admin admin, .value .seed seed] ++
      (if ValueOption.validatorPubkey = wanted then validators else []) ++
      (if ValueOption.peer = wanted then peers else []) := by
  have hmap : ∀ (option : ValueOption) (values : List String),
      valuesOf wanted (values.map (.value option)) = if option = wanted then values else [] := by
    intro option values
    have h := valuesOf_map wanted option (fun v => v) values
    rwa [List.map_id'] at h
  unfold plainOptions
  rw [valuesOf_append, valuesOf_append, hmap, hmap]

theorem valid_plainOptions_iff {listen admin seed : String} {validators peers : List String} :
    (∀ option ∈ plainOptions listen admin seed validators peers, option.isValid = true) ↔
      (hexTo32 seed).toOption.isSome = true ∧
        (∀ v ∈ validators, (hexTo32 v).toOption.isSome = true) ∧
        ∀ p ∈ peers, (parsePeerSpec p).toOption.isSome = true := by
  unfold plainOptions
  simp only [List.forall_mem_append, List.forall_mem_map, List.forall_mem_cons, CliOption.isValid,
    List.not_mem_nil, IsEmpty.forall_iff, implies_true, and_true, true_and, and_assoc]

/-- What such options say. -/
theorem describes_plainOptions_iff {listen admin seed : String} {validators peers : List String}
    {cli : CliArgs} :
    Describes (plainOptions listen admin seed validators peers) cli ↔
      cli.listen = listen ∧ cli.adminListen = admin ∧ hexTo32 seed = .ok cli.seed ∧
        cli.nodeId = nodeIdOf cli.seed ∧
        validators.mapM hexTo32 = .ok cli.validatorPubkeys ∧ cli.validatorPubkeys ≠ [] ∧
        peers.mapM parsePeerSpec = .ok cli.peers ∧ ∀ p ∈ cli.peers, p.1 ≠ cli.nodeId := by
  have hlisten : valuesOf .listen (plainOptions listen admin seed validators peers) = [listen] :=
    valuesOf_plainOptions ..
  have hadmin : valuesOf .admin (plainOptions listen admin seed validators peers) = [admin] :=
    valuesOf_plainOptions ..
  have hseed : valuesOf .seed (plainOptions listen admin seed validators peers) = [seed] :=
    valuesOf_plainOptions ..
  have hvalidators : valuesOf .validatorPubkey (plainOptions listen admin seed validators peers) =
      validators := by
    rw [valuesOf_plainOptions]
    exact List.append_nil validators
  have hpeers : valuesOf .peer (plainOptions listen admin seed validators peers) = peers :=
    valuesOf_plainOptions ..
  have hkey : (keysOf [seed]).getLast? = some cli.seed ↔ hexTo32 seed = .ok cli.seed := by
    cases hhex : hexTo32 seed with
    | error e => simp [keysOf, hhex, Except.toOption]
    | ok key => simp [keysOf, hhex, Except.toOption]
  constructor
  · intro h
    obtain ⟨hseedok, hkeysok, hpeersok⟩ := valid_plainOptions_iff.mp h.valid
    refine ⟨?_, ?_, ?_, h.nodeId, ?_, h.someValidator, ?_, h.notItself⟩
    · simpa [hlisten, eq_comm] using h.listen
    · simpa [hadmin, eq_comm] using h.adminListen
    · rw [← hkey, ← hseed]
      exact h.seed
    · exact mapM_eq_ok_iff.mpr ⟨hkeysok, hvalidators ▸ h.validatorPubkeys⟩
    · exact mapM_eq_ok_iff.mpr ⟨hpeersok, hpeers ▸ h.peers⟩
  · rintro ⟨hl, ha, hs, hid, hkeys, hsome, hps, hself⟩
    obtain ⟨hkeysok, hkeys⟩ := mapM_eq_ok_iff.mp hkeys
    obtain ⟨hpeersok, hps⟩ := mapM_eq_ok_iff.mp hps
    constructor
    · exact valid_plainOptions_iff.mpr ⟨by rw [hs]; rfl, hkeysok, hpeersok⟩
    · simp [plainOptions]
    · simp [hlisten, hl]
    · simp [hadmin, ha]
    · rw [hseed, hkey]
      exact hs
    · exact hid
    · rw [hvalidators]
      exact hkeys
    · exact hsome
    · rw [hpeers]
      exact hps
    · exact hself

variable [Primitives] {random : Option Seed} {args : List String} {cli : CliArgs}

/-- Options are accepted that describe a node. -/
theorem parseArgs_flatMap_words {options : List CliOption} :
    parseArgs random (options.flatMap CliOption.words) = .ok cli ↔ Describes options cli := by
  unfold parseArgs
  constructor
  · intro h
    split at h
    · cases h
    · rename_i o hloop
      obtain ⟨hvalid, rfl⟩ := foldlM_apply_eq_some_iff.mp (parseLoop_flatMap_words.mp hloop)
      split at h
      · cases h
      · rename_i hgen
        obtain ⟨hlisten, hadmin, hseed, hid, hkeys, hsome, hpeers, hself⟩ :=
          checkOptions_eq_ok_iff.mp h
        exact ⟨hvalid, by simpa [collect] using hgen, hlisten, hadmin, hseed, hid, hkeys, hsome,
          hpeers, hself⟩
  · intro h
    have hloop := parseLoop_flatMap_words.mpr (foldlM_apply_eq_some_iff.mpr ⟨h.valid, rfl⟩)
    have hgen : ¬ (collect options).genSeed = true := by simpa [collect] using h.noGenSeed
    rw [hloop]
    dsimp only
    rw [if_neg hgen]
    exact checkOptions_eq_ok_iff.mpr ⟨h.listen, h.adminListen, h.seed, h.nodeId,
      h.validatorPubkeys, h.someValidator, h.peers, h.notItself⟩

/-- Only options are accepted. -/
theorem exists_describes (h : parseArgs random args = .ok cli) :
    ∃ options : List CliOption, args = options.flatMap CliOption.words ∧
      Describes options cli := by
  have hwords : ∃ options : List CliOption, args = options.flatMap CliOption.words := by
    unfold parseArgs at h
    split at h
    · cases h
    · rename_i o hloop
      obtain ⟨options, hargs, -⟩ := parseLoop_eq_ok_iff.mp hloop
      exact ⟨options, hargs⟩
  obtain ⟨options, rfl⟩ := hwords
  exact ⟨options, rfl, parseArgs_flatMap_words.mp h⟩

/-- Exactly the sequences of valid options without `--gen-seed` are accepted that name an
address for the peers, one for the admin, a seed and a validator, and no peer with the
node's own id.  Of a repeated option the last value counts, or all of them in order. -/
theorem parseArgs_eq_ok_iff :
    parseArgs random args = .ok cli ↔
      ∃ options : List CliOption, args = options.flatMap CliOption.words ∧
        Describes options cli := by
  constructor
  · exact exists_describes
  · rintro ⟨options, rfl, hdescribes⟩
    exact parseArgs_flatMap_words.mpr hdescribes

end B4n.Cli
