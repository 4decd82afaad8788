import B4n.Webapp.LogParser

/-!
# The latest snapshot of a log

The rest of `webapp/log_parser.py`: the lines of a log are paired, every pair is
parsed, and the last pair that parses is the latest snapshot.  The number of the
node is read from the whole log.

A pair remembers the position of its `BlockChain` line, which the source has as
`idx` and drops; what a snapshot was parsed from is said by it.

## Main results

* `length_markerLines` — the markers are counted by line.
* `parsedSnapshots_eq_ok` — which pairs are parsed.
-/

namespace B4n.Webapp

open B4n.Lib B4n.Lib.Text

/-! ## Data -/

/-- `BLOCKCHAIN_PREFIX` -/
def BLOCKCHAIN_PREFIX : List Char := "BlockChain \x7b".toList

/-- `MEMPOOL_PREFIX` -/
def MEMPOOL_PREFIX : List Char := "mempool=MemPool \x7b".toList

/-- `ParsedTransaction.key` -/
def ParsedTransaction.key (trx : ParsedTransaction (List Nat)) : List Nat :=
  (Nat.toDigits 10 trx.txId).map Char.toNat ++ (':'.toNat ::
    ((Nat.toDigits 10 trx.fromId).map Char.toNat ++ (':'.toNat ::
      ((Nat.toDigits 10 trx.toId).map Char.toNat ++ (':'.toNat :: trx.text)))))

/-- `ParsedSnapshot` -/
structure ParsedSnapshot where
  nodeId : Option Nat
  confirmed : List (ParsedTransaction (List Nat))
  pending : List (ParsedTransaction (List Nat))
  snapshotCount : Nat
deriving DecidableEq

/-- A pair of lines, with the position of the first. -/
structure SnapshotPair where
  idx : Nat
  blockchainLine : List Char
  mempoolLine : List Char

/-- What a pair is parsed to, with the position of its first line. -/
structure ParsedPair where
  idx : Nat
  confirmed : List (ParsedTransaction (List Nat))
  pending : List (ParsedTransaction (List Nat))
deriving DecidableEq

/-! ## Lines -/

/-- The positions of the lines that `count_snapshot_markers` counts. -/
def markerLines (logText : List Char) : List Nat :=
  positions (startsWith BLOCKCHAIN_PREFIX) 0 (splitlines logText)

/-- `count_snapshot_markers` -/
def countSnapshotMarkers (logText : List Char) : Nat :=
  (splitlines logText).countP (startsWith BLOCKCHAIN_PREFIX)

/-- The loop of `_iter_snapshot_pairs` over the lines from `idx` on. -/
def iterSnapshotPairs : Nat → List (List Char) → List SnapshotPair
  | _, [] => []
  | idx, line :: rest =>
      if !startsWith BLOCKCHAIN_PREFIX line then iterSnapshotPairs (idx + 1) rest
      else
        match (rest.take 3).find? (startsWith MEMPOOL_PREFIX) with
        | none => iterSnapshotPairs (idx + 1) rest
        | some mempoolLine => ⟨idx, line, mempoolLine⟩ :: iterSnapshotPairs (idx + 1) rest

/-- The pairs of a log. -/
def snapshotPairs (logText : List Char) : List SnapshotPair :=
  iterSnapshotPairs 0 (splitlines logText)

/-! ## Parsing -/

/-- `_exclude_confirmed` -/
def excludeConfirmed (pending confirmed : List (ParsedTransaction (List Nat))) :
    List (ParsedTransaction (List Nat)) :=
  let confirmedKeys := confirmed.map ParsedTransaction.key
  pending.filter fun trx => !confirmedKeys.contains trx.key

variable [CharacterTable]

/-- `NODE_ID_RE` -/
def NODE_ID_RE : Regex Char Nat :=
  .seq (.lit "[node ".toList) (.seq (.group 1 (.plus digit)) (.lit [']']))

/-- `NODE_ID_RE.findall` -/
def findNodeIds (text : List Char) : List (List Char) :=
  (NODE_ID_RE.findAll [] text).map fun found => (found.group? 1).getD []

/-- `_parse_node_id` -/
def parseNodeId (logText : List Char) : Except ParseError (Option Nat) :=
  match (findNodeIds logText).getLast? with
  | none => .ok none
  | some digits =>
      match int digits with
      | some n => .ok (some n)
      | none => .error .valueError

/-- What the loop of `parse_latest_snapshot` does with a pair. -/
def parsePair (pair : SnapshotPair) : Except ParseError ParsedPair := do
  let confirmed ← parseBlockchainTransactions decodeDebugString pair.blockchainLine
  let queued ← parseMempoolTransactions decodeDebugString pair.mempoolLine
  .ok ⟨pair.idx, confirmed, excludeConfirmed queued confirmed⟩

/-- The loop of `parse_latest_snapshot`: a `LogParseError` skips the pair, and
any other exception ends the loop. -/
def parsedSnapshots : List SnapshotPair → Except ParseError (List ParsedPair)
  | [] => .ok []
  | pair :: pairs =>
      match parsePair pair with
      | .error (.logParseError _) => parsedSnapshots pairs
      | .error .valueError => .error .valueError
      | .ok parsed => (parsedSnapshots pairs).map (parsed :: ·)

/-- `parse_latest_snapshot` -/
def parseLatestSnapshot (logText : List Char) : Except ParseError ParsedSnapshot := do
  let nodeId ← parseNodeId logText
  let parsed ← parsedSnapshots (snapshotPairs logText)
  match parsed.getLast? with
  | none => .ok ⟨nodeId, [], [], 0⟩
  | some latest => .ok ⟨nodeId, latest.confirmed, latest.pending, parsed.length⟩

/-! ## Pairs and what they are parsed to -/

omit [CharacterTable] in
theorem length_markerLines (logText : List Char) :
    (markerLines logText).length = countSnapshotMarkers logText :=
  length_positions _ _ _

omit [CharacterTable] in
/-- The first lines of the pairs are marker lines, in order. -/
theorem map_idx_iterSnapshotPairs (idx : Nat) (lines : List (List Char)) :
    ((iterSnapshotPairs idx lines).map SnapshotPair.idx).Sublist
      (positions (startsWith BLOCKCHAIN_PREFIX) idx lines) := by
  induction lines generalizing idx with
  | nil => exact .slnil
  | cons line rest ih =>
      unfold iterSnapshotPairs positions
      by_cases hline : startsWith BLOCKCHAIN_PREFIX line = true
      · rw [if_neg (by simp [hline]), if_pos hline]
        split
        · exact (ih (idx + 1)).cons idx
        · exact (ih (idx + 1)).cons_cons idx
      · rw [if_pos (by simp [hline]), if_neg hline]
        exact ih (idx + 1)

/-- A pair is parsed, up to the exception that skips it. -/
def parsePair? (pair : SnapshotPair) : Option ParsedPair :=
  match parsePair pair with
  | .ok parsed => some parsed
  | .error _ => none

theorem parsePair?_eq_some_iff {pair : SnapshotPair} {parsed : ParsedPair} :
    parsePair? pair = some parsed ↔ parsePair pair = .ok parsed := by
  unfold parsePair?
  cases parsePair pair with
  | error e => simp
  | ok one => simp

theorem parsePair_idx {pair : SnapshotPair} {parsed : ParsedPair}
    (h : parsePair pair = .ok parsed) : parsed.idx = pair.idx := by
  unfold parsePair at h
  cases hconfirmed : parseBlockchainTransactions decodeDebugString pair.blockchainLine with
  | error e =>
      rw [hconfirmed] at h
      cases h
  | ok confirmed =>
      cases hqueued : parseMempoolTransactions decodeDebugString pair.mempoolLine with
      | error e =>
          rw [hconfirmed, hqueued] at h
          cases h
      | ok queued =>
          rw [hconfirmed, hqueued] at h
          cases h
          rfl

/-- Without a `ValueError`, exactly the pairs that parse are collected. -/
theorem parsedSnapshots_eq_ok {pairs : List SnapshotPair} {parsed : List ParsedPair}
    (h : parsedSnapshots pairs = .ok parsed) : parsed = pairs.filterMap parsePair? := by
  induction pairs generalizing parsed with
  | nil => simpa [parsedSnapshots] using h.symm
  | cons pair pairs ih =>
      unfold parsedSnapshots at h
      have hpair : parsePair? pair = (match parsePair pair with
        | .ok parsed => some parsed
        | .error _ => none) := rfl
      cases hparse : parsePair pair with
      | error e =>
          rw [hparse] at hpair
          cases e with
          | valueError => simp [hparse] at h
          | logParseError message =>
              rw [hparse] at h
              rw [ih h, List.filterMap_cons_none hpair]
      | ok one =>
          rw [hparse] at h hpair
          cases hrest : parsedSnapshots pairs with
          | error e =>
              rw [hrest] at h
              cases h
          | ok rest =>
              rw [hrest] at h
              cases h
              rw [ih hrest, List.filterMap_cons_some hpair]

/-- What was collected was parsed from one of the pairs. -/
theorem mem_parsedSnapshots_iff {pairs : List SnapshotPair} {parsed : List ParsedPair}
    (h : parsedSnapshots pairs = .ok parsed) {one : ParsedPair} :
    one ∈ parsed ↔ ∃ pair ∈ pairs, parsePair pair = .ok one := by
  rw [parsedSnapshots_eq_ok h, List.mem_filterMap]
  simp only [parsePair?_eq_some_iff]

/-- A pair of a log that is parsed is skipped or collected. -/
theorem parsedSnapshots_cons_iff {pair : SnapshotPair} {pairs : List SnapshotPair}
    {parsed : List ParsedPair} :
    parsedSnapshots (pair :: pairs) = .ok parsed ↔
      (∃ message, parsePair pair = .error (.logParseError message)) ∧
          parsedSnapshots pairs = .ok parsed ∨
        ∃ one rest, parsePair pair = .ok one ∧ parsedSnapshots pairs = .ok rest ∧
          parsed = one :: rest := by
  rw [parsedSnapshots]
  cases parsePair pair with
  | error e =>
      cases e with
      | logParseError message => simp
      | valueError => simp
  | ok one =>
      cases parsedSnapshots pairs with
      | error e => simp [Except.map]
      | ok rest => simp [Except.map, eq_comm]

/-- If no pair is parsed, all are skipped. -/
theorem skipped_of_parsedSnapshots {pairs : List SnapshotPair}
    (h : parsedSnapshots pairs = .ok []) :
    ∀ pair ∈ pairs, ∃ message, parsePair pair = .error (.logParseError message) := by
  induction pairs with
  | nil => simp
  | cons pair pairs ih =>
      rcases parsedSnapshots_cons_iff.mp h with ⟨hskip, hrest⟩ | ⟨one, rest, -, -, hnil⟩
      · exact List.forall_mem_cons.mpr ⟨hskip, ih hrest⟩
      · cases hnil

/-- The last pair that parses: all later ones are skipped. -/
def LastParsed (pairs : List SnapshotPair) (latest : ParsedPair) : Prop :=
  ∃ before pair after, pairs = before ++ pair :: after ∧ parsePair pair = .ok latest ∧
    ∀ later ∈ after, ∃ message, parsePair later = .error (.logParseError message)

theorem lastParsed_of_getLast? {pairs : List SnapshotPair} {parsed : List ParsedPair}
    {latest : ParsedPair} (h : parsedSnapshots pairs = .ok parsed)
    (hlast : parsed.getLast? = some latest) : LastParsed pairs latest := by
  induction pairs generalizing parsed with
  | nil =>
      cases h
      cases hlast
  | cons pair pairs ih =>
      have hlater : ∀ {rest}, parsedSnapshots pairs = .ok rest → rest.getLast? = some latest →
          LastParsed (pair :: pairs) latest := by
        intro rest hrest hrestLast
        obtain ⟨before, last, after, rfl, hlatest⟩ := ih hrest hrestLast
        exact ⟨pair :: before, last, after, rfl, hlatest⟩
      rcases parsedSnapshots_cons_iff.mp h with ⟨-, hrest⟩ | ⟨one, rest, hone, hrest, rfl⟩
      · exact hlater hrest hlast
      · cases hnone : rest.getLast? with
        | none =>
            rw [List.getLast?_cons, hnone] at hlast
            cases hlast
            rw [List.getLast?_eq_none_iff.mp hnone] at hrest
            exact ⟨[], pair, pairs, rfl, hone, skipped_of_parsedSnapshots hrest⟩
        | some last =>
            rw [List.getLast?_cons, hnone] at hlast
            cases hlast
            exact hlater hrest hnone

/-! ## The latest one -/

section Latest

variable {logText : List Char} {nodeId : Option Nat} {parsed : List ParsedPair}

theorem parseLatestSnapshot_none (hnode : parseNodeId logText = .ok nodeId)
    (hparsed : parsedSnapshots (snapshotPairs logText) = .ok parsed)
    (hlast : parsed.getLast? = none) :
    parseLatestSnapshot logText = .ok ⟨nodeId, [], [], 0⟩ := by
  unfold parseLatestSnapshot
  rw [hnode, hparsed]
  simp only [bind, Except.bind, hlast]

theorem parseLatestSnapshot_some (hnode : parseNodeId logText = .ok nodeId)
    (hparsed : parsedSnapshots (snapshotPairs logText) = .ok parsed) {latest : ParsedPair}
    (hlast : parsed.getLast? = some latest) :
    parseLatestSnapshot logText =
      .ok ⟨nodeId, latest.confirmed, latest.pending, parsed.length⟩ := by
  unfold parseLatestSnapshot
  rw [hnode, hparsed]
  simp only [bind, Except.bind, hlast]

/-- A parsed log has a number and pairs that were parsed. -/
theorem exists_of_parseLatestSnapshot {snapshot : ParsedSnapshot}
    (h : parseLatestSnapshot logText = .ok snapshot) :
    (∃ nodeId, parseNodeId logText = .ok nodeId) ∧
      ∃ parsed, parsedSnapshots (snapshotPairs logText) = .ok parsed := by
  unfold parseLatestSnapshot at h
  cases hnode : parseNodeId logText with
  | error e =>
      rw [hnode] at h
      cases h
  | ok nodeId =>
      cases hparsed : parsedSnapshots (snapshotPairs logText) with
      | error e =>
          rw [hnode, hparsed] at h
          cases h
      | ok parsed => exact ⟨⟨nodeId, rfl⟩, parsed, rfl⟩

end Latest

end B4n.Webapp
