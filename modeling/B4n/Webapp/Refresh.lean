import B4n.Blockchain.Sample
import B4n.Webapp.DebugString
import B4n.Webapp.Service
import B4n.Webapp.Snapshot

/-!
# Forced refreshes

A forced refresh counts the `BlockChain` lines of the log, has the node print
its state and polls the log until there are more of them; then it returns the
last pair of lines that parses.  What is counted and what is returned are
different things: a `BlockChain` line counts as soon as its beginning is in the
log, and a pair is only parsed when its `mempool` line is there and both are
well formed.  A poll in between returns the snapshot before.

## Main results

* `prefix_markerLines` — lines once counted stay where they are.
* `refresh_fresh_iff` — when the snapshot that is returned is a new one.
-/

namespace B4n.Webapp

open B4n.Lib

/-! ## Lines once counted -/

/-- In a log that grew, the first marker lines are those that were counted
before. -/
theorem prefix_markerLines {before logFile : List UInt8} (hgrown : before <+: logFile) :
    markerLines (readText before) <+: markerLines (readText logFile) :=
  readText_positions (by decide) (by decide) hgrown

/-- The others come after all of them. -/
theorem lt_of_mem_drop {before logFile : List UInt8} (hgrown : before <+: logFile) {i j : Nat}
    (hi : i ∈ markerLines (readText before))
    (hj : j ∈ (markerLines (readText logFile)).drop
      (countSnapshotMarkers (readText before))) : i < j := by
  obtain ⟨new, hnew⟩ := prefix_markerLines hgrown
  have hsorted : (markerLines (readText logFile)).Pairwise (· < ·) := pairwise_positions _ _ _
  rw [← hnew] at hsorted hj
  rw [← length_markerLines, List.drop_left] at hj
  exact (List.pairwise_append.mp hsorted).2.2 i hi j hj

/-- A marker line that was not counted before is one of the others. -/
theorem mem_drop_of_not_mem {before logFile : List UInt8} (hgrown : before <+: logFile)
    {i : Nat} (hi : i ∈ markerLines (readText logFile))
    (hnew : i ∉ markerLines (readText before)) :
    i ∈ (markerLines (readText logFile)).drop (countSnapshotMarkers (readText before)) := by
  obtain ⟨new, hmarkers⟩ := prefix_markerLines hgrown
  rw [← hmarkers] at hi ⊢
  rw [← length_markerLines, List.drop_left]
  exact (List.mem_append.mp hi).resolve_left hnew

variable [CharacterTable]

/-! ## Where a snapshot comes from -/

/-- The snapshot was parsed from the pair of the log whose first line is at
`idx`. -/
def ParsedFrom (logText : List Char) (snapshot : ParsedSnapshot) (idx : Nat) : Prop :=
  ∃ parsed latest, parsedSnapshots (snapshotPairs logText) = .ok parsed ∧
    parsed.getLast? = some latest ∧ latest.idx = idx ∧
    snapshot.confirmed = latest.confirmed ∧ snapshot.pending = latest.pending

/-- The snapshot was parsed from a `BlockChain` line that was not among those
counted before. -/
def Fresh (before logFile : List UInt8) (snapshot : ParsedSnapshot) : Prop :=
  ∃ idx, ParsedFrom (readText logFile) snapshot idx ∧ idx ∉ markerLines (readText before)

/-- Behind as many marker lines as were counted before, a pair begins that
parses. -/
def NewPairComplete (before logFile : List UInt8) : Prop :=
  ∃ pair ∈ snapshotPairs (readText logFile),
    pair.idx ∈ (markerLines (readText logFile)).drop
      (countSnapshotMarkers (readText before)) ∧
    ∃ parsed, parsePair pair = .ok parsed

/-- The pairs that were parsed, by position, are marker lines in order. -/
theorem map_idx_parsedSnapshots {logText : List Char} {parsed : List ParsedPair}
    (h : parsedSnapshots (snapshotPairs logText) = .ok parsed) :
    (parsed.map ParsedPair.idx).Sublist (markerLines logText) := by
  have hpairs : ((snapshotPairs logText).map SnapshotPair.idx).Sublist (markerLines logText) :=
    map_idx_iterSnapshotPairs 0 (splitlines logText)
  refine List.Sublist.trans ?_ hpairs
  rw [parsedSnapshots_eq_ok h]
  generalize snapshotPairs logText = pairs
  induction pairs with
  | nil => exact .slnil
  | cons pair pairs ih =>
      cases hpair : parsePair? pair with
      | none =>
          rw [List.filterMap_cons_none hpair]
          exact ih.cons _
      | some one =>
          have hidx : one.idx = pair.idx := parsePair_idx (parsePair?_eq_some_iff.mp hpair)
          rw [List.filterMap_cons_some hpair, List.map_cons, List.map_cons, hidx]
          exact ih.cons_cons _

/-- The last pair that was parsed stands behind the others. -/
theorem idx_le_of_getLast? {logText : List Char} {parsed : List ParsedPair}
    (hparsed : parsedSnapshots (snapshotPairs logText) = .ok parsed) {latest one : ParsedPair}
    (hlatest : parsed.getLast? = some latest) (hone : one ∈ parsed) : one.idx ≤ latest.idx := by
  obtain ⟨front, rfl⟩ := List.getLast?_eq_some_iff.mp hlatest
  have hsorted : ((front ++ [latest]).map ParsedPair.idx).Pairwise (· < ·) :=
    (pairwise_positions _ _ _).sublist (map_idx_parsedSnapshots hparsed)
  rw [List.map_append, List.pairwise_append] at hsorted
  rcases List.mem_append.mp hone with hfront | hsame
  · exact Nat.le_of_lt (hsorted.2.2 _ (List.mem_map_of_mem hfront) latest.idx (by simp))
  · rw [List.mem_singleton.mp hsame]

/-- What the polling loop returns is the latest snapshot of the log of that
poll. -/
theorem pollLoop_eq_returned {count : Nat} {polls : List (List UInt8)}
    {logFile : List UInt8} {snapshot : ParsedSnapshot}
    (h : pollLoop count polls = .returned logFile snapshot) :
    logFile ∈ polls ∧ parseLatestSnapshot (readText logFile) = .ok snapshot ∧
      0 < snapshot.snapshotCount := by
  induction polls with
  | nil => cases h
  | cons poll polls ih =>
      have hlater : pollLoop count polls = .returned logFile snapshot →
          logFile ∈ poll :: polls ∧ parseLatestSnapshot (readText logFile) = .ok snapshot ∧
            0 < snapshot.snapshotCount := by
        intro hrest
        obtain ⟨hmem, hparse⟩ := ih hrest
        exact ⟨List.mem_cons_of_mem poll hmem, hparse⟩
      unfold pollLoop at h
      dsimp only at h
      split at h
      · split at h
        · cases h
        · next found hparse =>
          split at h
          · next hpos =>
            cases h
            exact ⟨List.mem_cons_self, hparse, hpos⟩
          · exact hlater h
      · exact hlater h

/-- A polling loop returns as soon as a poll finds a new marker line, if every such poll
finds a snapshot. -/
theorem exists_pollLoop_returned {count : Nat} {polls : List (List UInt8)}
    (hnew : ∃ poll ∈ polls, count < countSnapshotMarkers (readText poll))
    (hparse : ∀ poll ∈ polls, count < countSnapshotMarkers (readText poll) →
      ∃ snapshot, parseLatestSnapshot (readText poll) = .ok snapshot ∧
        0 < snapshot.snapshotCount) :
    ∃ logFile ∈ polls, count < countSnapshotMarkers (readText logFile) ∧
      ∃ snapshot, pollLoop count polls = .returned logFile snapshot := by
  induction polls with
  | nil =>
      obtain ⟨poll, hpoll, -⟩ := hnew
      cases hpoll
  | cons poll polls ih =>
      unfold pollLoop
      dsimp only
      by_cases hmore : count < countSnapshotMarkers (readText poll)
      · obtain ⟨snapshot, hok, hpos⟩ := hparse poll List.mem_cons_self hmore
        refine ⟨poll, List.mem_cons_self, hmore, snapshot, ?_⟩
        rw [if_pos hmore, hok]
        exact if_pos hpos
      · obtain ⟨found, hfound, hcount⟩ := hnew
        rcases List.mem_cons.mp hfound with rfl | hlater
        · exact absurd hcount hmore
        obtain ⟨logFile, hmem, hreturned⟩ := ih ⟨found, hlater, hcount⟩ fun other hother =>
          hparse other (List.mem_cons_of_mem poll hother)
        rw [if_neg hmore]
        exact ⟨logFile, List.mem_cons_of_mem poll hmem, hreturned⟩

/-- A snapshot with a count comes from the last pair that was parsed. -/
theorem parseLatestSnapshot_eq_ok {logText : List Char} {snapshot : ParsedSnapshot}
    (h : parseLatestSnapshot logText = .ok snapshot) (hpos : 0 < snapshot.snapshotCount) :
    ∃ parsed latest, parsedSnapshots (snapshotPairs logText) = .ok parsed ∧
      parsed.getLast? = some latest ∧
      snapshot.confirmed = latest.confirmed ∧ snapshot.pending = latest.pending := by
  obtain ⟨⟨nodeId, hnode⟩, parsed, hparsed⟩ := exists_of_parseLatestSnapshot h
  cases hlast : parsed.getLast? with
  | none =>
      rw [parseLatestSnapshot_none hnode hparsed hlast] at h
      cases h
      exact absurd hpos (Nat.lt_irrefl 0)
  | some latest =>
      rw [parseLatestSnapshot_some hnode hparsed hlast] at h
      cases h
      exact ⟨parsed, latest, hparsed, hlast, rfl, rfl⟩

/-! ## Fresh snapshots -/

/-- The pair that a snapshot was parsed from begins at a marker line. -/
theorem ParsedFrom.mem_markerLines {logText : List Char} {snapshot : ParsedSnapshot} {idx : Nat}
    (h : ParsedFrom logText snapshot idx) : idx ∈ markerLines logText := by
  obtain ⟨parsed, latest, hparsed, hlatest, rfl, -⟩ := h
  exact (map_idx_parsedSnapshots hparsed).subset
    (List.mem_map_of_mem (List.mem_of_getLast? hlatest))

/-- Behind a complete pair at a new marker line, the latest snapshot is a new one. -/
theorem NewPairComplete.fresh {before logFile : List UInt8} (h : NewPairComplete before logFile)
    (hgrown : before <+: logFile) {snapshot : ParsedSnapshot}
    (hparse : parseLatestSnapshot (readText logFile) = .ok snapshot)
    (hpos : 0 < snapshot.snapshotCount) : Fresh before logFile snapshot := by
  obtain ⟨pair, hpair, hnew, one, hone⟩ := h
  obtain ⟨parsed, latest, hparsed, hlatest, hconfirmed, hpending⟩ :=
    parseLatestSnapshot_eq_ok hparse hpos
  refine ⟨latest.idx, ⟨parsed, latest, hparsed, hlatest, rfl, hconfirmed, hpending⟩, ?_⟩
  intro hold
  -- the new pair was parsed too, so the last one is not before it
  have hin : one ∈ parsed := (mem_parsedSnapshots_iff hparsed).mpr ⟨pair, hpair, hone⟩
  have hle := idx_le_of_getLast? hparsed hlatest hin
  have hafter := lt_of_mem_drop hgrown hold hnew
  rw [← parsePair_idx hone] at hafter
  omega

/-- The snapshot that a polling loop returns is a new one if and only if the log
of that poll has a complete pair at a new marker line. -/
theorem refresh_fresh_iff {before : List UInt8} {polls : List (List UInt8)}
    (hgrows : (before :: polls).Pairwise (· <+: ·)) {logFile : List UInt8}
    {snapshot : ParsedSnapshot}
    (hreturned : pollLoop (countSnapshotMarkers (readText before)) polls =
      .returned logFile snapshot) :
    Fresh before logFile snapshot ↔ NewPairComplete before logFile := by
  obtain ⟨hmem, hparse, hpos⟩ := pollLoop_eq_returned hreturned
  have hgrown : before <+: logFile := (List.pairwise_cons.mp hgrows).1 logFile hmem
  constructor
  · rintro ⟨idx, hfrom, hnew⟩
    have hlater := mem_drop_of_not_mem hgrown hfrom.mem_markerLines hnew
    obtain ⟨parsed, latest, hparsed, hlatest, rfl, -⟩ := hfrom
    obtain ⟨pair, hpair, hok⟩ :=
      (mem_parsedSnapshots_iff hparsed).mp (List.mem_of_getLast? hlatest)
    refine ⟨pair, hpair, ?_, latest, hok⟩
    rw [← parsePair_idx hok]
    exact hlater
  · intro hcomplete
    exact hcomplete.fresh hgrown hparse hpos

end B4n.Webapp

namespace B4n.Webapp.Sample

open B4n.Lib B4n.Blockchain B4n.Blockchain.Sample

/-- The lines that a fresh node prints, with some transactions in its queue. -/
private def snapshotLines (queue : List Transaction) : List (List Char) :=
  [(BlockChain.new 1).debug, "is_valid=true".toList,
    mempoolLine { MemPool.new with queue := queue } []]

private def tea : List Transaction := [trx 1 "tea"]

/-- The log that consists of some lines. -/
private def logOf (lines : List (List Char)) : List UInt8 :=
  utf8 (lines.flatMap (· ++ ['\n']))

/-- The log after a first `print`. -/
private def printed : List UInt8 := logOf (snapshotLines [])

/-- The log in the middle of the second one. -/
private def cut : List UInt8 := logOf (snapshotLines [] ++ [(BlockChain.new 1).debug])

/-- The log after the second one; a transaction has come in between. -/
private def whole : List UInt8 := logOf (snapshotLines [] ++ snapshotLines tea)

private def emptySnapshot : ParsedSnapshot := ⟨none, [], [], 1⟩

private def teaSnapshot : ParsedSnapshot :=
  ⟨none, [], [⟨1, 1, 2, "tea".toList.map Char.toNat, none⟩], 2⟩

private theorem noBreaks :
    (snapshotLines [] ++ snapshotLines tea).all (fun line => line.all (!isLineBreak ·)) = true := by
  decide +kernel

private theorem isLineBreak_logLine {lines : List (List Char)}
    (hlines : lines <:+: snapshotLines [] ++ snapshotLines tea) :
    ∀ line ∈ lines, ∀ c ∈ line, isLineBreak c = false := by
  intro line hline c hc
  have hall := List.all_eq_true.mp noBreaks line (hlines.subset hline)
  simpa using List.all_eq_true.mp hall c hc

private theorem readText_logOf {lines : List (List Char)}
    (hlines : lines <:+: snapshotLines [] ++ snapshotLines tea) :
    readText (logOf lines) = lines.flatMap (· ++ ['\n']) :=
  readText_lines (isLineBreak_logLine hlines)

/-- The lines of such a log. -/
private theorem splitlines_logOf {lines : List (List Char)}
    (hlines : lines <:+: snapshotLines [] ++ snapshotLines tea) :
    splitlines (readText (logOf lines)) = lines := by
  rw [readText_logOf hlines, splitlines_flatMap (isLineBreak_logLine hlines)]

private theorem logOf_append (lines more : List (List Char)) :
    logOf (lines ++ more) = logOf lines ++ logOf more := by
  simp [logOf]

private theorem infix_printed : snapshotLines [] <:+: snapshotLines [] ++ snapshotLines tea :=
  (List.prefix_append _ _).isInfix

private theorem infix_cut : snapshotLines [] ++ [(BlockChain.new 1).debug] <:+:
    snapshotLines [] ++ snapshotLines tea :=
  ((List.prefix_append_right_inj _).mpr (List.prefix_append [_] [_, _])).isInfix

private theorem splitlines_printed : splitlines (readText printed) = snapshotLines [] :=
  splitlines_logOf infix_printed

private theorem splitlines_cut :
    splitlines (readText cut) = snapshotLines [] ++ [(BlockChain.new 1).debug] :=
  splitlines_logOf infix_cut

private theorem splitlines_whole :
    splitlines (readText whole) = snapshotLines [] ++ snapshotLines tea :=
  splitlines_logOf List.infix_rfl

private theorem count_printed : countSnapshotMarkers (readText printed) = 1 := by
  rw [countSnapshotMarkers, splitlines_printed]
  rfl

private theorem count_cut : countSnapshotMarkers (readText cut) = 2 := by
  rw [countSnapshotMarkers, splitlines_cut]
  rfl

private theorem count_whole : countSnapshotMarkers (readText whole) = 2 := by
  rw [countSnapshotMarkers, splitlines_whole]
  rfl

/-- A pair of lines of such a log. -/
private def pairAt (idx : Nat) (queue : List Transaction) : SnapshotPair :=
  ⟨idx, (BlockChain.new 1).debug, mempoolLine { MemPool.new with queue := queue } []⟩

private theorem pairs_cut : snapshotPairs (readText cut) = [pairAt 0 []] := by
  rw [snapshotPairs, splitlines_cut]
  rfl

private theorem pairs_whole : snapshotPairs (readText whole) = [pairAt 0 [], pairAt 3 tea] := by
  rw [snapshotPairs, splitlines_whole]
  rfl

private theorem parse_first : parsePair (pairAt 0 []) = .ok ⟨0, [], []⟩ := by
  rw [parsePair, pairAt, parseBlockchainTransactions_debug, parseMempoolTransactions_debug]
  rfl

private theorem parse_second :
    parsePair (pairAt 3 tea) = .ok ⟨3, [], teaSnapshot.pending⟩ := by
  rw [parsePair, pairAt, parseBlockchainTransactions_debug, parseMempoolTransactions_debug]
  rfl

private theorem parsed_cut :
    parsedSnapshots (snapshotPairs (readText cut)) = .ok [⟨0, [], []⟩] := by
  rw [pairs_cut, parsedSnapshots, parse_first]
  rfl

private theorem parsed_whole :
    parsedSnapshots (snapshotPairs (readText whole)) =
      .ok [⟨0, [], []⟩, ⟨3, [], teaSnapshot.pending⟩] := by
  rw [pairs_whole, parsedSnapshots, parse_first, parsedSnapshots, parse_second]
  rfl

private theorem nodeId_cut : parseNodeId (readText cut) = .ok none := by
  have hnone : findNodeIds (readText cut) = [] := by
    rw [cut, readText_logOf infix_cut]
    decide +kernel
  rw [parseNodeId, hnone]
  rfl

private theorem nodeId_whole : parseNodeId (readText whole) = .ok none := by
  have hnone : findNodeIds (readText whole) = [] := by
    rw [whole, readText_logOf List.infix_rfl]
    decide +kernel
  rw [parseNodeId, hnone]
  rfl

/-- The second `BlockChain` line counts, but the pair that parses is the old
one. -/
private theorem cut_returned :
    pollLoop (countSnapshotMarkers (readText printed)) [cut] = .returned cut emptySnapshot := by
  have hparse : parseLatestSnapshot (readText cut) = .ok emptySnapshot :=
    parseLatestSnapshot_some nodeId_cut parsed_cut rfl
  simp [pollLoop, count_printed, count_cut, hparse, emptySnapshot]

theorem forced_refresh_returns_old :
    ¬ ∀ (before : List UInt8) (polls : List (List UInt8)) (logFile : List UInt8)
      (snapshot : ParsedSnapshot), (before :: polls).Pairwise (· <+: ·) →
        pollLoop (countSnapshotMarkers (readText before)) polls = .returned logFile snapshot →
          Fresh before logFile snapshot := by
  intro hfresh
  have hgrows : (printed :: [cut]).Pairwise (· <+: ·) := by
    have hcut : printed <+: cut := ⟨_, (logOf_append _ _).symm⟩
    exact .cons (by simpa using hcut) (.cons (by simp) .nil)
  obtain ⟨idx, ⟨parsed, latest, hparsed, hlatest, rfl, -⟩, hnew⟩ :=
    hfresh printed [cut] cut emptySnapshot hgrows cut_returned
  cases parsed_cut.symm.trans hparsed
  cases hlatest
  have hold : 0 ∈ markerLines (readText printed) := by
    rw [markerLines, splitlines_printed]
    decide +kernel
  exact hnew hold

private theorem whole_returned :
    pollLoop (countSnapshotMarkers (readText printed)) [printed, whole] =
      .returned whole teaSnapshot := by
  have hparse : parseLatestSnapshot (readText whole) = .ok teaSnapshot :=
    parseLatestSnapshot_some nodeId_whole parsed_whole rfl
  simp [pollLoop, count_printed, count_whole, hparse, teaSnapshot]

/-- A poll after the print is over. -/
theorem refresh_fresh_iff_whole : Fresh printed whole teaSnapshot := by
  have hgrows : (printed :: [printed, whole]).Pairwise (· <+: ·) := by
    have hwhole : printed <+: whole := ⟨_, (logOf_append _ _).symm⟩
    refine .cons ?_ (.cons ?_ (.cons (by simp) .nil))
    · simpa using hwhole
    · simpa using hwhole
  rw [refresh_fresh_iff hgrows whole_returned]
  refine ⟨pairAt 3 tea, ?_, ?_, _, parse_second⟩
  · rw [pairs_whole]
    exact List.mem_cons_of_mem _ List.mem_cons_self
  · rw [markerLines, splitlines_whole, count_printed]
    decide +kernel

end B4n.Webapp.Sample
