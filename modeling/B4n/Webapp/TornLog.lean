import B4n.Lib.Cuts
import B4n.Webapp.NodeId

/-!
# Reading the log while it is written

The web application reads the log file of a node that goes on writing it, so
what it reads may end anywhere, also inside a snapshot or a character.  It never
parses a part of a snapshot: what it parses is the beginning of what it will
parse when the file has grown, whatever the file contains.

## Main results

* `extractList_append`, `extractList_snoc` — a list is cut out as a whole or not at all.
* `iterSnapshotPairs_torn` — the pairs of a log that was read too early.
* `parsedSnapshots_grown`, `parseLatestSnapshot_grown` — what is made of it.
-/

namespace B4n.Webapp

open B4n.Blockchain B4n.Lib B4n.Lib.Text

/-! ## Lists that are cut off -/

/-- What the loop of `_find_matching` does with a character: it returns, which only
a closing one makes it do, or it goes on in a state that the rest has no part
in. -/
theorem findMatchingLoop_cons (openChar closeChar : Char) (st : MatchingState) (c : Char) :
    (c = closeChar ∧ ∀ idx rest,
      findMatchingLoop openChar closeChar st idx (c :: rest) = some idx) ∨
    ∃ st', ∀ idx rest, findMatchingLoop openChar closeChar st idx (c :: rest) =
      findMatchingLoop openChar closeChar st' (idx + 1) rest := by
  have hcons := fun idx rest => findMatchingLoop.eq_2 openChar closeChar st idx c rest
  by_cases hstring : st.inString = true
  · by_cases hescape : st.escape = true
    · exact .inr ⟨{ st with escape := false }, fun idx rest => by
        rw [hcons, if_pos hstring, if_pos hescape]⟩
    by_cases hslash : (c == '\\') = true
    · exact .inr ⟨{ st with escape := true }, fun idx rest => by
        rw [hcons, if_pos hstring, if_neg hescape, if_pos hslash]⟩
    by_cases hquote : (c == '"') = true
    · exact .inr ⟨{ st with inString := false }, fun idx rest => by
        rw [hcons, if_pos hstring, if_neg hescape, if_neg hslash, if_pos hquote]⟩
    · exact .inr ⟨st, fun idx rest => by
        rw [hcons, if_pos hstring, if_neg hescape, if_neg hslash, if_neg hquote]⟩
  by_cases hquote : (c == '"') = true
  · exact .inr ⟨{ st with inString := true }, fun idx rest => by
      rw [hcons, if_neg hstring, if_pos hquote]⟩
  by_cases hopen : (c == openChar) = true
  · exact .inr ⟨{ st with depth := st.depth + 1 }, fun idx rest => by
      rw [hcons, if_neg hstring, if_neg hquote, if_pos hopen]⟩
  by_cases hclose : (c == closeChar) = true
  · by_cases hdepth : (st.depth - 1 == 0) = true
    · exact .inl ⟨beq_iff_eq.mp hclose, fun idx rest => by
        rw [hcons, if_neg hstring, if_neg hquote, if_neg hopen, if_pos hclose, if_pos hdepth]⟩
    · exact .inr ⟨{ st with depth := st.depth - 1 }, fun idx rest => by
        rw [hcons, if_neg hstring, if_neg hquote, if_neg hopen, if_pos hclose, if_neg hdepth]⟩
  · exact .inr ⟨st, fun idx rest => by
      rw [hcons, if_neg hstring, if_neg hquote, if_neg hopen, if_neg hclose]⟩

section Matching

variable {openChar closeChar : Char} {st : MatchingState} {idx i : Nat} {v : List Char}

theorem findMatchingLoop_append (h : findMatchingLoop openChar closeChar st idx v = some i)
    (more : List Char) : findMatchingLoop openChar closeChar st idx (v ++ more) = some i := by
  induction v generalizing st idx with
  | nil => cases h
  | cons c v ih =>
      rcases findMatchingLoop_cons openChar closeChar st c with ⟨-, hfound⟩ | ⟨st', hloop⟩
      · rw [hfound] at h
        rw [List.cons_append, hfound, h]
      · rw [hloop] at h
        rw [List.cons_append, hloop, ih h]

/-- A character at the end that closes nothing is not found. -/
theorem findMatchingLoop_snoc {c : Char} (hc : c ≠ closeChar) (st : MatchingState) (idx : Nat)
    (v : List Char) : findMatchingLoop openChar closeChar st idx (v ++ [c]) =
      findMatchingLoop openChar closeChar st idx v := by
  induction v generalizing st idx with
  | nil =>
      rcases findMatchingLoop_cons openChar closeChar st c with ⟨heq, -⟩ | ⟨st', hloop⟩
      · exact absurd heq hc
      · rw [List.nil_append, hloop]
        rfl
  | cons d v ih =>
      rw [List.cons_append]
      rcases findMatchingLoop_cons openChar closeChar st d with ⟨-, hfound⟩ | ⟨st', hloop⟩
      · rw [hfound, hfound]
      · rw [hloop, hloop, ih]

theorem findMatchingLoop_lt (h : findMatchingLoop openChar closeChar st idx v = some i) :
    i < idx + v.length := by
  induction v generalizing st idx with
  | nil => cases h
  | cons c v ih =>
      rw [List.length_cons]
      rcases findMatchingLoop_cons openChar closeChar st c with ⟨-, hfound⟩ | ⟨st', hloop⟩
      · rw [hfound, Option.some.injEq] at h
        omega
      · rw [hloop] at h
        have hlt := ih h
        omega

end Matching

/-- What `_extract_list` has found out when it returns. -/
theorem extractList_eq_ok_iff {text inner : List Char} {marker : String} :
    extractList text marker = .ok inner ↔
      ∃ markerPos offset closePos, find marker.toList text = some markerPos ∧
        find ['['] (text.drop (markerPos + marker.toList.length)) = some offset ∧
        findMatchingLoop '[' ']' ⟨0, false, false⟩ (markerPos + marker.toList.length + offset)
          (text.drop (markerPos + marker.toList.length + offset)) = some closePos ∧
        inner = (text.take closePos).drop (markerPos + marker.toList.length + offset + 1) := by
  unfold extractList findMatching
  cases hmarker : find marker.toList text with
  | none => simp
  | some markerPos =>
      cases hopen : find ['['] (text.drop (markerPos + marker.toList.length)) with
      | none => simp [hopen]
      | some offset =>
          cases hclose : findMatchingLoop '[' ']' ⟨0, false, false⟩
              (markerPos + marker.toList.length + offset)
              (text.drop (markerPos + marker.toList.length + offset)) with
          | none => simp [hopen, hclose]
          | some closePos => simp [hopen, hclose, eq_comm]

/-- The only exception of `_extract_list`. -/
theorem extractList_error {text : List Char} {marker : String} {e : ParseError}
    (h : extractList text marker = .error e) : ∃ message, e = .logParseError message := by
  unfold extractList findMatching at h
  dsimp only at h
  split at h
  · cases h
    exact ⟨_, rfl⟩
  · split at h
    · cases h
      exact ⟨_, rfl⟩
    · split at h
      · rename_i hmatching
        cases h
        split at hmatching
        · cases hmatching
        · cases hmatching
          exact ⟨_, rfl⟩
      · cases h

/-- A list that is complete is cut out in the same way when the text goes on. -/
theorem extractList_append {text inner : List Char} {marker : String}
    (h : extractList text marker = .ok inner) (more : List Char) :
    extractList (text ++ more) marker = .ok inner := by
  obtain ⟨markerPos, offset, closePos, hmarker, hopen, hclose, rfl⟩ := extractList_eq_ok_iff.mp h
  have hmarkerLe := find_add_length_le hmarker
  have hopenLe := find_add_length_le hopen
  rw [List.length_drop] at hopenLe
  have hcloseLt := findMatchingLoop_lt hclose
  rw [List.length_drop] at hcloseLt
  have hdrop : ∀ n ≤ text.length, (text ++ more).drop n = text.drop n ++ more :=
    fun n hn => List.drop_append_of_le_length hn
  apply extractList_eq_ok_iff.mpr
  refine ⟨markerPos, offset, closePos, find_append_of_some hmarker more, ?_, ?_, ?_⟩
  · rw [hdrop _ hmarkerLe]
    exact find_append_of_some hopen more
  · rw [hdrop _ (by simp only [List.length_singleton] at hopenLe; omega)]
    exact findMatchingLoop_append hclose more
  · rw [List.take_append_of_le_length (by omega)]

/-- A character at the end that is no part of the list does not complete it. -/
theorem extractList_snoc {text inner : List Char} {marker : String} {c : Char}
    (hne : marker.toList ≠ []) (hmarker : c ∉ marker.toList) (hopen : c ≠ '[') (hclose : c ≠ ']')
    (h : extractList (text ++ [c]) marker = .ok inner) : extractList text marker = .ok inner := by
  obtain ⟨markerPos, offset, closePos, hfound, hbracket, hmatching, rfl⟩ :=
    extractList_eq_ok_iff.mp h
  rw [find_snoc hne hmarker] at hfound
  have hmarkerLe := find_add_length_le hfound
  rw [List.drop_append_of_le_length hmarkerLe,
    find_snoc (by simp) (by simpa using hopen)] at hbracket
  have hopenLe := find_add_length_le hbracket
  simp only [List.length_drop, List.length_singleton] at hopenLe
  rw [List.drop_append_of_le_length (by omega), findMatchingLoop_snoc hclose] at hmatching
  have hcloseLt := findMatchingLoop_lt hmatching
  rw [List.length_drop] at hcloseLt
  apply extractList_eq_ok_iff.mpr
  refine ⟨markerPos, offset, closePos, hfound, hbracket, hmatching, ?_⟩
  rw [List.take_append_of_le_length (by omega)]

/-! ## Lines that are cut off -/

/-- The lines of a text with a mark at its end, and those of the text when it
goes on. -/
theorem splitlines_torn {text : List Char} (htext : '\r' ∉ text) {c : Char}
    (hc : isLineBreak c = false) (more : List Char) :
    Torn c (splitlines (text ++ [c])) (splitlines (text ++ more)) := by
  induction text with
  | nil =>
      have hcr : c ≠ '\r' := by
        rintro rfl
        exact absurd hc (by decide)
      rw [List.nil_append, splitlines_cons hcr, hc]
      exact .of_mark c _
  | cons d text ih =>
      rw [List.mem_cons, not_or] at htext
      have hrest := ih htext.2
      rw [List.cons_append, List.cons_append, splitlines_cons (Ne.symm htext.1),
        splitlines_cons (Ne.symm htext.1)]
      split
      · exact .cons [] hrest
      · exact hrest.consHead d

/-- What is read of a file, and what is read when it has grown. -/
theorem readText_torn {bytes bytes' : List UInt8} (hgrown : bytes <+: bytes') :
    Torn REPLACEMENT (splitlines (readText bytes)) (splitlines (readText bytes')) := by
  obtain ⟨more, rfl⟩ := hgrown
  obtain ⟨text, rest, hlong, hshort⟩ := decode_append bytes more
  have hcr := not_mem_universalNewlines text
  obtain ⟨tail, htail⟩ := universalNewlines_prefix text rest
  unfold readText
  rw [hlong, ← htail]
  rcases hshort with hsame | hcut
  · rw [hsame]
    exact (splitlines_grown hcr tail).torn REPLACEMENT
  · rw [hcut, universalNewlines_snoc (by decide) (by decide)]
    exact splitlines_torn hcr (by decide) tail

/-- A line that was read too early does not begin with a word that the line lacks. -/
theorem startsWith_of_cutTo {word read line : List Char} (hword : REPLACEMENT ∉ word)
    (hcut : CutTo REPLACEMENT read line) (h : startsWith word read = true) :
    startsWith word line = true := by
  rcases hcut with ⟨more, rfl⟩ | ⟨w, rfl, more, rfl⟩
  · exact startsWith_append h more
  · rw [startsWith_snoc hword] at h
    exact startsWith_append h more

/-- A list that is found in a line that was read too early is the list of the line. -/
theorem extractList_of_cutTo {read line inner : List Char} (hcut : CutTo REPLACEMENT read line)
    (h : extractList read "queue: " = .ok inner) : extractList line "queue: " = .ok inner := by
  rcases hcut with ⟨more, rfl⟩ | ⟨w, rfl, more, rfl⟩
  · exact extractList_append h more
  · have hsnoc := extractList_snoc (by decide) (by decide) (by decide) (by decide) h
    exact extractList_append hsnoc more

/-! ## Pairs that are cut off -/

/-- The pairs of the lines that were read, and those of the lines that are there
later.  The `mempool` line of the last ones may be cut. -/
inductive TornPairs : List SnapshotPair → List SnapshotPair → Prop
  | nil (pairs : List SnapshotPair) : TornPairs [] pairs
  | same (pair : SnapshotPair) {pairs pairs' : List SnapshotPair} :
      TornPairs pairs pairs' → TornPairs (pair :: pairs) (pair :: pairs')
  | cut (idx : Nat) (blockchainLine : List Char) {read line : List Char}
      {pairs pairs' : List SnapshotPair} :
      CutTo REPLACEMENT read line → (∀ pair ∈ pairs, pair.mempoolLine = read) →
        TornPairs pairs pairs' →
          TornPairs (⟨idx, blockchainLine, read⟩ :: pairs) (⟨idx, blockchainLine, line⟩ :: pairs')

/-- Without a `mempool` line there is no pair. -/
theorem iterSnapshotPairs_eq_nil {lines : List (List Char)}
    (h : ∀ line ∈ lines, startsWith MEMPOOL_PREFIX line = false) (idx : Nat) :
    iterSnapshotPairs idx lines = [] := by
  apply List.eq_nil_iff_forall_not_mem.mpr
  intro pair hpair
  obtain ⟨-, hline, hmempool⟩ := mem_iterSnapshotPairs hpair
  rw [h _ hline] at hmempool
  cases hmempool

theorem iterSnapshotPairs_singleton (idx : Nat) (line : List Char) :
    iterSnapshotPairs idx [line] = [] := by
  simp [iterSnapshotPairs]

theorem iterSnapshotPairs_torn {lines lines' : List (List Char)}
    (h : Torn REPLACEMENT lines lines') (idx : Nat) :
    TornPairs (iterSnapshotPairs idx lines) (iterSnapshotPairs idx lines') := by
  induction h generalizing idx with
  | nil lines' => exact .nil _
  | @last read line lines hcut =>
      rw [iterSnapshotPairs_singleton]
      exact .nil _
  | mark =>
      rw [iterSnapshotPairs_singleton]
      exact .nil _
  | @cons line lines lines' htorn ih =>
      rw [iterSnapshotPairs, iterSnapshotPairs]
      by_cases hline : startsWith BLOCKCHAIN_PREFIX line = true
      · rw [if_neg (by simp [hline]), if_neg (by simp [hline])]
        rcases htorn.find_cases (p := startsWith MEMPOOL_PREFIX)
          (fun read line hcut => startsWith_of_cutTo (by decide) hcut) rfl 3 with
          hsame | hnone | ⟨read, late, hcut, hearly, hlate, honly⟩
        · rw [hsame]
          split
          · exact ih (idx + 1)
          · exact .same _ (ih (idx + 1))
        · have hfind : (lines.take 3).find? (startsWith MEMPOOL_PREFIX) = none := by
            rw [List.find?_eq_none]
            intro other hother
            rw [hnone other (List.mem_of_mem_take hother)]
            exact Bool.false_ne_true
          rw [hfind]
          dsimp only
          rw [iterSnapshotPairs_eq_nil hnone]
          exact .nil _
        · rw [hearly, hlate]
          refine .cut idx line hcut ?_ (ih (idx + 1))
          intro pair hpair
          obtain ⟨-, hmem, hmempool⟩ := mem_iterSnapshotPairs hpair
          exact honly _ hmem hmempool
      · rw [if_pos (by simp [hline]), if_pos (by simp [hline])]
        exact ih (idx + 1)

section Parsed

variable [CharacterTable]

/-- The queue of a line that was read too early is the queue of the line, or it is
skipped. -/
theorem parseMempoolTransactions_of_cutTo {τ : Type} (decode : List Char → Except ParseError τ)
    {read line : List Char} (hcut : CutTo REPLACEMENT read line) :
    parseMempoolTransactions decode read = parseMempoolTransactions decode line ∨
      ∃ message, parseMempoolTransactions decode read = .error (.logParseError message) := by
  unfold parseMempoolTransactions
  cases hread : extractList read "queue: " with
  | ok inner =>
      rw [extractList_of_cutTo hcut hread]
      exact .inl rfl
  | error e =>
      obtain ⟨message, rfl⟩ := extractList_error hread
      exact .inr ⟨message, rfl⟩

theorem parsePair_of_cutTo {read line : List Char} (hcut : CutTo REPLACEMENT read line)
    (idx : Nat) (blockchainLine : List Char) :
    parsePair ⟨idx, blockchainLine, read⟩ = parsePair ⟨idx, blockchainLine, line⟩ ∨
      (∃ message, parsePair ⟨idx, blockchainLine, read⟩ = .error (.logParseError message)) ∧
        ∀ pair parsed, pair.mempoolLine = read → parsePair pair ≠ .ok parsed := by
  unfold parsePair
  dsimp only
  rcases parseMempoolTransactions_of_cutTo decodeDebugString hcut with hsame | ⟨message, herror⟩
  · rw [hsame]
    exact .inl rfl
  cases parseBlockchainTransactions decodeDebugString blockchainLine with
  | error e => exact .inl rfl
  | ok confirmed =>
      refine .inr ⟨⟨message, by rw [herror]; rfl⟩, ?_⟩
      intro pair parsed hread
      rw [hread, herror]
      cases parseBlockchainTransactions decodeDebugString pair.blockchainLine with
      | error e => exact fun h => nomatch h
      | ok other => exact fun h => nomatch h

/-- What is parsed of the first pairs is the beginning of what is parsed of the
others. -/
def ParsedBefore (pairs pairs' : List SnapshotPair) : Prop :=
  ∀ parsed', parsedSnapshots pairs' = .ok parsed' →
    ∃ parsed, parsedSnapshots pairs = .ok parsed ∧ parsed <+: parsed'

theorem ParsedBefore.cons {pair pair' : SnapshotPair} {pairs pairs' : List SnapshotPair}
    (hpair : parsePair pair = parsePair pair') (h : ParsedBefore pairs pairs') :
    ParsedBefore (pair :: pairs) (pair' :: pairs') := by
  intro parsed' hparsed
  rcases parsedSnapshots_cons_iff.mp hparsed with ⟨hskip, hrest⟩ | ⟨one, rest, hone, hrest, rfl⟩
  · rw [← hpair] at hskip
    obtain ⟨parsed, hearly, hbefore⟩ := h parsed' hrest
    exact ⟨parsed, parsedSnapshots_cons_iff.mpr (.inl ⟨hskip, hearly⟩), hbefore⟩
  · rw [← hpair] at hone
    obtain ⟨parsed, hearly, hbefore⟩ := h rest hrest
    exact ⟨one :: parsed, parsedSnapshots_cons_iff.mpr (.inr ⟨one, parsed, hone, hearly, rfl⟩),
      (List.prefix_cons_inj one).mpr hbefore⟩

/-- Where the `mempool` line is cut, either its queue is complete or nothing more
is parsed. -/
theorem TornPairs.parsedBefore {pairs pairs' : List SnapshotPair} (h : TornPairs pairs pairs') :
    ParsedBefore pairs pairs' := by
  induction h with
  | nil pairs' => exact fun parsed' _ => ⟨[], rfl, List.nil_prefix⟩
  | same pair _ ih => exact ih.cons rfl
  | @cut idx blockchainLine read line pairs pairs' hcut honly _ ih =>
      rcases parsePair_of_cutTo hcut idx blockchainLine with hsame | ⟨hskip, hnever⟩
      · exact ih.cons hsame
      intro parsed' hparsed
      have hrest : ∃ rest, parsedSnapshots pairs' = .ok rest := by
        rcases parsedSnapshots_cons_iff.mp hparsed with ⟨-, hrest⟩ | ⟨-, rest, -, hrest, -⟩
        · exact ⟨parsed', hrest⟩
        · exact ⟨rest, hrest⟩
      obtain ⟨rest, hrest⟩ := hrest
      obtain ⟨parsed, hearly, -⟩ := ih rest hrest
      have hnil : parsed = [] := by
        apply List.eq_nil_iff_forall_not_mem.mpr
        intro one hone
        obtain ⟨pair, hpair, hparse⟩ := (mem_parsedSnapshots_iff hearly).mp hone
        exact hnever pair one (honly pair hpair) hparse
      rw [hnil] at hearly
      exact ⟨[], parsedSnapshots_cons_iff.mpr (.inl ⟨hskip, hearly⟩), List.nil_prefix⟩

/-- A file that is read while another program appends to it shows the first of the
snapshots that it shows later. -/
theorem parsedSnapshots_grown {bytes bytes' : List UInt8} (hgrown : bytes <+: bytes')
    {parsed' : List ParsedPair}
    (hparsed : parsedSnapshots (snapshotPairs (readText bytes')) = .ok parsed') :
    ∃ parsed, parsedSnapshots (snapshotPairs (readText bytes)) = .ok parsed ∧
      parsed <+: parsed' :=
  (iterSnapshotPairs_torn (readText_torn hgrown) 0).parsedBefore parsed' hparsed

/-! ## Pages -/

/-- The transactions of a snapshot. -/
def ParsedPair.page (parsed : ParsedPair) :
    List (ParsedTransaction (List Nat)) × List (ParsedTransaction (List Nat)) :=
  (parsed.confirmed, parsed.pending)

/-- A page shows the last snapshot that was parsed, and counts all of them. -/
theorem page_of_parseLatestSnapshot {logText : List Char} {snapshot : ParsedSnapshot}
    (h : parseLatestSnapshot logText = .ok snapshot) :
    ∃ parsed, parsedSnapshots (snapshotPairs logText) = .ok parsed ∧
      snapshot.snapshotCount = parsed.length ∧
      (snapshot.confirmed, snapshot.pending) =
        (parsed.map ParsedPair.page).getLast?.getD ([], []) := by
  obtain ⟨⟨nodeId, hnode⟩, parsed, hparsed⟩ := exists_of_parseLatestSnapshot h
  refine ⟨parsed, hparsed, ?_⟩
  rw [List.getLast?_map]
  cases hlast : parsed.getLast? with
  | none =>
      rw [parseLatestSnapshot_none hnode hparsed hlast] at h
      cases h
      rw [List.getLast?_eq_none_iff.mp hlast]
      exact ⟨rfl, rfl⟩
  | some latest =>
      rw [parseLatestSnapshot_some hnode hparsed hlast] at h
      cases h
      exact ⟨rfl, rfl⟩

/-- Only a number with too many digits keeps a page from being made. -/
theorem exists_parseLatestSnapshot {logText : List Char} {nodeId : Option Nat}
    {parsed : List ParsedPair} (hnode : parseNodeId logText = .ok nodeId)
    (hparsed : parsedSnapshots (snapshotPairs logText) = .ok parsed) :
    ∃ snapshot, parseLatestSnapshot logText = .ok snapshot := by
  cases hlast : parsed.getLast? with
  | none => exact ⟨_, parseLatestSnapshot_none hnode hparsed hlast⟩
  | some latest => exact ⟨_, parseLatestSnapshot_some hnode hparsed hlast⟩

/-- A page that was made too early counts fewer snapshots than a later one; if it
counts as many, it is the same page. -/
theorem parseLatestSnapshot_grown {bytes bytes' : List UInt8} (hgrown : bytes <+: bytes')
    {snapshot snapshot' : ParsedSnapshot}
    (hearly : parseLatestSnapshot (readText bytes) = .ok snapshot)
    (hlate : parseLatestSnapshot (readText bytes') = .ok snapshot') :
    snapshot.snapshotCount ≤ snapshot'.snapshotCount ∧
      (snapshot.snapshotCount = snapshot'.snapshotCount →
        snapshot.confirmed = snapshot'.confirmed ∧ snapshot.pending = snapshot'.pending) := by
  obtain ⟨parsed, hparsed, hcount, hpage⟩ := page_of_parseLatestSnapshot hearly
  obtain ⟨parsed', hparsed', hcount', hpage'⟩ := page_of_parseLatestSnapshot hlate
  obtain ⟨first, hfirst, hbefore⟩ := parsedSnapshots_grown hgrown hparsed'
  rw [hparsed] at hfirst
  cases hfirst
  rw [hcount, hcount']
  refine ⟨hbefore.length_le, fun hsame => ?_⟩
  rw [hbefore.eq_of_length hsame, ← hpage'] at hpage
  exact Prod.mk.inj hpage

end Parsed

end B4n.Webapp

namespace B4n.Webapp.Sample

open B4n.Lib B4n.Blockchain B4n.Blockchain.Sample

/-- The log of a node that has printed its state before and after it queued a
transaction. -/
private def twicePrinted : List LogEntry :=
  [.own (.addPeer 2), .snapshot (BlockChain.new 1) MemPool.new [],
    .snapshot (BlockChain.new 1) { MemPool.new with queue := [trx 1 "tea"] } []]

/-- What is read when the last `mempool` line is cut behind its queue. -/
private def tornText : List Char :=
  (logText 1 twicePrinted).take ((logText 1 twicePrinted).length - 12)

private theorem tornText_prefix : utf8 tornText <+: utf8 (logText 1 twicePrinted) := by
  refine ⟨utf8 ((logText 1 twicePrinted).drop ((logText 1 twicePrinted).length - 12)), ?_⟩
  rw [← utf8_append, tornText, List.take_append_drop]

private theorem readText_tornText : readText (utf8 tornText) = tornText := by
  have hreturn : ∀ c ∈ tornText, c ≠ '\r' := fun c hc =>
    return_not_mem_lines not_isLineBreak_of_mem_logLines c (List.mem_of_mem_take hc)
  rw [readText, decode_utf8, universalNewlines_eq_self hreturn]

/-- How many pairs are parsed. -/
private def countParsed (text : List Char) : Option Nat :=
  (parsedSnapshots (snapshotPairs text)).toOption.map List.length

private theorem torn_ok :
    (findNodeIds tornText = [['1']] ∧ findNodeIds (logText 1 twicePrinted) = [['1']] ∧
      int ['1'] = some 1) ∧
    countParsed tornText = some 2 ∧ countParsed (logText 1 twicePrinted) = some 2 := by
  decide +kernel

private theorem count_eq {bytes : List UInt8} {snapshot : ParsedSnapshot} {count : Nat}
    (hparse : parseLatestSnapshot (readText bytes) = .ok snapshot)
    (hcount : countParsed (readText bytes) = some count) : snapshot.snapshotCount = count := by
  obtain ⟨parsed, hparsed, hlength, -⟩ := page_of_parseLatestSnapshot hparse
  rw [countParsed, hparsed] at hcount
  rw [hlength]
  exact Option.some.inj hcount

/-- The first read stops in the last `mempool` line, behind its queue. -/
theorem parseLatestSnapshot_grown_torn :
    ∃ snapshot snapshot' : ParsedSnapshot,
      (snapshot.snapshotCount = 2 ∧ snapshot'.snapshotCount = 2) ∧
      snapshot.snapshotCount ≤ snapshot'.snapshotCount ∧
        (snapshot.snapshotCount = snapshot'.snapshotCount →
          snapshot.confirmed = snapshot'.confirmed ∧ snapshot.pending = snapshot'.pending) := by
  obtain ⟨⟨htorn, hfull, hone⟩, hearlyCount, hlateCount⟩ := torn_ok
  obtain ⟨parsed', hparsed'⟩ := parsedSnapshots_logText 1 twicePrinted
  rw [← readText_logText] at hparsed' hfull hlateCount
  obtain ⟨parsed, hparsed, -⟩ := parsedSnapshots_grown tornText_prefix hparsed'
  rw [← readText_tornText] at htorn hearlyCount
  have hnode : parseNodeId (readText (utf8 tornText)) = .ok (some 1) := by
    rw [parseNodeId, htorn]
    simp [hone]
  have hnode' : parseNodeId (readText (utf8 (logText 1 twicePrinted))) = .ok (some 1) := by
    rw [parseNodeId, hfull]
    simp [hone]
  obtain ⟨snapshot, hearly⟩ := exists_parseLatestSnapshot hnode hparsed
  obtain ⟨snapshot', hlate⟩ := exists_parseLatestSnapshot hnode' hparsed'
  exact ⟨snapshot, snapshot', ⟨count_eq hearly hearlyCount, count_eq hlate hlateCount⟩,
    parseLatestSnapshot_grown tornText_prefix hearly hlate⟩

end B4n.Webapp.Sample
