import B4n.Blockchain.Sample
import B4n.Webapp.NodeLog
import B4n.Webapp.TextFile
import Mathlib.Data.List.DropRight

/-!
# The number of a node

The number that the log parser reports is what the last `[node ..]` of the log
says.  A node writes it at the start of its lines, but it is looked for
everywhere, also in the texts of transactions that a snapshot prints.  So the
number is right unless such a text says another one behind the last line of the
node itself.

## Main results

* `readText_logText`, `splitlines_logText` — the log is read as it was printed, line
  by line.
* `parsedSnapshots_logText` — every pair of them parses.
* `parseLatestSnapshot_nodeId_iff` — when the reported number is the node's own.
-/

namespace B4n.Webapp

open B4n.Blockchain B4n.Lib

/-- Control characters and the separators of lines and paragraphs are escaped by
`{:?}`. -/
class EscapesControls [PrintTable] : Prop where
  isPlain_control : ∀ c : Char,
    c.toNat < 0x20 ∨ (0x7f ≤ c.toNat ∧ c.toNat < 0xa0) ∨ c.toNat = 0x2028 ∨ c.toNat = 0x2029 →
      PrintTable.isPlain c = false

variable [PrintTable]

/-! ## Lines -/

/-- What is printed contains no line break. -/
theorem not_isLineBreak_of_isPlain [EscapesControls] {c : Char}
    (hc : PrintTable.isPlain c = true) : isLineBreak c = false := by
  apply Bool.eq_false_iff.mpr
  intro hbreak
  have hcontrol : PrintTable.isPlain c = false := by
    apply EscapesControls.isPlain_control
    simp only [isLineBreak, Bool.or_eq_true, Bool.and_eq_true, decide_eq_true_eq,
      beq_iff_eq] at hbreak
    omega
  rw [hcontrol] at hc
  cases hc

theorem plain_displayBool (b : Bool) : Plain (displayBool b) := by
  cases b
  · exact plain_of_ascii rfl
  · exact plain_of_ascii rfl

theorem plain_message (line : OwnLine) : Plain line.message := by
  cases line with
  | addPeerReplace peerId => exact .ascii_append rfl (plain_debugNat _)
  | addPeer peerId => exact .ascii_append rfl (plain_debugNat _)
  | removePeerDup peerId => exact .ascii_append rfl ((plain_debugNat _).append (plain_of_ascii rfl))
  | removePeer peerId peersLeft =>
      exact .ascii_append rfl ((plain_debugNat _).append (.ascii_append rfl (plain_debugNat _)))
  | localTrx inserted hash =>
      exact .ascii_append rfl ((plain_displayBool inserted).append (.ascii_append rfl
        ((plain_debugBytes hash).append (.ascii_append rfl (plain_debugStr _)))))
  | gossip kind peers =>
      have hkind : Plain kind.display := by
        cases kind
        · exact plain_of_ascii rfl
        · exact plain_of_ascii rfl
        · exact plain_of_ascii rfl
      exact .ascii_append rfl (hkind.append (.ascii_append rfl
        ((plain_debugNat _).append (plain_of_ascii rfl))))

variable [Primitives]

theorem plain_of_mem_lines {netId : UInt32} {entry : LogEntry} {line : List Char}
    (hline : line ∈ entry.lines netId) : Plain line := by
  cases entry with
  | own own =>
      rw [List.mem_singleton.mp hline]
      exact .ascii_append rfl ((plain_debugNat _).append (.ascii_append rfl (plain_message own)))
  | snapshot chain pool seen =>
      simp only [LogEntry.lines, List.mem_cons, List.not_mem_nil, or_false] at hline
      rcases hline with rfl | rfl | rfl
      · exact chain.plain_debug
      · exact .ascii_append rfl (plain_displayBool _)
      · exact .ascii_append rfl (pool.plain_debug seen)

theorem not_isLineBreak_of_mem_logLines [EscapesControls] {netId : UInt32}
    {entries : List LogEntry} :
    ∀ line ∈ logLines netId entries, ∀ c ∈ line, isLineBreak c = false := by
  intro line hline c hc
  obtain ⟨entry, -, hentry⟩ := List.mem_flatMap.mp hline
  exact not_isLineBreak_of_isPlain (plain_of_mem_lines hentry c hc)

/-- The log is read from its file as it was printed. -/
theorem readText_logText [EscapesControls] (netId : UInt32) (entries : List LogEntry) :
    readText (utf8 (logText netId entries)) = logText netId entries :=
  readText_lines not_isLineBreak_of_mem_logLines

/-- The lines of the log are the lines that were printed. -/
theorem splitlines_logText [EscapesControls] (netId : UInt32) (entries : List LogEntry) :
    splitlines (logText netId entries) = logLines netId entries :=
  splitlines_flatMap not_isLineBreak_of_mem_logLines

/-! ## Pairs -/

omit [PrintTable] [Primitives] in
/-- The lines of a pair are lines of the log that begin like it. -/
theorem mem_iterSnapshotPairs {idx : Nat} {lines : List (List Char)} {pair : SnapshotPair}
    (hpair : pair ∈ iterSnapshotPairs idx lines) :
    (pair.blockchainLine ∈ lines ∧ startsWith BLOCKCHAIN_PREFIX pair.blockchainLine = true) ∧
      (pair.mempoolLine ∈ lines ∧ startsWith MEMPOOL_PREFIX pair.mempoolLine = true) := by
  induction lines generalizing idx with
  | nil => cases hpair
  | cons line rest ih =>
      have hlater : pair ∈ iterSnapshotPairs (idx + 1) rest →
          (pair.blockchainLine ∈ line :: rest ∧
            startsWith BLOCKCHAIN_PREFIX pair.blockchainLine = true) ∧
          (pair.mempoolLine ∈ line :: rest ∧
            startsWith MEMPOOL_PREFIX pair.mempoolLine = true) := by
        intro hmem
        obtain ⟨⟨hchain, hblockchain⟩, hpool, hmempool⟩ := ih hmem
        exact ⟨⟨List.mem_cons_of_mem line hchain, hblockchain⟩,
          List.mem_cons_of_mem line hpool, hmempool⟩
      unfold iterSnapshotPairs at hpair
      by_cases hline : startsWith BLOCKCHAIN_PREFIX line = true
      · rw [if_neg (by simp [hline])] at hpair
        split at hpair
        · exact hlater hpair
        · next mempoolLine hfind =>
          rcases List.mem_cons.mp hpair with rfl | hpair
          · have hmem := List.mem_of_mem_take (List.mem_of_find?_eq_some hfind)
            exact ⟨⟨List.mem_cons_self, hline⟩, List.mem_cons_of_mem line hmem,
              List.find?_some hfind⟩
          · exact hlater hpair
      · rw [if_pos (by simp [hline])] at hpair
        exact hlater hpair

/-- A line that begins like a chain is one. -/
theorem exists_chain_of_startsWith {netId : UInt32} {entry : LogEntry} {line : List Char}
    (hline : line ∈ entry.lines netId) (hstart : startsWith BLOCKCHAIN_PREFIX line = true) :
    ∃ chain : BlockChain, line = chain.debug := by
  obtain ⟨rest, hrest⟩ := List.isPrefixOf_iff_prefix.mp hstart
  cases entry with
  | own own =>
      rw [List.mem_singleton.mp hline] at hrest
      cases hrest
  | snapshot chain pool seen =>
      simp only [LogEntry.lines, List.mem_cons, List.not_mem_nil, or_false] at hline
      rcases hline with rfl | rfl | rfl
      · exact ⟨chain, rfl⟩
      · cases hrest
      · cases hrest

/-- A line that begins like a pool is one. -/
theorem exists_pool_of_startsWith {netId : UInt32} {entry : LogEntry} {line : List Char}
    (hline : line ∈ entry.lines netId) (hstart : startsWith MEMPOOL_PREFIX line = true) :
    ∃ (pool : MemPool) (seen : List Hash32Type), line = mempoolLine pool seen := by
  obtain ⟨rest, hrest⟩ := List.isPrefixOf_iff_prefix.mp hstart
  cases entry with
  | own own =>
      rw [List.mem_singleton.mp hline] at hrest
      cases hrest
  | snapshot chain pool seen =>
      simp only [LogEntry.lines, List.mem_cons, List.not_mem_nil, or_false] at hline
      rcases hline with rfl | rfl | rfl
      · cases hrest
      · cases hrest
      · exact ⟨pool, seen, rfl⟩

variable [CharacterTable]

omit [Primitives] in
/-- Printed transactions are decoded without an exception. -/
theorem exists_mapM_decodeText {trxs : List (ParsedTransaction (List Char))}
    (htexts : ∀ trx ∈ trxs, ∃ text, trx.text = debugStr text) :
    ∃ decoded, trxs.mapM (decodeText decodeDebugString) = Except.ok decoded := by
  induction trxs with
  | nil => exact ⟨[], rfl⟩
  | cons trx trxs ih =>
      obtain ⟨text, htext⟩ := htexts trx List.mem_cons_self
      obtain ⟨codes, hcodes⟩ := exists_readBack text.toList
      obtain ⟨decoded, hdecoded⟩ := ih fun t ht => htexts t (List.mem_cons_of_mem trx ht)
      have hdecode := decodeDebugString_debugStr hcodes
      rw [List.mapM_cons, hdecoded, decodeText, htext, hdecode]
      exact ⟨_, rfl⟩

omit [Primitives] in
/-- A pair of printed lines is parsed. -/
theorem exists_parsePair {pair : SnapshotPair} {chain : BlockChain} {pool : MemPool}
    {seen : List Hash32Type} (hchain : pair.blockchainLine = chain.debug)
    (hpool : pair.mempoolLine = mempoolLine pool seen) :
    ∃ parsed, parsePair pair = .ok parsed := by
  have hprinted : ∀ trx ∈ printedChain chain, ∃ text, trx.text = debugStr text := by
    intro trx htrx
    obtain ⟨block, -, hblock⟩ := List.mem_flatMap.mp htrx
    obtain ⟨source, -, rfl⟩ := List.mem_map.mp hblock
    exact ⟨source.text, rfl⟩
  have hqueued : ∀ trx ∈ printedQueue pool, ∃ text, trx.text = debugStr text := by
    intro trx htrx
    obtain ⟨source, -, rfl⟩ := List.mem_map.mp htrx
    exact ⟨source.text, rfl⟩
  obtain ⟨confirmed, hconfirmed⟩ := exists_mapM_decodeText hprinted
  obtain ⟨queued, hqueue⟩ := exists_mapM_decodeText hqueued
  unfold parsePair
  rw [hchain, hpool, parseBlockchainTransactions_debug, parseMempoolTransactions_debug,
    hconfirmed, hqueue]
  exact ⟨_, rfl⟩

/-- Every pair of the log is parsed. -/
theorem parsedSnapshots_logText [EscapesControls] (netId : UInt32) (entries : List LogEntry) :
    ∃ parsed, parsedSnapshots (snapshotPairs (logText netId entries)) = .ok parsed := by
  have hpairs : ∀ pair ∈ snapshotPairs (logText netId entries),
      ∃ parsed, parsePair pair = .ok parsed := by
    intro pair hpair
    unfold snapshotPairs at hpair
    rw [splitlines_logText] at hpair
    obtain ⟨⟨hline, hblockchain⟩, hpool, hmempool⟩ := mem_iterSnapshotPairs hpair
    obtain ⟨entry, -, hentry⟩ := List.mem_flatMap.mp hline
    obtain ⟨entry', -, hentry'⟩ := List.mem_flatMap.mp hpool
    obtain ⟨chain, hchain⟩ := exists_chain_of_startsWith hentry hblockchain
    obtain ⟨pool, seen, hmempoolLine⟩ := exists_pool_of_startsWith hentry' hmempool
    exact exists_parsePair hchain hmempoolLine
  generalize snapshotPairs (logText netId entries) = pairs at hpairs
  induction pairs with
  | nil => exact ⟨[], rfl⟩
  | cons pair pairs ih =>
      obtain ⟨one, hone⟩ := hpairs pair List.mem_cons_self
      obtain ⟨parsed, hparsed⟩ := ih fun p hp => hpairs p (List.mem_cons_of_mem pair hp)
      unfold parsedSnapshots
      rw [hone, hparsed]
      exact ⟨_, rfl⟩

/-! ## The last mark -/

/-- What the texts say that are printed behind the last line of the node
itself. -/
def forgedIds (entries : List LogEntry) : List (List Char) :=
  (entries.rtakeWhile LogEntry.isSnapshot).flatMap fun entry => textIds entry.texts

omit [Primitives] in
theorem forgedIds_own (entries : List LogEntry) (line : OwnLine) :
    forgedIds (entries ++ [.own line]) = [] := by
  unfold forgedIds
  rw [List.rtakeWhile_concat_neg _ _ _ (by simp [LogEntry.isSnapshot])]
  rfl

omit [Primitives] in
theorem forgedIds_snapshot (entries : List LogEntry) (chain : BlockChain) (pool : MemPool)
    (seen : List Hash32Type) :
    forgedIds (entries ++ [.snapshot chain pool seen]) =
      forgedIds entries ++ textIds (LogEntry.snapshot chain pool seen).texts := by
  unfold forgedIds
  rw [List.rtakeWhile_concat_pos _ _ _ (by simp [LogEntry.isSnapshot]), List.flatMap_append,
    List.flatMap_singleton]

/-- The last mark of a log is the last one of those texts; if they have none, it
is the one that the last line of the node begins with. -/
theorem getLast?_findNodeIds (netId : UInt32) {entries : List LogEntry}
    (hown : ∃ line, LogEntry.own line ∈ entries) :
    (findNodeIds (logText netId entries)).getLast? =
      (forgedIds entries).getLast?.or (some (debugNat netId.toNat)) := by
  rw [findNodeIds_eq_marks, marks_logText]
  induction entries using List.reverseRecOn with
  | nil =>
      obtain ⟨line, hline⟩ := hown
      cases hline
  | append_singleton entries entry ih =>
      rw [List.flatMap_append, List.flatMap_singleton, List.getLast?_append]
      cases entry with
      | own line =>
          rw [forgedIds_own]
          rfl
      | snapshot chain pool seen =>
          obtain ⟨line, hline⟩ := hown
          have hbefore : LogEntry.own line ∈ entries := by simpa using hline
          rw [forgedIds_snapshot, List.getLast?_append, Option.or_assoc, ih ⟨line, hbefore⟩]
          rfl

omit [PrintTable] [Primitives] in
/-- Where the pairs are parsed, only the last mark matters. -/
theorem parseLatestSnapshot_nodeId {logText : List Char} {parsed : List ParsedPair}
    (hparsed : parsedSnapshots (snapshotPairs logText) = .ok parsed) (nodeId : Option Nat) :
    (∃ snapshot, parseLatestSnapshot logText = .ok snapshot ∧ snapshot.nodeId = nodeId) ↔
      parseNodeId logText = .ok nodeId := by
  constructor
  · rintro ⟨snapshot, hsnapshot, hid⟩
    obtain ⟨⟨found, hnode⟩, -⟩ := exists_of_parseLatestSnapshot hsnapshot
    rw [hnode]
    cases hlast : parsed.getLast? with
    | none =>
        rw [parseLatestSnapshot_none hnode hparsed hlast] at hsnapshot
        cases hsnapshot
        exact congrArg Except.ok hid
    | some latest =>
        rw [parseLatestSnapshot_some hnode hparsed hlast] at hsnapshot
        cases hsnapshot
        exact congrArg Except.ok hid
  · intro hnode
    cases hlast : parsed.getLast? with
    | none => exact ⟨_, parseLatestSnapshot_none hnode hparsed hlast, rfl⟩
    | some latest => exact ⟨_, parseLatestSnapshot_some hnode hparsed hlast, rfl⟩

/-- What the log parser makes of the last mark of a log. -/
theorem parseNodeId_logText (netId : UInt32) {entries : List LogEntry}
    (hown : ∃ line, LogEntry.own line ∈ entries) :
    parseNodeId (logText netId entries) =
      match (forgedIds entries).getLast? with
      | none => .ok (some netId.toNat)
      | some digits =>
          match int digits with
          | some n => .ok (some n)
          | none => .error .valueError := by
  rw [parseNodeId, getLast?_findNodeIds netId hown]
  cases (forgedIds entries).getLast? with
  | some digits => rfl
  | none =>
      have hself : int (debugNat netId.toNat) = some netId.toNat := by
        apply int_toDigits
        calc
          netId.toNat < 2 ^ 32 := netId.toNat_lt
          _ ≤ 10 ^ 10 := by decide
          _ ≤ 10 ^ INT_MAX_STR_DIGITS := Nat.pow_le_pow_right (by decide) (by decide)
      rw [Option.none_or]
      simp [hself]

/-- A snapshot of a log reports what is made of the last mark. -/
theorem parseLatestSnapshot_logText [EscapesControls] (netId : UInt32)
    (entries : List LogEntry) (nodeId : Option Nat) :
    (∃ snapshot, parseLatestSnapshot (logText netId entries) = .ok snapshot ∧
        snapshot.nodeId = nodeId) ↔
      parseNodeId (logText netId entries) = .ok nodeId := by
  obtain ⟨parsed, hparsed⟩ := parsedSnapshots_logText netId entries
  exact parseLatestSnapshot_nodeId hparsed nodeId

/-- The number that is reported for a node is its own if and only if the last
mark in the texts that are printed behind its last line, if there is one, says
the same number. -/
theorem parseLatestSnapshot_nodeId_iff [EscapesControls] (netId : UInt32)
    {entries : List LogEntry} (hown : ∃ line, LogEntry.own line ∈ entries) :
    (∃ snapshot, parseLatestSnapshot (logText netId entries) = .ok snapshot ∧
        snapshot.nodeId = some netId.toNat) ↔
      ∀ digits, (forgedIds entries).getLast? = some digits → int digits = some netId.toNat := by
  rw [parseLatestSnapshot_logText, parseNodeId_logText netId hown]
  cases (forgedIds entries).getLast? with
  | none => simp
  | some digits =>
      cases hdigits : int digits with
      | none => simp [hdigits]
      | some n => simp [hdigits]

end B4n.Webapp

namespace B4n.Webapp.Sample

open B4n.Lib B4n.Blockchain B4n.Blockchain.Sample

scoped instance escapesControls : EscapesControls where
  isPlain_control := by
    intro c hc
    show (decide (0x20 ≤ c.toNat) && decide (c.toNat ≤ 0x7e)) = false
    rw [Bool.and_eq_false_iff, decide_eq_false_iff_not, decide_eq_false_iff_not]
    omega

/-- A peer sends a transaction, and the node is asked to print. -/
private def peerLog (text : String) : List LogEntry :=
  let pool := (MemPool.new.push (trx 1 text)).2
  [.own (.addPeer 2), .own (.gossip .trx 1), .snapshot (BlockChain.new 1) pool pool.seenOrder]

/-- Two logs that differ only in the text that the peer has chosen. -/
private def twinLog (text : String) : List LogEntry :=
  [.own (.addPeer 2), .snapshot (BlockChain.new 1) { MemPool.new with queue := [trx 1 text] } []]

private theorem own_peerLog (text : String) : ∃ line, LogEntry.own line ∈ peerLog text :=
  ⟨.addPeer 2, List.mem_cons_self⟩

private theorem own_twinLog (text : String) : ∃ line, LogEntry.own line ∈ twinLog text :=
  ⟨.addPeer 2, List.mem_cons_self⟩

private theorem twinLog_withoutTexts (text text' : String) :
    (twinLog text).map LogEntry.withoutTexts = (twinLog text').map LogEntry.withoutTexts := rfl

/-- The text of a transaction names another node. -/
theorem nodeId_forged :
    (¬ ∀ (netId : UInt32) (entries : List LogEntry), (∃ line, LogEntry.own line ∈ entries) →
      ∃ snapshot, parseLatestSnapshot (logText netId entries) = .ok snapshot ∧
        snapshot.nodeId = some netId.toNat) ∧
    ¬ ∀ (netId : UInt32) (entries entries' : List LogEntry),
      (∃ line, LogEntry.own line ∈ entries) →
        entries.map LogEntry.withoutTexts = entries'.map LogEntry.withoutTexts →
          ∀ snapshot snapshot', parseLatestSnapshot (logText netId entries) = .ok snapshot →
            parseLatestSnapshot (logText netId entries') = .ok snapshot' →
              snapshot.nodeId = snapshot'.nodeId := by
  have hlast : (forgedIds (peerLog "[node 7]")).getLast? = some ['7'] := by decide +kernel
  have hforged : (forgedIds (twinLog "[node 7]")).getLast? = some ['7'] := by decide +kernel
  have hnone : (forgedIds (twinLog "[node]")).getLast? = none := by decide +kernel
  have hseven : int ['7'] = some 7 := by decide +kernel
  constructor
  · intro h
    have hone := (parseLatestSnapshot_logText 1 _ _).mp (h 1 _ (own_peerLog "[node 7]"))
    rw [parseNodeId_logText 1 (own_peerLog _), hlast] at hone
    simp [hseven] at hone
  · intro h
    have hwith := parseNodeId_logText 1 (own_twinLog "[node 7]")
    have hwithout := parseNodeId_logText 1 (own_twinLog "[node]")
    rw [hforged] at hwith
    rw [hnone] at hwithout
    simp only [hseven] at hwith
    obtain ⟨snapshot, hparse, hid⟩ := (parseLatestSnapshot_logText 1 _ _).mpr hwith
    obtain ⟨snapshot', hparse', hid'⟩ := (parseLatestSnapshot_logText 1 _ _).mpr hwithout
    have hsame := h 1 _ _ (own_twinLog _) (twinLog_withoutTexts _ _) snapshot snapshot' hparse
      hparse'
    rw [hid, hid'] at hsame
    cases hsame

/-- A text may say the number of the node itself. -/
theorem parseLatestSnapshot_nodeId_iff_quoted :
    ∃ snapshot, parseLatestSnapshot (logText 1 (peerLog "hello [node 1]")) = .ok snapshot ∧
      snapshot.nodeId = some 1 := by
  have hlast : (forgedIds (peerLog "hello [node 1]")).getLast? = some ['1'] := by decide +kernel
  have hone : int ['1'] = some 1 := by decide +kernel
  refine (parseLatestSnapshot_nodeId_iff 1 (own_peerLog "hello [node 1]")).mpr ?_
  intro digits hdigits
  rw [hlast] at hdigits
  cases hdigits
  exact hone

end B4n.Webapp.Sample
