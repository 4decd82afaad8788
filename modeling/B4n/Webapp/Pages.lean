import B4n.Webapp.Refresh
import B4n.Webapp.RunLog
import B4n.Webapp.TornLog

/-!
# What the page shows

The page of the web application is made from the log of a node.  A reader sees the
transactions of a state that the node has printed; which one it is, the number of the
`BlockChain` line says.  Other parts of the program may write lines in between, and the
log may be read at any moment.

## Main results

* `parsedSnapshots_woven`, `parsedSnapshots_logLines` — what is parsed of a log.
* `printout_of_parsedFrom` — which state a page shows.
* `run_page_grows` — what a reader has seen confirmed stays on the page.
-/

namespace B4n.Webapp

open B4n.Blockchain B4n.Lib B4n.Lib.Text

/-- In an ordered list, the last one of the first is below the last one of all. -/
theorem rel_getLast?_getD {α : Type} {r : α → α → Prop} (bottom : α) {first all : List α}
    (hordered : all.Pairwise r) (hfirst : first <+: all) (hrefl : ∀ x, r x x)
    (hbottom : ∀ x, r bottom x) :
    r (first.getLast?.getD bottom) (all.getLast?.getD bottom) := by
  obtain ⟨more, rfl⟩ := hfirst
  induction more using List.reverseRecOn with
  | nil =>
      rw [List.append_nil]
      exact hrefl _
  | append_singleton more x _ =>
      rw [← List.append_assoc, List.getLast?_concat]
      cases hlast : first.getLast? with
      | none => exact hbottom x
      | some y =>
          rw [List.pairwise_append] at hordered
          exact hordered.2.2 y (List.mem_of_getLast? hlast) x (by simp)

/-! ## What a reader sees of a state -/

section Shown

variable [PrintTable] [CharacterTable]

/-- The text that a reader sees of a text that was printed. -/
def shownText (text : String) : List Nat :=
  match decodeDebugString (debugStr text) with
  | .ok codes => codes
  | .error _ => []

/-- It is the text as `_decode_debug_string` undoes the printing. -/
theorem readBack_shownText (text : String) : ReadBack text.toList (shownText text) := by
  obtain ⟨codes, hcodes⟩ := exists_readBack text.toList
  unfold shownText
  rw [decodeDebugString_debugStr hcodes]
  exact hcodes

/-- What a reader sees of a transaction. -/
def shownTrx (blockIndex : Option Nat) (trx : Transaction) : ParsedTransaction (List Nat) where
  txId := trx.id.toNat
  fromId := trx.fromId.toNat
  toId := trx.toId.toNat
  text := shownText trx.text
  blockIndex := blockIndex

/-- The transactions of a chain, with the indexes of their blocks. -/
def shownChain (chain : BlockChain) : List (ParsedTransaction (List Nat)) :=
  chain.blocks.flatMap fun block =>
    block.transactions.map (shownTrx (some block.header.index.toNat))

/-- The transactions of a queue that the chain does not show. -/
def shownQueue (chain : BlockChain) (pool : MemPool) : List (ParsedTransaction (List Nat)) :=
  excludeConfirmed (pool.queue.map (shownTrx none)) (shownChain chain)

theorem decodeText_printed (blockIndex : Option Nat) (trx : Transaction) :
    decodeText decodeDebugString (printed blockIndex trx) = .ok (shownTrx blockIndex trx) := by
  unfold decodeText shownTrx printed
  rw [decodeDebugString_debugStr (readBack_shownText trx.text)]
  rfl

theorem mapM_decodeText_printed (blockIndex : Option Nat) (trxs : List Transaction) :
    (trxs.map (printed blockIndex)).mapM (decodeText decodeDebugString) =
      .ok (trxs.map (shownTrx blockIndex)) := by
  induction trxs with
  | nil => rfl
  | cons trx trxs ih =>
      rw [List.map_cons, List.mapM_cons, decodeText_printed, ih]
      rfl

/-- A printed queue is read as it is shown. -/
theorem parseMempoolTransactions_shown (pool : MemPool) (seen : List Hash32Type) :
    parseMempoolTransactions decodeDebugString (mempoolLine pool seen) =
      .ok (pool.queue.map (shownTrx none)) := by
  rw [parseMempoolTransactions_debug]
  exact mapM_decodeText_printed none pool.queue

/-- A printed chain is read as it is shown. -/
theorem parseBlockchainTransactions_shown (chain : BlockChain) :
    parseBlockchainTransactions decodeDebugString chain.debug = .ok (shownChain chain) := by
  rw [parseBlockchainTransactions_debug]
  unfold printedChain shownChain
  induction chain.blocks with
  | nil => rfl
  | cons block blocks ih =>
      rw [List.flatMap_cons, List.flatMap_cons, List.mapM_append, ih, mapM_decodeText_printed]
      rfl

/-- The pair of a snapshot is read as its chain and its queue are shown. -/
theorem parsePair_shown (idx : Nat) (chain : BlockChain) (pool : MemPool)
    (seen : List Hash32Type) :
    parsePair ⟨idx, chain.debug, mempoolLine pool seen⟩ =
      .ok ⟨idx, shownChain chain, shownQueue chain pool⟩ := by
  unfold parsePair
  rw [parseBlockchainTransactions_shown, parseMempoolTransactions_shown]
  rfl

/-- A longer chain shows more. -/
theorem shownChain_mono {chain chain' : BlockChain} (h : chain.blocks <+: chain'.blocks) :
    shownChain chain <+: shownChain chain' := by
  obtain ⟨more, hmore⟩ := h
  unfold shownChain
  rw [← hmore, List.flatMap_append]
  exact List.prefix_append _ _

end Shown

/-! ## The log of a node -/

/-- A line that another part of the program writes between the lines of the node. -/
structure Foreign (line : List Char) : Prop where
  noBreak : ∀ c ∈ line, isLineBreak c = false
  noChain : startsWith BLOCKCHAIN_PREFIX line = false
  noPool : startsWith MEMPOOL_PREFIX line = false

/-- The bytes of a log file with these lines. -/
def logBytes (lines : List (List Char)) : List UInt8 :=
  utf8 (lines.flatMap (· ++ ['\n']))

/-- Lines that begin no pair are passed over. -/
theorem iterSnapshotPairs_append {gap : List (List Char)}
    (hgap : ∀ line ∈ gap, startsWith BLOCKCHAIN_PREFIX line = false) (idx : Nat)
    (rest : List (List Char)) :
    iterSnapshotPairs idx (gap ++ rest) = iterSnapshotPairs (idx + gap.length) rest := by
  induction gap generalizing idx with
  | nil => rfl
  | cons line gap ih =>
      rw [List.cons_append, iterSnapshotPairs, if_pos (by simp [hgap line List.mem_cons_self]),
        ih fun other hother => hgap other (List.mem_cons_of_mem line hother)]
      congr 1
      rw [List.length_cons]
      omega

/-- A line with a property behind lines without it. -/
theorem find?_take_append {p : List Char → Bool} {gap : List (List Char)}
    (hgap : ∀ line ∈ gap, p line = false) {line : List Char} (hline : p line = true) (n : Nat)
    (rest : List (List Char)) :
    ((gap ++ line :: rest).take n).find? p = if gap.length < n then some line else none := by
  induction gap generalizing n with
  | nil =>
      cases n with
      | zero => rfl
      | succ n => simp [hline]
  | cons other gap ih =>
      have hother := hgap other List.mem_cons_self
      have hrest := fun w hw => hgap w (List.mem_cons_of_mem other hw)
      cases n with
      | zero => rfl
      | succ n =>
          rw [List.cons_append, List.take_succ_cons, List.find?_cons_of_neg (by simp [hother]),
            ih hrest]
          simp

section Pages

variable [PrintTable]

/-- The `is_valid=` line of a chain. -/
def validLine [Primitives] (chain : BlockChain) : List Char :=
  "is_valid=".toList ++ displayBool chain.isValid

theorem startsWith_chain (chain : BlockChain) :
    startsWith BLOCKCHAIN_PREFIX chain.debug = true := rfl

theorem startsWith_pool (pool : MemPool) (seen : List Hash32Type) :
    startsWith MEMPOOL_PREFIX (mempoolLine pool seen) = true := rfl

theorem startsWith_pool_chain (pool : MemPool) (seen : List Hash32Type) :
    startsWith BLOCKCHAIN_PREFIX (mempoolLine pool seen) = false := rfl

theorem startsWith_own (word : List Char) (hword : word.head? ≠ some '[') (hne : word ≠ [])
    (netId : UInt32) (line : OwnLine) : startsWith word (line.text netId) = false := by
  cases word with
  | nil => exact absurd rfl hne
  | cons c word =>
      have hc : c ≠ '[' := fun h => hword (congrArg some h)
      show (c == '[' && _) = false
      rw [beq_false_of_ne hc, Bool.false_and]

variable [Primitives]

/-- The pair of a snapshot, if its lines are close enough together, and its marker line. -/
theorem iterSnapshotPairs_snapshot (chain : BlockChain) (pool : MemPool)
    (seen : List Hash32Type) {gap gap' : List (List Char)} (hgap : ∀ line ∈ gap, Foreign line)
    (hgap' : ∀ line ∈ gap', Foreign line) (idx : Nat) (rest : List (List Char)) :
    ∃ idx', iterSnapshotPairs idx (chain.debug :: (gap ++
        validLine chain :: (gap' ++ mempoolLine pool seen :: rest))) =
      (if gap.length + gap'.length < 2 then [⟨idx, chain.debug, mempoolLine pool seen⟩] else []) ++
        iterSnapshotPairs idx' rest ∧
      positions (startsWith BLOCKCHAIN_PREFIX) idx (chain.debug :: (gap ++
        validLine chain :: (gap' ++ mempoolLine pool seen :: rest))) =
      idx :: positions (startsWith BLOCKCHAIN_PREFIX) idx' rest := by
  have hlines : gap ++ validLine chain :: (gap' ++ mempoolLine pool seen :: rest) =
      (gap ++ validLine chain :: gap') ++ mempoolLine pool seen :: rest := by
    simp
  have hbetween : ∀ word : List Char, startsWith word (validLine chain) = false →
      (∀ line, Foreign line → startsWith word line = false) →
        ∀ line ∈ gap ++ validLine chain :: gap', startsWith word line = false := by
    intro word hvalid hforeign line hline
    rcases List.mem_append.mp hline with hfirst | hsecond
    · exact hforeign line (hgap line hfirst)
    · rcases List.mem_cons.mp hsecond with rfl | hlast
      · exact hvalid
      · exact hforeign line (hgap' line hlast)
  have hchain := hbetween BLOCKCHAIN_PREFIX rfl fun line h => h.noChain
  have hpool := hbetween MEMPOOL_PREFIX rfl fun line h => h.noPool
  have hlater : iterSnapshotPairs (idx + 1) ((gap ++ validLine chain :: gap') ++
      mempoolLine pool seen :: rest) =
        iterSnapshotPairs (idx + 1 + (gap ++ validLine chain :: gap').length + 1) rest := by
    rw [iterSnapshotPairs_append hchain, iterSnapshotPairs,
      if_pos (by rw [startsWith_pool_chain]; rfl)]
  refine ⟨idx + 1 + (gap ++ validLine chain :: gap').length + 1, ?_, ?_⟩
  · rw [iterSnapshotPairs, if_neg (by simp [startsWith_chain]), hlines,
      find?_take_append hpool (startsWith_pool pool seen), hlater]
    by_cases hnear : gap.length + gap'.length < 2
    · rw [if_pos hnear, if_pos (by simp; omega)]
      rfl
    · rw [if_neg hnear, if_neg (by simp; omega)]
      rfl
  · rw [positions, if_pos (startsWith_chain chain), hlines, positions_append_of_forall hchain,
      positions, if_neg (by rw [startsWith_pool_chain]; exact Bool.false_ne_true)]

variable [CharacterTable]

/-- The transactions that a reader sees of a printed state. -/
def shownPage (printout : BlockChain × MemPool) :
    List (ParsedTransaction (List Nat)) × List (ParsedTransaction (List Nat)) :=
  (shownChain printout.1, shownQueue printout.1 printout.2)

omit [Primitives] in
/-- What is parsed where the pair of a snapshot comes first. -/
theorem parsedSnapshots_shown_cons (idx : Nat) (chain : BlockChain) (pool : MemPool)
    (seen : List Hash32Type) {pairs : List SnapshotPair} {parsed : List ParsedPair}
    (h : parsedSnapshots pairs = .ok parsed) :
    parsedSnapshots (⟨idx, chain.debug, mempoolLine pool seen⟩ :: pairs) =
      .ok (⟨idx, shownChain chain, shownQueue chain pool⟩ :: parsed) :=
  parsedSnapshots_cons_iff.mpr (.inr ⟨_, parsed, parsePair_shown idx chain pool seen, h, rfl⟩)

/-- Whatever is written between the lines of a node, only states that it has
printed are parsed, in their order, and the marker line of a pair says which one. -/
theorem parsedSnapshots_woven {netId : UInt32} {entries : List LogEntry}
    {lines : List (List Char)} (h : Woven Foreign (logLines netId entries) lines) (idx : Nat) :
    ∃ parsed, parsedSnapshots (iterSnapshotPairs idx lines) = .ok parsed ∧
      (positions (startsWith BLOCKCHAIN_PREFIX) idx lines).length = (printouts entries).length ∧
      (parsed.map fun one => (one.idx, one.page)).Sublist
        ((positions (startsWith BLOCKCHAIN_PREFIX) idx lines).zip
          ((printouts entries).map shownPage)) := by
  induction entries generalizing lines idx with
  | nil =>
      have hothers : ∀ line ∈ lines, startsWith BLOCKCHAIN_PREFIX line = false :=
        fun line hline => (h.others line hline).noChain
      have hnone := iterSnapshotPairs_append hothers idx []
      have hunmarked := positions_append_of_forall hothers idx []
      rw [List.append_nil] at hnone hunmarked
      rw [hnone, hunmarked]
      exact ⟨[], rfl, rfl, .slnil⟩
  | cons entry entries ih =>
      unfold logLines at h
      rw [List.flatMap_cons] at h
      cases entry with
      | own line =>
          obtain ⟨gap, rest, rfl, hgap, hrest⟩ := Woven.split h
          obtain ⟨parsed, hparsed, hpages⟩ := ih hrest (idx + gap.length + 1)
          have hown : startsWith BLOCKCHAIN_PREFIX (line.text netId) = false :=
            startsWith_own BLOCKCHAIN_PREFIX (by decide) (by decide) netId line
          refine ⟨parsed, ?_, ?_⟩
          · rw [iterSnapshotPairs_append (fun w hw => (hgap w hw).noChain), iterSnapshotPairs, hown]
            exact hparsed
          · rw [positions_append_of_forall (fun w hw => (hgap w hw).noChain), positions, hown]
            exact hpages
      | snapshot chain pool seen =>
          obtain ⟨gap, behindChain, rfl, hgap, hvalid⟩ := Woven.split h
          obtain ⟨gap', behindValid, rfl, hgap', hpool⟩ := Woven.split hvalid
          obtain ⟨gap'', rest, rfl, hgap'', hrest⟩ := Woven.split hpool
          obtain ⟨idx', hpairs, hmarkers⟩ :=
            iterSnapshotPairs_snapshot chain pool seen hgap' hgap'' (idx + gap.length) rest
          obtain ⟨parsed, hparsed, hlength, hpages⟩ := ih hrest idx'
          rw [iterSnapshotPairs_append (fun w hw => (hgap w hw).noChain),
            positions_append_of_forall (fun w hw => (hgap w hw).noChain)]
          unfold validLine at hpairs hmarkers
          rw [hpairs, hmarkers]
          have hcount : (printouts (.snapshot chain pool seen :: entries)).length =
              (printouts entries).length + 1 := rfl
          rw [hcount, List.length_cons, hlength]
          by_cases hnear : gap'.length + gap''.length < 2
          · rw [if_pos hnear]
            exact ⟨_, parsedSnapshots_shown_cons _ chain pool seen hparsed, rfl,
              hpages.cons_cons _⟩
          · rw [if_neg hnear]
            exact ⟨parsed, hparsed, rfl, hpages.cons _⟩

/-- If the node alone writes, every state that it has printed is parsed. -/
theorem parsedSnapshots_logLines (netId : UInt32) (entries : List LogEntry) (idx : Nat) :
    ∃ parsed, parsedSnapshots (iterSnapshotPairs idx (logLines netId entries)) = .ok parsed ∧
      parsed.map ParsedPair.page = (printouts entries).map shownPage := by
  induction entries generalizing idx with
  | nil => exact ⟨[], rfl, rfl⟩
  | cons entry entries ih =>
      unfold logLines
      rw [List.flatMap_cons]
      cases entry with
      | own line =>
          obtain ⟨parsed, hparsed, hpages⟩ := ih (idx + 1)
          refine ⟨parsed, ?_, hpages⟩
          show parsedSnapshots (iterSnapshotPairs idx
            (line.text netId :: logLines netId entries)) = .ok parsed
          rw [iterSnapshotPairs, startsWith_own BLOCKCHAIN_PREFIX (by decide) (by decide)]
          exact hparsed
      | snapshot chain pool seen =>
          obtain ⟨idx', hpairs, -⟩ := iterSnapshotPairs_snapshot chain pool seen
            (List.forall_mem_nil _) (List.forall_mem_nil _) idx (logLines netId entries)
          obtain ⟨parsed, hparsed, hpages⟩ := ih idx'
          refine ⟨_ :: parsed, (congrArg parsedSnapshots hpairs).trans
            (parsedSnapshots_shown_cons idx chain pool seen hparsed), ?_⟩
          rw [List.map_cons, hpages]
          rfl

/-! ## Runs -/

variable [EscapesControls]

omit [CharacterTable] in
/-- The lines of a node's log have no line breaks, and neither have the others. -/
theorem noBreak_of_woven {netId : UInt32} {entries : List LogEntry} {lines : List (List Char)}
    (h : Woven Foreign (logLines netId entries) lines) :
    ∀ line ∈ lines, ∀ c ∈ line, isLineBreak c = false := by
  have hown : ∀ line ∈ logLines netId entries, ∀ c ∈ line, isLineBreak c = false :=
    not_isLineBreak_of_mem_logLines
  generalize logLines netId entries = own at h hown
  induction h with
  | nil => simp
  | own line _ ih =>
      rw [List.forall_mem_cons] at hown ⊢
      exact ⟨hown.1, ih hown.2⟩
  | between hforeign _ ih =>
      rw [List.forall_mem_cons]
      exact ⟨hforeign.noBreak, ih hown⟩

omit [CharacterTable] in
/-- The lines of a log file are read as they were written. -/
theorem splitlines_logBytes {netId : UInt32} {entries : List LogEntry}
    {lines : List (List Char)} (h : Woven Foreign (logLines netId entries) lines) :
    splitlines (readText (logBytes lines)) = lines := by
  have hlines := noBreak_of_woven h
  unfold logBytes
  rw [readText_lines hlines, splitlines_flatMap hlines]

section Read

variable {netId : UInt32} {entries : List LogEntry} {lines : List (List Char)}
  {bytes : List UInt8}

/-- What can be read of a log, whenever it is read. -/
theorem parsedSnapshots_read (hlines : Woven Foreign (logLines netId entries) lines)
    (hfile : bytes <+: logBytes lines) :
    ∃ parsed, parsedSnapshots (snapshotPairs (readText bytes)) = .ok parsed ∧
      (markerLines (readText (logBytes lines))).length = (printouts entries).length ∧
      (parsed.map fun one => (one.idx, one.page)).Sublist
        ((markerLines (readText (logBytes lines))).zip ((printouts entries).map shownPage)) := by
  obtain ⟨all, hall, hlength, hpages⟩ := parsedSnapshots_woven hlines 0
  rw [← splitlines_logBytes hlines] at hall hlength hpages
  obtain ⟨parsed, hparsed, hbefore⟩ := parsedSnapshots_grown hfile hall
  exact ⟨parsed, hparsed, hlength, (hbefore.sublist.map _).trans hpages⟩

/-- The pages that can be read are shown states, in their order. -/
theorem pages_read (hlines : Woven Foreign (logLines netId entries) lines)
    (hfile : bytes <+: logBytes lines) :
    ∃ parsed, parsedSnapshots (snapshotPairs (readText bytes)) = .ok parsed ∧
      (parsed.map ParsedPair.page).Sublist ((printouts entries).map shownPage) := by
  obtain ⟨parsed, hparsed, hlength, hpages⟩ := parsedSnapshots_read hlines hfile
  refine ⟨parsed, hparsed, ?_⟩
  have hsecond := hpages.map Prod.snd
  rw [List.map_map, List.map_snd_zip (by rw [List.length_map, hlength])] at hsecond
  exact hsecond

/-- What is read behind the first `n` marker lines was printed behind the first `n`
printed states. -/
theorem printout_of_parsedFrom (hlines : Woven Foreign (logLines netId entries) lines)
    (hfile : bytes <+: logBytes lines) {snapshot : ParsedSnapshot} {idx n : Nat}
    (hfrom : ParsedFrom (readText bytes) snapshot idx)
    (hsince : idx ∈ (markerLines (readText bytes)).drop n) :
    ∃ printout ∈ (printouts entries).drop n, snapshot.confirmed = shownChain printout.1 ∧
      snapshot.pending = shownQueue printout.1 printout.2 := by
  obtain ⟨parsed, latest, hparsed, hlast, rfl, hconfirmed, hpending⟩ := hfrom
  obtain ⟨found, hfound, -, hpages⟩ := parsedSnapshots_read hlines hfile
  rw [hparsed] at hfound
  cases hfound
  have hmarkers : (markerLines (readText (logBytes lines))).Nodup :=
    (pairwise_positions _ _ _).imp Nat.ne_of_lt
  have hpage : (latest.idx, latest.page) ∈
      (markerLines (readText (logBytes lines))).zip ((printouts entries).map shownPage) :=
    hpages.subset (List.mem_map.mpr ⟨latest, List.mem_of_getLast? hlast, rfl⟩)
  have hlater := mem_drop_of_mem_zip hmarkers hpage
    (((prefix_markerLines hfile).drop n).subset hsince)
  rw [← List.map_drop] at hlater
  obtain ⟨printout, hprintout, hshown⟩ := List.mem_map.mp hlater
  obtain ⟨hchain, hqueue⟩ := Prod.mk.inj hshown
  exact ⟨printout, hprintout, hconfirmed.trans hchain.symm, hpending.trans hqueue.symm⟩

/-- What is read behind the marker lines of the first entries was printed later. -/
theorem printout_of_later {later : List LogEntry}
    (hlines : Woven Foreign (logLines netId (entries ++ later)) lines)
    (hfile : bytes <+: logBytes lines) {snapshot : ParsedSnapshot} {idx : Nat}
    (hfrom : ParsedFrom (readText bytes) snapshot idx)
    (hsince : idx ∈ (markerLines (readText bytes)).drop (printouts entries).length) :
    ∃ printout ∈ printouts later, snapshot.confirmed = shownChain printout.1 ∧
      snapshot.pending = shownQueue printout.1 printout.2 := by
  have hprinted := printout_of_parsedFrom hlines hfile hfrom hsince
  rwa [printouts_append, List.drop_left] at hprinted

end Read

end Pages

end B4n.Webapp

namespace B4n.Node

open Lib Blockchain Webapp

variable [PrintTable] [CharacterTable] [EscapesControls] [Primitives]

section Grows

variable {netId : UInt32} {seed : Seed} {chainId : UInt64} {consensus : PoAConsensus}
  {last : Node} {inputs : List (LogEnv × Input)} {entries : List LogEntry}

/-- The page is never made up: at any time it shows a state that the node has printed
along its run, with a valid chain, and what it shows confirmed is still there later. -/
theorem run_page_grows
    (hrun : Run nextLog (Node.new netId seed (BlockChain.new chainId) consensus) inputs last
      entries)
    {lines : List (List Char)} (hlines : Woven Foreign (logLines netId entries) lines)
    {bytes bytes' : List UInt8} (hgrown : bytes <+: bytes') (hfile : bytes' <+: logBytes lines)
    {snapshot snapshot' : ParsedSnapshot}
    (hearly : parseLatestSnapshot (readText bytes) = .ok snapshot)
    (hlate : parseLatestSnapshot (readText bytes') = .ok snapshot') :
    snapshot.confirmed <+: snapshot'.confirmed ∧
      (snapshot' = ⟨snapshot'.nodeId, [], [], 0⟩ ∨ ∃ printout ∈ printouts entries,
        SoundChain printout.1 ∧ snapshot'.confirmed = shownChain printout.1 ∧
          snapshot'.pending = shownQueue printout.1 printout.2) := by
  obtain ⟨parsed, hparsed, -, hpage⟩ := page_of_parseLatestSnapshot hearly
  obtain ⟨parsed', hparsed', hcount', hpage'⟩ := page_of_parseLatestSnapshot hlate
  obtain ⟨first, hfirst, hbefore⟩ := parsedSnapshots_grown hgrown hparsed'
  obtain ⟨all, hall, hpages⟩ := pages_read hlines hfile
  rw [hparsed] at hfirst
  cases hfirst
  rw [hparsed'] at hall
  cases hall
  obtain ⟨hsound, hordered, -⟩ := run_log_chains hrun
  constructor
  · have hshown : ((printouts entries).map shownPage).Pairwise fun page page' =>
        page.1 <+: page'.1 :=
      List.pairwise_map.mpr (hordered.imp fun h => shownChain_mono h)
    have hconfirmed := rel_getLast?_getD ([], []) (hshown.sublist hpages)
      (hbefore.map ParsedPair.page) (fun page => List.prefix_rfl) (fun page => List.nil_prefix)
    rwa [← hpage, ← hpage'] at hconfirmed
  · cases hlast : (parsed'.map ParsedPair.page).getLast? with
    | none =>
        left
        rw [hlast] at hpage'
        obtain ⟨hconfirmed, hpending⟩ := Prod.mk.inj hpage'
        rw [List.getLast?_eq_none_iff, List.map_eq_nil_iff] at hlast
        rw [hlast] at hcount'
        obtain ⟨nodeId, confirmed, pending, snapshotCount⟩ := snapshot'
        cases hconfirmed
        cases hpending
        cases hcount'
        rfl
    | some page =>
        right
        rw [hlast] at hpage'
        obtain ⟨printout, hprintout, rfl⟩ :=
          List.mem_map.mp (hpages.subset (List.mem_of_getLast? hlast))
        obtain ⟨hconfirmed, hpending⟩ := Prod.mk.inj hpage'
        exact ⟨printout, hprintout, hsound printout hprintout, hconfirmed, hpending⟩

end Grows

end B4n.Node
