import B4n.Node.Kept
import B4n.Node.Relay
import B4n.Webapp.Chat
import B4n.Webapp.Pages

/-!
# The answers along a run

A node runs, its log is read at any time, and requests are answered one after the
other.  An answer shows a state that the node has printed, a later answer confirms
what an earlier one has confirmed, and a transaction that the node has once queued is
a message on every page that is made from a later print.

## Main results

* `respond_wellFormed` — what an answer looks like, whatever the log contains.
* `run_answers_grow` — answers are printed states, in their order.
* `run_answer_current` — a request is answered with the state that it makes the node print.
* `run_queued_shown` — no queued message gets lost on its way to the page.
-/

namespace B4n.Webapp

variable [CharacterTable]

/-- Whatever the log files contain, an answer is made of the last pair that parses in one
of those that were read: it lists the confirmed messages of this pair and behind them the
pending ones, counts both, and no message is in both states. -/
theorem respond_wellFormed {logPath : String} {seen : Observed} {request : Request}
    {state : ChatState} (h : respond logPath seen request = .ok state) :
    ∃ logFile ∈ seen.polls ++ [seen.last], ∃ latest,
      LastParsed (snapshotPairs (readText logFile)) latest ∧
        parseNodeId (readText logFile) = .ok state.nodeId ∧
        state.messages = latest.confirmed.map (ParsedTransaction.toMessage · .confirmed) ++
          latest.pending.map (ParsedTransaction.toMessage · .pending) ∧
        state.confirmedTotal = latest.confirmed.length ∧
        state.pendingTotal = latest.pending.length ∧
        ∀ message ∈ state.confirmed, ∀ other ∈ state.pending, ¬ message.SameContent other := by
  obtain ⟨logFile, hmem, snapshot, hparse, hpos, rfl⟩ := getChatState_eq_ok (respond_eq_ok h)
  obtain ⟨parsed, latest, hparsed, hlatest, hconfirmed, hpending⟩ :=
    parseLatestSnapshot_eq_ok hparse hpos
  refine ⟨logFile, hmem, latest, lastParsed_of_getLast? hparsed hlatest,
    (parseLatestSnapshot_nodeId hparsed snapshot.nodeId).mp ⟨snapshot, hparse, rfl⟩, ?_⟩
  rw [serializeSnapshot_confirmed, serializeSnapshot_pending, ← hconfirmed, ← hpending]
  refine ⟨rfl, List.length_map _, List.length_map _, ?_⟩
  intro message hmessage other hother hsame
  obtain ⟨trx, htrx, rfl⟩ := List.mem_map.mp hmessage
  obtain ⟨queued, hqueued, rfl⟩ := List.mem_map.mp hother
  exact parseLatestSnapshot_disjoint hparse hqueued htrx (key_eq_of_sameContent hsame).symm

end B4n.Webapp

namespace B4n.Node

open Lib Blockchain Webapp

variable [PrintTable] [CharacterTable] [EscapesControls] [Primitives]

section Answers

variable {netId : UInt32} {seed : Seed} {chainId : UInt64} {consensus : PoAConsensus}
  {node last : Node} {inputs more : List (LogEnv × Input)} {entries later : List LogEntry}

/-- Along every run, whatever else is written into the log and whenever it is read, an
answer shows a valid chain and a queue that the node has printed, and of two answers the
second confirms what the first has confirmed. -/
theorem run_answers_grow
    (hrun : Run nextLog (Node.new netId seed (BlockChain.new chainId) consensus) inputs last
      entries)
    {lines : List (List Char)} (hlines : Woven Foreign (logLines netId entries) lines)
    {logPath : String} {seen seen' : Observed}
    (hgrows : (seen.logFiles ++ seen'.logFiles ++ [logBytes lines]).Pairwise (· <+: ·))
    {request request' : Request} {state state' : ChatState}
    (hfirst : respond logPath seen request = .ok state)
    (hsecond : respond logPath seen' request' = .ok state') :
    state.confirmed <+: state'.confirmed ∧ ∃ printout ∈ printouts entries,
      SoundChain printout.1 ∧
        state'.confirmed =
          (shownChain printout.1).map (ParsedTransaction.toMessage · .confirmed) ∧
        state'.pending =
          (shownQueue printout.1 printout.2).map (ParsedTransaction.toMessage · .pending) := by
  obtain ⟨logFile, hmem, snapshot, hparse, hpos, rfl⟩ := getChatState_eq_ok (respond_eq_ok hfirst)
  obtain ⟨logFile', hmem', snapshot', hparse', hpos', rfl⟩ :=
    getChatState_eq_ok (respond_eq_ok hsecond)
  rw [List.pairwise_append, List.pairwise_append] at hgrows
  have hin : logFile ∈ seen.logFiles := List.mem_cons_of_mem _ hmem
  have hin' : logFile' ∈ seen'.logFiles := List.mem_cons_of_mem _ hmem'
  have hgrown : logFile <+: logFile' := hgrows.1.2.2 logFile hin logFile' hin'
  have hfile : logFile' <+: logBytes lines :=
    hgrows.2.2 logFile' (List.mem_append_right _ hin') _ (List.mem_singleton_self _)
  obtain ⟨hconfirmed, hprinted⟩ := run_page_grows hrun hlines hgrown hfile hparse hparse'
  rw [serializeSnapshot_confirmed, serializeSnapshot_confirmed, serializeSnapshot_pending]
  refine ⟨hconfirmed.map _, ?_⟩
  rcases hprinted with hnone | ⟨printout, hprintout, hsound, hchain, hqueue⟩
  · rw [hnone] at hpos'
    exact absurd hpos' (Nat.lt_irrefl 0)
  · exact ⟨printout, hprintout, hsound, by rw [hchain], by rw [hqueue]⟩

/-- The message that a transaction becomes, in one of the states. -/
def IsMessageOf (trx : Transaction) (message : ChatMessage) : Prop :=
  message.id = trx.id.toNat ∧ message.fromId = trx.fromId.toNat ∧
    message.toId = trx.toId.toNat ∧ message.text = shownText trx.text

omit [EscapesControls] [Primitives] in
/-- A text in which nothing looks like an escape is shown as it was sent. -/
theorem IsMessageOf.text_eq {trx : Transaction} {message : ChatMessage}
    (h : IsMessageOf trx message) (hescape : ¬ HasEscape trx.text.toList)
    (hoctal : ¬ HasOctal trx.text.toList) : message.text = trx.text.toList.map Char.toNat := by
  rw [h.2.2.2]
  exact (readBack_shownText trx.text).eq_map_iff.mpr ⟨hescape, hoctal⟩

omit [EscapesControls] [Primitives] in
theorem IsMessageOf.sameContent {trx : Transaction} {message other : ChatMessage}
    (h : IsMessageOf trx message) (hother : IsMessageOf trx other) :
    message.SameContent other :=
  ⟨h.1.trans hother.1.symm, h.2.1.trans hother.2.1.symm, h.2.2.1.trans hother.2.2.1.symm,
    h.2.2.2.trans hother.2.2.2.symm⟩

section Shown

variable {chain : BlockChain} {pool : MemPool} {page : ParsedSnapshot}

omit [EscapesControls] [Primitives] in
/-- What is queued or in a block is shown: what is queued, as pending or as the confirmed
message that hides it. -/
theorem exists_message_of_trx (hconfirmed : page.confirmed = shownChain chain)
    (hpending : page.pending = shownQueue chain pool) {trx : Transaction}
    (htrx : trx ∈ pool.queue ∨ ∃ block ∈ chain.blocks, trx ∈ block.transactions) :
    ∃ message ∈ (serializeSnapshot page).messages, IsMessageOf trx message := by
  show ∃ message ∈ page.confirmed.map (ParsedTransaction.toMessage · .confirmed) ++
    page.pending.map (ParsedTransaction.toMessage · .pending), IsMessageOf trx message
  rw [hconfirmed, hpending]
  rcases htrx with hqueued | ⟨block, hblock, htrx⟩
  · have hshown : shownTrx none trx ∈ pool.queue.map (shownTrx none) :=
      List.mem_map_of_mem hqueued
    by_cases hhidden : (shownTrx none trx).key ∈ (shownChain chain).map ParsedTransaction.key
    · obtain ⟨other, hother, hkey⟩ := List.mem_map.mp hhidden
      refine ⟨other.toMessage .confirmed, List.mem_append_left _ (List.mem_map_of_mem hother), ?_⟩
      exact key_inj hkey
    · refine ⟨(shownTrx none trx).toMessage .pending,
        List.mem_append_right _ (List.mem_map_of_mem ?_), rfl, rfl, rfl, rfl⟩
      exact List.mem_filter.mpr ⟨hshown, by simpa using hhidden⟩
  · have hshown : shownTrx (some block.header.index.toNat) trx ∈ shownChain chain :=
      List.mem_flatMap.mpr ⟨block, hblock, List.mem_map_of_mem htrx⟩
    exact ⟨_, List.mem_append_left _ (List.mem_map_of_mem hshown), rfl, rfl, rfl, rfl⟩

omit [EscapesControls] [Primitives] in
/-- Every message of a page is of a transaction in the state that the page shows. -/
theorem exists_trx_of_message (hconfirmed : page.confirmed = shownChain chain)
    (hpending : page.pending = shownQueue chain pool) {message : ChatMessage}
    (hmessage : message ∈ (serializeSnapshot page).messages) :
    ∃ trx, (trx ∈ pool.queue ∨ ∃ block ∈ chain.blocks, trx ∈ block.transactions) ∧
      IsMessageOf trx message := by
  change message ∈ page.confirmed.map (ParsedTransaction.toMessage · .confirmed) ++
    page.pending.map (ParsedTransaction.toMessage · .pending) at hmessage
  rw [hconfirmed, hpending] at hmessage
  rcases List.mem_append.mp hmessage with hchain | hqueue
  · obtain ⟨shown, hshown, rfl⟩ := List.mem_map.mp hchain
    obtain ⟨block, hblock, hfound⟩ := List.mem_flatMap.mp hshown
    obtain ⟨trx, htrx, rfl⟩ := List.mem_map.mp hfound
    exact ⟨trx, .inr ⟨block, hblock, htrx⟩, rfl, rfl, rfl, rfl⟩
  · obtain ⟨shown, hshown, rfl⟩ := List.mem_map.mp hqueue
    obtain ⟨trx, htrx, rfl⟩ := List.mem_map.mp (List.mem_filter.mp hshown).1
    exact ⟨trx, .inl htrx, rfl, rfl, rfl, rfl⟩

end Shown

/-! ## Pages that are made later -/

omit [PrintTable] [CharacterTable] [EscapesControls] in
/-- Every state that is printed after a transaction was queued has it, unless another
transaction of the chain has its hash. -/
theorem printouts_have (hverify : SignaturesVerify consensus.verifier)
    (hsmall : consensus.config.validators.length ≤ 2 ^ 32)
    (hrun : Run nextLog (Node.new netId seed (BlockChain.new chainId) consensus) inputs node
      entries) (hmore : Run nextLog node more last later) {trx : Transaction}
    (hqueued : trx ∈ node.mempool.queue)
    (hfree : ∀ block ∈ last.chain.blocks, ∀ other ∈ block.transactions,
      other.hash = trx.hash → other = trx) :
    ∀ printout ∈ printouts later, trx ∈ printout.2.queue ∨
      ∃ block ∈ printout.1.blocks, trx ∈ block.transactions := by
  obtain ⟨effects, hbefore⟩ := run_of_runLog hrun
  obtain ⟨out, hafter⟩ := run_of_runLog hmore
  apply printouts_of_allStates hmore (P := fun chain pool =>
    trx ∈ pool.queue ∨ ∃ block ∈ chain.blocks, trx ∈ block.transactions)
  intro first rest mid outs heq hmid
  rw [heq] at hafter
  obtain ⟨same, before, after, hsame, hrest⟩ := hafter.split
  obtain ⟨rfl, -⟩ := hsame.unique hmid
  rcases run_kept hverify hsmall hbefore hmid (.inl hqueued) with
    hstill | ⟨block, hblock, found, hfound, hhash⟩
  · exact .inl hstill
  · rw [hfree block ((run_extends hrest).subset hblock) found hfound hhash] at hfound
    exact .inr ⟨block, hblock, hfound⟩

/-- A transaction that the node has queued at some time of a run is a message on every
page that is made from a later print, whatever else is written into the log and whenever
it is read, unless another transaction of the chain has its hash.  Its text is the text
that was sent, up to what the log parser makes of escapes in it. -/
theorem run_queued_shown (hverify : SignaturesVerify consensus.verifier)
    (hsmall : consensus.config.validators.length ≤ 2 ^ 32)
    (hrun : Run nextLog (Node.new netId seed (BlockChain.new chainId) consensus) inputs node
      entries) {trx : Transaction} (hqueued : trx ∈ node.mempool.queue)
    (hmore : Run nextLog node more last later)
    (hfree : ∀ block ∈ last.chain.blocks, ∀ other ∈ block.transactions,
      other.hash = trx.hash → other = trx)
    {lines : List (List Char)} (hlines : Woven Foreign (logLines netId (entries ++ later)) lines)
    {bytes : List UInt8} (hfile : bytes <+: logBytes lines) {snapshot : ParsedSnapshot}
    {idx : Nat} (hfrom : ParsedFrom (readText bytes) snapshot idx)
    (hlater : idx ∈ (markerLines (readText bytes)).drop (printouts entries).length) :
    ∃ message ∈ (serializeSnapshot snapshot).messages, IsMessageOf trx message ∧
      (¬ HasEscape trx.text.toList → ¬ HasOctal trx.text.toList →
        message.text = trx.text.toList.map Char.toNat) := by
  obtain ⟨printout, hprintout, hconfirmed, hpending⟩ :=
    printout_of_later hlines hfile hfrom hlater
  have hhas := printouts_have hverify hsmall hrun hmore hqueued hfree printout hprintout
  obtain ⟨message, hmessage, hcontent⟩ := exists_message_of_trx hconfirmed hpending hhas
  exact ⟨message, hmessage, hcontent, hcontent.text_eq⟩

/-- A read with a complete new pair gives a snapshot, if the node numbers in it convert. -/
theorem exists_snapshot_of_complete {lines : List (List Char)}
    (hlines : Woven Foreign (logLines netId entries) lines) {before bytes : List UInt8}
    (hfile : bytes <+: logBytes lines) (hcomplete : NewPairComplete before bytes)
    (hnode : ∃ nodeId, parseNodeId (readText bytes) = .ok nodeId) :
    ∃ snapshot, parseLatestSnapshot (readText bytes) = .ok snapshot ∧
      0 < snapshot.snapshotCount := by
  obtain ⟨pair, hpair, -, one, hone⟩ := hcomplete
  obtain ⟨nodeId, hnode⟩ := hnode
  obtain ⟨parsed, hparsed, -⟩ := parsedSnapshots_read hlines hfile
  obtain ⟨snapshot, hsnapshot⟩ := exists_parseLatestSnapshot hnode hparsed
  obtain ⟨found, hfound, hcount, -⟩ := page_of_parseLatestSnapshot hsnapshot
  cases hparsed.symm.trans hfound
  refine ⟨snapshot, hsnapshot, ?_⟩
  rw [hcount]
  exact List.length_pos_of_mem ((mem_parsedSnapshots_iff hparsed).mpr ⟨pair, hpair, hone⟩)

/-- A request makes the node print its state.  If the log has all earlier prints of the
node when the request begins, if a new print appears while the log is polled, and if none
is read half written, then the answer is a state that the node has printed in the
meantime.  Its chain has all that was on the chain when the request began. -/
theorem run_answer_current
    (hrun : Run nextLog (Node.new netId seed (BlockChain.new chainId) consensus) inputs node
      entries) (hmore : Run nextLog node more last later)
    {lines : List (List Char)} (hlines : Woven Foreign (logLines netId (entries ++ later)) lines)
    {seen : Observed} (hgrows : (seen.logFiles ++ [logBytes lines]).Pairwise (· <+: ·))
    (hbegun : (printouts entries).length ≤ countSnapshotMarkers (readText seen.before))
    (hprinted : ∃ poll ∈ seen.polls,
      countSnapshotMarkers (readText seen.before) < countSnapshotMarkers (readText poll))
    (hwhole : ∀ poll ∈ seen.polls,
      countSnapshotMarkers (readText seen.before) < countSnapshotMarkers (readText poll) →
        NewPairComplete seen.before poll ∧ ∃ nodeId, parseNodeId (readText poll) = .ok nodeId)
    (logPath : String) {request : Request} (haccepted : request.Accepted seen)
    (hsent : seen.sentPrint = .ok ()) :
    ∃ state, respond logPath seen request = .ok state ∧ ∃ printout ∈ printouts later,
      SoundChain printout.1 ∧ node.chain.blocks <+: printout.1.blocks ∧
        state.confirmed =
          (shownChain printout.1).map (ParsedTransaction.toMessage · .confirmed) ∧
        state.pending =
          (shownQueue printout.1 printout.2).map (ParsedTransaction.toMessage · .pending) := by
  obtain ⟨hfiles, -, hends⟩ := List.pairwise_append.mp hgrows
  have hfile : ∀ poll ∈ seen.polls, poll <+: logBytes lines := fun poll hpoll =>
    hends poll (List.mem_cons_of_mem _ (List.mem_append_left _ hpoll)) _
      (List.mem_singleton_self _)
  have hpolls : (seen.before :: seen.polls).Pairwise (· <+: ·) :=
    hfiles.sublist ((List.sublist_append_left _ _).cons_cons _)
  -- a poll that counts a new marker line finds a snapshot
  have hparse := fun poll hpoll hmore =>
    exists_snapshot_of_complete hlines (hfile poll hpoll) (hwhole poll hpoll hmore).1
      (hwhole poll hpoll hmore).2
  obtain ⟨logFile, hmem, hcount, snapshot, hreturned⟩ := exists_pollLoop_returned hprinted hparse
  obtain ⟨-, hparsed, hpos⟩ := pollLoop_eq_returned hreturned
  have hgrown : seen.before <+: logFile := (List.pairwise_cons.mp hpolls).1 logFile hmem
  obtain ⟨idx, hfrom, hnew⟩ := (hwhole logFile hmem hcount).1.fresh hgrown hparsed hpos
  have hlater : idx ∈ (markerLines (readText logFile)).drop (printouts entries).length :=
    List.drop_subset_drop_left _ hbegun
      (mem_drop_of_not_mem hgrown hfrom.mem_markerLines hnew)
  obtain ⟨printout, hprintout, hconfirmed, hpending⟩ :=
    printout_of_later hlines (hfile logFile hmem) hfrom hlater
  have hsound := (run_log_chains (hrun.append hmore)).sound printout
    (by rw [printouts_append]; exact List.mem_append_right _ hprintout)
  have hextends := printouts_of_allStates hmore
    (P := fun chain _ => node.chain.blocks <+: chain.blocks)
    (fun _ _ _ _ _ hmid => run_extends hmid) printout hprintout
  have hstate : getChatState logPath true seen = .ok (serializeSnapshot snapshot) := by
    unfold getChatState
    rw [hsent, loadSnapshotLocked_of_returned hreturned]
    rfl
  refine ⟨_, respond_of_accepted haccepted hstate, printout, hprintout, hsound, hextends, ?_⟩
  rw [serializeSnapshot_confirmed, serializeSnapshot_pending, hconfirmed, hpending]
  exact ⟨rfl, rfl⟩

end Answers

end B4n.Node

namespace B4n.Webapp.Sample

open B4n.Lib B4n.Blockchain B4n.Blockchain.Sample

/-! ## Log files -/

/-- The line that `NodeIdentity::new` writes. -/
private def pubkeyLine : List Char :=
  "pubkey: ".toList ++ (debugBytes (seed 1) ++ ", node_id: 1".toList)

/-- The log file of a node, when `torn` is written of the next line. -/
def logFile (netId : UInt32) (entries : List LogEntry) (torn : List Char) : List UInt8 :=
  utf8 ((pubkeyLine :: logLines netId entries).flatMap (· ++ ['\n']) ++ torn)

private theorem foreign_pubkeyLine : Foreign pubkeyLine where
  noBreak := by
    have hall : pubkeyLine.all (!isLineBreak ·) = true := by decide +kernel
    intro c hc
    simpa using List.all_eq_true.mp hall c hc
  noChain := rfl
  noPool := rfl

private theorem shows_pubkeyLine : nodeMark.Shows (pubkeyLine ++ ['\n']) [] := by
  have hend : nodeMark.Shows ", node_id: 1".toList [] := shows_nothing (by decide)
  have hline : nodeMark.Shows pubkeyLine [] :=
    (shows_nothing (by decide)).quiet_append ((shows_debugBytes (seed 1)).quiet_append hend)
  exact hline.quiet_append (shows_nothing (by decide))

section LogFile

variable {netId : UInt32} {entries later : List LogEntry} {torn : List Char}

private theorem noBreak_lines (netId : UInt32) (entries : List LogEntry) :
    ∀ line ∈ pubkeyLine :: logLines netId entries, ∀ c ∈ line, isLineBreak c = false :=
  List.forall_mem_cons.mpr ⟨foreign_pubkeyLine.noBreak, not_isLineBreak_of_mem_logLines⟩

private theorem readText_logFile (htorn : Foreign torn) :
    readText (logFile netId entries torn) =
      (pubkeyLine ++ ['\n']) ++ (logText netId entries ++ torn) := by
  have hreturn : ∀ c ∈ (pubkeyLine :: logLines netId entries).flatMap (· ++ ['\n']) ++ torn,
      c ≠ '\r' := by
    intro c hc
    rcases List.mem_append.mp hc with hline | hend
    · exact return_not_mem_lines (noBreak_lines netId entries) c hline
    · rintro rfl
      exact absurd (htorn.noBreak _ hend) (by decide)
  rw [logFile, readText, decode_utf8, universalNewlines_eq_self hreturn, List.flatMap_cons,
    logText, List.append_assoc]

theorem parseNodeId_logFile (htorn : Foreign torn) (hmarks : nodeMark.marks torn = [])
    (hown : entries.any (!LogEntry.isSnapshot ·) = true)
    (hforged : (forgedIds entries).getLast? = none) :
    parseNodeId (readText (logFile netId entries torn)) = .ok (some netId.toNat) := by
  obtain ⟨entry, hentry, hnot⟩ := List.any_eq_true.mp hown
  have hline : ∃ line, LogEntry.own line ∈ entries := by
    cases entry with
    | own line => exact ⟨line, hentry⟩
    | snapshot chain pool seen => cases hnot
  have hnode : parseNodeId (logText netId entries) = .ok (some netId.toNat) := by
    rw [parseNodeId_logText netId hline, hforged]
  rw [← hnode, parseNodeId, parseNodeId, findNodeIds_eq_marks, findNodeIds_eq_marks,
    readText_logFile htorn, shows_pubkeyLine, List.nil_append, shows_logText, hmarks,
    List.append_nil, marks_logText]

/-- The file is the beginning of a log of the node's lines and others. -/
theorem exists_lines_logFile (netId : UInt32) (entries : List LogEntry) (htorn : Foreign torn) :
    ∃ lines, Woven Foreign (logLines netId entries) lines ∧
      logFile netId entries torn <+: logBytes lines := by
  refine ⟨pubkeyLine :: (logLines netId entries ++ [torn]), ?_, ?_⟩
  · have hend : Woven Foreign [] [torn] := .between htorn .nil
    have hlines := (Woven.refl Foreign (logLines netId entries)).append hend
    rw [List.append_nil] at hlines
    exact .between foreign_pubkeyLine hlines
  · refine ⟨utf8 ['\n'], ?_⟩
    rw [logFile, logBytes, ← utf8_append]
    simp

private theorem parsed_logFile (netId : UInt32) (entries : List LogEntry) :
    ∃ parsed, parsedSnapshots (snapshotPairs (readText (logFile netId entries []))) = .ok parsed ∧
      parsed.map ParsedPair.page = (printouts entries).map shownPage := by
  have hgap : ∀ line ∈ [pubkeyLine], startsWith BLOCKCHAIN_PREFIX line = false := by
    intro line hline
    rw [List.mem_singleton.mp hline]
    exact foreign_pubkeyLine.noChain
  have hlines : splitlines (readText (logFile netId entries [])) =
      [pubkeyLine] ++ logLines netId entries := by
    have hbreak := noBreak_lines netId entries
    rw [logFile, List.append_nil, readText_lines hbreak, splitlines_flatMap hbreak]
    rfl
  rw [snapshotPairs, hlines, iterSnapshotPairs_append hgap]
  exact parsedSnapshots_logLines netId entries _

/-- All prints are parsed, also when the next line is not complete. -/
theorem pages_logFile (netId : UInt32) (entries : List LogEntry) (htorn : Foreign torn) :
    ∃ parsed, parsedSnapshots (snapshotPairs (readText (logFile netId entries torn))) =
        .ok parsed ∧
      parsed.map ParsedPair.page = (printouts entries).map shownPage ∧
      parsed.map ParsedPair.idx = markerLines (readText (logFile netId entries torn)) := by
  obtain ⟨lines, hlines, hfile⟩ := exists_lines_logFile netId entries htorn
  obtain ⟨parsed, hparsed, hpages⟩ := pages_read hlines hfile
  obtain ⟨before, hbefore, hall⟩ := parsed_logFile netId entries
  have hgrown : logFile netId entries [] <+: logFile netId entries torn := by
    refine ⟨utf8 torn, ?_⟩
    rw [logFile, logFile, List.append_nil, utf8_append]
  obtain ⟨same, hsame, hbegins⟩ := parsedSnapshots_grown hgrown hparsed
  rw [hbefore] at hsame
  cases hsame
  have hpage := (hbegins.map ParsedPair.page).length_le
  rw [hall] at hpage
  have hshown := hpages.eq_of_length_le hpage
  obtain ⟨-, -, hmarkers, -⟩ := parsedSnapshots_read hlines hfile
  have hcount := (prefix_markerLines hfile).length_le
  refine ⟨parsed, hparsed, hshown, (map_idx_parsedSnapshots hparsed).eq_of_length_le ?_⟩
  have hlength := congrArg List.length hshown
  rw [List.length_map, List.length_map] at hlength
  rw [List.length_map, hlength, ← hmarkers]
  exact hcount

theorem count_logFile (netId : UInt32) (entries : List LogEntry) (htorn : Foreign torn) :
    countSnapshotMarkers (readText (logFile netId entries torn)) = (printouts entries).length := by
  obtain ⟨parsed, -, hpages, hmarkers⟩ := pages_logFile netId entries htorn
  have hlength := congrArg List.length hpages
  rw [List.length_map, List.length_map] at hlength
  rw [← length_markerLines, ← hmarkers, List.length_map, hlength]

/-- The page shows the last print. -/
theorem exists_page (netId : UInt32) (htorn : Foreign torn) (hmarks : nodeMark.marks torn = [])
    (hown : entries.any (!LogEntry.isSnapshot ·) = true)
    (hforged : (forgedIds entries).getLast? = none) {chain : BlockChain} {pool : MemPool}
    (hlast : (printouts entries).getLast? = some (chain, pool)) :
    ∃ snapshot idx, parseLatestSnapshot (readText (logFile netId entries torn)) = .ok snapshot ∧
      0 < snapshot.snapshotCount ∧ snapshot.confirmed = shownChain chain ∧
      snapshot.pending = shownQueue chain pool ∧
      ParsedFrom (readText (logFile netId entries torn)) snapshot idx ∧
      ∀ n < (printouts entries).length,
        idx ∈ (markerLines (readText (logFile netId entries torn))).drop n := by
  obtain ⟨parsed, hparsed, hpages, hmarkers⟩ := pages_logFile netId entries htorn
  have hlength := congrArg List.length hpages
  rw [List.length_map, List.length_map] at hlength
  have hpage := congrArg List.getLast? hpages
  rw [List.getLast?_map, List.getLast?_map, hlast] at hpage
  obtain ⟨latest, hlatest, hshown⟩ := Option.map_eq_some_iff.mp hpage
  obtain ⟨hconfirmed, hpending⟩ := Prod.mk.inj hshown
  refine ⟨_, latest.idx, parseLatestSnapshot_some (parseNodeId_logFile htorn hmarks hown hforged)
    hparsed hlatest, List.length_pos_of_mem (List.mem_of_getLast? hlatest), hconfirmed, hpending,
    ⟨parsed, latest, hparsed, hlatest, rfl, rfl, rfl⟩, ?_⟩
  intro n hn
  rw [← hmarkers, ← List.map_drop]
  refine List.mem_map_of_mem (List.mem_of_getLast? ?_)
  rw [List.getLast?_drop, if_neg (by omega)]
  exact hlatest

/-- A refresh that finds the same log file again and again. -/
private def still (bytes : List UInt8) : Observed where
  sentTrx := .ok ()
  before := bytes
  sentPrint := .ok ()
  polls := []
  last := bytes

/-- A print that is complete. -/
theorem newPairComplete_logFile {torn' : List Char} (htorn : Foreign torn) (htorn' : Foreign torn')
    (hmore : (printouts entries).length < (printouts (entries ++ later)).length) :
    NewPairComplete (logFile netId entries torn) (logFile netId (entries ++ later) torn') := by
  obtain ⟨parsed, hparsed, hpages, hmarkers⟩ := pages_logFile netId (entries ++ later) htorn'
  have hlength := congrArg List.length hpages
  rw [List.length_map, List.length_map] at hlength
  obtain ⟨one, hone⟩ := List.exists_mem_of_length_pos (l := parsed.drop (printouts entries).length)
    (by rw [List.length_drop]; omega)
  obtain ⟨pair, hpair, hok⟩ := (mem_parsedSnapshots_iff hparsed).mp (List.mem_of_mem_drop hone)
  refine ⟨pair, hpair, ?_, one, hok⟩
  rw [count_logFile netId entries htorn, ← parsePair_idx hok, ← hmarkers, ← List.map_drop]
  exact List.mem_map_of_mem hone

/-- A page is answered as it is loaded. -/
private theorem respond_still {bytes : List UInt8} {snapshot : ParsedSnapshot}
    (hparse : parseLatestSnapshot (readText bytes) = .ok snapshot)
    (hpos : 0 < snapshot.snapshotCount) :
    respond "node.log" (still bytes) .messages = .ok (serializeSnapshot snapshot) := by
  have hload : loadLatest "node.log" bytes = .ok snapshot := by
    unfold loadLatest
    rw [hparse]
    exact if_neg (Nat.pos_iff_ne_zero.mp hpos)
  have haccepted : Request.messages.Accepted (still bytes) := ⟨rfl, fun _ h => nomatch h⟩
  apply respond_of_accepted haccepted
  unfold getChatState loadSnapshotLocked still
  simp only [pollLoop, hload]
  rfl

end LogFile

/-! ## A node that is asked -/

private def freshNode : Node := node 1 1 (config [1] 8) config_one_ok

/-- A node queues a transaction and prints its state. -/
private def posted : List (LogEnv × Input) :=
  [(logEnv 10, .message (.localTrx (trx 1 "coffee")))] ++ [(logEnv 20, .message .debugPrint)]

/-- It puts the transaction into a block and prints its state. -/
private def mined : List (LogEnv × Input) :=
  [(logEnv 3100, .tick), (logEnv 3200, .tick)] ++ [(logEnv 3250, .message .debugPrint)]

/-- It queues another one and prints its state. -/
private def asked : List (LogEnv × Input) :=
  [(logEnv 3300, .message (.localTrx (trx 2 "tea")))] ++ [(logEnv 3400, .message .debugPrint)]

private def holder : Node := (finish Node.nextLog freshNode posted).1

private def postedLog : List LogEntry := (finish Node.nextLog freshNode posted).2

private def miner : Node := (finish Node.nextLog holder mined).1

private def minedLog : List LogEntry := (finish Node.nextLog holder mined).2

private def asker : Node := (finish Node.nextLog miner asked).1

private def askedLog : List LogEntry := (finish Node.nextLog miner asked).2

/-- The messages of a page that shows a node. -/
def shownMessages (node : Node) : List (List Nat × MessageStatus) :=
  (shownChain node.chain).map (fun trx => (trx.text, .confirmed)) ++
    (shownQueue node.chain node.mempool).map fun trx => (trx.text, .pending)

/-- The codes of the characters of a text. -/
def codes (text : String) : List Nat := text.toList.map Char.toNat

private theorem asked_ok :
    ((exec Node.nextLog freshNode posted).isSome = true ∧
      (exec Node.nextLog holder mined).isSome = true ∧
      (exec Node.nextLog miner asked).isSome = true) ∧
    (shownMessages miner = [(codes "coffee", .confirmed)] ∧
      shownMessages asker = [(codes "coffee", .confirmed), (codes "tea", .pending)]) ∧
    trx 1 "coffee" ∈ holder.mempool.queue ∧
    (asker.chain.blocks.all fun b => b.transactions.all (· == trx 1 "coffee")) = true ∧
    ((postedLog ++ minedLog).any (!LogEntry.isSnapshot ·) = true ∧
      (forgedIds (postedLog ++ minedLog)).getLast? = none) ∧
    (postedLog ++ minedLog ++ askedLog).any (!LogEntry.isSnapshot ·) = true ∧
    (forgedIds (postedLog ++ minedLog ++ askedLog)).getLast? = none ∧
    (logBytes (logLines 1 askedLog)).take 4 = utf8 "[nod".toList := by
  decide +kernel

private theorem run_posted : Run Node.nextLog freshNode posted holder postedLog :=
  run_finish asked_ok.1.1

private theorem run_mined : Run Node.nextLog holder mined miner minedLog :=
  run_finish asked_ok.1.2.1

private theorem run_asked : Run Node.nextLog miner asked asker askedLog :=
  run_finish asked_ok.1.2.2

theorem foreign_nil : Foreign [] := ⟨by simp, rfl, rfl⟩

private theorem foreign_torn : Foreign "[nod".toList where
  noBreak := by
    have hall : ("[nod".toList).all (!isLineBreak ·) = true := by decide +kernel
    intro c hc
    simpa using List.all_eq_true.mp hall c hc
  noChain := rfl
  noPool := rfl

theorem messages_eq {snapshot : ParsedSnapshot} {node : Node}
    (hconfirmed : snapshot.confirmed = shownChain node.chain)
    (hpending : snapshot.pending = shownQueue node.chain node.mempool) :
    (serializeSnapshot snapshot).messages.map (fun message => (message.text, message.status)) =
      shownMessages node := by
  unfold serializeSnapshot shownMessages
  rw [hconfirmed, hpending, List.map_append, List.map_map, List.map_map]
  rfl

/-- The file that is read while the last lines are written. -/
private def minedFile : List UInt8 := logFile 1 (postedLog ++ minedLog) "[nod".toList

private def askedFile : List UInt8 := logFile 1 (postedLog ++ minedLog ++ askedLog) []

private theorem printed_miner : (printouts (postedLog ++ minedLog)).getLast? =
    some (miner.chain, miner.mempool) := by
  have hrun := run_posted.append run_mined
  unfold mined at hrun
  rw [← List.append_assoc] at hrun
  exact Node.getLast?_printouts hrun

private theorem printed_asker : (printouts (postedLog ++ minedLog ++ askedLog)).getLast? =
    some (asker.chain, asker.mempool) := by
  have hrun := (run_posted.append run_mined).append run_asked
  unfold asked at hrun
  rw [← List.append_assoc] at hrun
  exact Node.getLast?_printouts hrun

private theorem respond_miner : ∃ state,
    respond "node.log" (still minedFile) .messages = .ok state ∧
    state.messages.map (fun message => (message.text, message.status)) =
      [(codes "coffee", .confirmed)] := by
  obtain ⟨-, ⟨hshown, -⟩, -, -, ⟨hown, hforged⟩, -⟩ := asked_ok
  obtain ⟨snapshot, -, hparse, hpos, hconfirmed, hpending, -⟩ :=
    exists_page 1 foreign_torn rfl hown hforged printed_miner
  exact ⟨_, respond_still hparse hpos,
    (messages_eq hconfirmed hpending).trans hshown⟩

private theorem respond_asker : ∃ state,
    respond "node.log" (still askedFile) .messages = .ok state ∧
    state.messages.map (fun message => (message.text, message.status)) =
      [(codes "coffee", .confirmed), (codes "tea", .pending)] := by
  obtain ⟨-, ⟨-, hshown⟩, -, -, -, hown, hforged, -⟩ := asked_ok
  obtain ⟨snapshot, -, hparse, hpos, hconfirmed, hpending, -⟩ :=
    exists_page 1 foreign_nil rfl hown hforged printed_asker
  exact ⟨_, respond_still hparse hpos,
    (messages_eq hconfirmed hpending).trans hshown⟩

/-- An answer with a message of either state. -/
theorem respond_wellFormed_asked : ∃ state,
    respond "node.log" (still askedFile) .messages = .ok state ∧
      state.messages.map (fun message => (message.text, message.status)) =
        [(codes "coffee", .confirmed), (codes "tea", .pending)] ∧
      ∃ file ∈ (still askedFile).polls ++ [(still askedFile).last], ∃ latest,
        LastParsed (snapshotPairs (readText file)) latest ∧
          parseNodeId (readText file) = .ok state.nodeId ∧
          state.messages = latest.confirmed.map (ParsedTransaction.toMessage · .confirmed) ++
            latest.pending.map (ParsedTransaction.toMessage · .pending) ∧
          state.confirmedTotal = latest.confirmed.length ∧
          state.pendingTotal = latest.pending.length ∧
          ∀ message ∈ state.confirmed, ∀ other ∈ state.pending,
            ¬ message.SameContent other := by
  obtain ⟨state, hstate, hmessages⟩ := respond_asker
  exact ⟨state, hstate, hmessages, respond_wellFormed hstate⟩

private theorem minedFile_grows : minedFile <+: askedFile := by
  have htorn := List.take_append_drop 4 (logBytes (logLines 1 askedLog))
  rw [asked_ok.2.2.2.2.2.2.2] at htorn
  refine ⟨(logBytes (logLines 1 askedLog)).drop 4, ?_⟩
  unfold minedFile askedFile logFile
  have hlines : logLines 1 (postedLog ++ minedLog ++ askedLog) =
      logLines 1 (postedLog ++ minedLog) ++ logLines 1 askedLog := List.flatMap_append
  rw [utf8_append, List.append_assoc, htorn, logBytes, ← utf8_append, List.append_nil, hlines,
    ← List.cons_append, List.flatMap_append]

private theorem askedFile_lines :
    Woven Foreign (logLines 1 (postedLog ++ minedLog ++ askedLog))
      (pubkeyLine :: logLines 1 (postedLog ++ minedLog ++ askedLog)) ∧
    askedFile = logBytes (pubkeyLine :: logLines 1 (postedLog ++ minedLog ++ askedLog)) := by
  refine ⟨.between foreign_pubkeyLine (Woven.refl _ _), ?_⟩
  rw [askedFile, logFile, List.append_nil, logBytes]

/-- The first request reads the file while a line is written. -/
theorem run_answers_grow_torn : ∃ state state',
    (respond "node.log" (still minedFile) .messages = .ok state ∧
      state.messages.map (fun message => (message.text, message.status)) =
        [(codes "coffee", .confirmed)]) ∧
    (respond "node.log" (still askedFile) .messages = .ok state' ∧
      state'.messages.map (fun message => (message.text, message.status)) =
        [(codes "coffee", .confirmed), (codes "tea", .pending)]) ∧
    state.confirmed <+: state'.confirmed ∧
      ∃ printout ∈ printouts (postedLog ++ minedLog ++ askedLog),
        SoundChain printout.1 ∧
          state'.confirmed =
            (shownChain printout.1).map (ParsedTransaction.toMessage · .confirmed) ∧
          state'.pending =
            (shownQueue printout.1 printout.2).map (ParsedTransaction.toMessage · .pending) := by
  obtain ⟨state, hfirst⟩ := respond_miner
  obtain ⟨state', hsecond⟩ := respond_asker
  obtain ⟨hlines, hbytes⟩ := askedFile_lines
  have hgrows : ((still minedFile).logFiles ++ (still askedFile).logFiles ++
      [logBytes (pubkeyLine :: logLines 1 (postedLog ++ minedLog ++ askedLog))]).Pairwise
        (· <+: ·) := by
    rw [← hbytes]
    show [minedFile, minedFile, askedFile, askedFile, askedFile].Pairwise (· <+: ·)
    simp [minedFile_grows]
  exact ⟨state, state', hfirst, hsecond,
    Node.run_answers_grow ((run_posted.append run_mined).append run_asked) hlines hgrows hfirst.1
      hsecond.1⟩

private theorem length_postedLog : (printouts postedLog).length = 1 :=
  Node.length_printouts run_posted

private theorem length_minedLog : (printouts (postedLog ++ minedLog)).length = 2 :=
  Node.length_printouts (run_posted.append run_mined)

private theorem length_askedLog : (printouts (postedLog ++ minedLog ++ askedLog)).length = 3 :=
  Node.length_printouts ((run_posted.append run_mined).append run_asked)

/-- The transaction is mined before the second print, and the file is read while a line
is written. -/
theorem run_queued_shown_mined : ∃ snapshot : ParsedSnapshot,
    (serializeSnapshot snapshot).messages.map (fun message => (message.text, message.status)) =
        [(codes "coffee", .confirmed)] ∧
      ∃ message ∈ (serializeSnapshot snapshot).messages,
        Node.IsMessageOf (trx 1 "coffee") message ∧
          (¬ HasEscape "coffee".toList → ¬ HasOctal "coffee".toList →
            message.text = "coffee".toList.map Char.toNat) := by
  obtain ⟨-, ⟨hshown, -⟩, hqueued, honly, ⟨hown, hforged⟩, -⟩ := asked_ok
  obtain ⟨snapshot, idx, -, -, hconfirmed, hpending, hfrom, hlater⟩ :=
    exists_page 1 foreign_torn rfl hown hforged printed_miner
  obtain ⟨hlines, hbytes⟩ := askedFile_lines
  have hfile := minedFile_grows
  rw [hbytes] at hfile
  rw [List.append_assoc] at hlines hfile
  have hfree : ∀ block ∈ asker.chain.blocks, ∀ other ∈ block.transactions,
      other.hash = (trx 1 "coffee").hash → other = trx 1 "coffee" := by
    intro block hblock other hother _
    exact beq_iff_eq.mp (List.all_eq_true.mp (List.all_eq_true.mp honly block hblock) other hother)
  have hsecond := hlater (printouts postedLog).length
    (by rw [length_postedLog, length_minedLog]; decide)
  exact ⟨snapshot, (messages_eq hconfirmed hpending).trans hshown,
    Node.run_queued_shown signaturesVerify (by decide) run_posted hqueued
      (run_mined.append run_asked) hfree hlines hfile hfrom hsecond⟩

/-- The log file before the request. -/
private def beforeFile : List UInt8 := logFile 1 (postedLog ++ minedLog) []

private theorem beforeFile_grows : beforeFile <+: minedFile := by
  refine ⟨utf8 "[nod".toList, ?_⟩
  rw [beforeFile, minedFile, logFile, logFile, List.append_nil, utf8_append]

/-- What a request meets that comes before the last print. -/
private def askedSeen : Observed where
  sentTrx := .ok ()
  before := beforeFile
  sentPrint := .ok ()
  polls := [beforeFile, minedFile, askedFile]
  last := askedFile

private theorem askedSeen_grows : (askedSeen.logFiles ++
    [logBytes (pubkeyLine :: logLines 1 (postedLog ++ minedLog ++ askedLog))]).Pairwise
      (· <+: ·) := by
  rw [← askedFile_lines.2]
  show [beforeFile, beforeFile, minedFile, askedFile, askedFile, askedFile].Pairwise (· <+: ·)
  simp [minedFile_grows, beforeFile_grows, beforeFile_grows.trans minedFile_grows]

/-- The sender of the second transaction gets a page that the node has printed for him. -/
theorem run_answer_current_asked : ∃ state,
    respond "node.log" askedSeen (.sendMessage "tea".toList) = .ok state ∧
      ∃ printout ∈ printouts askedLog,
        SoundChain printout.1 ∧ miner.chain.blocks <+: printout.1.blocks ∧
          state.confirmed =
            (shownChain printout.1).map (ParsedTransaction.toMessage · .confirmed) ∧
          state.pending =
            (shownQueue printout.1 printout.2).map (ParsedTransaction.toMessage · .pending) := by
  obtain ⟨-, -, -, -, -, hown, hforged, -⟩ := asked_ok
  have hbefore : countSnapshotMarkers (readText beforeFile) = 2 :=
    (count_logFile 1 _ foreign_nil).trans length_minedLog
  have htorn : countSnapshotMarkers (readText minedFile) = 2 :=
    (count_logFile 1 _ foreign_torn).trans length_minedLog
  have hasked : countSnapshotMarkers (readText askedFile) = 3 :=
    (count_logFile 1 _ foreign_nil).trans length_askedLog
  have haccepted : (Request.sendMessage "tea".toList).Accepted askedSeen := by
    refine ⟨rfl, fun text htext => ?_⟩
    cases htext
    exact ⟨⟨_, rfl⟩, rfl⟩
  refine Node.run_answer_current (run_posted.append run_mined) run_asked askedFile_lines.1
    askedSeen_grows ?_ ?_ ?_ "node.log" haccepted rfl
  · show _ ≤ countSnapshotMarkers (readText beforeFile)
    rw [hbefore, length_minedLog]
  · refine ⟨askedFile, by simp [askedSeen], ?_⟩
    show countSnapshotMarkers (readText beforeFile) < _
    rw [hbefore, hasked]
    decide
  · intro poll hpoll hmore
    change countSnapshotMarkers (readText beforeFile) < _ at hmore
    rw [hbefore] at hmore
    have hcases : poll = beforeFile ∨ poll = minedFile ∨ poll = askedFile := by
      simpa [askedSeen] using hpoll
    rcases hcases with rfl | rfl | rfl
    · rw [hbefore] at hmore
      exact absurd hmore (by decide)
    · rw [htorn] at hmore
      exact absurd hmore (by decide)
    · have hnew : NewPairComplete beforeFile askedFile :=
        newPairComplete_logFile foreign_nil foreign_nil
          (by rw [length_minedLog, length_askedLog]; decide)
      exact ⟨hnew, _, parseNodeId_logFile foreign_nil rfl hown hforged⟩

end B4n.Webapp.Sample
