import B4n.Network.Posted
import B4n.Webapp.Answers

/-!
# The conversation

Every node of a network writes its own log, and the page of a node is made from this
log alone.  A message is posted at one node, floods the network as a transaction, waits
in queues, gets into blocks, and is read off the pages of other nodes.

## Main results

* `run_posted_shown` — what is posted at one node is shown by the others.
* `run_shown_posted` — what is shown anywhere was posted somewhere.
* `run_shown_everywhere` — what one page shows, later pages of all nodes show.
-/

namespace B4n

open Lib Blockchain Webapp

variable [PrintTable] [CharacterTable] [EscapesControls] [Primitives]

namespace Setup

variable {ι : Type} [DecidableEq ι] {setup : Setup ι} {net last : Network ι}
  {actions more : List (Action ι)} {out outs : List (ι × Effect)}

/-! ## Logs -/

/-- What the node writes along a run of the network, and the state that it is then in. -/
structure Writes (setup : Setup ι) (i : ι) (actions : List (Action ι))
    (inputs : List (LogEnv × Input)) (node : Node) (entries : List LogEntry) : Prop where
  inputs_eq : inputs.map (fun input => (input.1.env, input.2)) = setup.inputsOf i actions
  run : Run Node.nextLog (setup.startNode i) inputs node entries

/-- The log file of the node may have these bytes: the node's lines along the run with
other lines in between, as far as they are written. -/
def Readable (setup : Setup ι) (i : ι) (actions : List (Action ι)) (bytes : List UInt8) : Prop :=
  ∃ inputs node entries lines, setup.Writes i actions inputs node entries ∧
    Woven Foreign (logLines (setup.netId i) entries) lines ∧ bytes <+: logBytes lines

/-- How often the node was made to print its state. -/
def printsOf (setup : Setup ι) (i : ι) (actions : List (Action ι)) : Nat :=
  (setup.inputsOf i actions).countP (Input.isDebugPrint ·.2)

omit [PrintTable] [CharacterTable] [EscapesControls] in
/-- What a node writes along a run that goes on, it writes along its two parts. -/
theorem Writes.split {i : ι} {inputs : List (LogEnv × Input)} {node : Node}
    {entries : List LogEntry} (h : setup.Writes i (actions ++ more) inputs node entries)
    (hrun : Run setup.next setup.start actions net out) :
    ∃ rest written later, entries = written ++ later ∧
      (printouts written).length = setup.printsOf i actions ∧
      rest.map (fun input => (input.1.env, input.2)) =
        turnsOf setup.next (setup.inputOf i) net more ∧
      Run Node.nextLog (net.nodes i) rest node later := by
  have hinputs := h.inputs_eq
  rw [inputsOf, turnsOf_append hrun] at hinputs
  obtain ⟨first, rest, rfl, hfirst, hrest⟩ := List.map_eq_append_iff.mp hinputs
  obtain ⟨mid, written, later, hbefore, hafter⟩ := h.run.split
  obtain ⟨-, rfl⟩ := (hbefore.append hafter).unique h.run
  refine ⟨rest, written, later, rfl, ?_, hrest, ?_⟩
  · rw [Node.length_printouts hbefore, printsOf, inputsOf, ← hfirst, List.countP_map,
      List.countP_map]
    rfl
  · obtain ⟨effects, hown⟩ := Node.run_of_runLog hbefore
    rw [hfirst] at hown
    obtain ⟨new, hpart⟩ := (setup.component i).run hrun
    rw [(hown.unique hpart).1] at hafter
    exact hafter

/-! ## Messages -/

/-- Where a transaction was posted and its flood is over, later prints of every node that
links lead to have it. -/
theorem page_has (hverify : SignaturesVerify setup.verifier)
    (hsmall : setup.validators.length ≤ 2 ^ 32)
    (hrun : Run setup.next setup.start actions net out) {edge : ι → ι → Prop}
    {trx : Transaction} {i j : ι} (hsettled : setup.Settled actions net edge i trx.hash)
    (hpath : Relation.ReflTransGen edge i j) (hposted : PostedAt actions i trx)
    (hmore : Run setup.next net more last outs)
    (hfree : ∀ other, Posted (actions ++ more) other → other.hash = trx.hash → other = trx)
    {bytes : List UInt8} (hlog : setup.Readable j (actions ++ more) bytes)
    {page : ParsedSnapshot} {idx : Nat} (hfrom : ParsedFrom (readText bytes) page idx)
    (hlater : idx ∈ (markerLines (readText bytes)).drop (setup.printsOf j actions)) :
    ∃ chain pool, page.confirmed = shownChain chain ∧ page.pending = shownQueue chain pool ∧
      (trx ∈ pool.queue ∨ ∃ block ∈ chain.blocks, trx ∈ block.transactions) := by
  obtain ⟨inputs, node, entries, lines, hwrites, hlines, hfile⟩ := hlog
  obtain ⟨rest, written, later, rfl, hprints, hrest, hafter⟩ := hwrites.split hrun
  rw [← hprints] at hlater
  obtain ⟨printout, hprintout, hconfirmed, hpending⟩ :=
    printout_of_later hlines hfile hfrom hlater
  -- the node has the transaction in every state of the network from the end of the flood on
  have hkept : AllStates setup.next net more fun mid => (mid.nodes j).Has trx := by
    rintro first tail mid outputs rfl hmid
    refine run_posted_kept hverify hsmall hrun hsettled hpath hposted hmid fun other hother => ?_
    refine hfree other ?_
    rw [← List.append_assoc]
    exact hother.append tail
  have hown := (setup.component j).allStates (P := fun node => node.Has trx) hmore hkept
  rw [← hrest] at hown
  have hhas := Node.printouts_of_allStates hafter (P := fun chain pool =>
    trx ∈ pool.queue ∨ ∃ block ∈ chain.blocks, trx ∈ block.transactions) hown printout hprintout
  exact ⟨printout.1, printout.2, hconfirmed, hpending, hhas⟩

/-- What a node has printed was posted at some node. -/
theorem page_posted (hrun : Run setup.next setup.start actions net out) {i : ι}
    {bytes : List UInt8} (hlog : setup.Readable i actions bytes) {page : ParsedSnapshot}
    (hparse : parseLatestSnapshot (readText bytes) = .ok page) :
    (serializeSnapshot page).messages = [] ∨
      ∃ chain pool, page.confirmed = shownChain chain ∧ page.pending = shownQueue chain pool ∧
        ∀ trx, (trx ∈ pool.queue ∨ ∃ block ∈ chain.blocks, trx ∈ block.transactions) →
          Posted actions trx := by
  obtain ⟨inputs, node, entries, lines, hwrites, hlines, hfile⟩ := hlog
  have hsourced : AllStates setup.next setup.start actions fun net =>
      ∀ trx, (net.nodes i).Has trx → Posted actions trx := by
    rintro before after net outputs rfl hbefore trx hhas
    exact ((run_sourced hbefore).has hhas).append after
  have hown := (setup.component i).allStates (P := fun node => ∀ trx, node.Has trx →
    Posted actions trx) hrun hsourced
  have hprinted : ∀ printout ∈ printouts entries, ∀ trx,
      (trx ∈ printout.2.queue ∨ ∃ block ∈ printout.1.blocks, trx ∈ block.transactions) →
        Posted actions trx := by
    apply Node.printouts_of_allStates hwrites.run (P := fun chain pool => ∀ trx,
      (trx ∈ pool.queue ∨ ∃ block ∈ chain.blocks, trx ∈ block.transactions) → Posted actions trx)
    rw [hwrites.inputs_eq]
    exact hown
  rcases (Node.run_page_grows hwrites.run hlines List.prefix_rfl hfile hparse hparse).2 with
    hempty | ⟨printout, hmem, -, hconfirmed, hpending⟩
  · left
    rw [hempty]
    rfl
  · exact .inr ⟨printout.1, printout.2, hconfirmed, hpending, hprinted printout hmem⟩

/-- A message that is posted at one node is on the page of every node that links lead
to, if the page is made from a print after the end of the flood and unless another
transaction was posted that has the hash of its transaction. -/
theorem run_posted_shown (hverify : SignaturesVerify setup.verifier)
    (hsmall : setup.validators.length ≤ 2 ^ 32)
    (hrun : Run setup.next setup.start actions net out) {edge : ι → ι → Prop}
    {trx : Transaction} {i j : ι} (hsettled : setup.Settled actions net edge i trx.hash)
    (hpath : Relation.ReflTransGen edge i j) (hposted : PostedAt actions i trx)
    (hmore : Run setup.next net more last outs)
    (hfree : ∀ other, Posted (actions ++ more) other → other.hash = trx.hash → other = trx)
    {bytes : List UInt8} (hlog : setup.Readable j (actions ++ more) bytes)
    {page : ParsedSnapshot} {idx : Nat} (hfrom : ParsedFrom (readText bytes) page idx)
    (hlater : idx ∈ (markerLines (readText bytes)).drop (setup.printsOf j actions)) :
    ∃ message ∈ (serializeSnapshot page).messages, Node.IsMessageOf trx message ∧
      (¬ HasEscape trx.text.toList → ¬ HasOctal trx.text.toList →
        message.text = trx.text.toList.map Char.toNat) := by
  obtain ⟨chain, pool, hconfirmed, hpending, hhas⟩ :=
    page_has hverify hsmall hrun hsettled hpath hposted hmore hfree hlog hfrom hlater
  obtain ⟨message, hmessage, hcontent⟩ := Node.exists_message_of_trx hconfirmed hpending hhas
  exact ⟨message, hmessage, hcontent, hcontent.text_eq⟩

/-- When no transaction is in flight any more, what the page of one node has shown is on
the page of every node that links lead to from everywhere, if it is made from a later
print. -/
theorem run_shown_everywhere (hverify : SignaturesVerify setup.verifier)
    (hsmall : setup.validators.length ≤ 2 ^ 32)
    (hrun : Run setup.next setup.start actions net out) {edge : ι → ι → Prop}
    (hsettled : ∀ k h, setup.Settled actions net edge k h) {i j : ι}
    (hconnected : ∀ k, Relation.ReflTransGen edge k j)
    (hmore : Run setup.next net more last outs)
    (hinj : Set.InjOn Transaction.hash {trx | Posted (actions ++ more) trx})
    {bytes bytes' : List UInt8} (hlog : setup.Readable i actions bytes)
    (hlog' : setup.Readable j (actions ++ more) bytes') {page page' : ParsedSnapshot}
    (hparse : parseLatestSnapshot (readText bytes) = .ok page) {idx : Nat}
    (hfrom : ParsedFrom (readText bytes') page' idx)
    (hlater : idx ∈ (markerLines (readText bytes')).drop (setup.printsOf j actions))
    {message : ChatMessage} (hmessage : message ∈ (serializeSnapshot page).messages) :
    ∃ message' ∈ (serializeSnapshot page').messages, message.SameContent message' := by
  rcases page_posted hrun hlog hparse with
    hempty | ⟨chain, pool, hconfirmed, hpending, hposted⟩
  · rw [hempty] at hmessage
    cases hmessage
  obtain ⟨trx, hhas, hcontent⟩ := Node.exists_trx_of_message hconfirmed hpending hmessage
  obtain ⟨k, hk⟩ := hposted trx hhas
  have hlast : Posted (actions ++ more) trx := Posted.append ⟨k, hk⟩ more
  obtain ⟨chain', pool', hconfirmed', hpending', hhas'⟩ := page_has hverify hsmall hrun
    (hsettled k trx.hash) (hconnected k) hk hmore
    (fun other hother hhash => hinj hother hlast hhash) hlog' hfrom hlater
  obtain ⟨message', hmessage', hcontent'⟩ :=
    Node.exists_message_of_trx hconfirmed' hpending' hhas'
  exact ⟨message', hmessage', hcontent.sameContent hcontent'⟩

end Setup

end B4n

namespace B4n.Webapp.Sample

open B4n.Lib B4n.Blockchain B4n.Blockchain.Sample

/-- The two validators get to know each other.  A message is posted at the first one, and
when the second one has it too, both print their states. -/
private def exchanged : List (Action Party) :=
  [.handle .first (env 10) (.addPeer 4 1), .handle .second (env 12) (.addPeer 3 2),
    .handle .first (env 20) (.localTrx (trx 1 "coffee")), .deliver 4 (env 30),
    .deliver 4 (env 40), .handle .first (env 45) .debugPrint,
    .handle .second (env 46) .debugPrint]

/-- The second one prints its state again. -/
private def reprinted : List (Action Party) := [.handle .second (env 50) .debugPrint]

private def talked : Network Party := (finish pair.next pair.start exchanged).1

private def firstInputs : List (LogEnv × Input) :=
  [(logEnv 10, .message (.addPeer 4 1)), (logEnv 20, .message (.localTrx (trx 1 "coffee"))),
    (logEnv 40, .message (.net 4 (.trx (trx 1 "coffee"))))] ++ [(logEnv 45, .message .debugPrint)]

private def secondInputs : List (LogEnv × Input) :=
  [(logEnv 12, .message (.addPeer 3 2)), (logEnv 30, .message (.net 3 (.trx (trx 1 "coffee")))),
    (logEnv 46, .message .debugPrint)] ++ [(logEnv 50, .message .debugPrint)]

private def firstNode : Node := (finish Node.nextLog (pair.startNode .first) firstInputs).1

private def firstLog : List LogEntry :=
  (finish Node.nextLog (pair.startNode .first) firstInputs).2

private def secondNode : Node := (finish Node.nextLog (pair.startNode .second) secondInputs).1

private def secondLog : List LogEntry :=
  (finish Node.nextLog (pair.startNode .second) secondInputs).2

private theorem exchanged_ok :
    ((exec pair.next pair.start exchanged).isSome = true ∧
      (exec pair.next talked reprinted).isSome = true ∧
      everyStep pair.next readyToPass pair.start exchanged = true ∧
      (talked.inFlight.all fun p => !isTrx p.msg) = true) ∧
    ((exec Node.nextLog (pair.startNode .first) firstInputs).isSome = true ∧
      firstLog.any (!LogEntry.isSnapshot ·) = true ∧ (forgedIds firstLog).getLast? = none ∧
      shownMessages firstNode = [(codes "coffee", .pending)]) ∧
    (exec Node.nextLog (pair.startNode .second) secondInputs).isSome = true ∧
      secondLog.any (!LogEntry.isSnapshot ·) = true ∧ (forgedIds secondLog).getLast? = none ∧
      shownMessages secondNode = [(codes "coffee", .pending)] := by
  decide +kernel

private theorem run_exchanged : Run pair.next pair.start exchanged talked
    (finish pair.next pair.start exchanged).2 :=
  run_finish exchanged_ok.1.1

private theorem run_reprinted : Run pair.next talked reprinted
    (finish pair.next talked reprinted).1 (finish pair.next talked reprinted).2 :=
  run_finish exchanged_ok.1.2.1

private theorem settled_exchanged (i : Party) (h : Hash32Type) :
    pair.Settled exchanged talked toSecond i h where
  linked := fun _ _ hlink => linked_toSecond exchanged_ok.1.2.2.1 h hlink
  room := fun k _ => room_toPass exchanged_ok.1.2.2.1 h k
  quiet := quiet_of_all exchanged_ok.1.2.2.2 h

private theorem reaches_second (i : Party) : Relation.ReflTransGen toSecond i .second := by
  cases i with
  | first => exact .single ⟨rfl, rfl⟩
  | second => exact .refl

private theorem run_firstLog : Run Node.nextLog (pair.startNode .first) firstInputs firstNode
    firstLog :=
  run_finish exchanged_ok.2.1.1

private theorem run_secondLog : Run Node.nextLog (pair.startNode .second) secondInputs secondNode
    secondLog :=
  run_finish exchanged_ok.2.2.1

private theorem readable_first : pair.Readable .first exchanged (logFile 1 firstLog []) := by
  obtain ⟨lines, hlines, hfile⟩ := exists_lines_logFile 1 firstLog foreign_nil
  exact ⟨firstInputs, firstNode, firstLog, lines, ⟨rfl, run_firstLog⟩, hlines, hfile⟩

private theorem readable_second :
    pair.Readable .second (exchanged ++ reprinted) (logFile 2 secondLog []) := by
  obtain ⟨lines, hlines, hfile⟩ := exists_lines_logFile 2 secondLog foreign_nil
  exact ⟨secondInputs, secondNode, secondLog, lines, ⟨rfl, run_secondLog⟩, hlines, hfile⟩

/-- The page of the first validator. -/
private theorem page_first : ∃ page,
    parseLatestSnapshot (readText (logFile 1 firstLog [])) = .ok page ∧
      (serializeSnapshot page).messages.map (fun message => (message.text, message.status)) =
        [(codes "coffee", .pending)] := by
  obtain ⟨-, hown, hforged, hshown⟩ := exchanged_ok.2.1
  obtain ⟨page, -, hparse, -, hconfirmed, hpending, -⟩ :=
    exists_page 1 foreign_nil rfl hown hforged (Node.getLast?_printouts run_firstLog)
  exact ⟨page, hparse, (messages_eq hconfirmed hpending).trans hshown⟩

/-- The page of the second one, from its second print. -/
private theorem page_second : ∃ page idx,
    (serializeSnapshot page).messages.map (fun message => (message.text, message.status)) =
        [(codes "coffee", .pending)] ∧
      ParsedFrom (readText (logFile 2 secondLog [])) page idx ∧
      idx ∈ (markerLines (readText (logFile 2 secondLog []))).drop
        (pair.printsOf .second exchanged) := by
  obtain ⟨-, hown, hforged, hshown⟩ := exchanged_ok.2.2
  obtain ⟨page, idx, -, -, hconfirmed, hpending, hfrom, hlater⟩ :=
    exists_page 2 foreign_nil rfl hown hforged (Node.getLast?_printouts run_secondLog)
  refine ⟨page, idx, (messages_eq hconfirmed hpending).trans hshown, hfrom, hlater _ ?_⟩
  rw [Node.length_printouts run_secondLog]
  decide

private theorem posted_eq {other : Transaction} (h : Posted (exchanged ++ reprinted) other) :
    other = trx 1 "coffee" := by
  obtain ⟨i, env, hmem⟩ := h
  have hposted : i = .first ∧ env = Sample.env 20 ∧ other = trx 1 "coffee" := by
    simpa [exchanged, reprinted] using hmem
  exact hposted.2.2

theorem run_posted_shown_exchanged : ∃ page,
    (serializeSnapshot page).messages.map (fun message => (message.text, message.status)) =
        [(codes "coffee", .pending)] ∧
      ∃ message ∈ (serializeSnapshot page).messages,
        Node.IsMessageOf (trx 1 "coffee") message ∧
          (¬ HasEscape "coffee".toList → ¬ HasOctal "coffee".toList →
            message.text = "coffee".toList.map Char.toNat) := by
  obtain ⟨page, idx, hshown, hfrom, hlater⟩ := page_second
  have hposted : PostedAt exchanged .first (trx 1 "coffee") := ⟨env 20, by simp [exchanged]⟩
  exact ⟨page, hshown, Setup.run_posted_shown signaturesVerify (by decide) run_exchanged
    (settled_exchanged .first _) (reaches_second .first) hposted run_reprinted
    (fun other hother _ => posted_eq hother) readable_second hfrom hlater⟩

theorem run_shown_everywhere_exchanged : ∃ page page',
    ∃ message ∈ (serializeSnapshot page).messages, message.text = codes "coffee" ∧
      ∃ message' ∈ (serializeSnapshot page').messages, message.SameContent message' := by
  obtain ⟨page, hparse, hshown⟩ := page_first
  obtain ⟨page', idx, -, hfrom, hlater⟩ := page_second
  obtain ⟨message, hmessage, htext⟩ := List.mem_map.mp (hshown ▸ List.mem_singleton_self _)
  have hinj : Set.InjOn Transaction.hash {trx | Posted (exchanged ++ reprinted) trx} := by
    intro trx htrx other hother _
    rw [posted_eq htrx, posted_eq hother]
  exact ⟨page, page', message, hmessage, (Prod.mk.inj htext).1,
    Setup.run_shown_everywhere signaturesVerify (by decide) run_exchanged settled_exchanged
      reaches_second run_reprinted hinj readable_first readable_second hparse hfrom hlater
      hmessage⟩

end B4n.Webapp.Sample
