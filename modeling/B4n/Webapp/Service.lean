import B4n.Lib.Utf8
import B4n.Webapp.LatestSnapshot
import B4n.Webapp.TextFile

/-!
# The chat service

`webapp/service.py` and `webapp/node_admin.py`: a message is sent to the node as
one command, and a snapshot is loaded by having the node print its state and
reading the log again and again until a new one appears.

What other programs do enters as arguments: whether the command could be sent,
and the bytes of the log file at every time it is read.  A file that does not
exist is read like an empty one.  The clock only decides how often the loop
polls, so the polls are a list.
-/

namespace B4n.Webapp

open B4n.Lib

/-! ## Sending -/

/-- The bytes that `NodeAdminClient.send` sends. -/
def adminPayload (command : List Char) : List UInt8 :=
  utf8 (rstrip command ++ ['\n'])

/-- `send_message`, up to the command that it sends; the error is the text of a
`ValueError`. -/
def sendMessage (text : List Char) : Except String (List Char) :=
  let cleaned := strip text
  if cleaned.isEmpty then .error "message text must not be empty"
  else if cleaned.contains '\n' || cleaned.contains '\r' then
    .error "message text must be a single line"
  else .ok ("trx ".toList ++ cleaned)

/-! ## Loading a snapshot -/

/-- How the polling loop ends: it returns a snapshot, which it found in a certain
log file, an exception ends it, or its time is up. -/
inductive PollResult where
  | returned (logFile : List UInt8) (snapshot : ParsedSnapshot)
  | raised (error : ParseError)
  | timedOut

/-- The exceptions of the service. -/
inductive ServiceError where
  | valueError
  | adminCommandError (message : String)
  | snapshotUnavailable (message : String)

variable [CharacterTable]

/-- The polling loop of `_load_snapshot_locked` over the log files that it
reads. -/
def pollLoop (beforeSnapshotCount : Nat) : List (List UInt8) → PollResult
  | [] => .timedOut
  | logFile :: polls =>
      let currentLog := readText logFile
      if beforeSnapshotCount < countSnapshotMarkers currentLog then
        match parseLatestSnapshot currentLog with
        | .error e => .raised e
        | .ok snapshot =>
            if 0 < snapshot.snapshotCount then .returned logFile snapshot
            else pollLoop beforeSnapshotCount polls
      else pollLoop beforeSnapshotCount polls

/-- The end of `_load_snapshot_locked`: what is in the log by then. -/
def loadLatest (logPath : String) (logFile : List UInt8) :
    Except ServiceError ParsedSnapshot :=
  match parseLatestSnapshot (readText logFile) with
  | .error _ => .error .valueError
  | .ok snapshot =>
      if snapshot.snapshotCount = 0 then
        .error (.snapshotUnavailable ("No complete blockchain snapshot found in " ++ logPath))
      else .ok snapshot

/-- `_load_snapshot_locked`, given the log file before the command, whether the
command was sent, the log files of the polls and the one after them. -/
def loadSnapshotLocked (logPath : String) (forceRefresh : Bool) (before : List UInt8)
    (sent : Except String Unit) (polls : List (List UInt8)) (last : List UInt8) :
    Except ServiceError ParsedSnapshot :=
  let beforeSnapshotCount := countSnapshotMarkers (readText before)
  if forceRefresh then
    match sent with
    | .error message => .error (.adminCommandError message)
    | .ok () =>
        match pollLoop beforeSnapshotCount polls with
        | .returned _ snapshot => .ok snapshot
        | .raised _ => .error .valueError
        | .timedOut => loadLatest logPath last
  else loadLatest logPath last

/-- A forced refresh returns what its polling loop returns. -/
theorem loadSnapshotLocked_of_returned {before logFile : List UInt8}
    {polls : List (List UInt8)} {snapshot : ParsedSnapshot}
    (h : pollLoop (countSnapshotMarkers (readText before)) polls = .returned logFile snapshot)
    (logPath : String) (last : List UInt8) :
    loadSnapshotLocked logPath true before (.ok ()) polls last = .ok snapshot := by
  simp [loadSnapshotLocked, h]

end B4n.Webapp
