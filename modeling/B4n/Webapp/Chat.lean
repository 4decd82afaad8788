import B4n.Lib.Separators
import B4n.Webapp.Refresh

/-!
# What the service answers

The rest of `webapp/service.py` and `webapp/models.py`, and the endpoints of
`webapp/main.py`: a snapshot becomes the state of the chat, and an exception becomes a
status code.  The texts of the exceptions are those of the source; where the
interpreter makes the text of a `ValueError` itself, there is none here.

## Main results

* `key_inj` — the key of a message says its numbers and its text.
* `getChatState_eq_ok` — where a state comes from.
* `respond_eq_ok`, `respond_of_accepted` — whatever is asked, the answer is such a state.
-/

namespace B4n.Webapp

open B4n.Lib

/-! ## Messages -/

/-- The `status` of a message. -/
inductive MessageStatus where
  | confirmed
  | pending
deriving DecidableEq

/-- What `to_message` makes. -/
structure ChatMessage where
  key : List Nat
  id : Nat
  fromId : Nat
  toId : Nat
  text : List Nat
  status : MessageStatus
  blockIndex : Option Nat
deriving DecidableEq

/-- `ParsedTransaction.to_message` -/
def ParsedTransaction.toMessage (trx : ParsedTransaction (List Nat)) (status : MessageStatus) :
    ChatMessage where
  key := trx.key
  id := trx.txId
  fromId := trx.fromId
  toId := trx.toId
  text := trx.text
  status := status
  blockIndex := trx.blockIndex

/-- What `_serialize_snapshot` makes. -/
structure ChatState where
  nodeId : Option Nat
  messages : List ChatMessage
  confirmedTotal : Nat
  pendingTotal : Nat
deriving DecidableEq

/-- `_serialize_snapshot` -/
def serializeSnapshot (snapshot : ParsedSnapshot) : ChatState :=
  let confirmedMessages := snapshot.confirmed.map (ParsedTransaction.toMessage · .confirmed)
  let pendingMessages := snapshot.pending.map (ParsedTransaction.toMessage · .pending)
  { nodeId := snapshot.nodeId
    messages := confirmedMessages ++ pendingMessages
    confirmedTotal := confirmedMessages.length
    pendingTotal := pendingMessages.length }

/-! ## Keys -/

/-- The code of `:` is not among those of digits. -/
theorem colon_not_mem_digits (n : Nat) :
    ':'.toNat ∉ (Nat.toDigits 10 n).map Char.toNat := by
  intro hmem
  obtain ⟨c, hc, hcolon⟩ := List.mem_map.mp hmem
  have hdigit := Nat.isDigit_of_mem_toDigits (by decide) (by decide) hc
  rw [Char.toNat_inj.mp hcolon] at hdigit
  cases hdigit

theorem toDigits_inj {n m : Nat}
    (h : (Nat.toDigits 10 n).map Char.toNat = (Nat.toDigits 10 m).map Char.toNat) : n = m := by
  have hdigits := List.map_injective_iff.mpr (fun _ _ => Char.toNat_inj.mp) h
  calc
    n = Nat.ofDigitChars 10 (Nat.toDigits 10 n) 0 := Nat.ofDigitChars_ten_toDigits.symm
    _ = Nat.ofDigitChars 10 (Nat.toDigits 10 m) 0 := by rw [hdigits]
    _ = m := Nat.ofDigitChars_ten_toDigits

/-- What stands before a first colon, and what behind it. -/
theorem split_colon {n m : Nat} {v w : List Nat}
    (h : (Nat.toDigits 10 n).map Char.toNat ++ (':'.toNat :: v) =
      (Nat.toDigits 10 m).map Char.toNat ++ (':'.toNat :: w)) : n = m ∧ v = w := by
  obtain ⟨hdigits, hrest⟩ :=
    Text.append_sep_inj (colon_not_mem_digits n) (colon_not_mem_digits m) h
  exact ⟨toDigits_inj hdigits, hrest⟩

/-- The key of a transaction says everything but its block. -/
theorem key_inj {trx other : ParsedTransaction (List Nat)} (h : trx.key = other.key) :
    trx.txId = other.txId ∧ trx.fromId = other.fromId ∧ trx.toId = other.toId ∧
      trx.text = other.text := by
  obtain ⟨hid, hrest⟩ := split_colon h
  obtain ⟨hfrom, hrest⟩ := split_colon hrest
  obtain ⟨hto, htext⟩ := split_colon hrest
  exact ⟨hid, hfrom, hto, htext⟩

/-! ## States -/

/-- The messages that are shown as confirmed. -/
def ChatState.confirmed (state : ChatState) : List ChatMessage :=
  state.messages.filter fun message => message.status == .confirmed

/-- The messages that are shown as pending. -/
def ChatState.pending (state : ChatState) : List ChatMessage :=
  state.messages.filter fun message => message.status == .pending

theorem filter_map_toMessage (trxs : List (ParsedTransaction (List Nat)))
    (status wanted : MessageStatus) :
    (trxs.map (ParsedTransaction.toMessage · status)).filter (fun m => m.status == wanted) =
      if status = wanted then trxs.map (ParsedTransaction.toMessage · status) else [] := by
  by_cases hstatus : status = wanted
  · rw [if_pos hstatus, List.filter_eq_self]
    intro message hmessage
    obtain ⟨trx, -, rfl⟩ := List.mem_map.mp hmessage
    exact beq_iff_eq.mpr hstatus
  · rw [if_neg hstatus, List.filter_eq_nil_iff]
    intro message hmessage
    obtain ⟨trx, -, rfl⟩ := List.mem_map.mp hmessage
    exact fun h => hstatus (beq_iff_eq.mp h)

theorem serializeSnapshot_confirmed (snapshot : ParsedSnapshot) :
    (serializeSnapshot snapshot).confirmed =
      snapshot.confirmed.map (ParsedTransaction.toMessage · .confirmed) := by
  unfold ChatState.confirmed serializeSnapshot
  rw [List.filter_append, filter_map_toMessage, filter_map_toMessage]
  simp

theorem serializeSnapshot_pending (snapshot : ParsedSnapshot) :
    (serializeSnapshot snapshot).pending =
      snapshot.pending.map (ParsedTransaction.toMessage · .pending) := by
  unfold ChatState.pending serializeSnapshot
  rw [List.filter_append, filter_map_toMessage, filter_map_toMessage]
  simp

/-- What is left of a queue is not among the confirmed transactions. -/
theorem key_ne_of_mem_excludeConfirmed {pending confirmed : List (ParsedTransaction (List Nat))}
    {trx other : ParsedTransaction (List Nat)} (htrx : trx ∈ excludeConfirmed pending confirmed)
    (hother : other ∈ confirmed) : trx.key ≠ other.key := by
  intro hkey
  have hfree := (List.mem_filter.mp htrx).2
  simp only [Bool.not_eq_true', List.contains_eq_mem, decide_eq_false_iff_not] at hfree
  rw [hkey] at hfree
  exact hfree (List.mem_map_of_mem hother)

variable [CharacterTable]

/-- The pending transactions of a pair are none of its confirmed ones. -/
theorem parsePair_disjoint {pair : SnapshotPair} {parsed : ParsedPair}
    (h : parsePair pair = .ok parsed) {trx other : ParsedTransaction (List Nat)}
    (htrx : trx ∈ parsed.pending) (hother : other ∈ parsed.confirmed) :
    trx.key ≠ other.key := by
  unfold parsePair at h
  cases hconfirmed : parseBlockchainTransactions decodeDebugString pair.blockchainLine with
  | error e =>
      rw [hconfirmed] at h
      cases h
  | ok confirmed =>
      cases hqueued : parseMempoolTransactions decodeDebugString pair.mempoolLine with
      | error e =>
          rw [hconfirmed, hqueued] at h
          cases h
      | ok queued =>
          rw [hconfirmed, hqueued] at h
          cases h
          exact key_ne_of_mem_excludeConfirmed htrx hother

theorem parseLatestSnapshot_disjoint {logText : List Char} {snapshot : ParsedSnapshot}
    (h : parseLatestSnapshot logText = .ok snapshot) {trx other : ParsedTransaction (List Nat)}
    (htrx : trx ∈ snapshot.pending) (hother : other ∈ snapshot.confirmed) :
    trx.key ≠ other.key := by
  obtain ⟨⟨nodeId, hnode⟩, parsed, hparsed⟩ := exists_of_parseLatestSnapshot h
  cases hlast : parsed.getLast? with
  | none =>
      rw [parseLatestSnapshot_none hnode hparsed hlast] at h
      cases h
      cases htrx
  | some latest =>
      rw [parseLatestSnapshot_some hnode hparsed hlast] at h
      cases h
      obtain ⟨pair, -, hpair⟩ :=
        (mem_parsedSnapshots_iff hparsed).mp (List.mem_of_getLast? hlast)
      exact parsePair_disjoint hpair htrx hother

/-! ## Requests -/

/-- The requests of the two endpoints for messages. -/
inductive Request where
  | messages
  | sendMessage (text : List Char)

/-- What a request meets: whether its commands could be sent, and the bytes of the log
file whenever it reads them. -/
structure Observed where
  sentTrx : Except String Unit
  before : List UInt8
  sentPrint : Except String Unit
  polls : List (List UInt8)
  last : List UInt8

/-- The log files that are read, in order. -/
def Observed.logFiles (seen : Observed) : List (List UInt8) :=
  seen.before :: (seen.polls ++ [seen.last])

/-- The exceptions of a request. -/
inductive ChatError where
  | textError (message : String)
  | serviceError (error : ServiceError)

/-- `get_chat_state` -/
def getChatState (logPath : String) (forceRefresh : Bool) (seen : Observed) :
    Except ServiceError ChatState :=
  (loadSnapshotLocked logPath forceRefresh seen.before seen.sentPrint seen.polls seen.last).map
    serializeSnapshot

/-- The service behind the endpoints: `get_chat_state` and `send_message`. -/
def serve (logPath : String) (seen : Observed) : Request → Except ChatError ChatState
  | .messages => (getChatState logPath true seen).mapError .serviceError
  | .sendMessage text =>
      match sendMessage text with
      | .error message => .error (.textError message)
      | .ok _ =>
          match seen.sentTrx with
          | .error message => .error (.serviceError (.adminCommandError message))
          | .ok () => (getChatState logPath true seen).mapError .serviceError

omit [CharacterTable] in
/-- `wrap_service_error` -/
def wrapServiceError : ChatError → Nat × Option String
  | .textError message => (400, some message)
  | .serviceError .valueError => (400, none)
  | .serviceError (.adminCommandError message) =>
      (503, some ("Node admin socket is unavailable: " ++ message))
  | .serviceError (.snapshotUnavailable message) => (503, some message)

omit [CharacterTable] in
/-- The constraints of `MessagePayload`. -/
def Request.isValid : Request → Bool
  | .messages => true
  | .sendMessage text => 1 ≤ text.length && text.length ≤ 500

/-- What a client gets. -/
inductive Response where
  | ok (state : ChatState)
  | httpException (statusCode : Nat) (detail : Option String)
  /-- the framework refuses the payload -/
  | unprocessable

/-- The endpoints `messages` and `send_message` -/
def respond (logPath : String) (seen : Observed) (request : Request) : Response :=
  if request.isValid then
    match serve logPath seen request with
    | .ok state => .ok state
    | .error e =>
        let wrapped := wrapServiceError e
        .httpException wrapped.1 wrapped.2
  else .unprocessable

/-! ## Answers -/

theorem loadLatest_eq_ok {logPath : String} {logFile : List UInt8} {snapshot : ParsedSnapshot}
    (h : loadLatest logPath logFile = .ok snapshot) :
    parseLatestSnapshot (readText logFile) = .ok snapshot ∧ 0 < snapshot.snapshotCount := by
  unfold loadLatest at h
  split at h
  · cases h
  · rename_i found hparse
    by_cases hnone : found.snapshotCount = 0
    · rw [if_pos hnone] at h
      cases h
    · rw [if_neg hnone] at h
      cases h
      exact ⟨hparse, Nat.pos_of_ne_zero hnone⟩

/-- A state was made from the last snapshot of one of the log files that were read. -/
theorem getChatState_eq_ok {logPath : String} {forceRefresh : Bool} {seen : Observed}
    {state : ChatState} (h : getChatState logPath forceRefresh seen = .ok state) :
    ∃ logFile ∈ seen.polls ++ [seen.last], ∃ snapshot,
      parseLatestSnapshot (readText logFile) = .ok snapshot ∧ 0 < snapshot.snapshotCount ∧
        state = serializeSnapshot snapshot := by
  have hlatest : ∀ {snapshot}, loadLatest logPath seen.last = .ok snapshot →
      ∃ logFile ∈ seen.polls ++ [seen.last],
        parseLatestSnapshot (readText logFile) = .ok snapshot ∧ 0 < snapshot.snapshotCount :=
    fun hload => ⟨seen.last, by simp, loadLatest_eq_ok hload⟩
  have hloaded : ∀ {snapshot}, loadSnapshotLocked logPath forceRefresh seen.before
      seen.sentPrint seen.polls seen.last = .ok snapshot →
        ∃ logFile ∈ seen.polls ++ [seen.last],
          parseLatestSnapshot (readText logFile) = .ok snapshot ∧
            0 < snapshot.snapshotCount := by
    intro snapshot hload
    unfold loadSnapshotLocked at hload
    dsimp only at hload
    by_cases hforce : forceRefresh = true
    · rw [if_pos hforce] at hload
      split at hload
      · cases hload
      · split at hload
        · rename_i logFile found hpoll
          cases hload
          obtain ⟨hmem, hparse⟩ := pollLoop_eq_returned hpoll
          exact ⟨logFile, List.mem_append_left _ hmem, hparse⟩
        · cases hload
        · exact hlatest hload
    · rw [if_neg hforce] at hload
      exact hlatest hload
  unfold getChatState at h
  cases hload : loadSnapshotLocked logPath forceRefresh seen.before seen.sentPrint seen.polls
      seen.last with
  | error e =>
      rw [hload] at h
      cases h
  | ok snapshot =>
      rw [hload] at h
      cases h
      obtain ⟨logFile, hmem, hparse, hpos⟩ := hloaded hload
      exact ⟨logFile, hmem, snapshot, hparse, hpos, rfl⟩

/-- Whatever is asked, the answer is such a state. -/
theorem respond_eq_ok {logPath : String} {seen : Observed} {request : Request}
    {state : ChatState} (h : respond logPath seen request = .ok state) :
    getChatState logPath true seen = .ok state := by
  have hmapped : (getChatState logPath true seen).mapError ChatError.serviceError = .ok state →
      getChatState logPath true seen = .ok state := by
    intro hmap
    cases hstate : getChatState logPath true seen with
    | error e =>
        rw [hstate] at hmap
        cases hmap
    | ok found =>
        rw [hstate] at hmap
        cases hmap
        rfl
  have hserve : serve logPath seen request = .ok state := by
    unfold respond at h
    split at h
    · split at h
      · cases h
        assumption
      · cases h
    · cases h
  cases request with
  | messages => exact hmapped hserve
  | sendMessage text =>
      unfold serve at hserve
      dsimp only at hserve
      split at hserve
      · cases hserve
      · split at hserve
        · cases hserve
        · exact hmapped hserve

/-- Neither the framework nor `send_message` refuses the request, and its command, if it
has one, was sent. -/
structure Request.Accepted (seen : Observed) (request : Request) : Prop where
  valid : request.isValid = true
  sent : ∀ text, request = .sendMessage text →
    (∃ command, Webapp.sendMessage text = .ok command) ∧ seen.sentTrx = .ok ()

/-- An accepted request is answered with the state that is loaded. -/
theorem respond_of_accepted {logPath : String} {seen : Observed} {request : Request}
    (h : request.Accepted seen) {state : ChatState}
    (hstate : getChatState logPath true seen = .ok state) :
    respond logPath seen request = .ok state := by
  have hserve : serve logPath seen request = .ok state := by
    cases request with
    | messages =>
        unfold serve
        rw [hstate]
        rfl
    | sendMessage text =>
        obtain ⟨⟨command, hcommand⟩, hsent⟩ := h.sent text rfl
        unfold serve
        simp only [hcommand, hsent, hstate]
        rfl
  unfold respond
  rw [if_pos h.valid, hserve]

/-- Two messages with the same numbers and the same text. -/
def ChatMessage.SameContent (message other : ChatMessage) : Prop :=
  message.id = other.id ∧ message.fromId = other.fromId ∧ message.toId = other.toId ∧
    message.text = other.text

omit [CharacterTable] in
theorem key_eq_of_sameContent {trx other : ParsedTransaction (List Nat)}
    {status status' : MessageStatus}
    (h : (trx.toMessage status).SameContent (other.toMessage status')) : trx.key = other.key := by
  obtain ⟨hid, hfrom, hto, htext⟩ := h
  have hid : trx.txId = other.txId := hid
  have hfrom : trx.fromId = other.fromId := hfrom
  have hto : trx.toId = other.toId := hto
  have htext : trx.text = other.text := htext
  unfold ParsedTransaction.key
  rw [hid, hfrom, hto, htext]

end B4n.Webapp
