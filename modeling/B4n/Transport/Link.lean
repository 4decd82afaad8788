import B4n.Blockchain.Sample
import B4n.Lib.Threads
import B4n.Transport.Reader
import Mathlib.Data.List.FinRange
import Mathlib.Data.List.Flatten

/-!
# A link across reconnections

The thread of `connect_peer` takes messages from one channel and writes them to one TCP
connection after the other.  A message whose write fails is gone, and the thread connects
again.  At the other end every connection has a thread that reads a `Hello` and then
messages until an error.  The thread of an old connection may still read when that of a
new one does, and both send on one channel; so the order of the messages is kept on each
connection, and between connections it is not.

TCP itself is a parameter: of the bytes written to a connection some first part arrives,
cut into reads in any way.  A read timeout inside a frame, after which the reader goes on in
the middle of it, is left out.

## Main results

* `run_link_delivers` — what the other end delivers is part of what was sent, without a
  message twice, and in order on each connection.
* `run_link_lossless` — of what was written to a connection nothing is lost that arrives.
-/

namespace B4n.Transport

open B4n.Lib

/-- The messages among the events of a reader. -/
def messagesOf (events : List TransportEvent) : List ProtocolMessage :=
  events.filterMap fun
    | .message _ msg => some msg
    | _ => none

section

variable [Postcard]

/-- A message that `write_msg` serialises and frames. -/
def Writable (msg : ProtocolMessage) : Prop :=
  ∃ payload, Postcard.toStdvec msg = some payload ∧ payload.length < 2 ^ 32

/-! ## Reading from a frame on -/

/-- What arrives before a timeout is whole frames; other errors may come anywhere. -/
def TimeoutsAtFrames (msgs : List ProtocolMessage) (stream : TcpStream) : Prop :=
  ∀ before kind after, kind.IsTimeout → flat stream = before ++ .inr kind :: after →
    ∃ sent, sent <+: msgs ∧ bytesOf before = wire sent

/-- The stream is at the start of a frame: it carries some first part of what was written,
and no timeout comes inside a frame. -/
structure AtFrame (msgs : List ProtocolMessage) (stream : TcpStream) : Prop where
  carried : bytesOf (flat stream) <+: wire msgs
  between : TimeoutsAtFrames msgs stream

omit [Postcard] in
theorem append_prefix_append {α : Type} {xs xs' ys ys' : List α}
    (hlength : xs.length = ys.length) (h : xs ++ xs' <+: ys ++ ys') : xs = ys ∧ xs' <+: ys' := by
  obtain ⟨rest, hrest⟩ := h
  rw [List.append_assoc] at hrest
  obtain ⟨rfl, htail⟩ := List.append_inj hrest hlength
  exact ⟨rfl, rest, htail⟩

/-- Behind a frame the timeouts are counted from the next message on. -/
theorem TimeoutsAtFrames.of_cons {msg : ProtocolMessage} {payload : List UInt8}
    (hpayload : Postcard.toStdvec msg = some payload) (hlength : payload.length < 2 ^ 32)
    {msgs : List ProtocolMessage} {stream rest : TcpStream}
    (hflat : flat stream = quietly (frameBytes payload) ++ flat rest)
    (h : TimeoutsAtFrames (msg :: msgs) stream) : TimeoutsAtFrames msgs rest := by
  intro before kind after htimeout hrest
  obtain ⟨sent, hsent, hbytes⟩ := h (quietly (frameBytes payload) ++ before) kind after htimeout
    (by rw [hflat, hrest, List.append_assoc])
  rw [bytesOf_append, bytesOf_quietly] at hbytes
  cases sent with
  | nil =>
      have hnone : frameBytes payload = [] := (List.append_eq_nil_iff.mp hbytes).1
      have hfour := length_frameBytes payload
      rw [hnone, List.length_nil] at hfour
      omega
  | cons first sent =>
      obtain ⟨rfl, hmore⟩ := List.cons_prefix_cons.mp hsent
      rw [wire_cons_of_lt hpayload hlength] at hbytes
      exact ⟨sent, hmore, List.append_cancel_left hbytes⟩

theorem TimeoutsAtFrames.of_timeout {msgs : List ProtocolMessage} {stream rest : TcpStream}
    {kind : ErrorKind} (hflat : flat stream = .inr kind :: flat rest)
    (h : TimeoutsAtFrames msgs stream) : TimeoutsAtFrames msgs rest := by
  intro before found after htimeout hrest
  exact h (.inr kind :: before) found after htimeout (by rw [hflat, hrest]; rfl)

/-- A message that is read is the first one that was written. -/
theorem AtFrame.of_ok (hcodec : Postcard.RoundTrips) {msgs : List ProtocolMessage}
    (hwritable : ∀ msg ∈ msgs, Writable msg) {stream rest : TcpStream} (h : AtFrame msgs stream)
    {msg : ProtocolMessage} (hread : readMsg stream = .ok msg rest) :
    ∃ more, msgs = msg :: more ∧ AtFrame more rest ∧
      bytesOf (flat stream) = wire [msg] ++ bytesOf (flat rest) := by
  obtain ⟨payload, hframe, hmsg⟩ : ∃ payload, readFrame stream = .ok payload rest ∧
      Postcard.fromBytes payload = some msg := by
    unfold readMsg at hread
    cases hframe : readFrame stream with
    | blocked =>
        rw [hframe] at hread
        cases hread
    | err kind left =>
        rw [hframe] at hread
        cases hread
    | ok payload left =>
        rw [hframe] at hread
        cases hmsg : Postcard.fromBytes payload with
        | none => simp [Outcome.andThen, hmsg] at hread
        | some found =>
            simp only [Outcome.andThen, hmsg, Outcome.ok.injEq] at hread
            obtain ⟨rfl, rfl⟩ := hread
            exact ⟨payload, rfl, hmsg⟩
  obtain ⟨lenBuf, hfour, hlength, hflat⟩ := readFrame_eq_ok hframe
  have hcarried := h.carried
  rw [hflat, bytesOf_append, bytesOf_append, bytesOf_quietly, bytesOf_quietly] at hcarried
  cases msgs with
  | nil =>
      have hnone := List.append_eq_nil_iff.mp (List.prefix_nil.mp hcarried)
      rw [hnone.1] at hfour
      cases hfour
  | cons first more =>
      obtain ⟨written, hwritten, hsmall⟩ := hwritable first List.mem_cons_self
      rw [wire_cons_of_lt hwritten hsmall, frameBytes, List.append_assoc] at hcarried
      obtain ⟨rfl, hbody⟩ := append_prefix_append (by rw [hfour, length_beBytes]) hcarried
      rw [beValue_beBytes (by omega)] at hlength
      obtain ⟨rfl, hmore⟩ := append_prefix_append hlength hbody
      rw [hcodec first payload hwritten, Option.some.injEq] at hmsg
      subst hmsg
      have hwhole : flat stream = quietly (frameBytes payload) ++ flat rest := by
        rw [hflat, frameBytes, quietly_append, List.append_assoc]
      refine ⟨more, rfl, ⟨hmore, ?_⟩, ?_⟩
      · exact h.between.of_cons hwritten hsmall hwhole
      · rw [hwhole, bytesOf_append, bytesOf_quietly, wire_cons_of_lt hwritten hsmall]
        simp [wire]

/-- A timeout leaves the stream where it was. -/
theorem AtFrame.of_timeout {msgs : List ProtocolMessage}
    (hwritable : ∀ msg ∈ msgs, Writable msg) {stream rest : TcpStream} (h : AtFrame msgs stream)
    {kind : ErrorKind} (htimeout : kind.IsTimeout) (hread : readMsg stream = .err kind rest) :
    AtFrame msgs rest ∧ bytesOf (flat stream) = bytesOf (flat rest) := by
  have hkind : kind ≠ .invalidData := by
    rintro rfl
    revert htimeout
    decide
  have hframe : readFrame stream = .err kind rest := by
    unfold readMsg at hread
    cases hframe : readFrame stream with
    | blocked =>
        rw [hframe] at hread
        cases hread
    | err found left =>
        rw [hframe] at hread
        simp only [Outcome.andThen, Outcome.err.injEq] at hread
        obtain ⟨rfl, rfl⟩ := hread
        rfl
    | ok payload left =>
        rw [hframe] at hread
        cases hmsg : Postcard.fromBytes payload with
        | none =>
            simp only [Outcome.andThen, hmsg, Outcome.err.injEq] at hread
            exact absurd hread.1.symm hkind
        | some found => simp [Outcome.andThen, hmsg] at hread
  obtain ⟨lost, hflat⟩ := readFrame_eq_err hframe hkind
  obtain ⟨sent, hsent, hlost⟩ :=
    h.between (quietly lost) kind (flat rest) htimeout hflat
  rw [bytesOf_quietly] at hlost
  cases sent with
  | nil =>
      have hnone : lost = [] := hlost
      rw [hnone] at hflat
      have hbytes : bytesOf (flat stream) = bytesOf (flat rest) := by
        rw [hflat]
        rfl
      exact ⟨⟨hbytes ▸ h.carried, h.between.of_timeout hflat⟩, hbytes⟩
  | cons first sent =>
      -- the first frame is there as a whole, so that the read does not end with a timeout
      obtain ⟨payload, hpayload, hsmall⟩ :=
        hwritable first (hsent.subset List.mem_cons_self)
      rw [wire_cons_of_lt hpayload hsmall] at hlost
      rw [hlost, quietly_append, List.append_assoc] at hflat
      obtain ⟨mid, hmid, hchecked⟩ := readFrame_of_quietly hsmall hflat
      obtain ⟨left, hexact, -⟩ := readExact_of_quietly hmid
      rw [hframe, hexact] at hchecked
      by_cases hbig : MAX_FRAME < payload.length
      · rw [if_pos hbig, Outcome.err.injEq] at hchecked
        exact absurd hchecked.1 hkind
      · rw [if_neg hbig] at hchecked
        cases hchecked

/-- While a read waits, only bytes have come. -/
theorem quiet_of_blocked {stream : TcpStream} (h : readMsg stream = .blocked) :
    ∃ got, flat stream = quietly got := by
  have hframe : readFrame stream = .blocked := by
    unfold readMsg at h
    cases hframe : readFrame stream with
    | blocked => rfl
    | err kind rest =>
        rw [hframe] at h
        cases h
    | ok payload rest =>
        rw [hframe] at h
        cases hmsg : Postcard.fromBytes payload <;> simp [Outcome.andThen, hmsg] at h
  unfold readFrame at hframe
  have hheader := readExact_cases stream 4
  generalize readExact stream 4 = outcome at hframe hheader
  cases hheader with
  | blocked got hlength hflat => exact ⟨got, hflat⟩
  | err lost kind rest hlength hflat => cases hframe
  | ok lenBuf rest hlength hflat =>
      change (if MAX_FRAME < beValue lenBuf then _ else _) = _ at hframe
      split at hframe
      · cases hframe
      · have hbody := readExact_cases rest (beValue lenBuf)
        rw [hframe] at hbody
        cases hbody with
        | blocked got _ hrest => exact ⟨lenBuf ++ got, by rw [hflat, hrest, quietly_append]⟩

omit [Postcard] in
theorem messagesOf_append (events more : List TransportEvent) :
    messagesOf (events ++ more) = messagesOf events ++ messagesOf more :=
  List.filterMap_append

omit [Postcard] in
/-- An event that a reader with this id sends. -/
def FromReader (peerId : UInt32) (event : TransportEvent) : Prop :=
  (∃ msg, event = .message peerId msg) ∨ event = .peerDisconnected peerId

/-- What a reader has delivered of what was written, and what it has not read yet. -/
structure Reads (peerId : UInt32) (msgs : List ProtocolMessage) (stream : TcpStream)
    (reader : Reader) (events : List TransportEvent) : Prop where
  delivered : messagesOf events <+: msgs
  from_reader : ∀ event ∈ events, FromReader peerId event
  rest : ∀ left, reader = .reading left → ∃ unread, msgs = messagesOf events ++ unread ∧
    AtFrame unread left ∧
    bytesOf (flat stream) = wire (messagesOf events) ++ bytesOf (flat left)

theorem Reads.turn (hcodec : Postcard.RoundTrips) {peerId : UInt32}
    {msgs : List ProtocolMessage} (hwritable : ∀ msg ∈ msgs, Writable msg) {stream : TcpStream}
    {reader last : Reader} {events out : List TransportEvent}
    (h : Reads peerId msgs stream reader events)
    (hturn : readerTurn peerId reader () = some (last, out)) :
    Reads peerId msgs stream last (events ++ out) := by
  cases reader with
  | exited => cases hturn
  | reading left =>
      obtain ⟨unread, rfl, hframe, hbytes⟩ := h.rest left rfl
      have hunread : ∀ msg ∈ unread, Writable msg := fun msg hmsg =>
        hwritable msg (List.mem_append_right _ hmsg)
      simp only [readerTurn] at hturn
      cases hread : readMsg left with
      | blocked =>
          rw [hread] at hturn
          cases hturn
      | ok msg rest =>
          rw [hread] at hturn
          cases hturn
          obtain ⟨more, rfl, hmore, hcut⟩ := hframe.of_ok hcodec hunread hread
          have hevents : messagesOf (events ++ [.message peerId msg]) =
              messagesOf events ++ [msg] := messagesOf_append _ _
          refine ⟨?_, ?_, fun found hfound => ?_⟩
          · rw [hevents, List.prefix_append_right_inj]
            exact List.cons_prefix_cons.mpr ⟨rfl, List.nil_prefix⟩
          · intro event hevent
            rcases List.mem_append.mp hevent with hold | hnew
            · exact h.from_reader event hold
            · exact .inl ⟨msg, List.mem_singleton.mp hnew⟩
          · cases hfound
            refine ⟨more, by rw [hevents]; simp, hmore, ?_⟩
            rw [hevents, wire_append, hbytes, hcut, List.append_assoc]
      | err kind rest =>
          rw [hread] at hturn
          dsimp only at hturn
          by_cases htimeout : kind.IsTimeout
          · rw [if_pos htimeout] at hturn
            cases hturn
            rw [List.append_nil]
            obtain ⟨hsame, hkept⟩ := hframe.of_timeout hunread htimeout hread
            refine ⟨h.delivered, h.from_reader, fun found hfound => ?_⟩
            cases hfound
            exact ⟨unread, rfl, hsame, by rw [hbytes, hkept]⟩
          · rw [if_neg htimeout] at hturn
            cases hturn
            have hevents : messagesOf (events ++ [.peerDisconnected peerId]) =
                messagesOf events := by simp [messagesOf]
            refine ⟨by rw [hevents]; exact h.delivered, ?_, fun found hfound => by cases hfound⟩
            intro event hevent
            rcases List.mem_append.mp hevent with hold | hnew
            · exact h.from_reader event hold
            · exact .inr (List.mem_singleton.mp hnew)

/-- A reader that waits has delivered every frame that has arrived as a whole. -/
theorem Reads.waiting (hcodec : Postcard.RoundTrips) {peerId : UInt32}
    {msgs whole : List ProtocolMessage} {stream left : TcpStream} {events : List TransportEvent}
    (h : Reads peerId msgs stream (.reading left) events)
    (hwaits : readerTurn peerId (.reading left) () = none)
    (hwritable : ∀ msg ∈ whole, Writable msg) (hwhole : whole <+: msgs)
    (harrived : wire whole <+: bytesOf (flat stream)) : whole <+: messagesOf events := by
  obtain ⟨unread, hmsgs, -, hbytes⟩ := h.rest left rfl
  by_cases hle : whole.length ≤ (messagesOf events).length
  · exact List.prefix_of_prefix_length_le hwhole h.delivered hle
  obtain ⟨rest, rfl⟩ :=
    List.prefix_of_prefix_length_le h.delivered hwhole (Nat.le_of_not_le hle)
  cases rest with
  | nil => simp at hle
  | cons msg rest =>
      -- the frame of `msg` has arrived, so that the reader would not wait
      obtain ⟨payload, hpayload, hlength⟩ :=
        hwritable msg (List.mem_append_right _ List.mem_cons_self)
      rw [hbytes, wire_append, List.prefix_append_right_inj,
        wire_cons_of_lt hpayload hlength] at harrived
      obtain ⟨more, hmore⟩ := harrived
      have hblocked : readMsg left = .blocked := by
        simp only [readerTurn] at hwaits
        cases hread : readMsg left with
        | blocked => rfl
        | ok found rest =>
            rw [hread] at hwaits
            cases hwaits
        | err kind rest =>
            rw [hread] at hwaits
            dsimp only at hwaits
            split at hwaits <;> cases hwaits
      obtain ⟨got, hgot⟩ := quiet_of_blocked hblocked
      have hflat : flat left = quietly (frameBytes payload) ++ quietly (wire rest ++ more) := by
        rw [hgot, ← bytesOf_quietly got, ← hgot, ← hmore, ← quietly_append, List.append_assoc]
      by_cases hbig : MAX_FRAME < payload.length
      · obtain ⟨mid, -, hchecked⟩ := readFrame_of_quietly hlength hflat
        rw [if_pos hbig] at hchecked
        unfold readMsg at hblocked
        rw [hchecked] at hblocked
        cases hblocked
      · obtain ⟨after, hread, -⟩ :=
          readerTurn_of_message hcodec peerId hpayload (Nat.le_of_not_lt hbig) hflat
        rw [hread] at hwaits
        cases hwaits

/-! ## The two ends -/

/-- The thread that `spawn_tcp_listener` starts for a connection, and then its reader
thread; what they write is left out. -/
inductive Acceptor where
  | handshake (stream : TcpStream)
  | serving (peerId : UInt32) (reader : Reader)
  | returned

def acceptorTurn : Machine Acceptor Unit TransportEvent
  | .handshake stream, _ =>
      match readMsg stream with
      | .ok (.hello peerId _) rest => some (.serving peerId (.reading rest), [])
      | .ok _ _ => some (.returned, [])
      | .err _ _ => some (.returned, [])
      | .blocked => none
  | .serving peerId reader, _ =>
      match readerTurn peerId reader () with
      | none => none
      | some (reader, out) => some (.serving peerId reader, out)
  | .returned, _ => none

/-- The result of the writes of one `write_msg`. -/
inductive WriteResult where
  | done
  /-- an error, once the socket has taken some bytes -/
  | fails (count : Nat)

/-- A TCP connection of `connect_peer`, as it is written to. -/
structure Outgoing where
  bytes : List UInt8
  /-- what `write_msg` has written -/
  whole : List ProtocolMessage
  /-- what it has failed to write -/
  failed : Option ProtocolMessage
deriving DecidableEq

namespace Outgoing

def new : Outgoing := ⟨[], [], none⟩

/-- What `write_msg` was called with, from `Hello` on. -/
def tried (c : Outgoing) : List ProtocolMessage := c.whole ++ c.failed.toList

/-- What was taken from the channel for this connection. -/
def taken (c : Outgoing) : List ProtocolMessage := c.tried.tail

/-- `write_msg`, and whether it returns `Ok`. -/
def write (c : Outgoing) (msg : ProtocolMessage) (result : WriteResult) : Outgoing × Bool :=
  match writeMsg msg with
  | .error _ => ({ c with failed := some msg }, false)
  | .ok frame =>
      match result with
      | .done => ({ c with bytes := c.bytes ++ frame, whole := c.whole ++ [msg] }, true)
      | .fails count =>
          ({ c with bytes := c.bytes ++ frame.take count, failed := some msg }, false)

end Outgoing

/-- Where the thread of `connect_peer` is. -/
inductive DialPoint where
  | connecting
  /-- after `Hello` -/
  | greeted
  /-- in its writer loop -/
  | writing
deriving DecidableEq

/-- The thread of `connect_peer` and its channel. -/
structure Dialler where
  /-- what `rx_out` holds -/
  outbound : List ProtocolMessage
  point : DialPoint
  /-- its connections, the last one first -/
  connections : List Outgoing

inductive DialStep where
  /-- someone sends on the channel -/
  | send (msg : ProtocolMessage)
  /-- `TcpStream::connect` succeeds and `Hello` is written -/
  | connect (result : WriteResult)
  /-- the right `HelloAck` comes, or not -/
  | ack (ok : Bool)
  /-- `rx_out.recv()` returns a message, and it is written -/
  | write (result : WriteResult)

def Dialler.new : Dialler := ⟨[], .connecting, []⟩

/-- The outputs are the messages that are taken from the channel. -/
def Dialler.next (selfId : UInt32) (key : Blockchain.PubkeyType) :
    Machine Dialler DialStep ProtocolMessage := fun s step =>
  match step with
  | .send msg => some ({ s with outbound := s.outbound ++ [msg] }, [])
  | .connect result =>
      if s.point = .connecting then
        let (c, ok) := Outgoing.new.write (.hello selfId key) result
        some ({ s with point := if ok then .greeted else .connecting,
                       connections := c :: s.connections }, [])
      else none
  | .ack ok =>
      if s.point = .greeted then
        some ({ s with point := if ok then .writing else .connecting }, [])
      else none
  | .write result =>
      match s.point, s.outbound, s.connections with
      | .writing, msg :: rest, c :: earlier =>
          let (c, ok) := c.write msg result
          some (⟨rest, if ok then .writing else .connecting, c :: earlier⟩, [msg])
      | _, _, _ => none

def DialStep.sent : DialStep → Option ProtocolMessage
  | .send msg => some msg
  | _ => none

/-- What was sent on the channel. -/
def sends (steps : List DialStep) : List ProtocolMessage := steps.filterMap DialStep.sent

/-! ## What is written -/

/-- The bytes of a connection are whole frames, and the first part of the one whose write
failed. -/
structure WellWritten (hello : ProtocolMessage) (c : Outgoing) : Prop where
  hello_first : c.tried.head? = some hello
  writable : ∀ msg ∈ c.whole, Writable msg
  whole_le : wire c.whole <+: c.bytes
  le_tried : c.bytes <+: wire c.tried

/-- The connection may still be written to. -/
structure Unbroken (c : Outgoing) : Prop where
  failed_eq : c.failed = none
  bytes_eq : c.bytes = wire c.whole
  writable : ∀ msg ∈ c.whole, Writable msg

theorem Unbroken.tried_eq {c : Outgoing} (h : Unbroken c) : c.tried = c.whole := by
  simp [Outgoing.tried, h.failed_eq]

theorem wire_snoc {msg : ProtocolMessage} {frame : List UInt8}
    (hwrite : writeMsg msg = .ok frame) (msgs : List ProtocolMessage) :
    wire (msgs ++ [msg]) = wire msgs ++ frame := by
  rw [wire_append]
  simp [wire, hwrite]

/-- What a call of `write_msg` leaves on a connection. -/
inductive WriteCase (c : Outgoing) (msg : ProtocolMessage) : Outgoing × Bool → Prop where
  | done (c' : Outgoing) (htried : c'.tried = c.tried ++ [msg]) (hunbroken : Unbroken c') :
      WriteCase c msg (c', true)
  | failed (c' : Outgoing) (htried : c'.tried = c.tried ++ [msg])
      (hwhole : c'.whole = c.whole) (hbytes : c.bytes <+: c'.bytes)
      (hle : c'.bytes <+: wire c'.tried) : WriteCase c msg (c', false)

theorem Unbroken.write_cases {c : Outgoing} (h : Unbroken c) (msg : ProtocolMessage)
    (result : WriteResult) : WriteCase c msg (c.write msg result) := by
  have htried := h.tried_eq
  unfold Outgoing.write
  cases hwrite : writeMsg msg with
  | error kind =>
      refine .failed _ (by rw [htried]; rfl) rfl List.prefix_rfl ?_
      show c.bytes <+: wire (c.whole ++ [msg])
      rw [wire_append, h.bytes_eq]
      exact List.prefix_append _ _
  | ok frame =>
      have hwire := wire_snoc hwrite c.whole
      cases result with
      | done =>
          refine .done _ ?_ ⟨h.failed_eq, ?_, ?_⟩
          · rw [htried]
            simp [Outgoing.tried, h.failed_eq]
          · rw [hwire, h.bytes_eq]
          · intro other hother
            rcases List.mem_append.mp hother with hold | hnew
            · exact h.writable other hold
            · obtain ⟨payload, hpayload, hlength, -⟩ := writeMsg_eq_ok hwrite
              rw [List.mem_singleton.mp hnew]
              exact ⟨payload, hpayload, hlength⟩
      | fails count =>
          refine .failed _ (by rw [htried]; rfl) rfl (List.prefix_append _ _) ?_
          show c.bytes ++ frame.take count <+: wire (c.whole ++ [msg])
          rw [hwire, h.bytes_eq, List.prefix_append_right_inj]
          exact List.take_prefix count frame

theorem Unbroken.wellWritten {hello : ProtocolMessage} {c : Outgoing} (h : Unbroken c)
    (hhello : c.tried.head? = some hello) : WellWritten hello c where
  hello_first := hhello
  writable := h.writable
  whole_le := h.bytes_eq ▸ List.prefix_rfl
  le_tried := h.bytes_eq.trans (congrArg wire h.tried_eq.symm) ▸ List.prefix_rfl

theorem Unbroken.wellWritten_failed {hello msg : ProtocolMessage} {c c' : Outgoing}
    (h : Unbroken c) (hhello : (c.tried ++ [msg]).head? = some hello)
    (htried : c'.tried = c.tried ++ [msg]) (hwhole : c'.whole = c.whole)
    (hbytes : c.bytes <+: c'.bytes) (hle : c'.bytes <+: wire c'.tried) :
    WellWritten hello c' where
  hello_first := by rw [htried, hhello]
  writable := by rw [hwhole]; exact h.writable
  whole_le := by rw [hwhole, ← h.bytes_eq]; exact hbytes
  le_tried := hle

/-- A connection that could be written to is well written after the next write, and if this
did not fail it can be written to again. -/
theorem Unbroken.write {hello msg : ProtocolMessage} {c c' : Outgoing} {result : WriteResult}
    {ok : Bool} (h : Unbroken c) (hhello : (c.tried ++ [msg]).head? = some hello)
    (hwrite : c.write msg result = (c', ok)) :
    c'.tried = c.tried ++ [msg] ∧ WellWritten hello c' ∧ (ok = true → Unbroken c') := by
  have hcase := h.write_cases msg result
  rw [hwrite] at hcase
  cases hcase with
  | done _ htried hunbroken =>
      exact ⟨htried, hunbroken.wellWritten (by rw [htried, hhello]), fun _ => hunbroken⟩
  | failed _ htried hwhole hbytes hle =>
      exact ⟨htried, h.wellWritten_failed hhello htried hwhole hbytes hle, fun hok => nomatch hok⟩

/-- What was taken for a connection, after one more message. -/
theorem WellWritten.taken_eq {hello msg : ProtocolMessage} {c c' : Outgoing}
    (h : WellWritten hello c) (htried : c'.tried = c.tried ++ [msg]) :
    c'.taken = c.taken ++ [msg] := by
  have hne : c.tried ≠ [] := by
    intro hnil
    have hfirst := h.hello_first
    rw [hnil] at hfirst
    cases hfirst
  rw [Outgoing.taken, htried]
  exact List.tail_append_of_ne_nil hne

/-- The state of the thread after some steps. -/
structure Dials (hello : ProtocolMessage) (steps : List DialStep) (s : Dialler)
    (taken : List ProtocolMessage) : Prop where
  sends_eq : sends steps = taken ++ s.outbound
  taken_eq : taken = s.connections.reverse.flatMap Outgoing.taken
  written : ∀ c ∈ s.connections, WellWritten hello c
  current : s.point ≠ .connecting → ∃ c earlier, s.connections = c :: earlier ∧ Unbroken c

omit [Postcard] in
theorem sends_snoc (steps : List DialStep) {step : DialStep} (h : step.sent = none) :
    sends (steps ++ [step]) = sends steps := by
  simp [sends, h]

omit [Postcard] in
/-- The thread stays with a connection only after a write that did not fail. -/
theorem ok_of_ne_connecting {point : DialPoint} {ok : Bool}
    (h : (if ok then point else .connecting) ≠ DialPoint.connecting) : ok = true := by
  cases ok with
  | false => exact absurd rfl h
  | true => rfl

theorem Dials.step {selfId : UInt32} {key : Blockchain.PubkeyType} {steps : List DialStep}
    {s last : Dialler} {taken out : List ProtocolMessage} {step : DialStep}
    (h : Dials (.hello selfId key) steps s taken)
    (hnext : s.next selfId key step = some (last, out)) :
    Dials (.hello selfId key) (steps ++ [step]) last (taken ++ out) := by
  cases step with
  | send msg =>
      cases hnext
      rw [List.append_nil]
      refine ⟨?_, h.taken_eq, h.written, h.current⟩
      have hsends : sends (steps ++ [.send msg]) = sends steps ++ [msg] := by
        simp [sends, DialStep.sent]
      rw [hsends, h.sends_eq, List.append_assoc]
  | connect result =>
      simp only [Dialler.next] at hnext
      split at hnext
      · generalize hwrite : Outgoing.new.write (.hello selfId key) result = written at hnext
        obtain ⟨c, ok⟩ := written
        cases hnext
        have hnew : Unbroken Outgoing.new := ⟨rfl, rfl, by simp [Outgoing.new]⟩
        obtain ⟨htried, hwritten, hkept⟩ := hnew.write rfl hwrite
        have htaken : c.taken = [] := by
          rw [Outgoing.taken, htried]
          rfl
        rw [List.append_nil]
        refine ⟨by rw [sends_snoc steps rfl, h.sends_eq], ?_, ?_,
          fun hpoint => ⟨c, s.connections, rfl, hkept (ok_of_ne_connecting hpoint)⟩⟩
        · simp [htaken, h.taken_eq]
        · exact List.forall_mem_cons.mpr ⟨hwritten, h.written⟩
      · cases hnext
  | ack ok =>
      simp only [Dialler.next] at hnext
      split at hnext
      · rename_i hpoint
        cases hnext
        rw [List.append_nil]
        refine ⟨by rw [sends_snoc steps rfl, h.sends_eq], h.taken_eq, h.written, fun _ => ?_⟩
        exact h.current (by rw [hpoint]; decide)
      · cases hnext
  | write result =>
      simp only [Dialler.next] at hnext
      split at hnext
      · rename_i msg rest c earlier hpoint houtbound hconnections
        generalize hwrite : c.write msg result = written at hnext
        obtain ⟨c', ok⟩ := written
        cases hnext
        obtain ⟨c₀, earlier₀, hcons, hunbroken⟩ := h.current (by rw [hpoint]; decide)
        cases hconnections.symm.trans hcons
        have hall := h.written
        rw [hconnections, List.forall_mem_cons] at hall
        have hhead : (c.tried ++ [msg]).head? = some (.hello selfId key) := by
          rw [List.head?_append, hall.1.hello_first]
          rfl
        obtain ⟨htried, hwritten, hkept⟩ := hunbroken.write hhead hwrite
        refine ⟨?_, ?_, List.forall_mem_cons.mpr ⟨hwritten, hall.2⟩,
          fun hpoint => ⟨c', earlier, rfl, hkept (ok_of_ne_connecting hpoint)⟩⟩
        · rw [sends_snoc steps rfl, h.sends_eq, houtbound]
          simp
        · rw [h.taken_eq, hconnections]
          simp [hall.1.taken_eq htried]
      · cases hnext

theorem run_dials {selfId : UInt32} {key : Blockchain.PubkeyType} {steps : List DialStep}
    {last : Dialler} {taken : List ProtocolMessage}
    (hrun : Run (Dialler.next selfId key) Dialler.new steps last taken) :
    Dials (.hello selfId key) steps last taken := by
  induction hrun with
  | start => exact ⟨rfl, rfl, by simp [Dialler.new], fun hpoint => absurd rfl hpoint⟩
  | step _ hnext ih => exact ih.step hnext

/-! ## What is delivered -/

/-- A first part of the bytes of a connection arrives, and no timeout inside a frame. -/
structure Carries (c : Outgoing) (stream : TcpStream) : Prop where
  arrived : bytesOf (flat stream) <+: c.bytes
  between : TimeoutsAtFrames c.tried stream

/-- The messages that the bytes of a connection begin. -/
theorem WellWritten.exists_atFrame {hello : ProtocolMessage} {c : Outgoing}
    (h : WellWritten hello c) {stream : TcpStream} (hcarries : Carries c stream) :
    ∃ msgs, c.whole <+: msgs ∧ msgs <+: c.tried ∧ (∀ msg ∈ msgs, Writable msg) ∧
      AtFrame msgs stream := by
  have hle := hcarries.arrived.trans h.le_tried
  have hbetween := hcarries.between
  unfold Outgoing.tried at hle hbetween ⊢
  cases hfailed : c.failed with
  | none =>
      rw [hfailed, Option.toList_none, List.append_nil] at hle hbetween
      exact ⟨c.whole, List.prefix_rfl, List.prefix_append _ _, h.writable, hle, hbetween⟩
  | some msg =>
      rw [hfailed, Option.toList_some] at hle hbetween
      cases hwrite : writeMsg msg with
      | ok frame =>
          obtain ⟨payload, hpayload, hlength, -⟩ := writeMsg_eq_ok hwrite
          refine ⟨c.whole ++ [msg], List.prefix_append _ _, List.prefix_rfl, ?_, hle, hbetween⟩
          intro other hother
          rcases List.mem_append.mp hother with hold | hnew
          · exact h.writable other hold
          · rw [List.mem_singleton.mp hnew]
            exact ⟨payload, hpayload, hlength⟩
      | error kind =>
          -- a message that is not serialised puts no bytes on the connection
          have hnone : wire (c.whole ++ [msg]) = wire c.whole := by
            rw [wire_append]
            simp [wire, hwrite]
          rw [hnone] at hle
          refine ⟨c.whole, List.prefix_rfl, List.prefix_append _ _, h.writable, hle, ?_⟩
          intro before found after htimeout hflat
          obtain ⟨sent, hsent, hbytes⟩ := hbetween before found after htimeout hflat
          rcases List.prefix_concat_iff.mp hsent with rfl | hwhole
          · exact ⟨c.whole, List.prefix_rfl, by rw [hbytes, hnone]⟩
          · exact ⟨sent, hwhole, hbytes⟩

/-- Where the thread of an accepted connection is. -/
inductive Accepts (selfId : UInt32) (key : Blockchain.PubkeyType)
    (msgs : List ProtocolMessage) (stream : TcpStream) :
    Acceptor → List TransportEvent → Prop where
  | handshake : Accepts selfId key msgs stream (.handshake stream) []
  | returned : Accepts selfId key msgs stream .returned []
  | serving (more : List ProtocolMessage) (rest : TcpStream) (reader : Reader)
      (events : List TransportEvent) (hmsgs : msgs = .hello selfId key :: more)
      (hbytes : bytesOf (flat stream) = wire [.hello selfId key] ++ bytesOf (flat rest))
      (hreads : Reads selfId more rest reader events) :
      Accepts selfId key msgs stream (.serving selfId reader) events

theorem Accepts.turn (hcodec : Postcard.RoundTrips) {selfId : UInt32}
    {key : Blockchain.PubkeyType} {msgs : List ProtocolMessage}
    (hwritable : ∀ msg ∈ msgs, Writable msg) {stream : TcpStream} (hframe : AtFrame msgs stream)
    (hhello : ∀ msg ∈ msgs.head?, msg = .hello selfId key) {acceptor last : Acceptor}
    {events out : List TransportEvent} (h : Accepts selfId key msgs stream acceptor events)
    (hturn : acceptorTurn acceptor () = some (last, out)) :
    Accepts selfId key msgs stream last (events ++ out) := by
  cases h with
  | returned => cases hturn
  | handshake =>
      simp only [acceptorTurn] at hturn
      cases hread : readMsg stream with
      | blocked =>
          rw [hread] at hturn
          cases hturn
      | err kind rest =>
          rw [hread] at hturn
          cases hturn
          exact .returned
      | ok msg rest =>
          obtain ⟨more, rfl, hmore, hbytes⟩ := hframe.of_ok hcodec hwritable hread
          obtain rfl := hhello msg rfl
          rw [hread] at hturn
          cases hturn
          refine .serving more rest _ [] rfl hbytes ⟨List.nil_prefix, by simp, ?_⟩
          intro left hleft
          cases hleft
          exact ⟨more, rfl, hmore, rfl⟩
  | serving more rest reader events hmsgs hbytes hreads =>
      simp only [acceptorTurn] at hturn
      cases hreader : readerTurn selfId reader () with
      | none =>
          rw [hreader] at hturn
          cases hturn
      | some reached =>
          obtain ⟨reader', new⟩ := reached
          rw [hreader] at hturn
          cases hturn
          have hmore : ∀ msg ∈ more, Writable msg := fun msg hmsg =>
            hwritable msg (by rw [hmsgs]; exact List.mem_cons_of_mem _ hmsg)
          exact .serving more rest reader' _ hmsgs hbytes (hreads.turn hcodec hmore hreader)

theorem WellWritten.accepts (hcodec : Postcard.RoundTrips) {selfId : UInt32}
    {key : Blockchain.PubkeyType} {c : Outgoing} (h : WellWritten (.hello selfId key) c)
    {stream : TcpStream} (hcarries : Carries c stream) {turns : List Unit} {last : Acceptor}
    {events : List TransportEvent}
    (hrun : Run acceptorTurn (.handshake stream) turns last events) :
    ∃ msgs, c.whole <+: msgs ∧ msgs <+: c.tried ∧
      Accepts selfId key msgs stream last events := by
  obtain ⟨msgs, hwhole, htried, hwritable, hframe⟩ := h.exists_atFrame hcarries
  have hhello : ∀ msg ∈ msgs.head?, msg = .hello selfId key := by
    intro msg hmsg
    obtain ⟨more, hmore⟩ := htried
    have hfirst := h.hello_first
    rw [← hmore, List.head?_append, hmsg] at hfirst
    exact Option.some.inj hfirst
  exact ⟨msgs, hwhole, htried, hrun.invariant_outputs .handshake
    fun s outputs i t out hs hnext => hs.turn hcodec hwritable hframe hhello hnext⟩

theorem Accepts.delivered {selfId : UInt32} {key : Blockchain.PubkeyType}
    {msgs : List ProtocolMessage} {stream : TcpStream} {acceptor : Acceptor}
    {events : List TransportEvent} (h : Accepts selfId key msgs stream acceptor events) :
    messagesOf events <+: msgs.tail ∧ ∀ event ∈ events, FromReader selfId event := by
  cases h with
  | handshake => exact ⟨List.nil_prefix, by simp⟩
  | returned => exact ⟨List.nil_prefix, by simp⟩
  | serving more rest reader events hmsgs hbytes hreads =>
      rw [hmsgs]
      exact ⟨hreads.delivered, hreads.from_reader⟩

omit [Postcard] in
theorem tail_prefix_tail {α : Type} {xs ys : List α} (h : xs <+: ys) : xs.tail <+: ys.tail := by
  cases xs with
  | nil => exact List.nil_prefix
  | cons x xs =>
      obtain ⟨rest, rfl⟩ := h
      exact ⟨rest, rfl⟩

/-- The thread of an accepted connection among those of the others; the channel that all
of them send on is the sequence of outputs. -/
def acceptorAct : Act Unit Acceptor Unit TransportEvent := fun _ acceptor _ =>
  match acceptorTurn acceptor () with
  | none => none
  | some (acceptor, out) => some ((), acceptor, out)

omit [Postcard] in
theorem messagesOf_flatMap {κ : Type} (keys : List κ) (events : κ → List TransportEvent) :
    messagesOf (keys.flatMap events) = keys.flatMap fun k => messagesOf (events k) :=
  List.filterMap_flatMap

theorem acceptorTurn_of_act (shared : Unit) (acceptor : Acceptor) (turn shared' : Unit)
    (last : Acceptor) (out : List TransportEvent)
    (h : acceptorAct shared acceptor turn = some (shared', last, out)) :
    acceptorTurn acceptor turn = some (last, out) := by
  unfold acceptorAct at h
  split at h
  · cases h
  · cases h
    assumption

omit [Postcard] in
/-- If every thread delivers a first part of what was taken for its connection, then over all
connections no message is delivered more often than it was taken. -/
theorem subperm_taken {connections : List Outgoing}
    {events : List (Fin connections.length × TransportEvent)}
    (h : ∀ k, messagesOf (outputsOf k events) <+: (connections.get k).taken) :
    (messagesOf (events.map Prod.snd)).Subperm
      (connections.reverse.flatMap Outgoing.taken) := by
  have hperm := perm_flatMap_outputsOf (List.nodup_finRange _) events
    fun event _ => List.mem_finRange event.1
  have hmessages : (messagesOf (events.map Prod.snd)).Perm
      ((List.finRange _).flatMap fun k => messagesOf (outputsOf k events)) := by
    rw [← messagesOf_flatMap]
    exact hperm.symm.filterMap _
  have hsublist : ((List.finRange _).flatMap fun k => messagesOf (outputsOf k events)).Sublist
      ((List.finRange _).flatMap fun k => (connections.get k).taken) :=
    List.Sublist.flatMap_right _ fun k _ => (h k).sublist
  have hconnections : ((List.finRange _).flatMap fun k => (connections.get k).taken).Perm
      (connections.reverse.flatMap Outgoing.taken) := by
    have hall := List.map_get_finRange connections
    rw [← List.flatMap_map, hall]
    exact (List.reverse_perm _).symm.flatMap_right _
  exact hmessages.subperm.trans (hsublist.subperm.trans hconnections.subperm)

/-- Whatever happens to the connections of a link, and in whatever order the threads at the
other end take turns: on each connection the other end delivers a first part of the
messages that were taken for it, and these are, one connection after the other, the first
messages that were sent.  Over all connections no message is delivered more often than it
was sent.  All of them come under the id of this node. -/
theorem run_link_delivers (hcodec : Postcard.RoundTrips) {selfId : UInt32}
    {key : Blockchain.PubkeyType} {steps : List DialStep} {last : Dialler}
    {taken : List ProtocolMessage}
    (hrun : Run (Dialler.next selfId key) Dialler.new steps last taken)
    {streams : Fin last.connections.length → TcpStream}
    (hcarries : ∀ k, Carries (last.connections.get k) (streams k))
    {turns : List (Fin last.connections.length × Unit)}
    {threads : Threads Unit Acceptor (Fin last.connections.length)}
    {events : List (Fin last.connections.length × TransportEvent)}
    (haccept : Run (interleave acceptorAct) ⟨(), fun k => .handshake (streams k)⟩ turns threads
      events) :
    (∀ k, messagesOf (outputsOf k events) <+: (last.connections.get k).taken) ∧
      last.connections.reverse.flatMap Outgoing.taken <+: sends steps ∧
      (messagesOf (events.map Prod.snd)).Subperm (sends steps) ∧
      ∀ event ∈ events, FromReader selfId event.2 := by
  have hdials := run_dials hrun
  have hthread : ∀ k, messagesOf (outputsOf k events) <+: (last.connections.get k).taken ∧
      ∀ event ∈ outputsOf k events, FromReader selfId event := by
    intro k
    obtain ⟨own, hown⟩ := haccept.thread_alone acceptorTurn_of_act k
    obtain ⟨msgs, -, htried, hcase⟩ :=
      (hdials.written _ (List.get_mem _ k)).accepts hcodec (hcarries k) hown
    exact ⟨hcase.delivered.1.trans (tail_prefix_tail htried), hcase.delivered.2⟩
  have htaken : last.connections.reverse.flatMap Outgoing.taken <+: sends steps :=
    ⟨last.outbound, by rw [hdials.sends_eq, hdials.taken_eq]⟩
  refine ⟨fun k => (hthread k).1, htaken,
    (subperm_taken fun k => (hthread k).1).trans htaken.sublist.subperm, ?_⟩
  rintro ⟨k, event⟩ hevent
  apply (hthread k).2
  exact List.mem_map.mpr ⟨(k, event), List.mem_filter.mpr ⟨hevent, by simp⟩, rfl⟩

/-- On a connection that is served, everything that was written without an error and has
arrived is delivered by the time the reader waits. -/
theorem run_link_lossless (hcodec : Postcard.RoundTrips) {selfId : UInt32}
    {key : Blockchain.PubkeyType} {steps : List DialStep} {last : Dialler}
    {taken : List ProtocolMessage}
    (hrun : Run (Dialler.next selfId key) Dialler.new steps last taken) {c : Outgoing}
    (hc : c ∈ last.connections) {stream : TcpStream} (hcarries : Carries c stream)
    (harrived : wire c.whole <+: bytesOf (flat stream))
    {turns : List Unit} {peerId : UInt32} {left : TcpStream} {events : List TransportEvent}
    (haccepts : Run acceptorTurn (.handshake stream) turns (.serving peerId (.reading left))
      events)
    (hwaits : acceptorTurn (.serving peerId (.reading left)) () = none) :
    c.whole.tail <+: messagesOf events ∧ messagesOf events <+: c.taken := by
  have hwritten := (run_dials hrun).written c hc
  have hwritable := hwritten.writable
  obtain ⟨msgs, hwhole, htried, hcase⟩ := hwritten.accepts hcodec hcarries haccepts
  refine ⟨?_, hcase.delivered.1.trans (tail_prefix_tail htried)⟩
  cases hcase with
  | serving more rest _ _ hmsgs hbytes hreads =>
      have hreader : readerTurn selfId (.reading left) () = none := by
        simp only [acceptorTurn] at hwaits
        split at hwaits
        · assumption
        · cases hwaits
      cases hall : c.whole with
      | nil => exact List.nil_prefix
      | cons first whole =>
          rw [hall] at hwhole harrived hwritable
          rw [hmsgs] at hwhole
          obtain ⟨rfl, hmore⟩ := List.cons_prefix_cons.mp hwhole
          have hcut : wire (.hello selfId key :: whole) =
              wire [.hello selfId key] ++ wire whole := wire_append [_] whole
          rw [hcut, hbytes, List.prefix_append_right_inj] at harrived
          exact hreads.waiting hcodec hreader
            (fun msg hmsg => hwritable msg (List.mem_cons_of_mem _ hmsg)) hmore harrived

end

namespace Sample

open B4n.Blockchain.Sample

/-- The second of three messages is torn: its write fails after three bytes. -/
private def dialSteps : List DialStep :=
  [.send .getStatus, .send (.getBlocks 3 10), .connect .done, .ack true, .write .done,
    .write (.fails 3), .connect (.fails 2), .send (.helloAck 9), .connect .done, .ack true,
    .write .done]

private def dialler : Dialler := (finish (Dialler.next 7 (seed 1)) .new dialSteps).1

/-- All that was written arrives, and then the connection is closed. -/
private def closedStream (c : Outgoing) : TcpStream := [.data c.bytes, .fault .unexpectedEof]

private theorem bytesOf_closedStream (c : Outgoing) :
    bytesOf (flat (closedStream c)) = c.bytes := by
  have hflat : flat (closedStream c) = quietly c.bytes ++ [.inr .unexpectedEof] := rfl
  rw [hflat, bytesOf_append, bytesOf_quietly]
  exact List.append_nil _

private theorem carries_closedStream (c : Outgoing) : Carries c (closedStream c) where
  arrived := (bytesOf_closedStream c).symm ▸ List.prefix_rfl
  between := by
    intro before kind after htimeout hflat
    have hmem : Sum.inr kind ∈ quietly c.bytes ++ [Sum.inr ErrorKind.unexpectedEof] := by
      have hall : flat (closedStream c) = quietly c.bytes ++ [.inr .unexpectedEof] := rfl
      rw [← hall, hflat]
      exact List.mem_append_right _ List.mem_cons_self
    rcases List.mem_append.mp hmem with hquiet | hlast
    · exact absurd hquiet (not_mem_quietly c.bytes kind)
    · cases List.mem_singleton.mp hlast
      rcases htimeout with htimeout | htimeout <;> cases htimeout

private theorem dialler_ok :
    (exec (Dialler.next 7 (seed 1)) .new dialSteps).isSome = true ∧
      dialler.connections.length = 3 := by
  decide +kernel

private abbrev Dialled := Fin dialler.connections.length

private def newest : Dialled := ⟨0, by rw [dialler_ok.2]; decide⟩

private def oldest : Dialled := ⟨2, by rw [dialler_ok.2]; decide⟩

/-- The thread of the oldest connection still reads when that of the newest one does. -/
private def turns : List (Dialled × Unit) :=
  [(oldest, ()), (newest, ()), (newest, ()), (oldest, ()), (oldest, ()), (newest, ())]

private def accepting : Threads Unit Acceptor Dialled :=
  ⟨(), fun k => .handshake (closedStream (dialler.connections.get k))⟩

private def linkEvents : List (Dialled × TransportEvent) :=
  (finish (interleave acceptorAct) accepting turns).2

private theorem accepting_ok :
    (exec (interleave acceptorAct) accepting turns).isSome = true ∧
      messagesOf (linkEvents.map Prod.snd) = [.helloAck 9, .getStatus] := by
  decide +kernel

/-- What was sent last is delivered first. -/
theorem run_link_delivers_swapped :
    messagesOf (linkEvents.map Prod.snd) = [.helloAck 9, .getStatus] ∧
      (∀ k, messagesOf (outputsOf k linkEvents) <+: (dialler.connections.get k).taken) ∧
      dialler.connections.reverse.flatMap Outgoing.taken <+:
        [.getStatus, .getBlocks 3 10, .helloAck 9] ∧
      (messagesOf (linkEvents.map Prod.snd)).Subperm [.getStatus, .getBlocks 3 10, .helloAck 9] ∧
      ∀ event ∈ linkEvents, FromReader 7 event.2 := by
  obtain ⟨haccept, hmessages⟩ := accepting_ok
  have hrun : Run (Dialler.next 7 (seed 1)) .new dialSteps dialler _ := run_finish dialler_ok.1
  have hthreads : Run (interleave acceptorAct) accepting turns _ linkEvents := run_finish haccept
  exact ⟨hmessages, run_link_delivers roundTrips hrun
    (fun k => carries_closedStream (dialler.connections.get k)) hthreads⟩

/-- The connection that has not failed, while its reader waits. -/
private def kept : Outgoing := dialler.connections.headD .new

private def keptLast : Acceptor × List TransportEvent :=
  finish acceptorTurn (.handshake [.data kept.bytes]) [(), ()]

private theorem kept_ok :
    (exec acceptorTurn (.handshake [.data kept.bytes]) [(), ()]).isSome = true ∧
      kept.whole = [.hello 7 (seed 1), .helloAck 9] ∧ kept.bytes = wire kept.whole ∧
      dialler.connections.head? = some kept ∧ keptLast.2 = [.message 7 (.helloAck 9)] := by
  decide +kernel

private theorem kept_serves :
    ∃ left, keptLast.1 = .serving 7 (.reading left) ∧
      acceptorTurn (.serving 7 (.reading left)) () = none :=
  ⟨[.data []], rfl, rfl⟩

theorem run_link_lossless_kept : [ProtocolMessage.helloAck 9] <+: messagesOf keptLast.2 := by
  obtain ⟨haccepts, hwhole, hbytes, hhead, -⟩ := kept_ok
  have hrun : Run (Dialler.next 7 (seed 1)) .new dialSteps dialler _ := run_finish dialler_ok.1
  have hturns : Run acceptorTurn (.handshake [.data kept.bytes]) [(), ()] keptLast.1 keptLast.2 :=
    run_finish haccepts
  obtain ⟨left, hleft, hwaits⟩ := kept_serves
  rw [hleft] at hturns
  have hflat : flat [.data kept.bytes] = quietly kept.bytes := List.append_nil _
  have harrived : bytesOf (flat [.data kept.bytes]) = kept.bytes := by
    rw [hflat, bytesOf_quietly]
  have hcarries : Carries kept [.data kept.bytes] := by
    refine ⟨harrived ▸ List.prefix_rfl, fun before kind after _ hsplit => ?_⟩
    apply absurd _ (not_mem_quietly kept.bytes kind)
    rw [← hflat, hsplit]
    exact List.mem_append_right _ List.mem_cons_self
  have hlossless := (run_link_lossless roundTrips hrun (List.mem_of_mem_head? hhead) hcarries
    (by rw [harrived, hbytes]) hturns hwaits).1
  rwa [hwhole] at hlossless

end Sample

end B4n.Transport
