import B4n.Transport.Reader

/-!
# The threads of a connection

A connection is set up by a thread of `spawn_tcp_listener` (accepted) or by the
thread of `connect_peer` (dialled).  After the handshake it has a reader thread
and a writer loop, which is a thread of its own on an accepted connection and
the rest of the connecting thread on a dialled one.  All of them send on
`tx_events`, and only the readers and the dialled writer look at the flag
`disconnect_sent` first.

A step is what one thread does until the others can see it; what the peer and
the socket do is an argument of the step.

## Main results

* `run_of_reader` — the reader loop over a stream does what the reader thread
  of a connection can do.
* `run_ordered_iff` — the events come in order exactly if the reader keeps to
  the time between `PeerConnected` and a failed write, and the writer reports
  only what the reader did not.
-/

namespace B4n.Transport

open B4n.Lib

/-! ## States -/

/-- Who set the connection up. -/
inductive Origin where
  | accepted
  | dialled (expectedPeerId : UInt32)
deriving DecidableEq

/-- The thread that sets the connection up. -/
inductive Setup where
  | handshaking
  | failed
  /-- the threads run, `PeerConnected` is not sent yet -/
  | spawned (peerId : UInt32)
  | announced (peerId : UInt32)
deriving DecidableEq

inductive ReaderThread where
  | notStarted
  | reading
  /-- `disconnect_sent` is set, `PeerDisconnected` is not sent yet -/
  | reporting
  | reported
  /-- `disconnect_sent` was set already -/
  | silenced
deriving DecidableEq

inductive WriterLoop where
  /-- in `rx_out.recv()`, or not there yet -/
  | receiving
  | writing (msg : ProtocolMessage)
  /-- the write failed, `PeerDisconnected` is not sent yet -/
  | reporting
  | reported
  /-- `disconnect_sent` was set already -/
  | silenced
  /-- the channel is closed -/
  | returned
deriving DecidableEq

structure Connection where
  setup : Setup
  reader : ReaderThread
  writer : WriterLoop
  disconnectSent : Bool
deriving DecidableEq

/-- A TCP connection before its handshake. -/
def Connection.new : Connection where
  setup := .handshaking
  reader := .notStarted
  writer := .receiving
  disconnectSent := false

/-- The peer id that the threads put into their events. -/
def Setup.peerId : Setup → Option UInt32
  | .handshaking => none
  | .failed => none
  | .spawned peerId => some peerId
  | .announced peerId => some peerId

/-! ## Steps -/

/-- What one thread does, and how the socket or the channel answers. -/
inductive ThreadStep where
  /-- the handshake ends, with the message of the peer if there is one and the
  stream can be cloned -/
  | handshake (reply : Option ProtocolMessage)
  | announce
  | read (result : Except ErrorKind ProtocolMessage)
  | reportRead
  /-- `rx_out.recv()` -/
  | receive (msg : Option ProtocolMessage)
  | write (ok : Bool)
  | reportWrite
deriving DecidableEq

/-- The peer id a handshake leads to: an accepted connection believes the
`Hello`, a dialled one compares the `HelloAck`. -/
def Origin.handshake : Origin → Option ProtocolMessage → Option UInt32
  | .accepted, some (.hello peerId _) => some peerId
  | .dialled expectedPeerId, some (.helloAck peerId) =>
      if peerId = expectedPeerId then some expectedPeerId else none
  | _, _ => none

namespace Connection

/-- The closure `send_disconnect` of a reader: set the flag, and send only if it
was not set. -/
def endReader (c : Connection) : Connection :=
  if c.disconnectSent then { c with reader := .silenced }
  else { c with reader := .reporting, disconnectSent := true }

/-- A failed write; only the dialled writer asks the flag. -/
def endWriter (origin : Origin) (c : Connection) : Connection :=
  match origin with
  | .accepted => { c with writer := .reporting }
  | .dialled _ =>
      if c.disconnectSent then { c with writer := .silenced }
      else { c with writer := .reporting, disconnectSent := true }

/-- A turn of the reader loop, by what `read_msg` returned. -/
def readTurn (c : Connection) (peerId : UInt32) :
    Except ErrorKind ProtocolMessage → Connection × List TransportEvent
  | .ok msg => (c, [.message peerId msg])
  | .error kind => if kind.IsTimeout then (c, []) else (c.endReader, [])

/-- The machine of a connection.  `sender` is the sending end of its `rx_out`,
which nobody outside has before `PeerConnected`. -/
def next (origin : Origin) (sender : Sender) :
    Machine Connection ThreadStep TransportEvent := fun c step =>
  match step, c.setup.peerId with
  | .handshake reply, none =>
      if c.setup = .handshaking then
        match origin.handshake reply with
        | none => some ({ c with setup := .failed }, [])
        | some peerId =>
            some ({ c with setup := .spawned peerId, reader := .reading }, [])
      else none
  | .announce, some peerId =>
      if c.setup = .spawned peerId then
        some ({ c with setup := .announced peerId },
          [.peerConnected peerId sender])
      else none
  | .read result, some peerId =>
      if c.reader = .reading then some (c.readTurn peerId result) else none
  | .reportRead, some peerId =>
      if c.reader = .reporting then
        some ({ c with reader := .reported }, [.peerDisconnected peerId])
      else none
  | .receive msg, some peerId =>
      if c.setup = .announced peerId ∧ c.writer = .receiving then
        match msg with
        | some msg => some ({ c with writer := .writing msg }, [])
        | none => some ({ c with writer := .returned }, [])
      else none
  | .write ok, some _ =>
      match c.writer with
      | .writing _ =>
          if ok then some ({ c with writer := .receiving }, [])
          else some (c.endWriter origin, [])
      | _ => none
  | .reportWrite, some peerId =>
      if c.writer = .reporting then
        some ({ c with writer := .reported }, [.peerDisconnected peerId])
      else none
  | _, _ => none

/-- What a step can do. -/
inductive StepCase (origin : Origin) (sender : Sender) (c : Connection) :
    ThreadStep → Connection → List TransportEvent → Prop where
  | refused (reply : Option ProtocolMessage) (hsetup : c.setup = .handshaking) :
      StepCase origin sender c (.handshake reply)
        { c with setup := .failed } []
  | spawned (reply : Option ProtocolMessage) (peerId : UInt32)
      (hsetup : c.setup = .handshaking)
      (hreply : origin.handshake reply = some peerId) :
      StepCase origin sender c (.handshake reply)
        { c with setup := .spawned peerId, reader := .reading } []
  | announced (peerId : UInt32) (hsetup : c.setup = .spawned peerId) :
      StepCase origin sender c .announce
        { c with setup := .announced peerId } [.peerConnected peerId sender]
  | message (msg : ProtocolMessage) (peerId : UInt32)
      (hid : c.setup.peerId = some peerId) (hreader : c.reader = .reading) :
      StepCase origin sender c (.read (.ok msg)) c [.message peerId msg]
  | timeout (kind : ErrorKind) (htimeout : kind.IsTimeout) :
      StepCase origin sender c (.read (.error kind)) c []
  | readFailed (kind : ErrorKind) (hreader : c.reader = .reading) :
      StepCase origin sender c (.read (.error kind)) c.endReader []
  | readReported (peerId : UInt32) (hid : c.setup.peerId = some peerId)
      (hreader : c.reader = .reporting) :
      StepCase origin sender c .reportRead { c with reader := .reported }
        [.peerDisconnected peerId]
  | received (msg : ProtocolMessage) (peerId : UInt32)
      (hsetup : c.setup = .announced peerId) (hwriter : c.writer = .receiving) :
      StepCase origin sender c (.receive (some msg))
        { c with writer := .writing msg } []
  | closed (peerId : UInt32) (hsetup : c.setup = .announced peerId)
      (hwriter : c.writer = .receiving) :
      StepCase origin sender c (.receive none) { c with writer := .returned } []
  | written (msg : ProtocolMessage) (hwriter : c.writer = .writing msg) :
      StepCase origin sender c (.write true)
        { c with writer := .receiving } []
  | writeFailed (msg : ProtocolMessage) (hwriter : c.writer = .writing msg) :
      StepCase origin sender c (.write false) (c.endWriter origin) []
  | writeReported (peerId : UInt32) (hid : c.setup.peerId = some peerId)
      (hwriter : c.writer = .reporting) :
      StepCase origin sender c .reportWrite { c with writer := .reported }
        [.peerDisconnected peerId]

theorem next_cases {origin : Origin} {sender : Sender} {c t : Connection}
    {step : ThreadStep} {out : List TransportEvent}
    (h : next origin sender c step = some (t, out)) :
    StepCase origin sender c step t out := by
  unfold next at h
  split at h
  · split at h
    · rename_i hsetup
      split at h
      · cases h
        exact .refused _ hsetup
      · rename_i peerId hreply
        cases h
        exact .spawned _ peerId hsetup hreply
    · cases h
  · split at h
    · rename_i hsetup
      cases h
      exact .announced _ hsetup
    · cases h
  · rename_i result peerId hid
    split at h
    · rename_i hreader
      cases result with
      | ok msg =>
          cases h
          exact .message msg peerId hid hreader
      | error kind =>
          unfold readTurn at h
          dsimp only at h
          split at h
          · rename_i htimeout
            cases h
            exact .timeout kind htimeout
          · cases h
            exact .readFailed kind hreader
    · cases h
  · rename_i peerId hid
    split at h
    · rename_i hreader
      cases h
      exact .readReported peerId hid hreader
    · cases h
  · split at h
    · rename_i hthere
      obtain ⟨hsetup, hwriter⟩ := hthere
      split at h
      · cases h
        exact .received _ _ hsetup hwriter
      · cases h
        exact .closed _ hsetup hwriter
    · cases h
  · split at h
    · rename_i msg hwriter
      split at h
      · rename_i hok
        cases h
        rw [hok]
        exact .written msg hwriter
      · rename_i hfail
        cases h
        rw [Bool.eq_false_iff.mpr hfail]
        exact .writeFailed msg hwriter
    · cases h
  · rename_i peerId hid
    split at h
    · rename_i hwriter
      cases h
      exact .writeReported peerId hid hwriter
    · cases h
  · cases h

@[simp] theorem endReader_setup (c : Connection) :
    c.endReader.setup = c.setup := by
  unfold endReader
  split <;> rfl

@[simp] theorem endReader_writer (c : Connection) :
    c.endReader.writer = c.writer := by
  unfold endReader
  split <;> rfl

theorem endReader_reader_ne (c : Connection) :
    c.endReader.reader ≠ .reported := by
  unfold endReader
  split <;> exact nofun

@[simp] theorem endWriter_setup (origin : Origin) (c : Connection) :
    (c.endWriter origin).setup = c.setup := by
  unfold endWriter
  cases origin with
  | accepted => rfl
  | dialled expected =>
      dsimp only
      split <;> rfl

@[simp] theorem endWriter_reader (origin : Origin) (c : Connection) :
    (c.endWriter origin).reader = c.reader := by
  unfold endWriter
  cases origin with
  | accepted => rfl
  | dialled expected =>
      dsimp only
      split <;> rfl

/-- After a failed write the loop is left. -/
theorem endWriter_writer (origin : Origin) (c : Connection) :
    (c.endWriter origin).writer = .reporting ∨
      (c.endWriter origin).writer = .silenced := by
  unfold endWriter
  cases origin with
  | accepted => exact .inl rfl
  | dialled expected =>
      dsimp only
      split
      · exact .inr rfl
      · exact .inl rfl

end Connection

/-! ## The reader loop over a stream -/

section

variable [Postcard]

/-- A turn of the reader loop over a stream is a step of the reader thread with
what `read_msg` returned, and the report after an error. -/
theorem run_of_readerTurn {origin : Origin} {sender : Sender} {c : Connection}
    {peerId : UInt32} {stream : TcpStream} {t : Reader}
    {out : List TransportEvent} (hid : c.setup.peerId = some peerId)
    (hreading : c.reader = .reading) (hflag : c.disconnectSent = false)
    (hturn : readerTurn peerId (.reading stream) () = some (t, out)) :
    ∃ steps d, Run (Connection.next origin sender) c steps d out ∧
      (t ≠ .exited → d = c) := by
  have hread : ∀ result, Connection.next origin sender c (.read result) =
      some (c.readTurn peerId result) := by
    intro result
    unfold Connection.next
    simp only [hid, if_pos hreading]
  cases readerTurn_cases hturn with
  | message payload rest msg hframe hmsg =>
      exact ⟨[.read (.ok msg)], c, Run.cons (hread (.ok msg)) .start,
        fun _ => rfl⟩
  | timeout kind htimeout lost rest hflat =>
      have hstep := hread (.error kind)
      simp only [Connection.readTurn, if_pos htimeout] at hstep
      exact ⟨[.read (.error kind)], c, Run.cons hstep .start, fun _ => rfl⟩
  | failed kind hkind =>
      have hstep := hread (.error kind)
      simp only [Connection.readTurn, if_neg hkind, Connection.endReader, hflag,
        Bool.false_eq_true, if_false] at hstep
      have hreport : Connection.next origin sender
          { c with reader := .reporting, disconnectSent := true } .reportRead =
          some ({ c with reader := .reported, disconnectSent := true },
            [.peerDisconnected peerId]) := by
        unfold Connection.next
        simp only [hid, if_true]
      exact ⟨[.read (.error kind), .reportRead], _,
        Run.cons hstep (Run.cons hreport .start), fun hnot => absurd rfl hnot⟩

/-- So is the whole loop: what it sends over a stream, the reader thread of a
connection can send, while the others do nothing. -/
theorem run_of_reader {origin : Origin} {sender : Sender} {c : Connection}
    {peerId : UInt32} (hid : c.setup.peerId = some peerId)
    (hreading : c.reader = .reading) (hflag : c.disconnectSent = false)
    {stream : TcpStream} {turns : List Unit} {last : Reader}
    {out : List TransportEvent}
    (hrun : Run (readerTurn peerId) (.reading stream) turns last out) :
    ∃ steps d, Run (Connection.next origin sender) c steps d out := by
  induction turns generalizing stream out with
  | nil =>
      obtain ⟨-, rfl⟩ := hrun.unique .start
      exact ⟨[], c, .start⟩
  | cons turn turns ih =>
      obtain ⟨t, first, rest, hturn, hlater, rfl⟩ := hrun.split_first
      obtain ⟨steps, d, hsteps, hsame⟩ :=
        run_of_readerTurn hid hreading hflag hturn
      cases t with
      | reading stream' =>
          obtain rfl := hsame nofun
          obtain ⟨more, last', hmore⟩ := ih hlater
          exact ⟨steps ++ more, last', hsteps.append hmore⟩
      | exited =>
          cases turns with
          | nil =>
              obtain ⟨-, rfl⟩ := hlater.unique .start
              rw [List.append_nil]
              exact ⟨steps, d, hsteps⟩
          | cons turn turns =>
              obtain ⟨u, out, rest, hnone, -⟩ := hlater.split_first
              cases hnone

end

/-! ## The order of the events -/

/-- A connection that was announced and delivered these messages. -/
def opened (peerId : UInt32) (sender : Sender) (msgs : List ProtocolMessage) :
    List TransportEvent :=
  .peerConnected peerId sender :: msgs.map (.message peerId)

/-- `PeerConnected`, then messages, then at most one `PeerDisconnected`, as far
as the events go. -/
def Ordered (sender : Sender) (events : List TransportEvent) : Prop :=
  events = [] ∨ ∃ peerId msgs, events = opened peerId sender msgs ∨
    events = opened peerId sender msgs ++ [.peerDisconnected peerId]

/-- The reader sends only after `PeerConnected` and not after the writer
reported a failed write, and the writer reports only what the reader did not
report. -/
def InTurn (c : Connection) : ThreadStep → Prop
  | .read (.ok _) =>
      (∃ peerId, c.setup = .announced peerId) ∧ c.writer ≠ .reported
  | .reportRead =>
      (∃ peerId, c.setup = .announced peerId) ∧ c.writer ≠ .reported
  | .reportWrite => c.reader ≠ .reported
  | _ => True

theorem opened_concat (peerId : UInt32) (sender : Sender)
    (msgs : List ProtocolMessage) (msg : ProtocolMessage) :
    opened peerId sender msgs ++ [.message peerId msg] =
      opened peerId sender (msgs ++ [msg]) := by
  unfold opened
  rw [List.map_append]
  rfl

theorem disconnected_not_mem_opened (peerId found : UInt32) (sender : Sender)
    (msgs : List ProtocolMessage) :
    .peerDisconnected found ∉ opened peerId sender msgs := by
  unfold opened
  simp

/-- The front of ordered events is ordered. -/
theorem Ordered.front {sender : Sender} {events more : List TransportEvent}
    (h : Ordered sender (events ++ more)) : Ordered sender events := by
  have hopened : ∀ peerId msgs, events <+: opened peerId sender msgs →
      Ordered sender events := by
    intro peerId msgs hfront
    cases events with
    | nil => exact .inl rfl
    | cons first events =>
        obtain ⟨rfl, hmsgs⟩ := List.cons_prefix_cons.mp hfront
        obtain ⟨sent, -, rfl⟩ := List.prefix_map_iff.mp hmsgs
        exact .inr ⟨peerId, sent, .inl rfl⟩
  rcases h with hnone | ⟨peerId, msgs, hopen | hclosed⟩
  · exact .inl (List.append_eq_nil_iff.mp hnone).1
  · exact hopened peerId msgs ⟨more, hopen⟩
  · rcases List.prefix_concat_iff.mp ⟨more, hclosed⟩ with rfl | hfront
    · exact .inr ⟨peerId, msgs, .inr rfl⟩
    · exact hopened peerId msgs hfront

/-- The first event is `PeerConnected`. -/
theorem Ordered.first {sender : Sender} {event : TransportEvent}
    {events : List TransportEvent} (h : Ordered sender (event :: events)) :
    ∃ peerId, event = .peerConnected peerId sender := by
  rcases h with hnone | ⟨peerId, msgs, hopen | hclosed⟩
  · cases hnone
  · exact ⟨peerId, (List.cons.inj hopen).1⟩
  · exact ⟨peerId, (List.cons.inj hclosed).1⟩

/-- Nothing comes after `PeerDisconnected`. -/
theorem not_ordered_after (sender : Sender) (peerId : UInt32)
    (before : List TransportEvent) (event : TransportEvent) :
    ¬Ordered sender (before ++ [.peerDisconnected peerId] ++ [event]) := by
  rintro (hnone | ⟨found, msgs, hopen | hclosed⟩)
  · simp at hnone
  · apply disconnected_not_mem_opened found peerId sender msgs
    rw [← hopen]
    simp
  · obtain ⟨hfront, -⟩ := List.append_inj' hclosed rfl
    apply disconnected_not_mem_opened found peerId sender msgs
    rw [← hfront]
    simp

/-- The events of a connection whose steps were in turn. -/
def Shape (sender : Sender) (c : Connection)
    (events : List TransportEvent) : Prop :=
  match c.setup with
  | .handshaking => events = [] ∧ c.writer = .receiving
  | .failed => events = []
  | .spawned _ =>
      events = [] ∧ c.writer = .receiving ∧ c.reader ≠ .reported
  | .announced peerId => ∃ msgs,
      if c.reader = .reported ∨ c.writer = .reported then
        events = opened peerId sender msgs ++ [.peerDisconnected peerId]
      else events = opened peerId sender msgs

theorem Shape.ordered {sender : Sender} {c : Connection}
    {events : List TransportEvent} (h : Shape sender c events) :
    Ordered sender events := by
  unfold Shape at h
  split at h
  · exact .inl h.1
  · exact .inl h
  · exact .inl h.1
  · rename_i peerId _
    obtain ⟨msgs, hevents⟩ := h
    split at hevents
    · exact .inr ⟨peerId, msgs, .inr hevents⟩
    · exact .inr ⟨peerId, msgs, .inl hevents⟩

/-- A step that sends nothing, starts nothing and reports nothing. -/
theorem Shape.silent {sender : Sender} {c t : Connection}
    {events : List TransportEvent} (h : Shape sender c events)
    (hsetup : t.setup = c.setup)
    (hwaits : (∀ peerId, c.setup ≠ .announced peerId) →
      c.writer = .receiving → t.writer = .receiving)
    (hreader : t.reader = .reported ↔ c.reader = .reported)
    (hwriter : t.writer = .reported ↔ c.writer = .reported) :
    Shape sender t (events ++ []) := by
  rw [List.append_nil]
  unfold Shape at h ⊢
  rw [hsetup]
  split at h
  · rename_i hthere
    exact ⟨h.1, hwaits (by rw [hthere]; exact nofun) h.2⟩
  · exact h
  · rename_i hthere
    exact ⟨h.1, hwaits (by rw [hthere]; exact nofun) h.2.1,
      fun hreported => h.2.2 (hreader.mp hreported)⟩
  · simp only [hreader, hwriter]
    exact h

/-- Before `PeerConnected` nothing was sent. -/
theorem Shape.not_announced {sender : Sender} {c : Connection}
    {events : List TransportEvent} (h : Shape sender c events)
    (hnot : ¬∃ peerId, c.setup = .announced peerId) : events = [] := by
  unfold Shape at h
  split at h
  · exact h.1
  · exact h
  · exact h.1
  · rename_i peerId hsetup
    exact absurd ⟨peerId, hsetup⟩ hnot

/-- After it, what was sent shows whether someone reported. -/
theorem shape_iff_of_announced {sender : Sender} {c : Connection}
    {events : List TransportEvent} {peerId : UInt32}
    (hsetup : c.setup = .announced peerId) :
    Shape sender c events ↔ ∃ msgs,
      if c.reader = .reported ∨ c.writer = .reported then
        events = opened peerId sender msgs ++ [.peerDisconnected peerId]
      else events = opened peerId sender msgs := by
  unfold Shape
  rw [hsetup]

/-- A writer that does something is past `PeerConnected`. -/
theorem Shape.announced_of_writer {sender : Sender} {c : Connection}
    {events : List TransportEvent} (h : Shape sender c events)
    {peerId : UInt32} (hid : c.setup.peerId = some peerId)
    (hwriter : c.writer ≠ .receiving) : c.setup = .announced peerId := by
  unfold Shape at h
  cases hsetup : c.setup with
  | handshaking =>
      rw [hsetup] at hid
      cases hid
  | failed =>
      rw [hsetup] at hid
      cases hid
  | spawned found =>
      rw [hsetup] at h
      exact absurd h.2.1 hwriter
  | announced found =>
      rw [hsetup] at hid
      cases hid
      rfl

theorem announced_id {c : Connection} {found peerId : UInt32}
    (hsetup : c.setup = .announced found)
    (hid : c.setup.peerId = some peerId) : found = peerId := by
  rw [hsetup] at hid
  exact Option.some.inj hid

/-- If an event of a reader or a writer is in order, it comes after
`PeerConnected` and nobody reported. -/
theorem Shape.send {sender : Sender} {c : Connection}
    {events : List TransportEvent} (h : Shape sender c events)
    {event : TransportEvent}
    (hevent : ∀ peerId, event ≠ .peerConnected peerId sender)
    (hordered : Ordered sender (events ++ [event])) :
    (∃ peerId, c.setup = .announced peerId) ∧ c.reader ≠ .reported ∧
      c.writer ≠ .reported := by
  by_cases hannounced : ∃ peerId, c.setup = .announced peerId
  · obtain ⟨peerId, hsetup⟩ := hannounced
    obtain ⟨msgs, hevents⟩ := (shape_iff_of_announced hsetup).mp h
    have hsilent : ¬(c.reader = .reported ∨ c.writer = .reported) := by
      intro hreported
      rw [if_pos hreported] at hevents
      rw [hevents] at hordered
      exact not_ordered_after _ _ _ _ hordered
    rw [not_or] at hsilent
    exact ⟨⟨peerId, hsetup⟩, hsilent⟩
  · rw [h.not_announced hannounced] at hordered
    obtain ⟨peerId, hconnected⟩ := hordered.first
    exact absurd hconnected (hevent peerId)

/-- After `PeerConnected`, and as long as nobody reported, only messages were
sent. -/
theorem Shape.opened {sender : Sender} {c : Connection}
    {events : List TransportEvent} (h : Shape sender c events)
    {peerId : UInt32} (hsetup : c.setup = .announced peerId)
    (hreader : c.reader ≠ .reported) (hwriter : c.writer ≠ .reported) :
    ∃ msgs, events = Transport.opened peerId sender msgs := by
  obtain ⟨msgs, hevents⟩ := (shape_iff_of_announced hsetup).mp h
  rw [if_neg (not_or.mpr ⟨hreader, hwriter⟩)] at hevents
  exact ⟨msgs, hevents⟩

/-- A message is sent in turn exactly if it is in order. -/
theorem Shape.message {sender : Sender} {c : Connection}
    {events : List TransportEvent} (h : Shape sender c events)
    {peerId : UInt32} (hid : c.setup.peerId = some peerId)
    (hreader : c.reader = .reading) (msg : ProtocolMessage) :
    (InTurn c (.read (.ok msg)) →
        Shape sender c (events ++ [.message peerId msg])) ∧
      (Ordered sender (events ++ [.message peerId msg]) →
        InTurn c (.read (.ok msg))) := by
  constructor
  · rintro ⟨⟨found, hsetup⟩, hwriter⟩
    obtain rfl := announced_id hsetup hid
    have hsilent : c.reader ≠ .reported := by
      rw [hreader]
      exact nofun
    obtain ⟨msgs, rfl⟩ := h.opened hsetup hsilent hwriter
    rw [shape_iff_of_announced hsetup, opened_concat]
    refine ⟨msgs ++ [msg], ?_⟩
    rw [if_neg (not_or.mpr ⟨hsilent, hwriter⟩)]
  · intro hordered
    obtain ⟨hannounced, -, hwriter⟩ := h.send (by exact fun _ => nofun) hordered
    exact ⟨hannounced, hwriter⟩

/-- So is the report of a thread that becomes `t`. -/
theorem Shape.report {sender : Sender} {c t : Connection}
    {events : List TransportEvent} (h : Shape sender c events)
    {peerId : UInt32} (hsetup : c.setup = .announced peerId)
    (hreader : c.reader ≠ .reported) (hwriter : c.writer ≠ .reported)
    (hsame : t.setup = c.setup)
    (hreported : t.reader = .reported ∨ t.writer = .reported) :
    Shape sender t (events ++ [.peerDisconnected peerId]) := by
  obtain ⟨msgs, rfl⟩ := h.opened hsetup hreader hwriter
  rw [shape_iff_of_announced (hsame.trans hsetup)]
  refine ⟨msgs, ?_⟩
  rw [if_pos hreported]

/-- The writer loop goes on without a report. -/
theorem Shape.setWriter {sender : Sender} {c t : Connection}
    {events : List TransportEvent} (h : Shape sender c events)
    {peerId : UInt32} (hsetup : c.setup = .announced peerId)
    (hwriter : c.writer = .receiving) (hsame : t.setup = c.setup)
    (hreader : t.reader = c.reader) (hnot : t.writer ≠ .reported) :
    Shape sender t (events ++ []) := by
  apply h.silent hsame
  · intro hlater
    exact absurd hsetup (hlater peerId)
  · rw [hreader]
  · rw [hwriter]
    exact iff_of_false hnot nofun

/-- A step in turn keeps the shape, and a step that keeps the events in order
was in turn. -/
theorem shape_step {origin : Origin} {sender : Sender} {c t : Connection}
    {events out : List TransportEvent} {step : ThreadStep}
    (h : Shape sender c events)
    (hnext : Connection.next origin sender c step = some (t, out)) :
    (InTurn c step → Shape sender t (events ++ out)) ∧
      (Ordered sender (events ++ out) → InTurn c step) := by
  cases Connection.next_cases hnext with
  | refused reply hsetup =>
      refine ⟨fun _ => ?_, fun _ => trivial⟩
      rw [List.append_nil]
      exact h.not_announced (by rw [hsetup]; exact nofun)
  | spawned reply peerId hsetup hreply =>
      refine ⟨fun _ => ?_, fun _ => trivial⟩
      unfold Shape at h
      rw [hsetup] at h
      rw [List.append_nil]
      exact ⟨h.1, h.2, nofun⟩
  | announced peerId hsetup =>
      refine ⟨fun _ => ?_, fun _ => trivial⟩
      unfold Shape at h
      rw [hsetup] at h
      obtain ⟨rfl, hwriter, hreader⟩ := h
      refine ⟨[], ?_⟩
      rw [if_neg (by rw [hwriter]; exact fun hreported =>
        hreported.elim hreader nofun)]
      rfl
  | message msg peerId hid hreader => exact h.message hid hreader msg
  | timeout kind htimeout =>
      refine ⟨fun _ => ?_, fun _ => trivial⟩
      exact h.silent rfl (fun _ hwaits => hwaits) Iff.rfl Iff.rfl
  | readFailed kind hreader =>
      refine ⟨fun _ => ?_, fun _ => trivial⟩
      apply h.silent c.endReader_setup
      · intro _ hwaits
        rw [c.endReader_writer, hwaits]
      · rw [hreader]
        exact iff_of_false c.endReader_reader_ne nofun
      · rw [c.endReader_writer]
  | readReported peerId hid hreader =>
      constructor
      · rintro ⟨⟨found, hsetup⟩, hwriter⟩
        obtain rfl := announced_id hsetup hid
        exact h.report hsetup (by rw [hreader]; exact nofun) hwriter rfl
          (.inl rfl)
      · intro hordered
        obtain ⟨hannounced, -, hwriter⟩ :=
          h.send (by exact fun _ => nofun) hordered
        exact ⟨hannounced, hwriter⟩
  | received msg peerId hsetup hwriter =>
      exact ⟨fun _ => h.setWriter hsetup hwriter rfl rfl nofun,
        fun _ => trivial⟩
  | closed peerId hsetup hwriter =>
      exact ⟨fun _ => h.setWriter hsetup hwriter rfl rfl nofun,
        fun _ => trivial⟩
  | written msg hwriter =>
      refine ⟨fun _ => ?_, fun _ => trivial⟩
      apply Shape.silent h
      · rfl
      · exact fun _ _ => rfl
      · exact Iff.rfl
      · rw [hwriter]
        exact iff_of_false nofun nofun
  | writeFailed msg hwriter =>
      refine ⟨fun _ => ?_, fun _ => trivial⟩
      apply h.silent (c.endWriter_setup origin)
      · intro _ hwaits
        rw [hwriter] at hwaits
        cases hwaits
      · rw [c.endWriter_reader origin]
      · rw [hwriter]
        rcases c.endWriter_writer origin with hleft | hleft <;>
          rw [hleft] <;> exact iff_of_false nofun nofun
  | writeReported peerId hid hwriter =>
      constructor
      · intro hreader
        have hsetup := h.announced_of_writer hid (by rw [hwriter]; exact nofun)
        exact h.report hsetup hreader (by rw [hwriter]; exact nofun) rfl
          (.inr rfl)
      · intro hordered
        exact (h.send (by exact fun _ => nofun) hordered).2.1

/-- Whatever the threads, the peer and the socket do: the events are in order if
and only if every step was in turn. -/
theorem run_ordered_iff {origin : Origin} {sender : Sender} {last : Connection}
    {steps : List ThreadStep} {events : List TransportEvent}
    (hrun : Run (Connection.next origin sender) .new steps last events) :
    Ordered sender events ↔
      AllSteps (Connection.next origin sender) .new steps InTurn := by
  apply outputs_iff_allSteps (P := Ordered sender) (I := Shape sender)
  · exact ⟨rfl, rfl⟩
  · intro c events h
    exact h.ordered
  · intro events out h
    exact h.front
  · intro c events step t out h hnext
    exact shape_step h hnext
  · exact hrun

namespace Sample

open B4n.Blockchain

/-- An accepted connection that delivers a message and breaks. -/
def breaks : List ThreadStep :=
  [.handshake (some (.hello 7 (zeroBytes 32))), .announce,
    .read (.ok .getStatus), .read (.error .timedOut),
    .read (.error .unexpectedEof), .reportRead]

theorem run_ordered_iff_breaks :
    Ordered 40 [.peerConnected 7 40, .message 7 .getStatus,
        .peerDisconnected 7] ↔
      AllSteps (Connection.next .accepted 40) .new breaks InTurn :=
  run_ordered_iff (run_of_exec rfl)

/-- Both loops of an accepted connection find it broken. -/
def bothReport : List ThreadStep :=
  [.handshake (some (.hello 7 (zeroBytes 32))), .announce,
    .receive (some .getStatus), .write false, .reportWrite,
    .read (.error .unexpectedEof), .reportRead]

/-- The peer of a dialled connection is quicker than `PeerConnected`. -/
def readsEarly : List ThreadStep :=
  [.handshake (some (.helloAck 7)), .read (.ok .getStatus), .announce]

theorem events_not_ordered :
    (∃ last events, Run (Connection.next .accepted 40) .new bothReport last
      events ∧ ¬Ordered 40 events) ∧
    ∃ last events, Run (Connection.next (.dialled 7) 40) .new readsEarly last
      events ∧ ¬Ordered 40 events := by
  constructor
  · refine ⟨_, [.peerConnected 7 40, .peerDisconnected 7, .peerDisconnected 7],
      run_of_exec rfl, ?_⟩
    exact not_ordered_after 40 7 [.peerConnected 7 40] _
  · refine ⟨_, [.message 7 .getStatus, .peerConnected 7 40], run_of_exec rfl,
      ?_⟩
    intro hordered
    obtain ⟨peerId, hconnected⟩ := hordered.first
    cases hconnected

end Sample

end B4n.Transport
