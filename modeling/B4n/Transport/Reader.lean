import B4n.Lib.Runs
import B4n.Transport.Tcp

/-!
# The reader loop

The reader threads of `spawn_peer_io` and `connect_peer` call `read_msg` again
after a timeout.  What an interrupted `read_exact` already took is lost, so the
next frame is read from the middle of one unless the timeout came between two
frames.

## Main results

* `readerTurn_of_message`, `readerTurn_of_timeout` — a turn of the loop at the
  start of a frame.
* `delivers_iff` — the loop delivers what was written exactly if every timeout
  comes between two frames.
-/

namespace B4n.Transport

open B4n.Lib

/-- `TransportEvent` -/
inductive TransportEvent where
  | message (peerId : UInt32) (msg : ProtocolMessage)
  | peerConnected (peerId : UInt32) (sender : Sender)
  | peerDisconnected (peerId : UInt32)
deriving DecidableEq

/-- The errors after which the loop goes on. -/
def ErrorKind.IsTimeout (kind : ErrorKind) : Prop :=
  kind = .timedOut ∨ kind = .wouldBlock

instance (kind : ErrorKind) : Decidable kind.IsTimeout := by
  unfold ErrorKind.IsTimeout
  infer_instance

/-- A reader thread, in its loop or out of it. -/
inductive Reader where
  | reading (stream : TcpStream)
  | exited
deriving DecidableEq

/-! ## Bytes among errors -/

/-- All errors of a stream are timeouts. -/
def OnlyTimeouts (stream : TcpStream) : Prop :=
  ∀ kind, .inr kind ∈ flat stream → kind.IsTimeout

theorem OnlyTimeouts.rest {stream rest : TcpStream} (h : OnlyTimeouts stream)
    (front : List (UInt8 ⊕ ErrorKind))
    (hflat : flat stream = front ++ flat rest) : OnlyTimeouts rest := by
  intro kind hkind
  apply h
  rw [hflat]
  exact List.mem_append_right front hkind

/-- The bytes among what a stream hands out. -/
def bytesOf (arrivals : List (UInt8 ⊕ ErrorKind)) : List UInt8 :=
  arrivals.filterMap Sum.getLeft?

theorem bytesOf_append (xs ys : List (UInt8 ⊕ ErrorKind)) :
    bytesOf (xs ++ ys) = bytesOf xs ++ bytesOf ys :=
  List.filterMap_append

theorem bytesOf_quietly (bytes : List UInt8) :
    bytesOf (quietly bytes) = bytes := by
  unfold bytesOf quietly
  rw [List.filterMap_map]
  exact List.filterMap_some

theorem not_mem_quietly (bytes : List UInt8) (kind : ErrorKind) :
    Sum.inr kind ∉ quietly bytes := by
  unfold quietly
  simp

/-- A stream begins with bytes, up to its first error. -/
theorem exists_quietly (arrivals : List (UInt8 ⊕ ErrorKind)) :
    ∃ bytes, arrivals = quietly bytes ∨
      ∃ kind rest, arrivals = quietly bytes ++ .inr kind :: rest := by
  induction arrivals with
  | nil => exact ⟨[], .inl rfl⟩
  | cons arrival arrivals ih =>
      cases arrival with
      | inr kind => exact ⟨[], .inr ⟨kind, arrivals, rfl⟩⟩
      | inl byte =>
          obtain ⟨bytes, rfl | ⟨kind, rest, rfl⟩⟩ := ih
          · exact ⟨byte :: bytes, .inl rfl⟩
          · exact ⟨byte :: bytes, .inr ⟨kind, rest, rfl⟩⟩

section

variable [Postcard]

/-! ## The loop -/

/-- One turn of the reader loop, with what it sends on `tx_events`; there is
none while `read_msg` waits for more bytes. -/
def readerTurn (peerId : UInt32) : Machine Reader Unit TransportEvent
  | .exited, _ => none
  | .reading stream, _ =>
      match readMsg stream with
      | .ok msg rest => some (.reading rest, [.message peerId msg])
      | .err kind rest =>
          if kind.IsTimeout then some (.reading rest, [])
          else some (.exited, [.peerDisconnected peerId])
      | .blocked => none

/-! ## What was written and what arrives -/

/-- The bytes that `write_msg` puts on the connection, one message after the
other. -/
def wire (msgs : List ProtocolMessage) : List UInt8 :=
  msgs.flatMap fun msg =>
    match writeMsg msg with
    | .ok bytes => bytes
    | .error _ => []

/-- A message that is serialised and is within the limit of the reader. -/
def Sendable (msg : ProtocolMessage) : Prop :=
  ∃ payload, Postcard.toStdvec msg = some payload ∧ payload.length ≤ MAX_FRAME

/-- What was written before each timeout is whole frames. -/
def TimeoutsBetweenFrames (msgs : List ProtocolMessage)
    (stream : TcpStream) : Prop :=
  ∀ before kind after, flat stream = before ++ .inr kind :: after →
    ∃ sent, sent <+: msgs ∧ bytesOf before = wire sent

/-- A frame that is read starts where a message starts. -/
def ReadsAligned (msgs : List ProtocolMessage) : Reader → Unit → Prop
  | .exited, _ => True
  | .reading stream, _ =>
      ∀ payload rest, readFrame stream = .ok payload rest →
        ∃ unread, unread <:+ msgs ∧ bytesOf (flat stream) = wire unread

/-- The loop delivers the unread messages, in order, until there is nothing left
to read, and reads no frame that starts in the middle of another one. -/
def DeliversRest (peerId : UInt32) (msgs unread : List ProtocolMessage)
    (stream : TcpStream) : Prop :=
  ∃ turns last,
    Run (readerTurn peerId) (.reading stream) turns last
      (unread.map (.message peerId)) ∧
    readerTurn peerId last () = none ∧
    AllSteps (readerTurn peerId) (.reading stream) turns (ReadsAligned msgs)

/-- The loop delivers the messages from the first to the last. -/
def Delivers (peerId : UInt32) (msgs : List ProtocolMessage)
    (stream : TcpStream) : Prop :=
  DeliversRest peerId msgs msgs stream

theorem wire_append (xs ys : List ProtocolMessage) :
    wire (xs ++ ys) = wire xs ++ wire ys :=
  List.flatMap_append

/-- A message that fits behind its length field. -/
theorem wire_cons_of_lt {msg : ProtocolMessage} {payload : List UInt8}
    (hpayload : Postcard.toStdvec msg = some payload) (hlength : payload.length < 2 ^ 32)
    (msgs : List ProtocolMessage) :
    wire (msg :: msgs) = frameBytes payload ++ wire msgs := by
  have hwrite : writeMsg msg = .ok (frameBytes payload) := by
    unfold writeMsg writeFrame
    rw [hpayload]
    show (if payload.length < 2 ^ 32 then _ else _) = _
    rw [if_pos hlength]
    rfl
  unfold wire
  rw [List.flatMap_cons, hwrite]

theorem wire_cons {msg : ProtocolMessage} {payload : List UInt8}
    (hpayload : Postcard.toStdvec msg = some payload)
    (hlength : payload.length ≤ MAX_FRAME) (msgs : List ProtocolMessage) :
    wire (msg :: msgs) = frameBytes payload ++ wire msgs := by
  have hmax : MAX_FRAME = 16777216 := rfl
  exact wire_cons_of_lt hpayload (by omega) msgs

/-- A message takes up at least its length field. -/
theorem length_wire_cons {msg : ProtocolMessage} (h : Sendable msg)
    (msgs : List ProtocolMessage) :
    (wire msgs).length + 4 ≤ (wire (msg :: msgs)).length := by
  obtain ⟨payload, hpayload, hlength⟩ := h
  rw [wire_cons hpayload hlength, List.length_append, length_frameBytes]
  omega

theorem eq_nil_of_wire {msgs : List ProtocolMessage}
    (hsend : ∀ msg ∈ msgs, Sendable msg) (h : wire msgs = []) : msgs = [] := by
  cases msgs with
  | nil => rfl
  | cons msg msgs =>
      have hle := length_wire_cons (hsend msg List.mem_cons_self) msgs
      rw [h, List.length_nil] at hle
      omega

/-- Of two ends of one list of messages the one with fewer bytes has fewer
messages. -/
theorem length_lt_of_wire {msgs xs ys : List ProtocolMessage}
    (hxs : xs <:+ msgs) (hys : ys <:+ msgs)
    (hlt : (wire xs).length < (wire ys).length) : xs.length < ys.length := by
  by_contra hle
  obtain ⟨more, rfl⟩ :=
    List.suffix_of_suffix_length_le hys hxs (Nat.not_lt.mp hle)
  rw [wire_append, List.length_append] at hlt
  omega

theorem length_le_of_wire {msgs xs ys : List ProtocolMessage}
    (hsend : ∀ msg ∈ msgs, Sendable msg) (hxs : xs <:+ msgs) (hys : ys <:+ msgs)
    (hle : (wire xs).length ≤ (wire ys).length) : xs.length ≤ ys.length := by
  by_contra hlt
  obtain ⟨more, rfl⟩ :=
    List.suffix_of_suffix_length_le hys hxs (by omega)
  rw [wire_append, List.length_append] at hle
  have hnone : more = [] := by
    apply eq_nil_of_wire
    · intro msg hmsg
      exact hsend msg (hxs.subset (List.mem_append_left _ hmsg))
    · exact List.length_eq_zero_iff.mp (by omega)
  rw [hnone, List.nil_append] at hlt
  exact hlt (Nat.le_refl _)

/-! ## One turn -/

/-- What a turn of the loop can do. -/
inductive TurnCase (peerId : UInt32) (stream : TcpStream) :
    Reader → List TransportEvent → Prop where
  | message (payload : List UInt8) (rest : TcpStream) (msg : ProtocolMessage)
      (hread : readFrame stream = .ok payload rest)
      (hmsg : Postcard.fromBytes payload = some msg) :
      TurnCase peerId stream (.reading rest) [.message peerId msg]
  | timeout (kind : ErrorKind) (htimeout : kind.IsTimeout)
      (lost : List UInt8) (rest : TcpStream)
      (hflat : flat stream = quietly lost ++ .inr kind :: flat rest) :
      TurnCase peerId stream (.reading rest) []
  | failed (kind : ErrorKind) (hkind : ¬kind.IsTimeout) :
      TurnCase peerId stream .exited [.peerDisconnected peerId]

theorem readerTurn_cases {peerId : UInt32} {stream : TcpStream} {t : Reader}
    {out : List TransportEvent}
    (h : readerTurn peerId (.reading stream) () = some (t, out)) :
    TurnCase peerId stream t out := by
  simp only [readerTurn, readMsg] at h
  cases hframe : readFrame stream with
  | blocked =>
      rw [hframe] at h
      cases h
  | err kind rest =>
      rw [hframe] at h
      change (if kind.IsTimeout then _ else _) = _ at h
      split at h
      · rename_i htimeout
        cases h
        have hkind : kind ≠ .invalidData := by
          rintro rfl
          revert htimeout
          decide
        obtain ⟨lost, hflat⟩ := readFrame_eq_err hframe hkind
        exact .timeout kind htimeout lost rest hflat
      · rename_i hkind
        cases h
        exact .failed kind hkind
  | ok payload rest =>
      rw [hframe] at h
      cases hmsg : Postcard.fromBytes payload with
      | some msg =>
          simp only [Outcome.andThen, hmsg] at h
          cases h
          exact .message payload rest msg hframe hmsg
      | none =>
          simp only [Outcome.andThen, hmsg] at h
          rw [if_neg (by decide)] at h
          cases h
          exact .failed .invalidData (by decide)

/-! ## Turns at the start of a frame -/

/-- At the start of a frame a frame that is read is that of the next message. -/
theorem next_of_readFrame (hcodec : Postcard.RoundTrips)
    {unread : List ProtocolMessage} (hsend : ∀ msg ∈ unread, Sendable msg)
    {stream rest : TcpStream} {payload : List UInt8} {msg : ProtocolMessage}
    (hbytes : bytesOf (flat stream) = wire unread)
    (hread : readFrame stream = .ok payload rest)
    (hmsg : Postcard.fromBytes payload = some msg) :
    ∃ more, unread = msg :: more ∧ bytesOf (flat rest) = wire more ∧
      Postcard.toStdvec msg = some payload ∧ payload.length ≤ MAX_FRAME ∧
      flat stream = quietly (frameBytes payload) ++ flat rest := by
  obtain ⟨lenBuf, hlenBuf, hlength, hflat⟩ := readFrame_eq_ok hread
  rw [hflat, bytesOf_append, bytesOf_append, bytesOf_quietly,
    bytesOf_quietly] at hbytes
  cases unread with
  | nil =>
      have hnone : lenBuf = [] := (List.append_eq_nil_iff.mp hbytes).1
      rw [hnone] at hlenBuf
      cases hlenBuf
  | cons first more =>
      obtain ⟨written, hwritten, hfits⟩ := hsend first List.mem_cons_self
      have hmax : MAX_FRAME = 16777216 := rfl
      rw [wire_cons hwritten hfits] at hbytes
      unfold frameBytes at hbytes
      rw [List.append_assoc] at hbytes
      obtain ⟨hheader, hbody⟩ := List.append_inj hbytes (by
        rw [hlenBuf, length_beBytes])
      rw [hheader, beValue_beBytes (by omega)] at hlength
      obtain ⟨rfl, hrest⟩ := List.append_inj hbody hlength
      rw [hcodec first payload hwritten] at hmsg
      cases hmsg
      refine ⟨more, rfl, hrest, hwritten, hfits, ?_⟩
      unfold frameBytes
      rw [hflat, hheader, quietly_append, List.append_assoc]

/-- At the start of a frame that is there the next message is delivered. -/
theorem readerTurn_of_message (hcodec : Postcard.RoundTrips) (peerId : UInt32)
    {msg : ProtocolMessage} {payload : List UInt8}
    (hpayload : Postcard.toStdvec msg = some payload)
    (hlength : payload.length ≤ MAX_FRAME) {stream : TcpStream}
    {tail : List (UInt8 ⊕ ErrorKind)}
    (harrives : flat stream = quietly (frameBytes payload) ++ tail) :
    ∃ rest, readerTurn peerId (.reading stream) () =
      some (.reading rest, [.message peerId msg]) ∧ flat rest = tail := by
  obtain ⟨rest, hread, hrest⟩ :=
    readMsg_of_quietly hcodec hpayload hlength harrives
  refine ⟨rest, ?_, hrest⟩
  simp only [readerTurn, hread]

/-- A timeout before a frame loses nothing. -/
theorem readerTurn_of_timeout (peerId : UInt32) {stream : TcpStream}
    {kind : ErrorKind} (htimeout : kind.IsTimeout)
    {tail : List (UInt8 ⊕ ErrorKind)} (hflat : flat stream = .inr kind :: tail) :
    ∃ rest, readerTurn peerId (.reading stream) () =
      some (.reading rest, []) ∧ flat rest = tail := by
  have hcase := readExact_cases stream 4
  generalize houtcome : readExact stream 4 = outcome at hcase
  cases hcase with
  | ok bytes rest hlength hbytes =>
      rw [hflat] at hbytes
      cases bytes with
      | nil => cases hlength
      | cons byte bytes => cases hbytes
  | blocked got hlength hgot =>
      rw [hflat] at hgot
      cases got with
      | nil => cases hgot
      | cons byte bytes => cases hgot
  | err lost found rest hlength hlost =>
      rw [hflat] at hlost
      cases lost with
      | cons byte bytes => cases hlost
      | nil =>
          cases hlost
          refine ⟨rest, ?_, rfl⟩
          simp only [readerTurn, readMsg, readFrame, houtcome, Outcome.andThen]
          rw [if_pos htimeout]

/-- With nothing left the loop waits. -/
theorem readerTurn_of_nil (peerId : UInt32) {stream : TcpStream}
    (hflat : flat stream = []) :
    readerTurn peerId (.reading stream) () = none := by
  have hcase := readExact_cases stream 4
  generalize houtcome : readExact stream 4 = outcome at hcase
  cases hcase with
  | ok bytes rest hlength hbytes =>
      rw [hflat] at hbytes
      cases bytes with
      | nil => cases hlength
      | cons byte bytes => cases hbytes
  | err lost found rest hlength hlost =>
      rw [hflat] at hlost
      cases lost <;> cases hlost
  | blocked got hlength hgot =>
      simp only [readerTurn, readMsg, readFrame, houtcome, Outcome.andThen]

/-! ## Timeouts between frames -/

theorem timeoutsBetweenFrames_of_nil {stream : TcpStream}
    (hbytes : bytesOf (flat stream) = []) :
    TimeoutsBetweenFrames [] stream := by
  intro before kind after hflat
  rw [hflat, bytesOf_append] at hbytes
  exact ⟨[], List.nil_prefix, (List.append_eq_nil_iff.mp hbytes).1⟩

/-- A timeout before a frame is between two frames. -/
theorem timeoutsBetweenFrames_cons_timeout {msgs : List ProtocolMessage}
    {stream rest : TcpStream} {kind : ErrorKind}
    (hflat : flat stream = .inr kind :: flat rest) :
    TimeoutsBetweenFrames msgs stream ↔ TimeoutsBetweenFrames msgs rest := by
  constructor
  · intro h before found after hrest
    exact h (.inr kind :: before) found after (by rw [hflat, hrest]; rfl)
  · intro h before found after hstream
    rw [hflat] at hstream
    cases before with
    | nil => exact ⟨[], List.nil_prefix, rfl⟩
    | cons arrival before =>
        obtain ⟨rfl, hrest⟩ := List.cons.inj hstream
        exact h before found after hrest

/-- Behind a frame the timeouts are counted from the next message on. -/
theorem timeoutsBetweenFrames_cons_message {msg : ProtocolMessage}
    {payload : List UInt8} (hpayload : Postcard.toStdvec msg = some payload)
    (hlength : payload.length ≤ MAX_FRAME) {msgs : List ProtocolMessage}
    {stream rest : TcpStream}
    (hflat : flat stream = quietly (frameBytes payload) ++ flat rest) :
    TimeoutsBetweenFrames (msg :: msgs) stream ↔
      TimeoutsBetweenFrames msgs rest := by
  have hframe := wire_cons hpayload hlength
  constructor
  · intro h before found after hrest
    obtain ⟨sent, hsent, hbytes⟩ :=
      h (quietly (frameBytes payload) ++ before) found after
        (by rw [hflat, hrest, List.append_assoc])
    rw [bytesOf_append, bytesOf_quietly] at hbytes
    cases sent with
    | nil =>
        have hnone : frameBytes payload = [] :=
          (List.append_eq_nil_iff.mp hbytes).1
        have hfour := length_frameBytes payload
        rw [hnone, List.length_nil] at hfour
        omega
    | cons first sent =>
        obtain ⟨rfl, hmore⟩ := List.cons_prefix_cons.mp hsent
        rw [hframe] at hbytes
        exact ⟨sent, hmore, List.append_cancel_left hbytes⟩
  · intro h before found after hstream
    rw [hflat] at hstream
    rcases List.append_eq_append_iff.mp hstream with
      ⟨more, rfl, hrest⟩ | ⟨more, hquiet, hrest⟩
    · obtain ⟨sent, hsent, hbytes⟩ := h more found after hrest
      refine ⟨msg :: sent, List.cons_prefix_cons.mpr ⟨rfl, hsent⟩, ?_⟩
      rw [bytesOf_append, bytesOf_quietly, hbytes, hframe]
    · cases more with
      | nil =>
          rw [List.append_nil] at hquiet
          refine ⟨[msg], List.cons_prefix_cons.mpr ⟨rfl, List.nil_prefix⟩, ?_⟩
          rw [← hquiet, bytesOf_quietly, hframe]
          exact (List.append_nil _).symm
      | cons arrival more =>
          cases hrest
          apply absurd _ (not_mem_quietly (frameBytes payload) found)
          rw [hquiet]
          exact List.mem_append_right _ List.mem_cons_self

/-- Without a timeout in front the first frame is there as a whole. -/
theorem frame_first {msg : ProtocolMessage} {payload : List UInt8}
    (hpayload : Postcard.toStdvec msg = some payload)
    (hlength : payload.length ≤ MAX_FRAME) {more : List ProtocolMessage}
    {stream : TcpStream} (hbytes : bytesOf (flat stream) = wire (msg :: more))
    (hbetween : TimeoutsBetweenFrames (msg :: more) stream)
    (hfront : ∀ kind rest, flat stream ≠ .inr kind :: rest) :
    ∃ tail, flat stream = quietly (frameBytes payload) ++ tail := by
  have hframe := wire_cons hpayload hlength
  obtain ⟨front, hquiet | ⟨kind, rest, hquiet⟩⟩ := exists_quietly (flat stream)
  · rw [hquiet, bytesOf_quietly, hframe] at hbytes
    refine ⟨quietly (wire more), ?_⟩
    rw [hquiet, hbytes, quietly_append]
  · obtain ⟨sent, hsent, hwhole⟩ := hbetween (quietly front) kind rest hquiet
    rw [bytesOf_quietly] at hwhole
    cases sent with
    | nil =>
        have hnone : front = [] := hwhole
        rw [hnone] at hquiet
        exact absurd hquiet (hfront kind rest)
    | cons first sent =>
        obtain ⟨rfl, -⟩ := List.cons_prefix_cons.mp hsent
        refine ⟨quietly (wire sent) ++ .inr kind :: rest, ?_⟩
        rw [hquiet, hwhole, hframe, quietly_append, List.append_assoc]

/-! ## The whole loop -/

/-- No more messages are delivered than start in the bytes that are left. -/
theorem length_delivered_le (hcodec : Postcard.RoundTrips) {peerId : UInt32}
    {msgs : List ProtocolMessage} (hsend : ∀ msg ∈ msgs, Sendable msg)
    {turns : List Unit} {stream : TcpStream} {last : Reader}
    {delivered : List ProtocolMessage}
    (hrun : Run (readerTurn peerId) (.reading stream) turns last
      (delivered.map (.message peerId)))
    (haligned : AllSteps (readerTurn peerId) (.reading stream) turns
      (ReadsAligned msgs)) :
    ∃ starts, starts <:+ msgs ∧
      (wire starts).length ≤ (bytesOf (flat stream)).length ∧
      delivered.length ≤ starts.length := by
  induction turns generalizing stream delivered with
  | nil =>
      obtain ⟨-, hnone⟩ := hrun.unique .start
      rw [List.map_eq_nil_iff.mp hnone]
      exact ⟨[], List.nil_suffix, Nat.zero_le _, Nat.le_refl _⟩
  | cons turn turns ih =>
      obtain ⟨t, out, outputs, hnext, htail, heq⟩ := hrun.split_first
      have hlater := haligned.tail hnext
      cases readerTurn_cases hnext with
      | timeout kind htimeout lost rest hflat =>
          rw [List.nil_append] at heq
          rw [← heq] at htail
          obtain ⟨starts, hstarts, hle, hlength⟩ := ih htail hlater
          refine ⟨starts, hstarts, hle.trans ?_, hlength⟩
          rw [hflat, bytesOf_append, List.length_append]
          exact Nat.le_add_left _ _
      | failed kind hkind =>
          cases delivered with
          | nil => cases heq
          | cons msg more => cases heq
      | message payload rest msg hread hmsg =>
          cases delivered with
          | nil => cases heq
          | cons first more =>
              obtain ⟨unread, hunread, hbytes⟩ :=
                haligned.first payload rest hread
              have hsome : ∀ msg ∈ unread, Sendable msg := fun msg hmem =>
                hsend msg (hunread.subset hmem)
              obtain ⟨later, rfl, hrest, -⟩ :=
                next_of_readFrame hcodec hsome hbytes hread hmsg
              have hafter : more.map (.message peerId) = outputs :=
                (List.cons.inj heq).2
              rw [← hafter] at htail
              obtain ⟨starts, hstarts, hle, hlength⟩ := ih htail hlater
              refine ⟨msg :: later, hunread, ?_, ?_⟩
              · rw [hbytes]
              · rw [hrest] at hle
                have hfewer := length_le_of_wire hsend hstarts
                  ((List.suffix_cons msg later).trans hunread) hle
                rw [List.length_cons, List.length_cons]
                omega

/-- If everything is delivered, no timeout came inside a frame. -/
theorem timeoutsBetweenFrames_of_run (hcodec : Postcard.RoundTrips)
    {peerId : UInt32} {msgs : List ProtocolMessage}
    (hsend : ∀ msg ∈ msgs, Sendable msg) {turns : List Unit}
    {stream : TcpStream} {last : Reader} {unread : List ProtocolMessage}
    (hunread : unread <:+ msgs) (hbytes : bytesOf (flat stream) = wire unread)
    (hrun : Run (readerTurn peerId) (.reading stream) turns last
      (unread.map (.message peerId)))
    (haligned : AllSteps (readerTurn peerId) (.reading stream) turns
      (ReadsAligned msgs)) :
    TimeoutsBetweenFrames unread stream := by
  induction turns generalizing stream unread with
  | nil =>
      obtain ⟨-, hnone⟩ := hrun.unique .start
      rw [List.map_eq_nil_iff.mp hnone] at hbytes ⊢
      exact timeoutsBetweenFrames_of_nil hbytes
  | cons turn turns ih =>
      obtain ⟨t, out, outputs, hnext, htail, heq⟩ := hrun.split_first
      have hlater := haligned.tail hnext
      cases readerTurn_cases hnext with
      | failed kind hkind =>
          cases unread with
          | nil => cases heq
          | cons msg more => cases heq
      | message payload rest msg hread hmsg =>
          have hsome : ∀ msg ∈ unread, Sendable msg := fun msg hmem =>
            hsend msg (hunread.subset hmem)
          obtain ⟨more, rfl, hrest, hpayload, hlength, hflat⟩ :=
            next_of_readFrame hcodec hsome hbytes hread hmsg
          have hafter : more.map (.message peerId) = outputs :=
            (List.cons.inj heq).2
          rw [← hafter] at htail
          rw [timeoutsBetweenFrames_cons_message hpayload hlength hflat]
          exact ih ((List.suffix_cons msg more).trans hunread) hrest htail
            hlater
      | timeout kind htimeout lost rest hflat =>
          rw [List.nil_append] at heq
          rw [← heq] at htail
          have hsplit : wire unread = lost ++ bytesOf (flat rest) := by
            rw [← hbytes, hflat, bytesOf_append, bytesOf_quietly]
            rfl
          cases lost with
          | nil =>
              rw [timeoutsBetweenFrames_cons_timeout hflat]
              exact ih hunread hsplit.symm htail hlater
          | cons byte lost =>
              -- a lost byte leaves fewer starts than messages to deliver
              obtain ⟨starts, hstarts, hle, hlength⟩ :=
                length_delivered_le hcodec hsend htail hlater
              have hfewer : starts.length < unread.length := by
                apply length_lt_of_wire hstarts hunread
                rw [hsplit, List.length_append, List.length_cons]
                omega
              omega

/-- A turn before the rest is delivered. -/
theorem DeliversRest.turn {peerId : UInt32} {msgs unread more : List ProtocolMessage}
    {stream rest : TcpStream} {out : List TransportEvent}
    (h : DeliversRest peerId msgs more rest)
    (hturn : readerTurn peerId (.reading stream) () =
      some (.reading rest, out))
    (hout : out ++ more.map (.message peerId) = unread.map (.message peerId))
    (hhere : ReadsAligned msgs (.reading stream) ()) :
    DeliversRest peerId msgs unread stream := by
  obtain ⟨turns, last, hrun, hend, haligned⟩ := h
  refine ⟨() :: turns, last, ?_, hend, ?_⟩
  · rw [← hout]
    exact Run.cons hturn hrun
  · apply AllSteps.cons
    · exact hhere
    · intro t out hnext
      rw [hturn] at hnext
      cases hnext
      exact haligned

/-- With everything delivered and no timeout in front, nothing is left. -/
theorem deliversRest_nil (peerId : UInt32) (msgs : List ProtocolMessage)
    {stream : TcpStream} (hbytes : bytesOf (flat stream) = [])
    (hfront : ∀ kind rest, flat stream ≠ .inr kind :: rest) :
    DeliversRest peerId msgs [] stream := by
  obtain ⟨front, hflat | ⟨kind, tail, hflat⟩⟩ := exists_quietly (flat stream)
  · rw [hflat, bytesOf_quietly] at hbytes
    rw [hbytes] at hflat
    exact ⟨[], .reading stream, .start, readerTurn_of_nil peerId hflat, .nil⟩
  · rw [hflat, bytesOf_append, bytesOf_quietly] at hbytes
    rw [(List.append_eq_nil_iff.mp hbytes).1] at hflat
    exact absurd hflat (hfront kind tail)

/-- Timeouts between frames do no harm. -/
theorem deliversRest_of_timeouts (hcodec : Postcard.RoundTrips)
    (peerId : UInt32) {msgs : List ProtocolMessage}
    (hsend : ∀ msg ∈ msgs, Sendable msg) {stream : TcpStream}
    {unread : List ProtocolMessage} (hunread : unread <:+ msgs)
    (hbytes : bytesOf (flat stream) = wire unread)
    (htimeouts : OnlyTimeouts stream)
    (hbetween : TimeoutsBetweenFrames unread stream) :
    DeliversRest peerId msgs unread stream := by
  induction hsize : (flat stream).length using Nat.strongRecOn
    generalizing stream unread with
  | ind size ih =>
      subst hsize
      have hhere : ReadsAligned msgs (.reading stream) () :=
        fun _ _ _ => ⟨unread, hunread, hbytes⟩
      by_cases hfront : ∃ kind tail, flat stream = .inr kind :: tail
      · obtain ⟨kind, tail, hflat⟩ := hfront
        have htimeout : kind.IsTimeout := htimeouts kind (by
          rw [hflat]
          exact List.mem_cons_self)
        obtain ⟨rest, hturn, rfl⟩ :=
          readerTurn_of_timeout peerId htimeout hflat
        have hless : (flat rest).length < (flat stream).length := by
          rw [hflat]
          exact Nat.lt_succ_self _
        have hlater : OnlyTimeouts rest :=
          htimeouts.rest [.inr kind] hflat
        rw [timeoutsBetweenFrames_cons_timeout hflat] at hbetween
        rw [hflat] at hbytes
        have hdelivers := ih _ hless hunread hbytes hlater hbetween rfl
        exact hdelivers.turn hturn rfl hhere
      · have hquiet : ∀ kind tail, flat stream ≠ .inr kind :: tail :=
          fun kind tail hflat => hfront ⟨kind, tail, hflat⟩
        cases unread with
        | nil => exact deliversRest_nil peerId msgs hbytes hquiet
        | cons msg more =>
            obtain ⟨payload, hpayload, hlength⟩ :=
              hsend msg (hunread.subset List.mem_cons_self)
            obtain ⟨tail, hflat⟩ :=
              frame_first hpayload hlength hbytes hbetween hquiet
            obtain ⟨rest, hturn, rfl⟩ :=
              readerTurn_of_message hcodec peerId hpayload hlength hflat
            have hless : (flat rest).length < (flat stream).length := by
              have hfour := length_frameBytes payload
              rw [hflat, List.length_append, length_quietly]
              omega
            have hlater : OnlyTimeouts rest := htimeouts.rest _ hflat
            rw [timeoutsBetweenFrames_cons_message hpayload hlength hflat]
              at hbetween
            rw [hflat, bytesOf_append, bytesOf_quietly,
              wire_cons hpayload hlength] at hbytes
            have hdelivers := ih _ hless
              ((List.suffix_cons msg more).trans hunread)
              (List.append_cancel_left hbytes) hlater hbetween rfl
            exact hdelivers.turn hturn rfl hhere

/-- Whatever messages are written and however they arrive, with timeouts as the
only errors: they are delivered if and only if each timeout comes between two
frames. -/
theorem delivers_iff (hcodec : Postcard.RoundTrips) (peerId : UInt32)
    {msgs : List ProtocolMessage} (hsend : ∀ msg ∈ msgs, Sendable msg)
    {stream : TcpStream} (hbytes : bytesOf (flat stream) = wire msgs)
    (htimeouts : OnlyTimeouts stream) :
    Delivers peerId msgs stream ↔ TimeoutsBetweenFrames msgs stream := by
  constructor
  · rintro ⟨turns, last, hrun, -, haligned⟩
    exact timeoutsBetweenFrames_of_run hcodec hsend List.suffix_rfl hbytes hrun
      haligned
  · intro hbetween
    exact deliversRest_of_timeouts hcodec peerId hsend List.suffix_rfl hbytes
      htimeouts hbetween

end

namespace Sample

/-- The two messages of the next two statements. -/
def written : List ProtocolMessage := [.helloAck 5, .getStatus]

theorem sendable_written : ∀ msg ∈ written, Sendable msg := by
  intro msg hmsg
  simp only [written, List.mem_cons, List.not_mem_nil, or_false] at hmsg
  rcases hmsg with rfl | rfl
  · exact ⟨[1, 5], rfl, by decide⟩
  · exact ⟨[2], rfl, by decide⟩

/-- The messages, with a timeout where the second one begins. -/
def between : TcpStream :=
  [.data [0, 0], .data [0, 2, 1], .data [5], .fault .timedOut,
    .data [0, 0, 0, 1, 2]]

/-- The only timeout of a stream is the one there is. -/
theorem before_only_fault {front tail : List UInt8} {kind found : ErrorKind}
    {before after : List (UInt8 ⊕ ErrorKind)}
    (h : quietly front ++ .inr kind :: quietly tail =
      before ++ .inr found :: after) : before = quietly front := by
  rcases List.append_eq_append_iff.mp h with
    ⟨more, rfl, hrest⟩ | ⟨more, hquiet, hrest⟩
  · cases more with
    | nil => exact List.append_nil _
    | cons arrival more =>
        obtain ⟨-, htail⟩ := List.cons.inj hrest
        apply absurd _ (not_mem_quietly tail found)
        rw [htail]
        exact List.mem_append_right more List.mem_cons_self
  · cases more with
    | nil => rw [hquiet, List.append_nil]
    | cons arrival more =>
        obtain ⟨rfl, -⟩ := List.cons.inj hrest
        apply absurd _ (not_mem_quietly front found)
        rw [hquiet]
        exact List.mem_append_right before List.mem_cons_self

theorem onlyTimeouts_of_one {stream : TcpStream} {front tail : List UInt8}
    (hflat : flat stream = quietly front ++ .inr .timedOut :: quietly tail) :
    OnlyTimeouts stream := by
  intro kind hkind
  rw [hflat, List.mem_append, List.mem_cons] at hkind
  rcases hkind with hfront | hhere | htail
  · exact absurd hfront (not_mem_quietly front kind)
  · cases hhere
    exact .inl rfl
  · exact absurd htail (not_mem_quietly tail kind)

theorem flat_between :
    flat between = quietly [0, 0, 0, 2, 1, 5] ++
      .inr .timedOut :: quietly [0, 0, 0, 1, 2] := rfl

theorem delivers_iff_between : Delivers 7 written between := by
  apply (delivers_iff roundTrips 7 sendable_written rfl
    (onlyTimeouts_of_one flat_between)).mpr
  intro before kind after hflat
  rw [before_only_fault (flat_between.symm.trans hflat)]
  exact ⟨[.helloAck 5], ⟨[.getStatus], rfl⟩, rfl⟩

/-- The messages, with a timeout in the middle of the first length field. -/
def inside : TcpStream :=
  [.data [0, 0], .fault .timedOut, .data [0, 2, 1, 5, 0, 0, 0, 1, 2]]

theorem flat_inside :
    flat inside = quietly [0, 0] ++
      .inr .timedOut :: quietly [0, 2, 1, 5, 0, 0, 0, 1, 2] := rfl

theorem inside_not_delivered :
    bytesOf (flat inside) = wire written ∧ OnlyTimeouts inside ∧
      ¬Delivers 7 written inside := by
  refine ⟨rfl, onlyTimeouts_of_one flat_inside, ?_⟩
  rintro ⟨turns, last, hrun, -, haligned⟩
  have hbetween := timeoutsBetweenFrames_of_run roundTrips sendable_written
    List.suffix_rfl rfl hrun haligned
  obtain ⟨sent, hsent, hbytes⟩ := hbetween _ _ _ flat_inside
  -- two bytes are not a number of whole frames
  have hlength := congrArg List.length hbytes
  cases sent with
  | nil => cases hlength
  | cons msg sent =>
      have hsome : Sendable msg :=
        sendable_written msg (hsent.subset List.mem_cons_self)
      have hle := length_wire_cons hsome sent
      rw [← hlength] at hle
      change _ + 4 ≤ 2 at hle
      omega

end Sample

end B4n.Transport
