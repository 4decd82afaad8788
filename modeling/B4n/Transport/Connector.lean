import B4n.Node.Peers
import B4n.Node.Sample
import B4n.Transport.Connection

/-!
# The connector

The thread of `connect_peer` with everything that decides what becomes of its
link: the reader threads of its connections, the queue `tx_events`, the bridge
of `cli::run`, the channel of the node and the node with its peer map.

The thread reconnects only after a write that failed, and it gets something to
write only through a sender.  It keeps one itself (`tx_out_loop`), so `rx_out`
is never closed; the others are those it sent in `PeerConnected` events, and
the node drops them.

What reads and writes return is left open: a write to a broken connection may
succeed, since the socket buffers it.  `Stop` ends the process and is not among
the steps.

## Main results

* `run_abandoned_iff` — once everything is handled, a broken link is abandoned
  exactly if the node let go of the sender while the thread was waiting for a
  message, or earlier and the last message was then written without an error.
-/

namespace B4n

open Lib Blockchain Transport

/-- What the bridge of `cli::run` makes of an event. -/
def bridged : TransportEvent → NodeMessage
  | .peerConnected peerId sender => .addPeer peerId sender
  | .peerDisconnected peerId => .removePeer peerId
  | .message peerId msg => .net peerId msg

/-- What a step of the node puts on a channel. -/
def sentOn (sender : Sender) (effects : List Effect) : List ProtocolMessage :=
  effects.filterMap fun
    | .send _ channel msg => if channel = sender then some msg else none
    | .signed _ => none

structure Connector where
  /-- the connection the thread works on -/
  current : Connection
  /-- connections it gave up; their reader threads may still run -/
  earlier : List Connection
  /-- the TCP connection of `current` is broken -/
  broken : Bool
  /-- what `rx_out` holds -/
  outbound : List ProtocolMessage
  /-- what `tx_events` holds -/
  events : List TransportEvent
  /-- what the channel of the node holds -/
  inbox : List NodeMessage
  node : Node

/-- Before the thread runs. -/
def Connector.start (node : Node) : Connector where
  current := .new
  earlier := []
  broken := false
  outbound := []
  events := []
  inbox := []
  node := node

inductive ConnectorStep where
  /-- a thread of the current connection does something but `rx_out.recv()` -/
  | thread (step : ThreadStep)
  /-- `rx_out.recv()` returns -/
  | recv
  /-- the reader of an earlier connection goes on -/
  | earlier (i : Nat) (step : ThreadStep)
  /-- the current TCP connection breaks -/
  | breaks
  /-- the thread goes back to `TcpStream::connect` -/
  | reconnect
  /-- the bridge takes an event -/
  | bridge
  /-- another connection puts an event on `tx_events` -/
  | others (event : TransportEvent)
  /-- another thread of the process sends to the node -/
  | fromProcess (m : NodeMessage)
  | nodeTurn (env : Env)
  | nodeTick (env : Env)

def Transport.ThreadStep.isReceive : ThreadStep → Bool
  | .receive _ => true
  | _ => false

def Transport.ThreadStep.isReader : ThreadStep → Bool
  | .read _ => true
  | .reportRead => true
  | _ => false

namespace Connector

variable (peerId : UInt32) (sender : Sender)

/-- A `PeerConnected` of the thread is not handled yet. -/
def Pending (s : Connector) : Prop :=
  .peerConnected peerId sender ∈ s.events ∨ .addPeer peerId sender ∈ s.inbox

/-- Someone but the thread itself has its sender, or will have it. -/
def Held (s : Connector) : Prop :=
  s.node.peers.lookup peerId = some sender ∨ s.Pending peerId sender

instance (s : Connector) : Decidable (s.Pending peerId sender) := by
  unfold Pending
  infer_instance

instance (s : Connector) : Decidable (s.Held peerId sender) := by
  unfold Held
  infer_instance

/-- No sender of the channel is left.  The thread keeps `tx_out_loop` until it
returns. -/
def channelClosed (s : Connector) : Bool :=
  s.current.writer = .returned ∧ ¬s.Held peerId sender

/-- A step of the current connection. -/
def threadStep (s : Connector) (step : ThreadStep) :
    Option (Connector × List Effect) :=
  match s.current.next (.dialled peerId) sender step with
  | none => none
  | some (current, out) =>
      some ({ s with current := current, events := s.events ++ out }, [])

/-- The node handled something. -/
def withNode (s : Connector) (node : Node) (effects : List Effect) :
    Connector :=
  { s with node := node, outbound := s.outbound ++ sentOn sender effects }

variable [Primitives]

/-- A step of the node. -/
def nodeStep (s : Connector) (env : Env) (input : Input) :
    Option (Connector × List Effect) :=
  match s.node.next (env, input) with
  | none => none
  | some (node, effects) => some (s.withNode sender node effects, effects)

/-- The machine of the connector, with the node's effects as outputs. -/
def next : Machine Connector ConnectorStep Effect := fun s step =>
  match step with
  | .thread step =>
      if step.isReceive then none else s.threadStep peerId sender step
  | .recv =>
      match s.outbound with
      | msg :: rest =>
          { s with outbound := rest }.threadStep peerId sender
            (.receive (some msg))
      | [] =>
          if s.channelClosed peerId sender then
            s.threadStep peerId sender (.receive none)
          else none
  | .earlier i step =>
      match s.earlier[i]? with
      | none => none
      | some c =>
          if step.isReader then
            match c.next (.dialled peerId) sender step with
            | none => none
            | some (c, out) =>
                some ({ s with earlier := s.earlier.set i c,
                               events := s.events ++ out }, [])
          else none
  | .breaks => some ({ s with broken := true }, [])
  | .reconnect =>
      if s.current.setup = .failed ∨ s.current.writer = .reported ∨
          s.current.writer = .silenced then
        some ({ s with current := .new, earlier := s.current :: s.earlier,
                       broken := false }, [])
      else none
  | .bridge =>
      match s.events with
      | [] => none
      | event :: events =>
          some ({ s with events := events, inbox := s.inbox ++ [bridged event] },
            [])
  | .others event =>
      match event with
      | .peerConnected _ found =>
          if found = sender then none
          else some ({ s with events := s.events ++ [event] }, [])
      | _ => some ({ s with events := s.events ++ [event] }, [])
  | .fromProcess m =>
      match m with
      | .localTrx _ => some ({ s with inbox := s.inbox ++ [m] }, [])
      | .debugPrint => some ({ s with inbox := s.inbox ++ [m] }, [])
      | _ => none
  | .nodeTurn env =>
      match s.inbox with
      | [] => none
      | m :: inbox =>
          { s with inbox := inbox }.nodeStep sender env (.message m)
  | .nodeTick env =>
      match s.inbox with
      | [] => s.nodeStep sender env .tick
      | _ :: _ => none

omit [Primitives]

/-! ## Abandoned links -/

/-- The thread is in its writer loop and not in `write_msg`; with an empty
channel it is blocked in `rx_out.recv()`. -/
def InRecv (s : Connector) : Prop :=
  s.current.setup = .announced peerId ∧ s.current.writer = .receiving

/-- The current connection is broken and its reader has exited, the node has
handled all events, and the channel is empty. -/
structure Settled (s : Connector) : Prop where
  broken : s.broken = true
  exited : s.current.reader = .reported ∨ s.current.reader = .silenced
  events : s.events = []
  inbox : s.inbox = []
  outbound : s.outbound = []

instance (s : Connector) : Decidable (s.InRecv peerId) := by
  unfold InRecv
  infer_instance

instance (s : Connector) : Decidable s.Settled :=
  decidable_of_iff (s.broken = true ∧
      (s.current.reader = .reported ∨ s.current.reader = .silenced) ∧
      s.events = [] ∧ s.inbox = [] ∧ s.outbound = [])
    ⟨fun ⟨hbroken, hexited, hevents, hinbox, houtbound⟩ =>
      ⟨hbroken, hexited, hevents, hinbox, houtbound⟩,
    fun h => ⟨h.broken, h.exited, h.events, h.inbox, h.outbound⟩⟩

/-- The thread waits for a message, and the node does not have its sender.  If
not, it is in the reconnect loop, in `write_msg` or has returned, or the node
still has its sender. -/
def Abandoned (s : Connector) : Prop :=
  s.InRecv peerId ∧ s.node.peers.lookup peerId ≠ some sender

/-- With the next message it handles, the node lets go of the sender, and no
other `PeerConnected` is on its way. -/
def LetsGo (s : Connector) : Prop :=
  match s.inbox with
  | [] => False
  | m :: inbox =>
      ((Input.message m).peersAfter s.node.peers).lookup peerId ≠ some sender ∧
        ¬{ s with inbox := inbox }.Pending peerId sender

/-- The node lets go of the sender only while the thread is not waiting on an
empty channel, and without a sender the thread does not come back to an empty
channel. -/
def InTime (s : Connector) : ConnectorStep → Prop
  | .nodeTurn _ =>
      s.LetsGo peerId sender → ¬(s.InRecv peerId ∧ s.outbound = [])
  | .thread (.write true) => s.outbound ≠ [] ∨ s.Held peerId sender
  | _ => True

variable {peerId sender}

/-! ## What a step can do -/

/-- The quantities of a step of the connector. -/
inductive ConnectorCase [Primitives] (peerId : UInt32) (sender : Sender)
    (s : Connector) : ConnectorStep → Connector → Prop where
  | thread (step : ThreadStep) (current : Connection)
      (out : List TransportEvent) (hnot : step.isReceive = false)
      (hstep : Connection.StepCase (.dialled peerId) sender s.current step
        current out) :
      ConnectorCase peerId sender s (.thread step)
        { s with current := current, events := s.events ++ out }
  | recv (msg : ProtocolMessage) (rest : List ProtocolMessage)
      (houtbound : s.outbound = msg :: rest)
      (hwriter : s.current.writer = .receiving)
      (hid : ∃ found, s.current.setup = .announced found) :
      ConnectorCase peerId sender s .recv
        { s with current := { s.current with writer := .writing msg },
                 outbound := rest }
  | earlier (i : Nat) (step : ThreadStep) (c : Connection)
      (out : List TransportEvent)
      (hquiet : ∀ found, .peerConnected found sender ∉ out) :
      ConnectorCase peerId sender s (.earlier i step)
        { s with earlier := s.earlier.set i c, events := s.events ++ out }
  | breaks : ConnectorCase peerId sender s .breaks { s with broken := true }
  | reconnect (hgone : s.current.setup = .failed ∨
        s.current.writer = .reported ∨ s.current.writer = .silenced) :
      ConnectorCase peerId sender s .reconnect
        { s with current := .new, earlier := s.current :: s.earlier,
                 broken := false }
  | bridge (event : TransportEvent) (events : List TransportEvent)
      (hevents : s.events = event :: events) :
      ConnectorCase peerId sender s .bridge
        { s with events := events, inbox := s.inbox ++ [bridged event] }
  | others (event : TransportEvent)
      (hother : ∀ found, event ≠ .peerConnected found sender) :
      ConnectorCase peerId sender s (.others event)
        { s with events := s.events ++ [event] }
  | fromProcess (m : NodeMessage)
      (hother : ∀ found channel, m ≠ .addPeer found channel) :
      ConnectorCase peerId sender s (.fromProcess m)
        { s with inbox := s.inbox ++ [m] }
  | nodeTurn (env : Env) (m : NodeMessage) (inbox : List NodeMessage)
      (node : Node) (effects : List Effect) (hinbox : s.inbox = m :: inbox)
      (hnode : s.node.next (env, .message m) = some (node, effects)) :
      ConnectorCase peerId sender s (.nodeTurn env)
        ({ s with inbox := inbox }.withNode sender node effects)
  | nodeTick (env : Env) (node : Node) (effects : List Effect)
      (hnode : s.node.next (env, .tick) = some (node, effects)) :
      ConnectorCase peerId sender s (.nodeTick env)
        (s.withNode sender node effects)

/-- A reader does not announce. -/
theorem not_mem_of_isReader {origin : Origin} {c d : Connection}
    {step : ThreadStep} {out : List TransportEvent}
    (h : Connection.StepCase origin sender c step d out)
    (hreader : step.isReader = true) (found : UInt32) :
    .peerConnected found sender ∉ out := by
  cases h with
  | message msg id hid hreading => simp
  | timeout kind htimeout => simp
  | readFailed kind hreading => simp
  | readReported id hid hreporting => simp
  | refused reply hsetup => cases hreader
  | spawned reply id hsetup hreply => cases hreader
  | announced id hsetup => cases hreader
  | received msg id hsetup hwriter => cases hreader
  | closed id hsetup hwriter => cases hreader
  | written msg hwriter => cases hreader
  | writeFailed msg hwriter => cases hreader
  | writeReported id hid hwriter => cases hreader

theorem threadStep_eq_some {s t : Connector} {step : ThreadStep}
    {effects : List Effect}
    (h : s.threadStep peerId sender step = some (t, effects)) :
    ∃ current out,
      Connection.StepCase (.dialled peerId) sender s.current step current out ∧
      t = { s with current := current, events := s.events ++ out } := by
  unfold threadStep at h
  split at h
  · cases h
  · rename_i current out hnext
    cases h
    exact ⟨current, out, Connection.next_cases hnext, rfl⟩

variable [Primitives]

theorem next_cases {s t : Connector} {step : ConnectorStep}
    {effects : List Effect}
    (h : next peerId sender s step = some (t, effects)) :
    ConnectorCase peerId sender s step t := by
  cases step with
  | thread step =>
      simp only [next] at h
      split at h
      · cases h
      · rename_i hnot
        obtain ⟨current, out, hstep, rfl⟩ := threadStep_eq_some h
        exact .thread step current out (Bool.eq_false_iff.mpr hnot) hstep
  | recv =>
      simp only [next] at h
      split at h
      · rename_i msg rest houtbound
        obtain ⟨current, out, hstep, rfl⟩ := threadStep_eq_some h
        cases hstep with
        | received _ found hsetup hwriter =>
            rw [List.append_nil]
            exact .recv msg rest houtbound hwriter ⟨found, hsetup⟩
      · split at h
        · rename_i hclosed
          obtain ⟨current, out, hstep, rfl⟩ := threadStep_eq_some h
          -- the thread itself has a sender while it is in `recv`
          cases hstep with
          | closed found hsetup hwriter =>
              unfold channelClosed at hclosed
              rw [hwriter] at hclosed
              simp at hclosed
        · cases h
  | earlier i step =>
      simp only [next] at h
      split at h
      · cases h
      · rename_i c hc
        split at h
        · rename_i hreader
          split at h
          · cases h
          · rename_i d out hnext
            cases h
            exact .earlier i step d out
              (not_mem_of_isReader (Connection.next_cases hnext) hreader)
        · cases h
  | breaks =>
      cases h
      exact .breaks
  | reconnect =>
      simp only [next] at h
      split at h
      · rename_i hgone
        cases h
        exact .reconnect hgone
      · cases h
  | bridge =>
      simp only [next] at h
      split at h
      · cases h
      · rename_i event events hevents
        cases h
        exact .bridge event events hevents
  | others event =>
      simp only [next] at h
      split at h
      · split at h
        · cases h
        · rename_i found channel hother
          cases h
          apply ConnectorCase.others
          intro other heq
          cases heq
          exact hother rfl
      · rename_i hnot
        cases h
        apply ConnectorCase.others
        intro other heq
        exact hnot other sender heq
  | fromProcess m =>
      simp only [next] at h
      split at h
      · cases h
        exact .fromProcess _ nofun
      · cases h
        exact .fromProcess _ nofun
      · cases h
  | nodeTurn env =>
      simp only [next] at h
      split at h
      · cases h
      · rename_i m inbox hinbox
        unfold nodeStep at h
        split at h
        · cases h
        · rename_i node out hnode
          cases h
          exact .nodeTurn env m inbox node _ hinbox hnode
  | nodeTick env =>
      simp only [next] at h
      split at h
      · unfold nodeStep at h
        split at h
        · cases h
        · rename_i node out hnode
          cases h
          exact .nodeTick env node _ hnode
      · cases h

omit [Primitives]

/-! ## The sender of the thread -/

/-- A dialled connection has the id that was dialled, and its writer loop runs
only after `PeerConnected`. -/
structure Dialled (peerId : UInt32) (c : Connection) : Prop where
  setup : ∀ found, c.setup.peerId = some found → found = peerId
  writer : c.writer ≠ .receiving → c.setup = .announced peerId

theorem handshake_dialled {reply : Option ProtocolMessage} {found : UInt32}
    (h : (Origin.dialled peerId).handshake reply = some found) :
    found = peerId := by
  cases reply with
  | none => cases h
  | some msg =>
      cases msg with
      | helloAck id =>
          change (if id = peerId then some peerId else none) = some found at h
          split at h
          · exact (Option.some.inj h).symm
          · cases h
      | _ => cases h

theorem Dialled.announced_id {c : Connection} (h : Dialled peerId c)
    {found : UInt32} (hsetup : c.setup = .announced found) :
    c.setup = .announced peerId := by
  rw [hsetup, h.setup found (by rw [hsetup]; rfl)]

/-- A step that does not touch the setup, with a writer loop that runs only if
it ran before. -/
theorem Dialled.of_same {c t : Connection} (h : Dialled peerId c)
    (hsetup : t.setup = c.setup)
    (hwriter : t.writer ≠ .receiving → c.setup = .announced peerId) :
    Dialled peerId t where
  setup := by
    rw [hsetup]
    exact h.setup
  writer := by
    rw [hsetup]
    exact hwriter

theorem Dialled.step {c t : Connection} (h : Dialled peerId c)
    {step : ThreadStep} {out : List TransportEvent}
    (hstep : Connection.StepCase (.dialled peerId) sender c step t out) :
    Dialled peerId t := by
  cases hstep with
  | refused reply hsetup =>
      refine ⟨nofun, fun hthere => ?_⟩
      have hnot := h.writer hthere
      rw [hsetup] at hnot
      cases hnot
  | spawned reply found hsetup hreply =>
      refine ⟨?_, fun hthere => ?_⟩
      · intro other heq
        cases heq
        exact handshake_dialled hreply
      · have hnot := h.writer hthere
        rw [hsetup] at hnot
        cases hnot
  | announced found hsetup =>
      have hid : found = peerId := h.setup found (by rw [hsetup]; rfl)
      rw [hid]
      exact ⟨fun other heq => (Option.some.inj heq).symm, fun _ => rfl⟩
  | message msg found hid hreader => exact h
  | timeout kind htimeout => exact h
  | readFailed kind hreader =>
      apply h.of_same c.endReader_setup
      rw [c.endReader_writer]
      exact h.writer
  | readReported found hid hreader => exact h.of_same rfl h.writer
  | received msg found hsetup hwriter =>
      exact Dialled.of_same h rfl fun _ => h.announced_id hsetup
  | closed found hsetup hwriter =>
      exact Dialled.of_same h rfl fun _ => h.announced_id hsetup
  | written msg hwriter =>
      exact Dialled.of_same h rfl fun hthere => absurd rfl hthere
  | writeFailed msg hwriter =>
      apply h.of_same (c.endWriter_setup _)
      intro _
      apply h.writer
      rw [hwriter]
      exact nofun
  | writeReported found hid hwriter =>
      apply Dialled.of_same h
      · rfl
      · intro _
        apply h.writer
        rw [hwriter]
        exact nofun

/-- What a dialled connection announces has the id that was dialled. -/
theorem Dialled.announces {c t : Connection} (h : Dialled peerId c)
    {step : ThreadStep} {out : List TransportEvent}
    (hstep : Connection.StepCase (.dialled peerId) sender c step t out)
    {found : UInt32} {channel : Sender}
    (hfound : .peerConnected found channel ∈ out) : found = peerId := by
  cases hstep with
  | announced id hsetup =>
      cases List.mem_singleton.mp hfound
      exact h.setup found (by rw [hsetup]; rfl)
  | _ => simp at hfound

/-- The sender of the thread goes under the id of its peer only. -/
structure OwnId (peerId : UInt32) (sender : Sender) (s : Connector) :
    Prop where
  peers : ∀ found, s.node.peers.lookup found = some sender → found = peerId
  events : ∀ found, .peerConnected found sender ∈ s.events → found = peerId
  inbox : ∀ found, .addPeer found sender ∈ s.inbox → found = peerId
  current : Dialled peerId s.current

/-- More events keep the ids, if the new ones do. -/
theorem OwnId.append_events {s : Connector} (h : OwnId peerId sender s)
    {out : List TransportEvent}
    (hout : ∀ found, .peerConnected found sender ∈ out → found = peerId) :
    ∀ found, .peerConnected found sender ∈ s.events ++ out →
      found = peerId := by
  intro found hfound
  rcases List.mem_append.mp hfound with hold | hnew
  · exact h.events found hold
  · exact hout found hnew

theorem OwnId.append_inbox {s : Connector} (h : OwnId peerId sender s)
    {m : NodeMessage}
    (hm : ∀ found, m = .addPeer found sender → found = peerId) :
    ∀ found, .addPeer found sender ∈ s.inbox ++ [m] → found = peerId := by
  intro found hfound
  rcases List.mem_append.mp hfound with hold | hnew
  · exact h.inbox found hold
  · exact hm found (List.mem_singleton.mp hnew).symm

theorem bridged_eq_addPeer {event : TransportEvent} {found : UInt32}
    {channel : Sender} (h : bridged event = .addPeer found channel) :
    event = .peerConnected found channel := by
  cases event with
  | peerConnected id brought =>
      cases h
      rfl
  | peerDisconnected id => cases h
  | message id msg => cases h

variable [Primitives]

theorem OwnId.step {s t : Connector} (h : OwnId peerId sender s)
    {step : ConnectorStep} (hcase : ConnectorCase peerId sender s step t) :
    OwnId peerId sender t := by
  cases hcase with
  | thread step current out hnot hstep =>
      exact ⟨h.peers, h.append_events fun _ => h.current.announces hstep,
        h.inbox, h.current.step hstep⟩
  | recv msg rest houtbound hwriter hid =>
      obtain ⟨found, hsetup⟩ := hid
      exact ⟨h.peers, h.events, h.inbox,
        h.current.of_same rfl fun _ => h.current.announced_id hsetup⟩
  | earlier i step c out hquiet =>
      exact ⟨h.peers,
        h.append_events fun found hfound => absurd hfound (hquiet found),
        h.inbox, h.current⟩
  | breaks => exact ⟨h.peers, h.events, h.inbox, h.current⟩
  | reconnect hgone =>
      exact ⟨h.peers, h.events, h.inbox, nofun, fun hthere => absurd rfl hthere⟩
  | bridge event events hevents =>
      refine ⟨h.peers, ?_, h.append_inbox ?_, h.current⟩
      · intro found hfound
        apply h.events found
        rw [hevents]
        exact List.mem_cons_of_mem event hfound
      · intro found heq
        apply h.events found
        rw [hevents, bridged_eq_addPeer heq]
        exact List.mem_cons_self
  | others event hother =>
      refine ⟨h.peers, h.append_events fun found hfound => ?_, h.inbox,
        h.current⟩
      exact absurd (List.mem_singleton.mp hfound).symm (hother found)
  | fromProcess m hother =>
      exact ⟨h.peers, h.events,
        h.append_inbox fun found heq => absurd heq (hother found sender),
        h.current⟩
  | nodeTurn env m inbox node effects hinbox hnode =>
      refine ⟨?_, h.events, ?_, h.current⟩
      · intro found hfound
        change node.peers.lookup found = some sender at hfound
        rw [Node.next_peers hnode] at hfound
        rcases Input.lookup_peersAfter hfound with hold | hnew
        · exact h.peers found hold
        · apply h.inbox found
          rw [hinbox]
          cases hnew
          exact List.mem_cons_self
      · intro found hfound
        apply h.inbox found
        rw [hinbox]
        exact List.mem_cons_of_mem m hfound
  | nodeTick env node effects hnode =>
      refine ⟨?_, h.events, h.inbox, h.current⟩
      intro found hfound
      change node.peers.lookup found = some sender at hfound
      rw [Node.next_peers hnode] at hfound
      exact h.peers found hfound

omit [Primitives]

/-! ## Stranded threads -/

/-- The thread waits on an empty channel, and nobody else has its sender or will
have it. -/
structure Stranded (peerId : UInt32) (sender : Sender) (s : Connector) :
    Prop where
  inRecv : s.InRecv peerId
  outbound : s.outbound = []
  dropped : ¬s.Held peerId sender

theorem Settled.abandoned_iff {s : Connector} (h : s.Settled) :
    s.Abandoned peerId sender ↔ Stranded peerId sender s := by
  constructor
  · rintro ⟨hrecv, hlookup⟩
    refine ⟨hrecv, h.outbound, ?_⟩
    rintro (hheld | hevent | hinbox)
    · exact hlookup hheld
    · rw [h.events] at hevent
      cases hevent
    · rw [h.inbox] at hinbox
      cases hinbox
  · intro hstranded
    exact ⟨hstranded.inRecv, fun hheld => hstranded.dropped (.inl hheld)⟩

/-- A step that moves neither the thread nor the senders. -/
theorem stranded_iff_of_same {s t : Connector}
    (hsetup : t.current.setup = s.current.setup)
    (hwriter : t.current.writer = s.current.writer)
    (houtbound : t.outbound = s.outbound)
    (hheld : t.Held peerId sender ↔ s.Held peerId sender) :
    Stranded peerId sender t ↔ Stranded peerId sender s := by
  have hrecv : t.InRecv peerId ↔ s.InRecv peerId := by
    unfold InRecv
    rw [hsetup, hwriter]
  constructor
  · intro h
    exact ⟨hrecv.mp h.inRecv, houtbound ▸ h.outbound,
      fun hs => h.dropped (hheld.mpr hs)⟩
  · intro h
    exact ⟨hrecv.mpr h.inRecv, houtbound ▸ h.outbound,
      fun ht => h.dropped (hheld.mp ht)⟩

/-- Events that announce nothing bring no sender. -/
theorem held_append_events {s : Connector} {current : Connection}
    {earlier : List Connection} {out : List TransportEvent}
    (hout : .peerConnected peerId sender ∉ out) :
    { s with current := current, earlier := earlier,
             events := s.events ++ out }.Held peerId sender ↔
      s.Held peerId sender := by
  simp [Held, Pending, hout]

theorem held_append_inbox {s : Connector} {m : NodeMessage}
    (hm : m ≠ .addPeer peerId sender) :
    { s with inbox := s.inbox ++ [m] }.Held peerId sender ↔
      s.Held peerId sender := by
  simp [Held, Pending, hm.symm]

/-- The bridge loses nothing. -/
theorem held_bridge {s : Connector} {event : TransportEvent}
    {events : List TransportEvent} (hevents : s.events = event :: events) :
    { s with events := events, inbox := s.inbox ++ [bridged event] }.Held
        peerId sender ↔ s.Held peerId sender := by
  have hmoved : .addPeer peerId sender = bridged event ↔
      .peerConnected peerId sender = event := by
    constructor
    · intro h
      exact (bridged_eq_addPeer h.symm).symm
    · rintro rfl
      rfl
  simp only [Held, Pending, hevents, List.mem_append, List.mem_cons,
    List.not_mem_nil, or_false, hmoved]
  tauto

/-- What is to be shown of a step: as long as the thread is not stranded, it is
stranded next exactly if the step was not in time, and then it stays so. -/
structure StrandsIff (peerId : UInt32) (sender : Sender) (s : Connector)
    (step : ConnectorStep) (t : Connector) : Prop where
  next : ¬Stranded peerId sender s →
    (¬Stranded peerId sender t ↔ s.InTime peerId sender step)
  stays : Stranded peerId sender s → Stranded peerId sender t

/-- A step that changes nothing about it. -/
theorem StrandsIff.of_iff {s t : Connector} {step : ConnectorStep}
    (h : Stranded peerId sender t ↔ Stranded peerId sender s)
    (hintime : s.InTime peerId sender step) :
    StrandsIff peerId sender s step t where
  next hnot := iff_of_true (fun hthere => hnot (h.mp hthere)) hintime
  stays := h.mpr

theorem not_stranded_of_setup {s : Connector}
    (h : s.current.setup ≠ .announced peerId) :
    ¬Stranded peerId sender s := fun hstranded => h hstranded.inRecv.1

theorem not_stranded_of_writer {s : Connector}
    (h : s.current.writer ≠ .receiving) :
    ¬Stranded peerId sender s := fun hstranded => h hstranded.inRecv.2

theorem strandsIff_thread {s : Connector} (h : OwnId peerId sender s)
    {step : ThreadStep} {current : Connection} {out : List TransportEvent}
    (hnot : step.isReceive = false)
    (hstep : Connection.StepCase (.dialled peerId) sender s.current step
      current out) :
    StrandsIff peerId sender s (.thread step)
      { s with current := current, events := s.events ++ out } := by
  cases hstep with
  | refused reply hsetup =>
      refine .of_iff (iff_of_false ?_ ?_) trivial
      · exact not_stranded_of_setup nofun
      · exact not_stranded_of_setup (by rw [hsetup]; exact nofun)
  | spawned reply found hsetup hreply =>
      refine .of_iff (iff_of_false ?_ ?_) trivial
      · exact not_stranded_of_setup nofun
      · exact not_stranded_of_setup (by rw [hsetup]; exact nofun)
  | announced found hsetup =>
      have hid : found = peerId := h.current.setup found (by rw [hsetup]; rfl)
      refine .of_iff (iff_of_false ?_ ?_) trivial
      · intro hstranded
        apply hstranded.dropped
        rw [hid]
        exact .inr (.inl (List.mem_append_right _ List.mem_cons_self))
      · exact not_stranded_of_setup (by rw [hsetup]; exact nofun)
  | message msg found hid hreader =>
      exact .of_iff (stranded_iff_of_same rfl rfl rfl
        (held_append_events (by simp))) trivial
  | timeout kind htimeout =>
      exact .of_iff (stranded_iff_of_same rfl rfl rfl
        (held_append_events (by simp))) trivial
  | readFailed kind hreader =>
      exact .of_iff (stranded_iff_of_same s.current.endReader_setup
        s.current.endReader_writer rfl (held_append_events (by simp))) trivial
  | readReported found hid hreader =>
      exact .of_iff (stranded_iff_of_same rfl rfl rfl
        (held_append_events (by simp))) trivial
  | received msg found hsetup hwriter => cases hnot
  | closed found hsetup hwriter => cases hnot
  | written msg hwriter =>
      have hsetup : s.current.setup = .announced peerId :=
        h.current.writer (by rw [hwriter]; exact nofun)
      have hbefore : ¬Stranded peerId sender s :=
        not_stranded_of_writer (by rw [hwriter]; exact nofun)
      refine ⟨fun _ => ?_, fun hstranded => absurd hstranded hbefore⟩
      constructor
      · intro hgoes
        by_contra hlate
        rw [InTime, not_or, not_not] at hlate
        apply hgoes
        refine ⟨⟨hsetup, rfl⟩, hlate.1, ?_⟩
        rw [held_append_events (by simp)]
        exact hlate.2
      · rintro (hmore | hheld) hstranded
        · exact hmore hstranded.outbound
        · apply hstranded.dropped
          rw [held_append_events (by simp)]
          exact hheld
  | writeFailed msg hwriter =>
      refine .of_iff (iff_of_false ?_ ?_) trivial
      · apply not_stranded_of_writer
        show (s.current.endWriter (.dialled peerId)).writer ≠ .receiving
        rcases s.current.endWriter_writer (.dialled peerId) with hleft | hleft <;>
          rw [hleft] <;> exact nofun
      · exact not_stranded_of_writer (by rw [hwriter]; exact nofun)
  | writeReported found hid hwriter =>
      refine .of_iff (iff_of_false ?_ ?_) trivial
      · exact not_stranded_of_writer nofun
      · exact not_stranded_of_writer (by rw [hwriter]; exact nofun)

variable [Primitives]

/-- A sender that is not registered gets nothing. -/
theorem sentOn_eq_nil {node last : Node} {env : Env} {input : Input}
    {effects : List Effect}
    (hnode : node.next (env, input) = some (last, effects))
    (hids : ∀ found, last.peers.lookup found = some sender → found = peerId)
    (hlookup : last.peers.lookup peerId ≠ some sender) :
    sentOn sender effects = [] := by
  obtain ⟨rfl, rfl, -⟩ := Node.next_eq_some hnode
  apply List.filterMap_eq_nil_iff.mpr
  intro e he
  have hregistered := node.step_registered env input e he
  cases e with
  | signed block => rfl
  | send found channel msg =>
      show (if channel = sender then some msg else none) = none
      apply if_neg
      rintro rfl
      apply hlookup
      rw [← hids found hregistered]
      exact hregistered

/-- A thread that waits on an empty channel is stranded by a turn exactly if the
node lets go of its sender. -/
theorem strandsIff_nodeTurn {s : Connector} {env : Env} {m : NodeMessage}
    {inbox : List NodeMessage} {node : Node} {effects : List Effect}
    (hinbox : s.inbox = m :: inbox)
    (hnode : s.node.next (env, .message m) = some (node, effects))
    (ht : OwnId peerId sender
      ({ s with inbox := inbox }.withNode sender node effects)) :
    StrandsIff peerId sender s (.nodeTurn env)
      ({ s with inbox := inbox }.withNode sender node effects) := by
  have hpeers := Node.next_peers hnode
  have hletsGo : s.LetsGo peerId sender ↔
      node.peers.lookup peerId ≠ some sender ∧
        ¬{ s with inbox := inbox }.Pending peerId sender := by
    unfold LetsGo
    rw [hinbox, hpeers]
  have hdropped : s.LetsGo peerId sender ↔
      ¬({ s with inbox := inbox }.withNode sender node effects).Held
        peerId sender := by
    rw [hletsGo, Held, not_or]
    rfl
  have hstrands : s.LetsGo peerId sender → s.InRecv peerId →
      s.outbound = [] → Stranded peerId sender
        ({ s with inbox := inbox }.withNode sender node effects) := by
    intro hgone hrecv hempty
    refine ⟨hrecv, ?_, hdropped.mp hgone⟩
    show s.outbound ++ sentOn sender effects = []
    rw [hempty, sentOn_eq_nil hnode ht.peers (hletsGo.mp hgone).1]
    rfl
  constructor
  · intro _
    constructor
    · intro hnot hgone hwaits
      exact hnot (hstrands hgone hwaits.1 hwaits.2)
    · intro hintime hstranded
      exact hintime (hdropped.mpr hstranded.dropped)
        ⟨hstranded.inRecv, (List.append_eq_nil_iff.mp hstranded.outbound).1⟩
  · intro hstranded
    apply hstrands _ hstranded.inRecv hstranded.outbound
    rw [hletsGo]
    constructor
    · rw [hpeers]
      intro hlookup
      apply hstranded.dropped
      rcases Input.lookup_peersAfter hlookup with hold | hnew
      · exact .inl hold
      · cases hnew
        refine .inr (.inr ?_)
        rw [hinbox]
        exact List.mem_cons_self
    · rintro (hevent | hqueued)
      · exact hstranded.dropped (.inr (.inl hevent))
      · apply hstranded.dropped
        refine .inr (.inr ?_)
        rw [hinbox]
        exact List.mem_cons_of_mem m hqueued

theorem strandsIff_step {s t : Connector} (h : OwnId peerId sender s)
    (ht : OwnId peerId sender t) {step : ConnectorStep}
    (hcase : ConnectorCase peerId sender s step t) :
    StrandsIff peerId sender s step t := by
  cases hcase with
  | thread step current out hnot hstep => exact strandsIff_thread h hnot hstep
  | recv msg rest houtbound hwriter hid =>
      refine .of_iff (iff_of_false ?_ ?_) trivial
      · exact not_stranded_of_writer nofun
      · intro hstranded
        have hempty := hstranded.outbound
        rw [houtbound] at hempty
        cases hempty
  | earlier i step c out hquiet =>
      exact .of_iff (stranded_iff_of_same rfl rfl rfl
        (held_append_events (hquiet peerId))) trivial
  | breaks => exact .of_iff (stranded_iff_of_same rfl rfl rfl Iff.rfl) trivial
  | reconnect hgone =>
      refine .of_iff (iff_of_false ?_ ?_) trivial
      · exact not_stranded_of_setup nofun
      · rcases hgone with hfailed | hreported | hsilenced
        · exact not_stranded_of_setup (by rw [hfailed]; exact nofun)
        · exact not_stranded_of_writer (by rw [hreported]; exact nofun)
        · exact not_stranded_of_writer (by rw [hsilenced]; exact nofun)
  | bridge event events hevents =>
      exact .of_iff (stranded_iff_of_same rfl rfl rfl (held_bridge hevents))
        trivial
  | others event hother =>
      exact .of_iff (stranded_iff_of_same rfl rfl rfl (held_append_events
        fun hmem => hother peerId (List.mem_singleton.mp hmem).symm)) trivial
  | fromProcess m hother =>
      exact .of_iff (stranded_iff_of_same rfl rfl rfl
        (held_append_inbox (hother peerId sender))) trivial
  | nodeTurn env m inbox node effects hinbox hnode =>
      exact strandsIff_nodeTurn hinbox hnode ht
  | nodeTick env node effects hnode =>
      have hpeers : node.peers = s.node.peers := Node.next_peers hnode
      have hheld : (s.withNode sender node effects).Held peerId sender ↔
          s.Held peerId sender := by
        show node.peers.lookup peerId = some sender ∨ _ ↔ _
        rw [hpeers]
        rfl
      refine .of_iff ⟨?_, ?_⟩ trivial
      · intro hstranded
        exact ⟨hstranded.inRecv,
          (List.append_eq_nil_iff.mp hstranded.outbound).1,
          fun hs => hstranded.dropped (hheld.mpr hs)⟩
      · intro hstranded
        have hlookup : node.peers.lookup peerId ≠ some sender := by
          rw [hpeers]
          exact fun hold => hstranded.dropped (.inl hold)
        refine ⟨hstranded.inRecv, ?_,
          fun hs => hstranded.dropped (hheld.mp hs)⟩
        show s.outbound ++ sentOn sender effects = []
        rw [hstranded.outbound, sentOn_eq_nil hnode ht.peers hlookup]
        rfl

/-! ## Runs -/

theorem run_ownId {netId : UInt32} {seed : Seed} {chain : BlockChain}
    {consensus : PoAConsensus} {steps : List ConnectorStep} {last : Connector}
    {effects : List Effect}
    (hrun : Run (next peerId sender)
      (.start (Node.new netId seed chain consensus)) steps last effects) :
    OwnId peerId sender last := by
  apply hrun.invariant (P := OwnId peerId sender)
  · refine ⟨nofun, nofun, nofun, nofun, fun hthere => absurd rfl hthere⟩
  · intro s step t out hs hnext
    exact hs.step (next_cases hnext)

/-- Whatever the threads, the sockets and the node do: once the connection is
broken and everything is handled, the thread is not abandoned if and only if
every step was in time. -/
theorem run_abandoned_iff {netId : UInt32} {seed : Seed} {chain : BlockChain}
    {consensus : PoAConsensus} {steps : List ConnectorStep} {last : Connector}
    {effects : List Effect}
    (hrun : Run (next peerId sender)
      (.start (Node.new netId seed chain consensus)) steps last effects)
    (hsettled : last.Settled) :
    ¬last.Abandoned peerId sender ↔
      AllSteps (next peerId sender)
        (.start (Node.new netId seed chain consensus)) steps
        (InTime peerId sender) := by
  rw [hsettled.abandoned_iff]
  apply last_iff_allSteps (P := fun s => ¬Stranded peerId sender s)
    (Q := OwnId peerId sender) _ _ _ (fun _ _ _ => run_ownId) hrun
  · exact not_stranded_of_setup nofun
  · intro s step t out hs hnot hnext
    have hcase := next_cases hnext
    exact (strandsIff_step hs (hs.step hcase) hcase).next hnot
  · intro s step t out hs hstranded hnext hgoes
    have hcase := next_cases hnext
    exact hgoes ((strandsIff_step hs (hs.step hcase) hcase).stays
      (not_not.mp hstranded))

end Connector

end B4n

namespace B4n.Blockchain.Sample

open B4n.Lib Transport

/-- A dialled link comes up, and the node's first two messages are sent; the
second write returns what it is told. -/
private def linkUp (ok : Bool) : List ConnectorStep :=
  [.thread (.handshake (some (.helloAck 7))), .thread .announce, .bridge,
    .nodeTurn (env 10), .recv, .thread (.write true), .recv, .breaks,
    .thread (.write ok)]

/-- The writer finds the connection broken, and then the reader. -/
private def writerFirst : List ConnectorStep :=
  linkUp false ++ [.thread .reportWrite,
    .thread (.read (.error .unexpectedEof)), .bridge, .nodeTurn (env 20)]

/-- Both writes go through, and only the reader finds the connection broken. -/
private def readerOnly : List ConnectorStep :=
  linkUp true ++ [.thread (.read (.error .unexpectedEof)),
    .thread .reportRead, .bridge, .nodeTurn (env 20)]

private def unlinked : Connector :=
  .start (node 1 1 (config [1] 8) config_one_ok)

private def afterLink (steps : List ConnectorStep) : Connector :=
  (finish (Connector.next 7 40) unlinked steps).1

private theorem links_ok :
    ((exec (Connector.next 7 40) unlinked writerFirst).isSome = true ∧
      (afterLink writerFirst).Settled) ∧
    (exec (Connector.next 7 40) unlinked readerOnly).isSome = true ∧
      (afterLink readerOnly).Settled ∧ (afterLink readerOnly).InRecv 7 ∧
      (afterLink readerOnly).node.peers.lookup 7 = none := by
  decide +kernel

theorem run_abandoned_iff_writerFirst :
    ¬(afterLink writerFirst).Abandoned 7 40 ↔
      AllSteps (Connector.next 7 40) unlinked writerFirst
        (Connector.InTime 7 40) := by
  obtain ⟨⟨hlive, hsettled⟩, -⟩ := links_ok
  exact Connector.run_abandoned_iff (run_finish hlive) hsettled

/-- The thread waits for a message that nobody can send. -/
theorem readerOnly_abandoned :
    ∃ last effects, Run (Connector.next 7 40) unlinked readerOnly last effects ∧
      last.Settled ∧ last.Abandoned 7 40 := by
  obtain ⟨-, hlive, hsettled, hrecv, hlookup⟩ := links_ok
  refine ⟨afterLink readerOnly, _, run_finish hlive, hsettled, hrecv, ?_⟩
  rw [hlookup]
  exact nofun

end B4n.Blockchain.Sample
