import B4n.Node.Peers
import B4n.Node.Sample

/-!
# The registry of live connections

The node knows its peers by id, but it is connections that come and go: two
nodes that list each other open two, and a connector that reconnects opens a
new one while the end of the old one may still be on its way.  Each connection
adds its sender under the id of its peer, and removes that id when it dies.

So the entry of an id belongs to the connection that was added last, and the
end of any connection removes it.

## Main results

* `run_tracksLive_iff` — the registry follows the live connections exactly as
  long as no connection ends while another one has its id.
-/

namespace B4n

open Lib Blockchain Transport

/-- What a connection brings to the node, and everything else it handles. -/
inductive ConnectionEvent (κ : Type) where
  | added (c : κ)
  | removed (c : κ)
  | other (input : Input)

/-- An input that changes the peer map. -/
def Input.isPeerEvent : Input → Bool
  | .message (.addPeer _ _) => true
  | .message (.removePeer _) => true
  | _ => false

theorem Input.peersAfter_of_other {input : Input}
    (h : input.isPeerEvent = false) (peers : HashMap UInt32 Sender) :
    input.peersAfter peers = peers := by
  cases input with
  | tick => rfl
  | message m => cases m <;> first | rfl | cases h

/-- The node with the connections that are live and those that are gone. -/
structure Registry (κ : Type) where
  node : Node
  live : Finset κ
  gone : Finset κ

namespace Registry

variable {κ : Type} [DecidableEq κ] (peerId : κ → UInt32) (sender : κ → Sender)

/-- What the bridge of `cli::run` makes of an event. -/
def input : ConnectionEvent κ → Input
  | .added c => .message (.addPeer (peerId c) (sender c))
  | .removed c => .message (.removePeer (peerId c))
  | .other input => input

omit sender in
/-- A connection is added once, and removed once after that. -/
def enabled (s : Registry κ) : ConnectionEvent κ → Bool
  | .added c => c ∉ s.live ∧ c ∉ s.gone
  | .removed c => c ∈ s.live
  | .other input => !input.isPeerEvent

omit sender in
def liveAfter (s : Registry κ) : ConnectionEvent κ → Finset κ
  | .added c => insert c s.live
  | .removed c => s.live.erase c
  | .other _ => s.live

omit sender in
def goneAfter (s : Registry κ) : ConnectionEvent κ → Finset κ
  | .removed c => insert c s.gone
  | _ => s.gone

variable [Primitives]

/-- The machine of the node and its connections. -/
def next : Machine (Registry κ) (Env × ConnectionEvent κ) Effect := fun s i =>
  if s.enabled i.2 then
    match s.node.next (i.1, input peerId sender i.2) with
    | none => none
    | some (node, effects) =>
        some (⟨node, s.liveAfter i.2, s.goneAfter i.2⟩, effects)
  else none

omit [Primitives] in
/-- Whoever has a live connection is registered, with the sender of one, and
whoever is registered has one. -/
structure TracksLive (s : Registry κ) : Prop where
  registered : ∀ c ∈ s.live, ∃ d ∈ s.live, peerId d = peerId c ∧
    s.node.peers.lookup (peerId c) = some (sender d)
  live : ∀ p found, s.node.peers.lookup p = some found →
    ∃ c ∈ s.live, peerId c = p ∧ sender c = found

variable {peerId sender}

theorem next_eq_some {s t : Registry κ} {i : Env × ConnectionEvent κ}
    {effects : List Effect} (h : next peerId sender s i = some (t, effects)) :
    s.enabled i.2 = true ∧ t.live = s.liveAfter i.2 ∧
      t.node.peers = (input peerId sender i.2).peersAfter s.node.peers := by
  unfold next at h
  split at h
  · rename_i henabled
    split at h
    · cases h
    · rename_i node out hnode
      cases h
      exact ⟨henabled, rfl, Node.next_peers hnode⟩
  · cases h

omit [Primitives] in
/-- A new connection takes over the entry of its id. -/
theorem TracksLive.add {s t : Registry κ} (h : TracksLive peerId sender s)
    {c : κ} (hlive : t.live = insert c s.live)
    (hpeers : t.node.peers = s.node.peers.insert (peerId c) (sender c)) :
    TracksLive peerId sender t where
  registered := by
    intro d hd
    rw [hlive] at hd ⊢
    rw [hpeers]
    by_cases hsame : peerId d = peerId c
    · refine ⟨c, Finset.mem_insert_self c _, hsame.symm, ?_⟩
      rw [hsame, AList.lookup_insert]
    · rcases Finset.mem_insert.mp hd with rfl | hold
      · exact absurd rfl hsame
      obtain ⟨e, he, heq, hlookup⟩ := h.registered d hold
      refine ⟨e, Finset.mem_insert_of_mem he, heq, ?_⟩
      rw [AList.lookup_insert_ne hsame]
      exact hlookup
  live := by
    intro p found hfound
    rw [hlive]
    rw [hpeers] at hfound
    by_cases hsame : p = peerId c
    · rw [hsame, AList.lookup_insert] at hfound
      cases hfound
      exact ⟨c, Finset.mem_insert_self c _, hsame.symm, rfl⟩
    · rw [AList.lookup_insert_ne hsame] at hfound
      obtain ⟨d, hd, hrest⟩ := h.live p found hfound
      exact ⟨d, Finset.mem_insert_of_mem hd, hrest⟩

omit [Primitives] in
/-- The end of a connection removes the entry of its id, so another connection
with that id is lost. -/
theorem TracksLive.remove_iff {s t : Registry κ}
    (h : TracksLive peerId sender s) {c : κ} (hlive : t.live = s.live.erase c)
    (hpeers : t.node.peers = s.node.peers.erase (peerId c)) :
    TracksLive peerId sender t ↔
      ∀ d ∈ s.live, peerId d = peerId c → d = c := by
  constructor
  · intro ht d hd hsame
    by_contra hne
    have hd' : d ∈ t.live := by
      rw [hlive]
      exact Finset.mem_erase.mpr ⟨hne, hd⟩
    obtain ⟨e, -, -, hlookup⟩ := ht.registered d hd'
    rw [hpeers, hsame, AList.lookup_erase] at hlookup
    cases hlookup
  · intro honly
    constructor
    · intro d hd
      rw [hlive] at hd ⊢
      obtain ⟨hne, hold⟩ := Finset.mem_erase.mp hd
      have hother : peerId d ≠ peerId c := fun hsame =>
        hne (honly d hold hsame)
      obtain ⟨e, he, heq, hlookup⟩ := h.registered d hold
      have hkept : e ≠ c := by
        rintro rfl
        exact hother heq.symm
      refine ⟨e, Finset.mem_erase.mpr ⟨hkept, he⟩, heq, ?_⟩
      rw [hpeers, AList.lookup_erase_ne hother]
      exact hlookup
    · intro p found hfound
      rw [hlive]
      rw [hpeers] at hfound
      have hother : p ≠ peerId c := by
        rintro rfl
        rw [AList.lookup_erase] at hfound
        cases hfound
      rw [AList.lookup_erase_ne hother] at hfound
      obtain ⟨d, hd, heq, hsender⟩ := h.live p found hfound
      refine ⟨d, Finset.mem_erase.mpr ⟨?_, hd⟩, heq, hsender⟩
      rintro rfl
      exact hother heq.symm

omit [Primitives] [DecidableEq κ] in
theorem TracksLive.other {s t : Registry κ} (h : TracksLive peerId sender s)
    (hlive : t.live = s.live) (hpeers : t.node.peers = s.node.peers) :
    TracksLive peerId sender t where
  registered := by
    rw [hlive, hpeers]
    exact h.registered
  live := by
    rw [hlive, hpeers]
    exact h.live

omit [Primitives] in
/-- No other live connection has the id of a connection that ends. -/
def EndsAlone (peerId : κ → UInt32) (s : Registry κ)
    (i : Env × ConnectionEvent κ) : Prop :=
  ∀ c, i.2 = .removed c → ∀ d ∈ s.live, peerId d = peerId c → d = c

theorem next_tracksLive_iff {s t : Registry κ} {i : Env × ConnectionEvent κ}
    {effects : List Effect} (h : TracksLive peerId sender s)
    (hnext : next peerId sender s i = some (t, effects)) :
    TracksLive peerId sender t ↔ EndsAlone peerId s i := by
  obtain ⟨henabled, hlive, hpeers⟩ := next_eq_some hnext
  unfold EndsAlone
  cases hevent : i.2 with
  | added c =>
      rw [hevent] at hlive hpeers
      apply iff_of_true (h.add hlive hpeers)
      intro d hd
      cases hd
  | removed c =>
      rw [hevent] at hlive hpeers
      rw [h.remove_iff hlive hpeers]
      constructor
      · intro honly d hd
        cases hd
        exact honly
      · intro honly
        exact honly c rfl
  | other other =>
      rw [hevent] at henabled hlive hpeers
      have hquiet : other.isPeerEvent = false := by simpa [enabled] using henabled
      have hsame := hpeers.trans (Input.peersAfter_of_other hquiet _)
      apply iff_of_true (h.other hlive hsame)
      intro d hd
      cases hd

/-- Over every order of events, the registry follows the live connections in
every state if and only if no connection ends while another one with its id is
live. -/
theorem run_tracksLive_iff {netId : UInt32} {seed : Seed} {chain : BlockChain}
    {consensus : PoAConsensus} {last : Registry κ}
    {events : List (Env × ConnectionEvent κ)} {effects : List Effect}
    (hrun : Run (next peerId sender)
      ⟨Node.new netId seed chain consensus, ∅, ∅⟩ events last effects) :
    AllStates (next peerId sender)
        ⟨Node.new netId seed chain consensus, ∅, ∅⟩ events
        (TracksLive peerId sender) ↔
      AllSteps (next peerId sender)
        ⟨Node.new netId seed chain consensus, ∅, ∅⟩ events
        (EndsAlone peerId) := by
  refine allStates_iff_allSteps (Q := fun _ => True) ?_ ?_ hrun
    fun _ _ _ _ _ _ => trivial
  · constructor
    · intro c hc
      cases hc
    · intro p found hfound
      cases hfound
  · intro s i t out _ _ hs hnext
    exact next_tracksLive_iff hs hnext

end Registry

end B4n

namespace B4n.Blockchain.Sample

open B4n.Lib Transport

/-- The two connections of nodes that list each other. -/
private inductive Mutual where
  | dialled
  | accepted
deriving DecidableEq

private def Mutual.sender : Mutual → Sender
  | .dialled => 70
  | .accepted => 71

/-- Both are added under one id, and one of them ends. -/
private def oneEnds : List (Env × ConnectionEvent Mutual) :=
  [(env 10, .added .dialled), (env 20, .added .accepted),
    (env 30, .removed .dialled)]

private def alone : Registry Mutual :=
  ⟨node 1 1 (config [1] 8) config_one_ok, ∅, ∅⟩

private def afterEnd : Registry Mutual :=
  (finish (Registry.next (fun _ => 7) Mutual.sender) alone oneEnds).1

private theorem oneEnds_ok :
    (exec (Registry.next (fun _ => 7) Mutual.sender) alone oneEnds).isSome =
      true ∧ Mutual.accepted ∈ afterEnd.live ∧
      afterEnd.node.peers.lookup 7 = none := by
  decide +kernel

private theorem oneEnds_run :
    ∃ effects, Run (Registry.next (fun _ => 7) Mutual.sender) alone oneEnds
      afterEnd effects :=
  ⟨_, run_finish oneEnds_ok.1⟩

/-- A connection is live and its peer is not registered. -/
theorem oneEnds_not_tracksLive :
    ∃ last effects, Run (Registry.next (fun _ => 7) Mutual.sender) alone
      oneEnds last effects ∧ Mutual.accepted ∈ last.live ∧
      ¬ Registry.TracksLive (fun _ => 7) Mutual.sender last := by
  obtain ⟨-, hlive, hmissing⟩ := oneEnds_ok
  obtain ⟨effects, hrun⟩ := oneEnds_run
  refine ⟨afterEnd, effects, hrun, hlive, ?_⟩
  intro htracks
  obtain ⟨d, -, -, hlookup⟩ := htracks.registered .accepted hlive
  rw [hmissing] at hlookup
  cases hlookup

theorem run_tracksLive_iff_oneEnds :
    AllStates (Registry.next (fun _ => 7) Mutual.sender) alone oneEnds
        (Registry.TracksLive (fun _ => 7) Mutual.sender) ↔
      AllSteps (Registry.next (fun _ => 7) Mutual.sender) alone oneEnds
        (Registry.EndsAlone fun _ => 7) := by
  obtain ⟨effects, hrun⟩ := oneEnds_run
  exact Registry.run_tracksLive_iff hrun

end B4n.Blockchain.Sample
