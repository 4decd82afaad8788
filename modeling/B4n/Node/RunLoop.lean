import B4n.Lib.Timers
import B4n.Node.RoundClock
import Mathlib.Data.List.TakeWhile

/-!
# The loop of a node in time

`run_loop` waits for messages from other threads and ticks when none has come in time.
The machine of this module is that thread: the channel it reads, the time its next tick
is due and every reading it takes of the clock.  Other threads send at any point, and
the thread may be held up anywhere.

## Main results

* `run_served` — the loop is the sequential one, over the messages in the order they
  came, and it ticks only when nothing waits.
* `run_ticks_onSchedule` — a tick is never early, and ticks never pile up.
* `run_restarts_paced` — the loop signs at most once in a slot, and only a slot after its
  chain has last changed.
-/

namespace B4n

open Lib Blockchain Transport

/-- `tick_every` -/
def TICK_EVERY : Nat := Node.fromMillis 100

/-- Where the thread is: at the top of the loop, in `recv_timeout`, or past the loop. -/
inductive LoopPoint where
  | top
  | receiving (deadline : Instant)
  | left
deriving DecidableEq

/-- The thread of `run_loop`. -/
structure RunLoop where
  node : Node
  nextTick : Instant
  /-- the messages that `rx` holds -/
  channel : List NodeMessage
  /-- a sender of the channel is still alive -/
  connected : Bool
  point : LoopPoint
  /-- the last reading of the clock -/
  clock : Instant

/-- What happens next. -/
inductive LoopStep where
  /-- another thread sends a message -/
  | arrive (m : NodeMessage)
  /-- the last sender is dropped -/
  | hangUp
  /-- the loop computes its wait and calls `recv_timeout` -/
  | wait (now called : Instant)
  /-- `recv_timeout` returns a message -/
  | receive (env : Env)
  /-- it returns `Timeout`; the tick ends at `now` -/
  | expire (env : Env) (now : Instant)
  /-- it returns `Disconnected` -/
  | disconnect

/-- A message or a tick that the loop has handled. -/
structure LoopTurn where
  env : Env
  input : Input
  before : Node
  reaction : Reaction

/-! ## The loop -/

namespace RunLoop

/-- The loop before its first round. -/
def start (node : Node) (now : Instant) : RunLoop where
  node := node
  nextTick := now + TICK_EVERY
  channel := []
  connected := true
  point := .top
  clock := now

def arrive (loop : RunLoop) (m : NodeMessage) : Option (RunLoop × List LoopTurn) :=
  if loop.connected then some ({ loop with channel := loop.channel ++ [m] }, []) else none

def wait (loop : RunLoop) (now called : Instant) : Option (RunLoop × List LoopTurn) :=
  if loop.point = .top ∧ loop.clock ≤ now ∧ now ≤ called then
    let wait := loop.nextTick - now
    some ({ loop with point := .receiving (called + wait), clock := called }, [])
  else none

variable [Primitives]

/-- A call of `on_message` or `on_tick`. -/
def turn (loop : RunLoop) (env : Env) (input : Input) : Option (RunLoop × List LoopTurn) :=
  match loop.node.next (env, input) with
  | none => none
  | some (node, effects) =>
      some ({ loop with node := node, point := .top, clock := env.now },
        [⟨env, input, loop.node, ⟨node, effects⟩⟩])

def receive (loop : RunLoop) (env : Env) : Option (RunLoop × List LoopTurn) :=
  match loop.point, loop.channel with
  | .receiving _, m :: rest =>
      if loop.clock ≤ env.now then
        let loop := { loop with channel := rest }
        if m = .stop then some ({ loop with point := .left, clock := env.now }, [])
        else loop.turn env (.message m)
      else none
  | _, _ => none

def expire (loop : RunLoop) (env : Env) (now : Instant) :
    Option (RunLoop × List LoopTurn) :=
  match loop.point with
  | .receiving deadline =>
      if loop.channel = [] ∧ loop.connected ∧ loop.clock ≤ env.now ∧ deadline ≤ env.now ∧
          env.now ≤ now then
        match loop.turn env .tick with
        | none => none
        | some (loop, turns) =>
            let nextTick := loop.nextTick + TICK_EVERY
            let nextTick := if nextTick + TICK_EVERY < now then now + TICK_EVERY else nextTick
            some ({ loop with nextTick := nextTick, clock := now }, turns)
      else none
  | _ => none

omit [Primitives] in
def disconnect (loop : RunLoop) : Option (RunLoop × List LoopTurn) :=
  match loop.point with
  | .receiving _ =>
      if loop.channel = [] ∧ loop.connected = false then some ({ loop with point := .left }, [])
      else none
  | _ => none

/-- Once the loop is left, the receiver of the channel is gone. -/
def next : Machine RunLoop LoopStep LoopTurn := fun loop step =>
  if loop.point = .left then none
  else
    match step with
    | .arrive m => loop.arrive m
    | .hangUp => some ({ loop with connected := false }, [])
    | .wait now called => loop.wait now called
    | .receive env => loop.receive env
    | .expire env now => loop.expire env now
    | .disconnect => loop.disconnect

/-- The steps, with what each of them requires. -/
inductive LoopCase (loop : RunLoop) : LoopStep → RunLoop → List LoopTurn → Prop where
  | arrived (m : NodeMessage) :
      LoopCase loop (.arrive m) { loop with channel := loop.channel ++ [m] } []
  | hungUp : LoopCase loop .hangUp { loop with connected := false } []
  | waited (now called : Instant) (hclock : loop.clock ≤ now) (hcalled : now ≤ called) :
      LoopCase loop (.wait now called)
        { loop with point := .receiving (called + (loop.nextTick - now)), clock := called } []
  | stopped (env : Env) (rest : List NodeMessage) (hchannel : loop.channel = .stop :: rest)
      (hclock : loop.clock ≤ env.now) :
      LoopCase loop (.receive env)
        { loop with channel := rest, point := .left, clock := env.now } []
  | received (env : Env) (m : NodeMessage) (rest : List NodeMessage)
      (hchannel : loop.channel = m :: rest) (hm : m ≠ .stop) (hclock : loop.clock ≤ env.now)
      {node : Node} {effects : List Effect}
      (hnext : loop.node.next (env, .message m) = some (node, effects)) :
      LoopCase loop (.receive env)
        { loop with node := node, channel := rest, point := .top, clock := env.now }
        [⟨env, .message m, loop.node, ⟨node, effects⟩⟩]
  | ticked (env : Env) (now deadline : Instant) (hpoint : loop.point = .receiving deadline)
      (hchannel : loop.channel = []) (hclock : loop.clock ≤ env.now)
      (hdeadline : deadline ≤ env.now) (hnow : env.now ≤ now)
      {node : Node} {effects : List Effect}
      (hnext : loop.node.next (env, .tick) = some (node, effects)) :
      LoopCase loop (.expire env now)
        { loop with
          node := node, point := .top, clock := now
          nextTick := rearm TICK_EVERY loop.nextTick now }
        [⟨env, .tick, loop.node, ⟨node, effects⟩⟩]
  | disconnected (hchannel : loop.channel = []) :
      LoopCase loop .disconnect { loop with point := .left } []

theorem turn_eq_some {loop last : RunLoop} {env : Env} {input : Input}
    {turns : List LoopTurn} (h : loop.turn env input = some (last, turns)) :
    ∃ node effects, loop.node.next (env, input) = some (node, effects) ∧
      last = { loop with node := node, point := .top, clock := env.now } ∧
      turns = [⟨env, input, loop.node, ⟨node, effects⟩⟩] := by
  unfold turn at h
  split at h
  · cases h
  · rename_i node effects hnext
    cases h
    exact ⟨node, effects, hnext, rfl, rfl⟩

theorem receive_cases {loop last : RunLoop} {env : Env} {turns : List LoopTurn}
    (h : loop.receive env = some (last, turns)) : LoopCase loop (.receive env) last turns := by
  unfold receive at h
  split at h
  · rename_i deadline m rest hpoint hchannel
    split at h
    · rename_i hclock
      dsimp only at h
      split at h
      · rename_i hm
        cases h
        exact .stopped env rest (by rw [hchannel, hm]) hclock
      · rename_i hm
        obtain ⟨node, effects, hnext, rfl, rfl⟩ := turn_eq_some h
        exact .received env m rest hchannel hm hclock hnext
    · cases h
  · cases h

theorem expire_cases {loop last : RunLoop} {env : Env} {now : Instant}
    {turns : List LoopTurn} (h : loop.expire env now = some (last, turns)) :
    LoopCase loop (.expire env now) last turns := by
  unfold expire at h
  split at h
  · rename_i deadline hpoint
    split at h
    · rename_i hready
      obtain ⟨hchannel, -, hclock, hdeadline, hnow⟩ := hready
      split at h
      · cases h
      · rename_i mid out hturn
        obtain ⟨node, effects, hnext, rfl, rfl⟩ := turn_eq_some hturn
        cases h
        exact .ticked env now deadline hpoint hchannel hclock hdeadline hnow hnext
    · cases h
  · cases h

theorem next_cases {loop last : RunLoop} {step : LoopStep} {turns : List LoopTurn}
    (h : next loop step = some (last, turns)) :
    loop.point ≠ .left ∧ LoopCase loop step last turns := by
  unfold next at h
  by_cases hleft : loop.point = .left
  · rw [if_pos hleft] at h
    cases h
  rw [if_neg hleft] at h
  refine ⟨hleft, ?_⟩
  cases step with
  | arrive m =>
      dsimp only [arrive] at h
      split at h
      · cases h
        exact .arrived m
      · cases h
  | hangUp =>
      cases h
      exact .hungUp
  | wait now called =>
      dsimp only [wait] at h
      split at h
      · rename_i hready
        cases h
        exact .waited now called hready.2.1 hready.2.2
      · cases h
  | receive env => exact receive_cases h
  | expire env now => exact expire_cases h
  | disconnect =>
      dsimp only [disconnect] at h
      split at h
      · split at h
        · rename_i hready
          cases h
          exact .disconnected hready.1
        · cases h
      · cases h

end RunLoop

/-! ## What the loop handles -/

/-- What `recv_timeout` returns for an input. -/
def Input.event : Input → Node.LoopEvent
  | .message m => .received m
  | .tick => .timeout

def Input.sent : Input → Option NodeMessage
  | .message m => some m
  | .tick => none

def LoopStep.arrival : LoopStep → Option NodeMessage
  | .arrive m => some m
  | _ => none

/-- The messages that other threads have sent. -/
def arrivals (steps : List LoopStep) : List NodeMessage := steps.filterMap LoopStep.arrival

/-- The messages that the loop has handled. -/
def handledBy (turns : List LoopTurn) : List NodeMessage :=
  turns.filterMap fun turn => turn.input.sent

/-- What the loop has received. -/
def eventsOf (turns : List LoopTurn) : List (Env × Node.LoopEvent) :=
  turns.map fun turn => (turn.env, turn.input.event)

def effectsOf (turns : List LoopTurn) : List Effect :=
  turns.flatMap fun turn => turn.reaction.effects

/-- The messages in front of the first `Stop`. -/
def untilStop (messages : List NodeMessage) : List NodeMessage :=
  messages.takeWhile (· ≠ .stop)

theorem untilStop_eq_self {messages : List NodeMessage} (h : .stop ∉ messages) :
    untilStop messages = messages := by
  unfold untilStop
  rw [List.takeWhile_eq_self_iff]
  intro m hm
  simpa using ne_of_mem_of_not_mem hm h

theorem untilStop_append {messages : List NodeMessage} (h : .stop ∉ messages)
    (more : List NodeMessage) : untilStop (messages ++ more) = messages ++ untilStop more := by
  unfold untilStop
  apply List.takeWhile_append_of_pos
  intro m hm
  simpa using ne_of_mem_of_not_mem hm h

variable [Primitives]

namespace Node

/-- The sequential loop makes every run of turns without `Stop`. -/
theorem runLoop_of_run {node last : Node} {inputs : List (Env × Input)}
    {effects : List Effect} (hrun : Run Node.next node inputs last effects)
    (hstop : ∀ i ∈ inputs, i.2 ≠ .message .stop) :
    node.runLoop (inputs.map fun i => (i.1, i.2.event)) = some (last, effects) := by
  have hexec := hrun.exec_eq
  clear hrun
  induction inputs generalizing node last effects with
  | nil => exact hexec
  | cons i inputs ih =>
      obtain ⟨env, input⟩ := i
      have hinput : input.event.input = some input := by
        cases input with
        | tick => rfl
        | message m =>
            cases m with
            | stop => exact absurd rfl (hstop _ List.mem_cons_self)
            | _ => rfl
      unfold exec at hexec
      rw [List.map_cons, runLoop, hinput]
      dsimp only
      cases hnext : node.next (env, input) with
      | none =>
          rw [hnext] at hexec
          cases hexec
      | some reached =>
          obtain ⟨mid, out⟩ := reached
          rw [hnext] at hexec
          dsimp only at hexec ⊢
          cases hrest : exec Node.next mid inputs with
          | none =>
              rw [hrest] at hexec
              cases hexec
          | some final =>
              obtain ⟨u, rest⟩ := final
              rw [hrest] at hexec
              rw [ih (fun j hj => hstop j (List.mem_cons_of_mem _ hj)) hrest]
              exact hexec

end Node

namespace RunLoop

/-- What the loop has handled, and what is still in the channel. -/
structure InTurn (node : Node) (steps : List LoopStep) (loop : RunLoop)
    (turns : List LoopTurn) : Prop where
  run : Run Node.next node (turns.map fun turn => (turn.env, turn.input)) loop.node
    (effectsOf turns)
  no_stop : .stop ∉ handledBy turns
  waiting : loop.point ≠ .left → arrivals steps = handledBy turns ++ loop.channel
  left : loop.point = .left → handledBy turns = untilStop (arrivals steps)

omit [Primitives] in
theorem arrivals_arrive (steps : List LoopStep) (m : NodeMessage) :
    arrivals (steps ++ [.arrive m]) = arrivals steps ++ [m] := by
  simp [arrivals, LoopStep.arrival]

omit [Primitives] in
theorem arrivals_snoc (steps : List LoopStep) {step : LoopStep} (h : step.arrival = none) :
    arrivals (steps ++ [step]) = arrivals steps := by
  simp [arrivals, h]

omit [Primitives] in
theorem handledBy_snoc (turns : List LoopTurn) (turn : LoopTurn) :
    handledBy (turns ++ [turn]) = handledBy turns ++ turn.input.sent.toList := by
  unfold handledBy
  rw [List.filterMap_append]
  cases hsent : turn.input.sent <;> simp [hsent]

/-- A turn of the loop is a step of the node. -/
theorem InTurn.turn {node : Node} {steps : List LoopStep} {loop : RunLoop}
    {turns : List LoopTurn} (h : InTurn node steps loop turns) {env : Env} {input : Input}
    {last : Node} {effects : List Effect}
    (hnext : loop.node.next (env, input) = some (last, effects)) :
    Run Node.next node
      ((turns ++ [LoopTurn.mk env input loop.node ⟨last, effects⟩]).map
        fun turn => (turn.env, turn.input)) last
      (effectsOf (turns ++ [LoopTurn.mk env input loop.node ⟨last, effects⟩])) := by
  rw [List.map_append, effectsOf, List.flatMap_append, List.flatMap_singleton]
  exact h.run.step hnext

theorem InTurn.step {node : Node} {steps : List LoopStep} {loop last : RunLoop}
    {turns more : List LoopTurn} {step : LoopStep} (h : InTurn node steps loop turns)
    (hnext : next loop step = some (last, more)) :
    InTurn node (steps ++ [step]) last (turns ++ more) := by
  obtain ⟨hlive, hcase⟩ := next_cases hnext
  have hwaiting := h.waiting hlive
  cases hcase with
  | arrived m =>
      rw [List.append_nil]
      refine ⟨h.run, h.no_stop, fun _ => ?_, fun hleft => absurd hleft hlive⟩
      rw [arrivals_arrive, hwaiting, List.append_assoc]
  | hungUp =>
      rw [List.append_nil]
      refine ⟨h.run, h.no_stop, fun _ => ?_, fun hleft => absurd hleft hlive⟩
      rw [arrivals_snoc steps rfl, hwaiting]
  | waited now called hclock hcalled =>
      rw [List.append_nil]
      refine ⟨h.run, h.no_stop, fun _ => ?_, fun hleft => ?_⟩
      · rw [arrivals_snoc steps rfl, hwaiting]
      · cases hleft
  | stopped env rest hchannel hclock =>
      rw [List.append_nil]
      refine ⟨h.run, h.no_stop, fun hpoint => absurd rfl hpoint, fun _ => ?_⟩
      rw [arrivals_snoc steps rfl, hwaiting, hchannel, untilStop_append h.no_stop]
      exact (List.append_nil _).symm
  | received env m rest hchannel hm hclock hturn =>
      refine ⟨h.turn hturn, ?_, fun _ => ?_, fun hleft => ?_⟩
      · rw [handledBy_snoc]
        simpa [Input.sent, h.no_stop] using hm.symm
      · rw [arrivals_snoc steps rfl, hwaiting, hchannel, handledBy_snoc]
        simp [Input.sent]
      · cases hleft
  | ticked env now deadline hpoint hchannel hclock hdeadline hnow hturn =>
      refine ⟨h.turn hturn, ?_, fun _ => ?_, fun hleft => ?_⟩
      · rw [handledBy_snoc]
        simpa [Input.sent] using h.no_stop
      · rw [arrivals_snoc steps rfl, hwaiting, hchannel, handledBy_snoc]
        simp [Input.sent]
      · cases hleft
  | disconnected hchannel =>
      rw [List.append_nil]
      refine ⟨h.run, h.no_stop, fun hpoint => absurd rfl hpoint, fun _ => ?_⟩
      rw [arrivals_snoc steps rfl, hwaiting, hchannel, List.append_nil,
        untilStop_eq_self h.no_stop]

theorem run_inTurn {node : Node} {now : Instant} {steps : List LoopStep} {last : RunLoop}
    {turns : List LoopTurn} (hrun : Run next (start node now) steps last turns) :
    InTurn node steps last turns := by
  induction hrun with
  | start => exact ⟨.start, by simp [handledBy], fun _ => rfl, fun hleft => nomatch hleft⟩
  | step _ hnext ih => exact ih.step hnext

/-- The loop does what the sequential one does on the messages in the order they came
and on its ticks: it handles those in front of the first `Stop`, all of them when it
ends, and all that have come whenever it ticks. -/
theorem run_served {node : Node} {now : Instant} {steps : List LoopStep} {last : RunLoop}
    {turns : List LoopTurn} (hrun : Run next (start node now) steps last turns) :
    node.runLoop (eventsOf turns) = some (last.node, effectsOf turns) ∧
      handledBy turns <+: untilStop (arrivals steps) ∧
      (last.point = .left → handledBy turns = untilStop (arrivals steps)) ∧
      ∀ env ended, steps.getLast? = some (.expire env ended) →
        handledBy turns = arrivals steps := by
  have hturn := run_inTurn hrun
  refine ⟨?_, ?_, hturn.left, ?_⟩
  · have hloop := Node.runLoop_of_run hturn.run fun i hi hstop => ?_
    · rwa [List.map_map] at hloop
    · obtain ⟨turn, hmem, rfl⟩ := List.mem_map.mp hi
      have hinput : turn.input = .message .stop := hstop
      exact hturn.no_stop (List.mem_filterMap.mpr ⟨turn, hmem, by rw [hinput]; rfl⟩)
  · by_cases hleft : last.point = .left
    · exact (hturn.left hleft) ▸ List.prefix_rfl
    · rw [hturn.waiting hleft, untilStop_append hturn.no_stop]
      exact List.prefix_append _ _
  · intro env ended hlast
    cases hrun with
    | start => cases hlast
    | step hprev hnext =>
        rw [List.getLast?_concat, Option.some.injEq] at hlast
        subst hlast
        obtain ⟨-, hcase⟩ := next_cases hnext
        cases hcase with
        | ticked env now deadline hpoint hchannel hclock hdeadline hnow hnext =>
            rw [hturn.waiting (by simp)]
            simp [hchannel]

end RunLoop

/-! ## When it ticks -/

omit [Primitives] in
def LoopTurn.tickTime (turn : LoopTurn) : Option Instant :=
  match turn.input with
  | .message _ => none
  | .tick => some turn.env.now

omit [Primitives] in
/-- When the loop has ticked. -/
def tickTimes (turns : List LoopTurn) : List Instant := turns.filterMap LoopTurn.tickTime

namespace RunLoop

omit [Primitives] in
/-- The ticks so far, and how far ahead the loop plans. -/
structure Timely (now : Instant) (loop : RunLoop) (turns : List LoopTurn) : Prop where
  schedule : OnSchedule TICK_EVERY (now + TICK_EVERY) (tickTimes turns) loop.nextTick
  due_le : loop.nextTick ≤ loop.clock + TICK_EVERY
  deadline : ∀ deadline, loop.point = .receiving deadline →
    loop.nextTick ≤ deadline ∧ deadline ≤ loop.clock + TICK_EVERY

omit [Primitives] in
theorem tickTimes_message (turns : List LoopTurn) (env : Env) (m : NodeMessage)
    (before : Node) (reaction : Reaction) :
    tickTimes (turns ++ [⟨env, .message m, before, reaction⟩]) = tickTimes turns := by
  simp [tickTimes, LoopTurn.tickTime]

omit [Primitives] in
theorem tickTimes_tick (turns : List LoopTurn) (env : Env) (before : Node)
    (reaction : Reaction) :
    tickTimes (turns ++ [⟨env, .tick, before, reaction⟩]) = tickTimes turns ++ [env.now] := by
  simp [tickTimes, LoopTurn.tickTime]

theorem Timely.step {now : Instant} {loop last : RunLoop} {turns more : List LoopTurn}
    {step : LoopStep} (h : Timely now loop turns) (hnext : next loop step = some (last, more)) :
    Timely now last (turns ++ more) := by
  have hdue := h.due_le
  obtain ⟨-, hcase⟩ := next_cases hnext
  cases hcase with
  | arrived m =>
      rw [List.append_nil]
      exact ⟨h.schedule, h.due_le, h.deadline⟩
  | hungUp =>
      rw [List.append_nil]
      exact ⟨h.schedule, h.due_le, h.deadline⟩
  | waited readAt called hclock hcalled =>
      rw [List.append_nil]
      refine ⟨h.schedule, ?_, ?_⟩
      · exact hdue.trans (Nat.add_le_add_right (hclock.trans hcalled) _)
      · intro deadline hpoint
        cases hpoint
        exact wait_bounds hdue hclock hcalled
  | stopped env rest hchannel hclock =>
      rw [List.append_nil]
      refine ⟨h.schedule, ?_, fun deadline hpoint => nomatch hpoint⟩
      exact hdue.trans (Nat.add_le_add_right hclock _)
  | received env m rest hchannel hm hclock hturn =>
      refine ⟨?_, ?_, fun deadline hpoint => nomatch hpoint⟩
      · rw [tickTimes_message]
        exact h.schedule
      · exact hdue.trans (Nat.add_le_add_right hclock _)
  | ticked env ended deadline hpoint hchannel hclock hdeadline hnow hturn =>
      have hready := (h.deadline deadline hpoint).1
      refine ⟨?_, ?_, fun deadline hpoint => nomatch hpoint⟩
      · rw [tickTimes_tick]
        exact h.schedule.tick (hready.trans hdeadline) hnow
      · exact rearm_le ((hready.trans hdeadline).trans hnow)
  | disconnected hchannel =>
      rw [List.append_nil]
      exact ⟨h.schedule, h.due_le, fun deadline hpoint => nomatch hpoint⟩

/-- The `i`-th tick does not come before its time, a stretch of ticks is at most two ticks
too short, and the loop never waits for messages longer than a tick. -/
theorem run_ticks_onSchedule {node : Node} {now : Instant} {steps : List LoopStep}
    {last : RunLoop} {turns : List LoopTurn}
    (hrun : Run next (start node now) steps last turns) :
    (∀ i t, (tickTimes turns)[i]? = some t → now + (i + 1) * TICK_EVERY ≤ t) ∧
      (∀ i j t u, i < j → (tickTimes turns)[i]? = some t → (tickTimes turns)[j]? = some u →
        t + (j - i) * TICK_EVERY ≤ u + 2 * TICK_EVERY) ∧
      ∀ deadline, last.point = .receiving deadline → deadline ≤ last.clock + TICK_EVERY := by
  have htimely : Timely now last turns :=
    hrun.invariant_outputs ⟨.start, Nat.le_refl _, fun deadline hpoint => nomatch hpoint⟩
      fun s turns step t out hs hnext => hs.step hnext
  refine ⟨fun i t hi => ?_, htimely.schedule.apart,
    fun deadline hpoint => (htimely.deadline deadline hpoint).2⟩
  have hge := htimely.schedule.time_ge i t hi
  rwa [Nat.add_mul, Nat.one_mul, Nat.add_comm (i * _), ← Nat.add_assoc]

end RunLoop

/-! ## When it signs -/

namespace LoopTurn

omit [Primitives] in
def Signs (turn : LoopTurn) : Prop := ∃ block, .signed block ∈ turn.reaction.effects

omit [Primitives] in
def Grows (turn : LoopTurn) : Prop :=
  turn.before.chain.blocks.length < turn.reaction.node.chain.blocks.length

omit [Primitives] in
/-- The turn gives up on a round, whether or not it then proposes. -/
def GivesUp (turn : LoopTurn) : Prop := turn.input = .tick ∧ Node.GivesUp turn.env turn.before

omit [Primitives] in
/-- The turn begins a round. -/
def Restarts (turn : LoopTurn) : Prop := turn.Signs ∨ turn.Grows ∨ turn.GivesUp

omit [Primitives] in
/-- The turn comes late enough after a time: a slot if it signs, a timeout if it gives up on
a round. -/
def Paced (config : PoAConsensusConfig) (since : Instant) (turn : LoopTurn) : Prop :=
  (turn.Signs → since + Node.fromMillis config.slotDurationMs ≤ turn.env.now) ∧
    (turn.GivesUp → since + Node.fromMillis config.timeoutMs ≤ turn.env.now)

omit [Primitives] in
theorem Paced.mono {config : PoAConsensusConfig} {since earlier : Instant} {turn : LoopTurn}
    (h : turn.Paced config since) (hle : earlier ≤ since) : turn.Paced config earlier :=
  ⟨fun hsigns => (Nat.add_le_add_right hle _).trans (h.1 hsigns),
    fun hgives => (Nat.add_le_add_right hle _).trans (h.2 hgives)⟩

end LoopTurn

namespace RunLoop

/-- What a turn of a proposer has to do with the clock of the round. -/
structure PacedTurn (turn : LoopTurn) : Prop where
  paced : turn.Paced turn.before.consensus.config turn.before.roundStartedAt
  restarted : turn.Restarts → turn.reaction.node.roundStartedAt = turn.env.now
  started_ge : turn.before.roundStartedAt ≤ turn.reaction.node.roundStartedAt
  started_le : turn.reaction.node.roundStartedAt ≤ turn.env.now

theorem pacedTurn {seed : Seed} {env : Env} {node last : Node} {input : Input}
    {effects : List Effect} (h : Node.Proposer seed node)
    (hclock : node.roundStartedAt ≤ env.now)
    (hnext : node.next (env, input) = some (last, effects)) :
    PacedTurn ⟨env, input, node, ⟨last, effects⟩⟩ := by
  obtain ⟨rfl, rfl, -⟩ := Node.next_eq_some hnext
  have hcase := node.step_clock env input
  have hsigns : ∀ block, .signed block ∈ (node.step env input).effects →
      Node.fromMillis node.consensus.config.slotDurationMs ≤ node.elapsed env ∧
        node.chain.blocks.length < (node.step env input).node.chain.blocks.length := by
    intro block hsigned
    cases input with
    | message m => exact absurd hsigned (node.signed_notMem_onMessage env m block)
    | tick => exact ⟨Node.slot_over_of_signed hsigned, h.grown_of_signed hsigned⟩
  refine ⟨⟨?_, ?_⟩, ?_, ?_, ?_⟩
  · rintro ⟨block, hsigned⟩
    exact Nat.add_le_of_le_sub' hclock (hsigns block hsigned).1
  · rintro ⟨-, hgives⟩
    exact Nat.add_le_of_le_sub' hclock hgives.late
  · intro hrestarts
    cases hcase with
    | kept hchain hstate =>
        have hkept : ¬ node.chain.blocks.length <
            (node.step env input).node.chain.blocks.length := by
          rw [hchain]
          exact Nat.lt_irrefl _
        rcases hrestarts with ⟨block, hsigned⟩ | hgrown | ⟨htick, hgives⟩
        · exact absurd (hsigns block hsigned).2 hkept
        · exact absurd hgrown hkept
        · have htick : input = .tick := htick
          subst htick
          exact hgives.started_eq
    | raised hchain hlate hstarted => exact hstarted
    | grown hgrown hstarted => exact hstarted
  · cases hcase with
    | kept hchain hstate => exact (congrArg PoAConsensusState.roundStartedAt hstate).ge
    | raised hchain hlate hstarted => exact hstarted ▸ hclock
    | grown hgrown hstarted => exact hstarted ▸ hclock
  · cases hcase with
    | kept hchain hstate =>
        exact (congrArg PoAConsensusState.roundStartedAt hstate).trans_le hclock
    | raised hchain hlate hstarted => exact hstarted.le
    | grown hgrown hstarted => exact hstarted.le

/-- The turns so far, against the clock of the round. -/
structure Pacing (config : PoAConsensusConfig) (started : Instant) (loop : RunLoop)
    (turns : List LoopTurn) : Prop where
  paced : ∀ turn ∈ turns, turn.Paced config started
  apart : turns.Pairwise fun earlier later =>
    earlier.Restarts → later.Paced config earlier.env.now
  restarted : ∀ turn ∈ turns, turn.Restarts → turn.env.now ≤ loop.node.roundStartedAt
  started_ge : started ≤ loop.node.roundStartedAt
  started_le : loop.node.roundStartedAt ≤ loop.clock

theorem Pacing.turn {config : PoAConsensusConfig} {started : Instant} {loop last : RunLoop}
    {turns : List LoopTurn} (h : Pacing config started loop turns) {seed : Seed}
    (hproposer : Node.Proposer seed loop.node) (hconfig : loop.node.consensus.config = config)
    {env : Env} {input : Input} {effects : List Effect} (hclock : loop.clock ≤ env.now)
    (hnext : loop.node.next (env, input) = some (last.node, effects))
    (hlast : env.now ≤ last.clock) :
    Pacing config started last (turns ++ [⟨env, input, loop.node, ⟨last.node, effects⟩⟩]) := by
  have hturn := pacedTurn hproposer (h.started_le.trans hclock) hnext
  have hpaced := hturn.paced
  rw [hconfig] at hpaced
  refine ⟨?_, ?_, ?_, h.started_ge.trans hturn.started_ge, hturn.started_le.trans hlast⟩
  · intro turn hmem
    rcases List.mem_append.mp hmem with hold | hnew
    · exact h.paced turn hold
    · rw [List.mem_singleton.mp hnew]
      exact hpaced.mono h.started_ge
  · rw [List.pairwise_append]
    refine ⟨h.apart, List.pairwise_singleton _ _, ?_⟩
    intro earlier hearlier later hlater hrestarts
    rw [List.mem_singleton.mp hlater]
    exact hpaced.mono (h.restarted earlier hearlier hrestarts)
  · intro turn hmem hrestarts
    rcases List.mem_append.mp hmem with hold | hnew
    · exact (h.restarted turn hold hrestarts).trans hturn.started_ge
    · rw [List.mem_singleton.mp hnew] at hrestarts ⊢
      exact (hturn.restarted hrestarts).ge

theorem Pacing.step {config : PoAConsensusConfig} {started : Instant} {loop last : RunLoop}
    {turns more : List LoopTurn} {step : LoopStep} (h : Pacing config started loop turns)
    {seed : Seed} (hproposer : Node.Proposer seed loop.node)
    (hconfig : loop.node.consensus.config = config)
    (hnext : next loop step = some (last, more)) :
    Pacing config started last (turns ++ more) := by
  obtain ⟨-, hcase⟩ := next_cases hnext
  cases hcase with
  | arrived m =>
      rw [List.append_nil]
      exact ⟨h.paced, h.apart, h.restarted, h.started_ge, h.started_le⟩
  | hungUp =>
      rw [List.append_nil]
      exact ⟨h.paced, h.apart, h.restarted, h.started_ge, h.started_le⟩
  | waited readAt called hclock hcalled =>
      rw [List.append_nil]
      exact ⟨h.paced, h.apart, h.restarted, h.started_ge,
        h.started_le.trans (hclock.trans hcalled)⟩
  | stopped env rest hchannel hclock =>
      rw [List.append_nil]
      exact ⟨h.paced, h.apart, h.restarted, h.started_ge, h.started_le.trans hclock⟩
  | received env m rest hchannel hm hclock hturn =>
      exact h.turn hproposer hconfig hclock hturn (Nat.le_refl _)
  | ticked env ended deadline hpoint hchannel hclock hdeadline hnow hturn =>
      exact h.turn hproposer hconfig hclock hturn hnow
  | disconnected hchannel =>
      rw [List.append_nil]
      exact ⟨h.paced, h.apart, h.restarted, h.started_ge, h.started_le⟩

/-- However the messages come and however late the loop runs: once a block was appended, a
block was signed or a round was given up, the loop signs only after another slot, and gives
up on the new round only after another timeout. -/
theorem run_restarts_paced {netId : UInt32} {seed : Seed} {chainId : UInt64}
    {consensus : PoAConsensus} {now : Instant} {steps : List LoopStep} {last : RunLoop}
    {turns : List LoopTurn} (hverify : SignaturesVerify consensus.verifier)
    (hsmall : consensus.config.validators.length ≤ 2 ^ 32)
    (hstarted : consensus.state.roundStartedAt ≤ now)
    (hrun : Run next (start (Node.new netId seed (BlockChain.new chainId) consensus) now) steps
      last turns) :
    (∀ turn ∈ turns, turn.Paced consensus.config consensus.state.roundStartedAt) ∧
      turns.Pairwise fun earlier later =>
        earlier.Restarts → later.Paced consensus.config earlier.env.now := by
  have hpacing : Pacing consensus.config consensus.state.roundStartedAt last turns := by
    induction hrun with
    | start => exact ⟨by simp, .nil, by simp, Nat.le_refl _, hstarted⟩
    | step hprev hnext ih =>
        have hnode := (run_inTurn hprev).run
        have hown := ownNumber_of_length_le hsmall (Primitives.verifyingKey seed)
        exact ih.step (Node.run_proposer hverify hown hnode)
          (Node.run_sameRules hnode).config_eq hnext
  exact ⟨hpacing.paced, hpacing.apart⟩

end RunLoop

end B4n

namespace B4n.Blockchain.Sample

open B4n.Lib

/-- The only validator: its first tick is more than a second late, its second one comes a
slot after the block of the first, and a transaction comes behind `Stop`. -/
private def loopSteps : List LoopStep :=
  [.arrive (.localTrx (trx 1 "coffee")), .wait 1000000 1000000, .receive (env 2),
    .wait 2000000 3000000, .expire (env 1500) 1501000000, .wait 1501000000 1501000000,
    .arrive (.localTrx (trx 2 "tea")), .receive (env 1510), .wait 1510000000 1510000000,
    .expire (env 2600) 2600000000, .arrive .stop, .arrive (.localTrx (trx 3 "water")),
    .wait 2600000000 2600000000, .receive (env 2601)]

private def loopNode : Node := node 1 1 (config [1] 8) config_one_ok

private def loopLast : RunLoop := (finish RunLoop.next (.start loopNode 0) loopSteps).1

private def loopTurns : List LoopTurn := (finish RunLoop.next (.start loopNode 0) loopSteps).2

private theorem loop_ok :
    (exec RunLoop.next (.start loopNode 0) loopSteps).isSome = true ∧
      loopLast.point = .left ∧ tickTimes loopTurns = [1500000000, 2600000000] ∧
      signedHeights (effectsOf loopTurns) = [1, 2] := by
  decide +kernel

private theorem loop_run :
    Run RunLoop.next (.start loopNode 0) loopSteps loopLast loopTurns :=
  run_finish loop_ok.1

theorem run_served_stopped :
    handledBy loopTurns = [.localTrx (trx 1 "coffee"), .localTrx (trx 2 "tea")] :=
  (RunLoop.run_served loop_run).2.2.1 loop_ok.2.1

/-- One second and a tenth lie between the two ticks, and the first was late. -/
theorem run_ticks_onSchedule_late :
    100000000 ≤ 1500000000 ∧ 200000000 ≤ 2600000000 ∧
      1500000000 + TICK_EVERY ≤ 2600000000 + 2 * TICK_EVERY := by
  obtain ⟨hearly, hapart, -⟩ := RunLoop.run_ticks_onSchedule loop_run
  rw [loop_ok.2.2.1] at hearly hapart
  exact ⟨hearly 0 _ rfl, hearly 1 _ rfl, by simpa using hapart 0 1 _ _ Nat.zero_lt_one rfl rfl⟩

theorem run_restarts_paced_twoBlocks :
    loopTurns.Pairwise fun earlier later =>
      earlier.Restarts → later.Paced (config [1] 8) earlier.env.now :=
  (RunLoop.run_restarts_paced signaturesVerify (by decide) (Nat.le_refl 0) loop_run).2

end B4n.Blockchain.Sample
