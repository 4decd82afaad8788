import B4n.Lib.Threads
import B4n.Node.Admin

/-!
# The admin listener

`spawn_admin_listener` with all its connections: every connection has a thread, the
threads share the counter of transaction numbers, and their turns come in any order.
Bytes arrive in pieces; a thread goes on where a line is complete or the client has
ended its stream.  Between `fetch_add` and `tx.send` of one thread the others may do
anything.

## Main results

* `run_connection_served` — a connection sends what `adminConnection` says of the bytes
  that it has brought, however the connections interleave.
* `run_connection_ends` — a thread whose client is gone can go through all its lines.
* `run_trxIds_nodup` — no transaction number is sent twice.
-/

namespace B4n

open Lib Lib.Text Blockchain

/-! ## The threads -/

/-- Where the thread of a connection stands. -/
inductive AdminPoint where
  /-- no connection yet -/
  | unborn
  /-- at `reader.lines()` -/
  | reading
  /-- before `fetch_add` -/
  | drawing (text : List Char)
  /-- before `tx.send` -/
  | sending (trx : Transaction)
  /-- the loop is over -/
  | ended
  /-- the loop is over because a read has failed -/
  | failed
deriving DecidableEq

/-- The thread of a connection, with everything that the connection has brought. -/
structure AdminThread where
  received : List UInt8
  unread : List UInt8
  closed : Bool
  point : AdminPoint
deriving DecidableEq

/-- No connection yet. -/
def AdminThread.new : AdminThread where
  received := []
  unread := []
  closed := false
  point := .unborn

/-- What can happen at a connection. -/
inductive AdminStep where
  /-- the listener accepts it -/
  | accept
  /-- the client sends bytes -/
  | arrive (bytes : List UInt8)
  /-- the client ends its stream -/
  | close
  /-- the connection breaks while its thread waits -/
  | fail
  /-- the thread takes the next line -/
  | read
  | fetchAdd
  | send
deriving DecidableEq

/-- A line as `BufRead::lines` returns it; `none` is an error. -/
def decodeLine (raw : List UInt8) : Option (List Char) :=
  (String.fromUTF8? ⟨raw.toArray⟩).map fun text => chomp text.toList

/-- What the body of the loop does with a line: where it leads and what is sent. -/
def afterLine : Option (List Char) → AdminPoint × List NodeMessage
  | none => (.ended, [])
  | some line =>
      match adminCommand line with
      | .ignored => (.reading, [])
      | .print => (.reading, [.debugPrint])
      | .stop => (.ended, [.stop])
      | .trx text => (.drawing text, [])

/-- The next line for a thread that waits for one; a line without LF is returned at the
end of the stream only. -/
def readTurn (t : AdminThread) : Option (AdminThread × List NodeMessage) :=
  match rawLines t.unread with
  | [] => if t.closed then some ({ t with point := .ended }, []) else none
  | raw :: _ =>
      if raw.getLast? = some 0x0a ∨ t.closed = true then
        let (point, out) := afterLine (decodeLine raw)
        some ({ t with unread := t.unread.drop raw.length, point := point }, out)
      else none

/-- One step of a thread, with the counter that all threads share. -/
def adminAct (fromId : UInt32) : Act UInt64 AdminThread AdminStep NodeMessage :=
  fun counter t step =>
    match t.point, step with
    | .unborn, .accept => some (counter, { t with point := .reading }, [])
    | .unborn, _ => none
    | _, .arrive bytes =>
        if t.closed then none
        else
          some (counter,
            { t with received := t.received ++ bytes, unread := t.unread ++ bytes }, [])
    | _, .close => some (counter, { t with closed := true }, [])
    | .reading, .fail => some (counter, { t with point := .failed }, [])
    | .reading, .read => (readTurn t).map fun (t, out) => (counter, t, out)
    | .drawing text, .fetchAdd =>
        let trx : Transaction := ⟨counter, fromId.toUInt64, 0, String.ofList text⟩
        some (counter + 1, { t with point := .sending trx }, [])
    | .sending trx, .send => some (counter, { t with point := .reading }, [.localTrx trx])
    | _, _ => none

variable {κ : Type} [DecidableEq κ]

/-- `global_next_trx_id` starts at 1. -/
def AdminListener.new : Threads UInt64 AdminThread κ where
  shared := 1
  thread := fun _ => .new

/-- The listener with all its threads. -/
def AdminListener.next (fromId : UInt32) :
    Machine (Threads UInt64 AdminThread κ) (κ × AdminStep) (κ × NodeMessage) :=
  interleave (adminAct fromId)

/-! ## Lines that come in pieces -/

theorem lines_eq_map (bytes : List UInt8) : lines bytes = (rawLines bytes).map decodeLine := rfl

/-- The first line of some bytes: up to the first LF, or everything. -/
theorem rawLines_cases (bytes : List UInt8) :
    bytes = [] ∨
      (∃ body rest, (0x0a : UInt8) ∉ body ∧ bytes = body ++ 0x0a :: rest ∧
        rawLines bytes = (body ++ [0x0a]) :: rawLines rest) ∨
      (0x0a : UInt8) ∉ bytes ∧ bytes ≠ [] ∧ rawLines bytes = [bytes] := by
  induction bytes with
  | nil => exact .inl rfl
  | cons b bytes ih =>
      right
      by_cases hb : b = 0x0a
      · subst hb
        exact .inl ⟨[], bytes, List.not_mem_nil, rfl, rfl⟩
      have hfirst : (b == 0x0a) = false := beq_false_of_ne hb
      rcases ih with rfl | ⟨body, rest, hbody, rfl, hlines⟩ | ⟨hnone, hne, hlines⟩
      · exact .inr ⟨by simpa using Ne.symm hb, by simp, by simp [rawLines, hfirst]⟩
      · refine .inl ⟨b :: body, rest, ?_, rfl, by simp [rawLines, hfirst, hlines]⟩
        rw [List.mem_cons, not_or]
        exact ⟨Ne.symm hb, hbody⟩
      · refine .inr ⟨?_, by simp, by simp [rawLines, hfirst, hlines]⟩
        rw [List.mem_cons, not_or]
        exact ⟨Ne.symm hb, hnone⟩

/-- Bytes that end where a line ends. -/
def Whole (bytes : List UInt8) : Prop :=
  ∀ more, lines (bytes ++ more) = lines bytes ++ lines more

theorem whole_nil : Whole [] := fun _ => rfl

/-- One more line. -/
theorem Whole.line {bytes body : List UInt8} (h : Whole bytes) (hbody : (0x0a : UInt8) ∉ body) :
    Whole (bytes ++ (body ++ [0x0a])) ∧
      lines (bytes ++ (body ++ [0x0a])) = lines bytes ++ [decodeLine (body ++ [0x0a])] := by
  have hline :
      ∀ more, lines (body ++ 0x0a :: more) = decodeLine (body ++ [0x0a]) :: lines more := by
    intro more
    rw [lines_eq_map, rawLines_append hbody]
    rfl
  have hlast : lines (bytes ++ (body ++ [0x0a])) =
      lines bytes ++ [decodeLine (body ++ [0x0a])] := by
    rw [h, hline []]
    rfl
  refine ⟨fun more => ?_, hlast⟩
  rw [hlast, List.append_assoc, List.append_assoc, List.singleton_append, h, hline more,
    List.append_assoc, List.singleton_append]

/-! ## What a thread has served -/

/-- The numbers that come first, and those that come later. -/
def prepend : List UInt64 → (Nat → UInt64) → Nat → UInt64
  | [], more, n => more n
  | id :: _, _, 0 => id
  | _ :: ids, more, n + 1 => prepend ids more n

theorem prepend_append (ids others : List UInt64) (more : Nat → UInt64) :
    prepend (ids ++ others) more = prepend ids (prepend others more) := by
  funext n
  induction ids generalizing n with
  | nil => rfl
  | cons id ids ih =>
      cases n with
      | zero => rfl
      | succ n => exact ih n

/-- The loop has gone through the lines without an end; it has drawn the numbers and
sent the messages. -/
inductive Served (fromId : UInt32) :
    List (Option (List Char)) → List UInt64 → List NodeMessage → Prop where
  | nil : Served fromId [] [] []
  | ignored {before : List (Option (List Char))} {ids : List UInt64} {msgs : List NodeMessage}
      {line : List Char} (h : Served fromId before ids msgs)
      (hline : adminCommand line = .ignored) :
      Served fromId (before ++ [some line]) ids msgs
  | print {before : List (Option (List Char))} {ids : List UInt64} {msgs : List NodeMessage}
      {line : List Char} (h : Served fromId before ids msgs) (hline : adminCommand line = .print) :
      Served fromId (before ++ [some line]) ids (msgs ++ [.debugPrint])
  | trx {before : List (Option (List Char))} {ids : List UInt64} {msgs : List NodeMessage}
      {line text : List Char} (h : Served fromId before ids msgs)
      (hline : adminCommand line = .trx text) (id : UInt64) :
      Served fromId (before ++ [some line]) (ids ++ [id])
        (msgs ++ [.localTrx ⟨id, fromId.toUInt64, 0, String.ofList text⟩])

/-- What has been served is what the loop does first. -/
theorem Served.adminLoop_append {fromId : UInt32} {before : List (Option (List Char))}
    {ids : List UInt64} {msgs : List NodeMessage} (h : Served fromId before ids msgs)
    (rest : List (Option (List Char))) (more : Nat → UInt64) :
    adminLoop fromId (prepend ids more) (before ++ rest) =
      msgs ++ adminLoop fromId more rest := by
  induction h generalizing rest more with
  | nil => rfl
  | ignored h hline ih =>
      rw [List.append_assoc, ih]
      simp only [List.singleton_append, adminLoop, hline]
  | print h hline ih =>
      rw [List.append_assoc, ih, List.append_assoc]
      simp only [List.singleton_append, adminLoop, hline]
  | trx h hline id ih =>
      rw [List.append_assoc, prepend_append, ih, List.append_assoc]
      simp only [List.singleton_append, adminLoop, hline]
      rfl

/-! ## One connection -/

/-- What a step of a thread can be. -/
inductive AdminCase (fromId : UInt32) (counter : UInt64) (t : AdminThread) :
    AdminStep → UInt64 → AdminThread → List NodeMessage → Prop where
  | accept (hpoint : t.point = .unborn) :
      AdminCase fromId counter t .accept counter { t with point := .reading } []
  | arrive (bytes : List UInt8) (hopen : t.closed = false) :
      AdminCase fromId counter t (.arrive bytes) counter
        { t with received := t.received ++ bytes, unread := t.unread ++ bytes } []
  | close (hborn : t.point ≠ .unborn) :
      AdminCase fromId counter t .close counter { t with closed := true } []
  | fail (hpoint : t.point = .reading) :
      AdminCase fromId counter t .fail counter { t with point := .failed } []
  | eof (hpoint : t.point = .reading) (hclosed : t.closed = true) (hunread : t.unread = []) :
      AdminCase fromId counter t .read counter { t with point := .ended } []
  | line {raw : List UInt8} {more : List (List UInt8)} (hpoint : t.point = .reading)
      (hraw : rawLines t.unread = raw :: more)
      (hwhole : raw.getLast? = some 0x0a ∨ t.closed = true) :
      AdminCase fromId counter t .read counter
        { t with unread := t.unread.drop raw.length, point := (afterLine (decodeLine raw)).1 }
        (afterLine (decodeLine raw)).2
  | fetchAdd {text : List Char} (hpoint : t.point = .drawing text) :
      AdminCase fromId counter t .fetchAdd (counter + 1)
        { t with point := .sending ⟨counter, fromId.toUInt64, 0, String.ofList text⟩ } []
  | send {trx : Transaction} (hpoint : t.point = .sending trx) :
      AdminCase fromId counter t .send counter { t with point := .reading } [.localTrx trx]

theorem rawLines_eq_nil {bytes : List UInt8} (h : rawLines bytes = []) : bytes = [] := by
  rcases rawLines_cases bytes with hnil | ⟨body, rest, -, -, hlines⟩ | ⟨-, -, hlines⟩
  · exact hnil
  · rw [hlines] at h
    cases h
  · rw [hlines] at h
    cases h

theorem adminAct_cases {fromId : UInt32} {counter counter' : UInt64} {t t' : AdminThread}
    {step : AdminStep} {out : List NodeMessage}
    (h : adminAct fromId counter t step = some (counter', t', out)) :
    AdminCase fromId counter t step counter' t' out := by
  unfold adminAct at h
  split at h
  · rename_i hpoint
    cases h
    exact .accept hpoint
  · cases h
  · split at h
    · cases h
    · rename_i hborn hopen
      cases h
      exact .arrive _ (by simpa using hopen)
  · rename_i hborn
    cases h
    exact .close fun hpoint => hborn hpoint
  · rename_i hpoint
    cases h
    exact .fail hpoint
  · rename_i hpoint
    obtain ⟨⟨t, out⟩, hturn, heq⟩ := Option.map_eq_some_iff.mp h
    cases heq
    unfold readTurn at hturn
    split at hturn
    · rename_i hraw
      split at hturn
      · rename_i hclosed
        cases hturn
        exact .eof hpoint hclosed (rawLines_eq_nil hraw)
      · cases hturn
    · rename_i raw more hraw
      split at hturn
      · rename_i hwhole
        cases hturn
        exact .line hpoint hraw hwhole
      · cases hturn
  · rename_i hpoint
    cases h
    exact .fetchAdd hpoint
  · rename_i hpoint
    cases h
    exact .send hpoint
  · cases h

/-- What a thread has taken and what it has made of it.  The lines that are behind it are
served; the last one may be in work, or it has ended the loop. -/
inductive Stands (fromId : UInt32) (t : AdminThread) (msgs : List NodeMessage) :
    List (Option (List Char)) → List NodeMessage → Prop where
  | unborn (hpoint : t.point = .unborn) : Stands fromId t msgs [] msgs
  | reading (hpoint : t.point = .reading) : Stands fromId t msgs [] msgs
  | failed (hpoint : t.point = .failed) : Stands fromId t msgs [] msgs
  | drawing {line text : List Char} (hpoint : t.point = .drawing text)
      (hline : adminCommand line = .trx text) : Stands fromId t msgs [some line] msgs
  | sending {line text : List Char} {id : UInt64}
      (hpoint : t.point = .sending ⟨id, fromId.toUInt64, 0, String.ofList text⟩)
      (hline : adminCommand line = .trx text) : Stands fromId t msgs [some line] msgs
  | eof (hpoint : t.point = .ended) (hclosed : t.closed = true) (hunread : t.unread = []) :
      Stands fromId t msgs [] msgs
  | stopped {line : List Char} (hpoint : t.point = .ended) (hline : adminCommand line = .stop) :
      Stands fromId t msgs [some line] (msgs ++ [.stop])
  | broken (hpoint : t.point = .ended) : Stands fromId t msgs [none] msgs

/-- The bytes are taken line by line, and the lines are served in their order. -/
structure InService (fromId : UInt32) (t : AdminThread) (sent : List NodeMessage)
    (taken : List UInt8) (before tail : List (Option (List Char))) (ids : List UInt64)
    (msgs : List NodeMessage) : Prop where
  received : t.received = taken ++ t.unread
  whole : Whole taken ∨ t.closed = true ∧ t.unread = []
  lines : lines taken = before ++ tail
  served : Served fromId before ids msgs
  stands : Stands fromId t msgs tail sent

def Serving (fromId : UInt32) (t : AdminThread) (sent : List NodeMessage) : Prop :=
  ∃ taken before tail ids msgs, InService fromId t sent taken before tail ids msgs

/-- What has been taken and what has not make up the lines. -/
theorem InService.lines_received {fromId : UInt32} {t : AdminThread} {sent : List NodeMessage}
    {taken : List UInt8} {before tail : List (Option (List Char))} {ids : List UInt64}
    {msgs : List NodeMessage} (h : InService fromId t sent taken before tail ids msgs) :
    B4n.lines t.received = before ++ (tail ++ B4n.lines t.unread) := by
  rw [← List.append_assoc, ← h.lines, h.received]
  rcases h.whole with hwhole | ⟨-, hunread⟩
  · exact hwhole t.unread
  · rw [hunread, List.append_nil]
    exact (List.append_nil _).symm

/-- What a thread has sent is the beginning of what the loop sends for all bytes, with the
numbers that it has drawn; at its end it has sent everything. -/
theorem Serving.adminConnection {fromId : UInt32} {t : AdminThread} {sent : List NodeMessage}
    (h : Serving fromId t sent) :
    ∃ ids, sent <+: B4n.adminConnection fromId ids t.received ∧
      (t.point = .ended → sent = B4n.adminConnection fromId ids t.received) := by
  obtain ⟨taken, before, tail, ids, msgs, hin⟩ := h
  refine ⟨prepend ids fun _ => 0, ?_⟩
  unfold B4n.adminConnection
  rw [hin.lines_received, hin.served.adminLoop_append]
  cases hin.stands with
  | unborn hpoint => exact ⟨List.prefix_append _ _, fun hended => by simp [hpoint] at hended⟩
  | reading hpoint => exact ⟨List.prefix_append _ _, fun hended => by simp [hpoint] at hended⟩
  | failed hpoint => exact ⟨List.prefix_append _ _, fun hended => by simp [hpoint] at hended⟩
  | drawing hpoint => exact ⟨List.prefix_append _ _, fun hended => by simp [hpoint] at hended⟩
  | sending hpoint => exact ⟨List.prefix_append _ _, fun hended => by simp [hpoint] at hended⟩
  | eof hpoint hclosed hunread =>
      rw [hunread]
      exact ⟨List.prefix_append _ _, fun _ => (List.append_nil _).symm⟩
  | stopped hpoint hline =>
      simp only [List.singleton_append, adminLoop, hline]
      exact ⟨List.prefix_rfl, fun _ => trivial⟩
  | broken hpoint =>
      simp only [List.singleton_append, adminLoop, List.append_nil]
      exact ⟨List.prefix_rfl, fun _ => trivial⟩

theorem serving_new (fromId : UInt32) : Serving fromId .new [] :=
  ⟨[], [], [], [], [], rfl, .inl whole_nil, rfl, .nil, .unborn rfl⟩

/-- The line that a thread takes: what becomes of the bytes. -/
theorem InService.take_line {fromId : UInt32} {t : AdminThread} {sent : List NodeMessage}
    {taken raw : List UInt8} {more : List (List UInt8)} {before tail : List (Option (List Char))}
    {ids : List UInt64} {msgs : List NodeMessage}
    (h : InService fromId t sent taken before tail ids msgs)
    (hraw : rawLines t.unread = raw :: more)
    (hwhole : raw.getLast? = some 0x0a ∨ t.closed = true) :
    t.received = (taken ++ raw) ++ t.unread.drop raw.length ∧
      (Whole (taken ++ raw) ∨ t.closed = true ∧ t.unread.drop raw.length = []) ∧
      B4n.lines (taken ++ raw) = B4n.lines taken ++ [decodeLine raw] := by
  have htaken : Whole taken := by
    rcases h.whole with hwhole | ⟨-, hunread⟩
    · exact hwhole
    · rw [hunread] at hraw
      cases hraw
  rcases rawLines_cases t.unread with hnil | ⟨body, rest, hbody, hunread, hlines⟩ |
    ⟨hnone, -, hlines⟩
  · rw [hnil] at hraw
    cases hraw
  · rw [hlines] at hraw
    cases hraw
    obtain ⟨hnext, hall⟩ := htaken.line hbody
    have hdrop : t.unread.drop (body ++ [0x0a]).length = rest := by
      rw [hunread, List.append_cons body 0x0a rest, List.drop_left]
    refine ⟨?_, .inl hnext, hall⟩
    rw [h.received, hdrop, hunread]
    simp
  · rw [hlines] at hraw
    cases hraw
    -- no LF, so the stream has ended
    have hclosed := hwhole.resolve_left fun hlast => hnone (List.mem_of_getLast? hlast)
    have hdrop : t.unread.drop t.unread.length = [] := List.drop_length
    refine ⟨?_, .inr ⟨hclosed, hdrop⟩, ?_⟩
    · rw [h.received, hdrop, List.append_nil]
    · rw [htaken, lines_eq_map t.unread, hlines]
      rfl

/-- A thread at the head of its loop has served all lines that it has taken. -/
theorem InService.of_reading {fromId : UInt32} {t : AdminThread} {sent : List NodeMessage}
    {taken : List UInt8} {before tail : List (Option (List Char))} {ids : List UInt64}
    {msgs : List NodeMessage} (h : InService fromId t sent taken before tail ids msgs)
    (hpoint : t.point = .reading) : tail = [] ∧ sent = msgs := by
  cases h.stands with
  | reading => exact ⟨rfl, rfl⟩
  | _ => simp_all

theorem Serving.line {fromId : UInt32} {t : AdminThread} {sent : List NodeMessage}
    (h : Serving fromId t sent) (hpoint : t.point = .reading) {raw : List UInt8}
    {more : List (List UInt8)} (hraw : rawLines t.unread = raw :: more)
    (hwhole : raw.getLast? = some 0x0a ∨ t.closed = true) :
    Serving fromId { t with unread := t.unread.drop raw.length
                            point := (afterLine (decodeLine raw)).1 }
      (sent ++ (afterLine (decodeLine raw)).2) := by
  obtain ⟨taken, before, tail, ids, msgs, hin⟩ := h
  obtain ⟨rfl, rfl⟩ := hin.of_reading hpoint
  obtain ⟨hreceived, hrest, hlines⟩ := hin.take_line hraw hwhole
  have hbefore : B4n.lines taken = before := by rw [hin.lines, List.append_nil]
  rw [hbefore] at hlines
  cases hitem : decodeLine raw with
  | none =>
      rw [hitem] at hlines
      exact ⟨taken ++ raw, before, [none], ids, sent, hreceived, hrest, hlines, hin.served,
        by simpa [afterLine] using .broken rfl⟩
  | some line =>
      rw [hitem] at hlines
      cases hcommand : adminCommand line with
      | ignored =>
          refine ⟨taken ++ raw, before ++ [some line], [], ids, sent, hreceived, hrest, ?_,
            hin.served.ignored hcommand, ?_⟩
          · rw [hlines, List.append_nil]
          · simpa [afterLine, hcommand] using .reading rfl
      | print =>
          refine ⟨taken ++ raw, before ++ [some line], [], ids, sent ++ [.debugPrint], hreceived,
            hrest, ?_, hin.served.print hcommand, ?_⟩
          · rw [hlines, List.append_nil]
          · simpa [afterLine, hcommand] using .reading rfl
      | stop =>
          refine ⟨taken ++ raw, before, [some line], ids, sent, hreceived, hrest, hlines,
            hin.served, ?_⟩
          simpa [afterLine, hcommand] using .stopped rfl hcommand
      | trx text =>
          refine ⟨taken ++ raw, before, [some line], ids, sent, hreceived, hrest, hlines,
            hin.served, ?_⟩
          simpa [afterLine, hcommand] using .drawing rfl hcommand

theorem Serving.arrive {fromId : UInt32} {t : AdminThread} {sent : List NodeMessage}
    (h : Serving fromId t sent) (hopen : t.closed = false) (bytes : List UInt8) :
    Serving fromId { t with received := t.received ++ bytes, unread := t.unread ++ bytes }
      sent := by
  obtain ⟨taken, before, tail, ids, msgs, hin⟩ := h
  refine ⟨taken, before, tail, ids, msgs, ?_, ?_, hin.lines, hin.served, ?_⟩
  · show t.received ++ bytes = taken ++ (t.unread ++ bytes)
    rw [hin.received, List.append_assoc]
  · rcases hin.whole with hwhole | ⟨hclosed, -⟩
    · exact .inl hwhole
    · rw [hopen] at hclosed
      cases hclosed
  · cases hin.stands with
    | unborn hpoint => exact .unborn hpoint
    | reading hpoint => exact .reading hpoint
    | failed hpoint => exact .failed hpoint
    | drawing hpoint hline => exact .drawing hpoint hline
    | sending hpoint hline => exact .sending hpoint hline
    | eof hpoint hclosed hunread =>
        rw [hopen] at hclosed
        cases hclosed
    | stopped hpoint hline => exact .stopped hpoint hline
    | broken hpoint => exact .broken hpoint

theorem Serving.close {fromId : UInt32} {t : AdminThread} {sent : List NodeMessage}
    (h : Serving fromId t sent) : Serving fromId { t with closed := true } sent := by
  obtain ⟨taken, before, tail, ids, msgs, hin⟩ := h
  refine ⟨taken, before, tail, ids, msgs, hin.received, ?_, hin.lines, hin.served, ?_⟩
  · exact hin.whole.imp_right fun h => ⟨rfl, h.2⟩
  · cases hin.stands with
    | unborn hpoint => exact .unborn hpoint
    | reading hpoint => exact .reading hpoint
    | failed hpoint => exact .failed hpoint
    | drawing hpoint hline => exact .drawing hpoint hline
    | sending hpoint hline => exact .sending hpoint hline
    | eof hpoint hclosed hunread => exact .eof hpoint rfl hunread
    | stopped hpoint hline => exact .stopped hpoint hline
    | broken hpoint => exact .broken hpoint

/-- Every step of a thread serves on. -/
theorem Serving.act {fromId : UInt32} {counter counter' : UInt64} {t t' : AdminThread}
    {step : AdminStep} {sent out : List NodeMessage} (h : Serving fromId t sent)
    (hact : adminAct fromId counter t step = some (counter', t', out)) :
    Serving fromId t' (sent ++ out) := by
  cases adminAct_cases hact with
  | accept hpoint =>
      obtain ⟨taken, before, tail, ids, msgs, hin⟩ := h
      rw [List.append_nil]
      cases hin.stands with
      | unborn => exact ⟨taken, before, [], ids, sent, hin.received, hin.whole, hin.lines,
          hin.served, .reading rfl⟩
      | _ => simp_all
  | arrive bytes hopen =>
      rw [List.append_nil]
      exact h.arrive hopen bytes
  | close =>
      rw [List.append_nil]
      exact h.close
  | fail hpoint =>
      obtain ⟨taken, before, tail, ids, msgs, hin⟩ := h
      obtain ⟨rfl, rfl⟩ := hin.of_reading hpoint
      rw [List.append_nil]
      exact ⟨taken, before, [], ids, sent, hin.received, hin.whole, hin.lines, hin.served,
        .failed rfl⟩
  | eof hpoint hclosed hunread =>
      obtain ⟨taken, before, tail, ids, msgs, hin⟩ := h
      obtain ⟨rfl, rfl⟩ := hin.of_reading hpoint
      rw [List.append_nil]
      exact ⟨taken, before, [], ids, sent, hin.received, hin.whole, hin.lines, hin.served,
        .eof rfl hclosed hunread⟩
  | line hpoint hraw hwhole => exact h.line hpoint hraw hwhole
  | fetchAdd hpoint =>
      obtain ⟨taken, before, tail, ids, msgs, hin⟩ := h
      rw [List.append_nil]
      cases hin.stands with
      | drawing hother hline =>
          rw [hpoint] at hother
          cases hother
          exact ⟨taken, before, _, ids, sent, hin.received, hin.whole, hin.lines, hin.served,
            .sending rfl hline⟩
      | _ => simp_all
  | send hpoint =>
      obtain ⟨taken, before, tail, ids, msgs, hin⟩ := h
      cases hin.stands with
      | sending hother hline =>
          rw [hpoint] at hother
          cases hother
          refine ⟨taken, _, [], _, _, hin.received, hin.whole, ?_, hin.served.trx hline _,
            .reading rfl⟩
          rw [hin.lines, List.append_nil]
      | _ => simp_all

section Listener

variable {κ : Type} [DecidableEq κ] {fromId : UInt32} {s : Threads UInt64 AdminThread κ}
  {inputs : List (κ × AdminStep)} {outputs : List (κ × NodeMessage)}

theorem run_serving (hrun : Run (AdminListener.next fromId) AdminListener.new inputs s outputs)
    (k : κ) : Serving fromId (s.thread k) (outputsOf k outputs) :=
  hrun.thread_invariant (P := fun _ => Serving fromId) (fun _ => serving_new fromId)
    (fun _ _ _ _ _ _ _ _ hserving hact => hserving.act hact) k

/-- However the connections interleave and their bytes are cut, a connection sends what
the loop sends for all its bytes, line by line; when its thread is at the end of the
loop, it has sent all of it. -/
theorem run_connection_served
    (hrun : Run (AdminListener.next fromId) AdminListener.new inputs s outputs) (k : κ) :
    ∃ ids, outputsOf k outputs <+: adminConnection fromId ids (s.thread k).received ∧
      ((s.thread k).point = .ended →
        outputsOf k outputs = adminConnection fromId ids (s.thread k).received) :=
  (run_serving hrun k).adminConnection

/-! ## The end of a connection -/

/-- The number of a transaction that is sent. -/
def trxId : NodeMessage → Option UInt64
  | .localTrx trx => some trx.id
  | _ => none

/-- No transaction is sent before its number is drawn. -/
theorem afterLine_trxId (item : Option (List Char)) :
    (afterLine item).2.filterMap trxId = [] := by
  unfold afterLine
  split
  · rfl
  · split <;> rfl

theorem afterLine_point (item : Option (List Char)) :
    (afterLine item).1 = .reading ∨ (afterLine item).1 = .ended ∨
      ∃ text, (afterLine item).1 = .drawing text := by
  unfold afterLine
  split
  · exact .inr (.inl rfl)
  · split
    · exact .inl rfl
    · exact .inl rfl
    · exact .inr (.inl rfl)
    · exact .inr (.inr ⟨_, rfl⟩)

/-- A bound on the steps that a thread still has to make once its client is gone. -/
def AdminThread.work (t : AdminThread) : Nat :=
  match t.point with
  | .reading => 3 * (lines t.unread).length + 1
  | .drawing _ => 3 * (lines t.unread).length + 3
  | .sending _ => 3 * (lines t.unread).length + 2
  | _ => 0

/-- The steps of the thread itself. -/
def AdminStep.isOwn : AdminStep → Bool
  | .read => true
  | .fetchAdd => true
  | .send => true
  | _ => false

theorem lines_drop {bytes raw : List UInt8} {more : List (List UInt8)}
    (hraw : rawLines bytes = raw :: more) :
    (lines bytes).length = (lines (bytes.drop raw.length)).length + 1 := by
  rcases rawLines_cases bytes with hnil | ⟨body, rest, hbody, hbytes, hlines⟩ | ⟨-, -, hlines⟩
  · rw [hnil] at hraw
    cases hraw
  · rw [hlines] at hraw
    cases hraw
    have hdrop : bytes.drop (body ++ [0x0a]).length = rest := by
      rw [hbytes, List.append_cons body 0x0a rest, List.drop_left]
    rw [hdrop, lines_eq_map, hlines, lines_eq_map, List.length_map, List.length_cons,
      List.length_map]
  · rw [hlines] at hraw
    cases hraw
    rw [List.drop_length, lines_eq_map, hlines]
    rfl

/-- A thread whose client is gone makes a step towards its end. -/
theorem exists_own_step (fromId : UInt32) (counter : UInt64) {t : AdminThread}
    (hclosed : t.closed = true) (hwork : 0 < t.work) :
    ∃ step counter' t' out, adminAct fromId counter t step = some (counter', t', out) ∧
      step.isOwn = true ∧ t'.closed = true ∧ t'.received = t.received ∧ t'.work < t.work ∧
      (t'.work = 0 → t'.point = .ended) := by
  unfold AdminThread.work at hwork ⊢
  cases hpoint : t.point with
  | unborn => simp [hpoint] at hwork
  | ended => simp [hpoint] at hwork
  | failed => simp [hpoint] at hwork
  | drawing text =>
      refine ⟨.fetchAdd, counter + 1,
        { t with point := .sending ⟨counter, fromId.toUInt64, 0, String.ofList text⟩ }, [],
        by simp [adminAct, hpoint], rfl, hclosed, rfl, ?_, ?_⟩
      · exact Nat.lt_succ_self _
      · exact fun h => absurd h (Nat.succ_ne_zero _)
  | sending trx =>
      refine ⟨.send, counter, { t with point := .reading }, [.localTrx trx],
        by simp [adminAct, hpoint], rfl, hclosed, rfl, ?_, ?_⟩
      · exact Nat.lt_succ_self _
      · exact fun h => absurd h (Nat.succ_ne_zero _)
  | reading =>
      cases hraw : rawLines t.unread with
      | nil =>
          refine ⟨.read, counter, { t with point := .ended }, [], ?_, rfl, hclosed, rfl, ?_,
            fun _ => rfl⟩
          · simp [adminAct, hpoint, readTurn, hraw, hclosed]
          · exact Nat.succ_pos _
      | cons raw more =>
          have hless := lines_drop hraw
          refine ⟨.read, counter, { t with unread := t.unread.drop raw.length
                                           point := (afterLine (decodeLine raw)).1 },
            (afterLine (decodeLine raw)).2, ?_, rfl, hclosed, rfl, ?_, ?_⟩
          · simp [adminAct, hpoint, readTurn, hraw, hclosed]
          · dsimp only
            split <;> omega
          · rcases afterLine_point (decodeLine raw) with hnext | hnext | ⟨text, hnext⟩
            · simp [hnext]
            · simp [hnext]
            · simp [hnext]

/-- A thread whose client is gone comes to its end by its own steps. -/
theorem exists_run_ended (fromId : UInt32) (k : κ) (s : Threads UInt64 AdminThread κ)
    (hclosed : (s.thread k).closed = true)
    (hend : (s.thread k).work = 0 → (s.thread k).point = .ended) :
    ∃ (steps : List AdminStep) (last : Threads UInt64 AdminThread κ)
      (out : List (κ × NodeMessage)),
      (∀ step ∈ steps, step.isOwn = true) ∧ steps.length ≤ (s.thread k).work ∧
        Run (AdminListener.next fromId) s (steps.map (k, ·)) last out ∧
        (last.thread k).received = (s.thread k).received ∧ (last.thread k).point = .ended := by
  induction hmeasure : (s.thread k).work using Nat.strong_induction_on generalizing s with
  | _ work ih =>
      by_cases hzero : work = 0
      · subst hzero
        exact ⟨[], s, [], by simp, by simp, .start, rfl, hend hmeasure⟩
      · obtain ⟨step, counter, t, out, hact, hown, hclosed', hreceived, hless, hended⟩ :=
          exists_own_step fromId s.shared hclosed (by omega)
        have hself : (Threads.mk counter (Function.update s.thread k t)).thread k = t :=
          Function.update_self k t s.thread
        obtain ⟨steps, last, outs, hall, hlength, hrun, hsame, hpoint⟩ :=
          ih t.work (by omega) ⟨counter, Function.update s.thread k t⟩
            (by rw [hself]; exact hclosed') (by rw [hself]; exact hended) (by rw [hself])
        have hnext : AdminListener.next fromId s (k, step) =
            some (⟨counter, Function.update s.thread k t⟩, out.map (k, ·)) := by
          unfold AdminListener.next interleave
          dsimp only
          rw [hact]
        refine ⟨step :: steps, last, out.map (k, ·) ++ outs, ?_, ?_, Run.cons hnext hrun, ?_,
          hpoint⟩
        · exact List.forall_mem_cons.mpr ⟨hown, hall⟩
        · rw [List.length_cons]
          omega
        · rw [hsame, hself, hreceived]

omit [DecidableEq κ] in
theorem Serving.work_le {t : AdminThread} {sent : List NodeMessage} (h : Serving fromId t sent) :
    t.work ≤ 3 * (B4n.lines t.received).length + 1 := by
  obtain ⟨taken, before, tail, ids, msgs, hin⟩ := h
  have hlength := congrArg List.length hin.lines_received
  simp only [List.length_append] at hlength
  unfold AdminThread.work
  cases hin.stands with
  | reading hpoint =>
      simp only [hpoint]
      omega
  | drawing hpoint =>
      rw [List.length_singleton] at hlength
      simp only [hpoint]
      omega
  | sending hpoint =>
      rw [List.length_singleton] at hlength
      simp only [hpoint]
      omega
  | _ => simp_all

/-- Once a client has ended its stream, the thread comes to the end of its loop by at most
three steps a line, wherever the other threads stand, and has then sent everything that the
loop sends for all the bytes. -/
theorem run_connection_ends
    (hrun : Run (AdminListener.next fromId) AdminListener.new inputs s outputs) {k : κ}
    (hclosed : (s.thread k).closed = true) (hborn : (s.thread k).point ≠ .unborn)
    (hlive : (s.thread k).point ≠ .failed) :
    ∃ (steps : List AdminStep) (last : Threads UInt64 AdminThread κ)
      (out : List (κ × NodeMessage)) (ids : Nat → UInt64),
      (∀ step ∈ steps, step.isOwn = true) ∧
        steps.length ≤ 3 * (lines (s.thread k).received).length + 1 ∧
        Run (AdminListener.next fromId) s (steps.map (k, ·)) last out ∧
        (last.thread k).point = .ended ∧
        outputsOf k (outputs ++ out) = adminConnection fromId ids (s.thread k).received := by
  have hend : (s.thread k).work = 0 → (s.thread k).point = .ended := by
    unfold AdminThread.work
    intro hzero
    split at hzero
    · cases hzero
    · cases hzero
    · cases hzero
    · cases hpoint : (s.thread k).point <;> simp_all
  have hwork := (run_serving hrun k).work_le
  obtain ⟨steps, last, out, hown, hlength, hmore, hsame, hpoint⟩ :=
    exists_run_ended fromId k s hclosed hend
  obtain ⟨ids, -, hall⟩ := (run_serving (hrun.append hmore) k).adminConnection
  refine ⟨steps, last, out, ids, hown, by omega, hmore, hpoint, ?_⟩
  rw [hall hpoint, hsame]

/-! ## The numbers of the transactions -/

/-- The transaction numbers that are sent. -/
def trxIds (msgs : List (κ × NodeMessage)) : List UInt64 :=
  msgs.filterMap fun output => trxId output.2

omit [DecidableEq κ] in
theorem trxIds_append (xs ys : List (κ × NodeMessage)) :
    trxIds (xs ++ ys) = trxIds xs ++ trxIds ys := List.filterMap_append

/-- The number that a thread has drawn and not sent yet. -/
def AdminThread.holds (t : AdminThread) : Option UInt64 :=
  match t.point with
  | .sending trx => some trx.id
  | _ => none

def AdminStep.isFetchAdd : AdminStep → Bool
  | .fetchAdd => true
  | _ => false

/-- The calls of `fetch_add` in a run. -/
def draws (inputs : List (κ × AdminStep)) : Nat :=
  inputs.countP fun input => input.2.isFetchAdd

/-- The value that a call of `fetch_add` returns. -/
def nthId (n : Nat) : UInt64 := 1 + UInt64.ofNat n

theorem nthId_succ (n : Nat) : nthId n + 1 = nthId (n + 1) := by
  unfold nthId
  rw [UInt64.ofNat_add, UInt64.add_assoc]
  rfl

theorem nthId_injOn : Set.InjOn nthId (Set.Iio (2 ^ 64)) := by
  intro n hn m hm h
  have hsame : UInt64.ofNat n = UInt64.ofNat m := UInt64.add_right_inj 1 |>.mp h
  have hmod := congrArg UInt64.toNat hsame
  rw [UInt64.toNat_ofNat', UInt64.toNat_ofNat', Nat.mod_eq_of_lt hn, Nat.mod_eq_of_lt hm] at hmod
  exact hmod

/-- What a step does with the numbers: it draws the next one, sends the one that it holds,
or leaves them alone. -/
inductive IdCase (counter : UInt64) (t : AdminThread) :
    Bool → UInt64 → AdminThread → List UInt64 → Prop where
  | draw {t' : AdminThread} (hold : t'.holds = some counter) :
      IdCase counter t true (counter + 1) t' []
  | send {t' : AdminThread} {id : UInt64} (hold : t.holds = some id) (hnone : t'.holds = none) :
      IdCase counter t false counter t' [id]
  | other {t' : AdminThread} (hsame : t'.holds = t.holds) : IdCase counter t false counter t' []

theorem AdminCase.ids {counter counter' : UInt64} {t t' : AdminThread} {step : AdminStep}
    {out : List NodeMessage} (h : AdminCase fromId counter t step counter' t' out) :
    IdCase counter t step.isFetchAdd counter' t' (out.filterMap trxId) := by
  cases h with
  | accept hpoint => exact .other (by simp [AdminThread.holds, hpoint])
  | arrive => exact .other rfl
  | close => exact .other rfl
  | fail hpoint => exact .other (by simp [AdminThread.holds, hpoint])
  | eof hpoint => exact .other (by simp [AdminThread.holds, hpoint])
  | line hpoint =>
      rename_i raw more hraw hwhole
      rw [afterLine_trxId]
      apply IdCase.other
      unfold AdminThread.holds
      rcases afterLine_point (decodeLine raw) with hnext | hnext | ⟨text, hnext⟩
      · simp [hpoint, hnext]
      · simp [hpoint, hnext]
      · simp [hpoint, hnext]
  | fetchAdd => exact .draw rfl
  | send hpoint => exact .send (by simp [AdminThread.holds, hpoint]) rfl

/-- The counter counts the calls of `fetch_add`, and its values are tickets. -/
theorem run_tickets (hrun : Run (AdminListener.next fromId) AdminListener.new inputs s outputs)
    (hdraws : draws inputs ≤ 2 ^ 64) :
    s.shared = nthId (draws inputs) ∧
      Tickets nthId (draws inputs) (trxIds outputs) fun k => (s.thread k).holds := by
  induction hrun with
  | start => exact ⟨rfl, .start nthId⟩
  | step hprev hnext ih =>
      rename_i inputs before outputs input after out
      obtain ⟨k, step⟩ := input
      have hcount : draws (inputs ++ [(k, step)]) =
          draws inputs + if step.isFetchAdd then 1 else 0 := by
        unfold draws
        rw [List.countP_append, List.countP_singleton]
      obtain ⟨hshared, htickets⟩ := ih (by omega)
      obtain ⟨counter, own, new, hact, rfl, rfl⟩ := interleave_eq_some hnext
      have hsent : trxIds (new.map (k, ·)) = new.filterMap trxId := List.filterMap_map
      have hholds : (fun other => (Function.update before.thread k own other).holds) =
          Function.update (fun other => (before.thread other).holds) k own.holds :=
        Function.comp_update AdminThread.holds before.thread k own
      rw [trxIds_append, hsent, hcount]
      dsimp only
      rw [hholds]
      have hids := (adminAct_cases hact).ids
      generalize step.isFetchAdd = drawn at hids hcount
      generalize new.filterMap trxId = ids at hids
      cases hids with
      | draw hold =>
          rw [hold, hshared, List.append_nil]
          refine ⟨nthId_succ _, htickets.draw nthId_injOn ?_ k⟩
          rw [hcount] at hdraws
          exact hdraws
      | send hold hnone =>
          rw [hnone]
          exact ⟨hshared, htickets.use hold⟩
      | other hsame =>
          rw [hsame, Function.update_eq_self, List.append_nil]
          exact ⟨hshared, htickets⟩

/-- As long as the counter has not come round, no two transactions that the connections
send have one number, in whatever order their threads draw and send. -/
theorem run_trxIds_nodup
    (hrun : Run (AdminListener.next fromId) AdminListener.new inputs s outputs)
    (hdraws : draws inputs ≤ 2 ^ 64) :
    (trxIds outputs).Nodup ∧ ∀ id ∈ trxIds outputs, ∃ n < draws inputs, nthId n = id := by
  obtain ⟨-, htickets⟩ := run_tickets hrun hdraws
  exact ⟨htickets.once, fun id hid => htickets.drawn id (.inl hid)⟩

end Listener

end B4n

namespace B4n.Blockchain.Sample

open B4n.Lib

/-- Two clients at the same time: the second is served between the `fetch_add` and the
`tx.send` of the first, whose second line arrives in pieces. -/
private def clients : List (Bool × AdminStep) :=
  [(false, .accept), (true, .accept), (false, .arrive (utf8 "trx tea\npri".toList)),
    (true, .arrive (utf8 "trx coffee\n".toList)), (false, .read), (false, .fetchAdd),
    (true, .read), (true, .fetchAdd), (true, .send), (false, .send),
    (false, .arrive (utf8 "nt\n".toList)), (false, .close)]

private def served : Threads UInt64 AdminThread Bool × List (Bool × NodeMessage) :=
  finish (AdminListener.next 7) AdminListener.new clients

private theorem clients_ok :
    (exec (AdminListener.next 7) (AdminListener.new : Threads UInt64 AdminThread Bool)
        clients).isSome = true ∧
      (served.1.thread false).closed = true ∧ (served.1.thread false).point = .reading := by
  decide +kernel

private theorem run_clients :
    Run (AdminListener.next 7) AdminListener.new clients served.1 served.2 :=
  run_finish clients_ok.1

theorem run_connection_served_clients :
    ∃ ids, outputsOf true served.2 <+: adminConnection 7 ids (served.1.thread true).received ∧
      ((served.1.thread true).point = .ended →
        outputsOf true served.2 = adminConnection 7 ids (served.1.thread true).received) :=
  run_connection_served run_clients true

theorem run_connection_ends_clients :
    ∃ (steps : List AdminStep) (last : Threads UInt64 AdminThread Bool)
      (out : List (Bool × NodeMessage)) (ids : Nat → UInt64),
      (∀ step ∈ steps, step.isOwn = true) ∧
        steps.length ≤ 3 * (lines (served.1.thread false).received).length + 1 ∧
        Run (AdminListener.next 7) served.1 (steps.map (false, ·)) last out ∧
        (last.thread false).point = .ended ∧
        outputsOf false (served.2 ++ out) =
          adminConnection 7 ids (served.1.thread false).received := by
  obtain ⟨-, hclosed, hpoint⟩ := clients_ok
  exact run_connection_ends run_clients hclosed (by simp [hpoint]) (by simp [hpoint])

theorem run_trxIds_nodup_clients :
    (trxIds served.2).Nodup ∧ ∀ id ∈ trxIds served.2, ∃ n < draws clients, nthId n = id :=
  run_trxIds_nodup run_clients (by decide)

end B4n.Blockchain.Sample
