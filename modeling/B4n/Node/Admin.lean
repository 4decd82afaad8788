import B4n.Lib.Text
import B4n.Lib.Utf8
import B4n.Node.Node

/-!
# The admin socket

The loop of `node/admin.rs` over the lines of one connection: what it sends to
the node for the bytes that came in.  The counter of transaction numbers is
shared by all connections, so the numbers that this one draws are an argument.

`BufRead::lines` and `str::trim` are modelled as the standard library documents
them: a line ends at LF and loses one CR in front of it, and bytes that are not
UTF-8 are an error.

## Main results

* `rawLines_append` — a line is cut off at its LF.
* `lines_utf8` — a line of text is read as it is.
* `adminCommand_trx` — a `trx` command in front of a trimmed text.
-/

namespace B4n

open Lib Lib.Text Blockchain

/-! ## Rust's standard library -/

/-- `char::is_whitespace`, the characters of the property `White_Space` -/
def isWhitespace (c : Char) : Bool :=
  let n := c.toNat
  (0x09 ≤ n && n ≤ 0x0d) || n == 0x20 || n == 0x85 || n == 0xa0 || n == 0x1680 ||
    (0x2000 ≤ n && n ≤ 0x200a) || n == 0x2028 || n == 0x2029 || n == 0x202f ||
    n == 0x205f || n == 0x3000

/-- `str::trim` -/
def trim (text : List Char) : List Char := trimBy isWhitespace text

/-- `str::strip_prefix` -/
def stripPrefix (word text : List Char) : Option (List Char) :=
  if word.isPrefixOf text then some (text.drop word.length) else none

/-- The bytes of the successive calls of `read_until`: each line with its LF. -/
def rawLines : List UInt8 → List (List UInt8)
  | [] => []
  | b :: bytes =>
      if b == 0x0a then [b] :: rawLines bytes
      else
        match rawLines bytes with
        | [] => [[b]]
        | line :: more => (b :: line) :: more

/-- Drop an LF at the end, and then a CR. -/
def chomp (line : List Char) : List Char :=
  if line.getLast? = some '\n' then
    let line := line.dropLast
    if line.getLast? = some '\r' then line.dropLast else line
  else line

/-- The items of `BufRead::lines`; `none` is an error. -/
def lines (bytes : List UInt8) : List (Option (List Char)) :=
  (rawLines bytes).map fun line =>
    (String.fromUTF8? ⟨line.toArray⟩).map fun text => chomp text.toList

/-! ## The loop over the commands -/

/-- What the body of the loop does with a line. -/
inductive AdminCommand where
  | ignored
  | print
  | stop
  | trx (text : List Char)
deriving DecidableEq

/-- The body of the loop, up to what it sends. -/
def adminCommand (line : List Char) : AdminCommand :=
  let cmd := trim line
  if cmd.isEmpty then .ignored
  else if cmd == "print".toList then .print
  else if cmd == "stop".toList then .stop
  else
    match stripPrefix "trx ".toList cmd with
    | none => .ignored
    | some rest =>
        let text := trim rest
        if text.isEmpty then .ignored else .trx text

/-- The loop of a connection: the messages that it sends to the node.  The
values of its calls of `fetch_add` are `ids`. -/
def adminLoop (fromId : UInt32) : (ids : Nat → UInt64) → List (Option (List Char)) →
    List NodeMessage
  | _, [] => []
  | _, none :: _ => []
  | ids, some line :: rest =>
      match adminCommand line with
      | .ignored => adminLoop fromId ids rest
      | .print => .debugPrint :: adminLoop fromId ids rest
      | .stop => [.stop]
      | .trx text =>
          .localTrx ⟨ids 0, fromId.toUInt64, 0, String.ofList text⟩ ::
            adminLoop fromId (fun n => ids (n + 1)) rest

/-- A connection of `spawn_admin_listener`, given everything that it reads. -/
def adminConnection (fromId : UInt32) (ids : Nat → UInt64) (bytes : List UInt8) :
    List NodeMessage :=
  adminLoop fromId ids (lines bytes)

/-! ## One line -/

theorem rawLines_append {line : List UInt8} (hline : (0x0a : UInt8) ∉ line)
    (rest : List UInt8) :
    rawLines (line ++ 0x0a :: rest) = (line ++ [0x0a]) :: rawLines rest := by
  induction line with
  | nil => rfl
  | cons b line ih =>
      rw [List.mem_cons, not_or] at hline
      have hb : (b == 0x0a) = false := beq_false_of_ne (Ne.symm hline.1)
      rw [List.cons_append, rawLines, hb, ih hline.2]
      rfl

/-- A text without LF on a line of its own is read as it is, unless a CR stands
at its end. -/
theorem lines_utf8 {text : List Char} (hnewline : '\n' ∉ text)
    (hcr : text.getLast? ≠ some '\r') (rest : List UInt8) :
    lines (utf8 (text ++ ['\n']) ++ rest) = some text :: lines rest := by
  have hlf : (0x0a : UInt8) ∉ utf8 text := not_mem_utf8 (by decide) hnewline
  have hline : utf8 (text ++ ['\n']) = utf8 text ++ [0x0a] := utf8_append text ['\n']
  have hchomp : chomp (text ++ ['\n']) = text := by
    unfold chomp
    simp [hcr]
  unfold lines
  rw [hline, List.append_assoc, List.singleton_append, rawLines_append hlf, ← hline,
    List.map_cons, fromUTF8?_utf8, Option.map_some, String.toList_ofList, hchomp]

/-- A `trx` command in front of a trimmed text. -/
theorem adminCommand_trx {text : List Char} (htext : Trimmed isWhitespace text)
    (hne : text ≠ []) : adminCommand ("trx ".toList ++ text) = .trx text := by
  have hcmd : trim ("trx ".toList ++ text) = "trx ".toList ++ text := by
    apply Trimmed.trimBy_eq
    refine ⟨?_, htext.last.append hne _⟩
    intro c hc
    have hfirst : c = 't' := by simpa using hc.symm
    rw [hfirst]
    decide
  have hprefix : stripPrefix "trx ".toList ("trx ".toList ++ text) = some text := by
    unfold stripPrefix
    rw [if_pos (List.isPrefixOf_iff_prefix.mpr (List.prefix_append _ _)), List.drop_left]
  have hempty : text.isEmpty = false := by simpa using hne
  have htrim : trim text = text := htext.trimBy_eq
  unfold adminCommand
  simp only [hcmd, hprefix, htrim, hempty]
  rfl

end B4n
