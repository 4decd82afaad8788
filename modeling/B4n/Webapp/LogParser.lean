import B4n.Lib.Regex
import B4n.Lib.Text
import B4n.Webapp.Python

/-!
# The log parser

`webapp/log_parser.py`: the transactions of a chain and of a pool are read back
from the lines that the node prints.  Lists are cut out by two scanners that
count brackets and skip strings; a transaction is matched by a regular
expression, and its text is turned into a Python literal and evaluated.

What a transaction's text becomes is a parameter `decode` of the parsers, so
that the structure and the texts can be looked at one at a time; the source
decodes with `decodeDebugString`.
-/

namespace B4n.Webapp

open B4n.Lib B4n.Lib.Text

/-- `ParsedTransaction`, with texts of type `τ`. -/
structure ParsedTransaction (τ : Type) where
  txId : Nat
  fromId : Nat
  toId : Nat
  text : τ
  blockIndex : Option Nat
deriving DecidableEq

/-- The exceptions of the parser: a `LogParseError` with its message, or the
`ValueError` of a number with too many digits. -/
inductive ParseError where
  | logParseError (message : String)
  | valueError
deriving DecidableEq

/-! ## Regular expressions -/

section Patterns

variable [CharacterTable]

/-- `\d` -/
def digit {ν : Type} : Regex Char ν := .cls fun c => (CharacterTable.decimal c).isSome

/-- `\b`: a word character on one side only. -/
def wordBoundary {ν : Type} : Regex Char ν :=
  .look fun before rest =>
    before.head?.any CharacterTable.isWord != rest.head?.any CharacterTable.isWord

/-- `^` -/
def textStart {ν : Type} : Regex Char ν := .look fun before _ => before.isEmpty

/-- `$`: the end of the text or of its last line. -/
def textEnd {ν : Type} : Regex Char ν := .look fun _ rest => rest.isEmpty || rest == ['\n']

/-- `BLOCK_INDEX_RE` -/
def BLOCK_INDEX_RE : Regex Char Nat :=
  .seq wordBoundary (.seq (.lit "index: ".toList) (.group 1 (.plus digit)))

/-- `\\.|[^"\\]` -/
def tokenItem {ν : Type} : Regex Char ν :=
  .alt (.seq (.cls (· == '\\')) (.cls (· != '\n'))) (.cls fun c => c != '"' && c != '\\')

/-- `"(?:\\.|[^"\\])*"` -/
def quotedToken {ν : Type} : Regex Char ν :=
  .seq (.cls (· == '"')) (.seq (.star tokenItem) (.cls (· == '"')))

/-- `TRANSACTION_RE` -/
def TRANSACTION_RE : Regex Char String :=
  .seq textStart
    (.seq (.lit "Transaction \x7b id: ".toList)
      (.seq (.group "id" (.plus digit))
        (.seq (.lit ", from: ".toList)
          (.seq (.group "from" (.plus digit))
            (.seq (.lit ", to: ".toList)
              (.seq (.group "to" (.plus digit))
                (.seq (.lit ", text: ".toList)
                  (.seq (.group "text" quotedToken)
                    (.seq (.lit " \x7d".toList) textEnd)))))))))

/-- The escape that `_decode_debug_string` rewrites. -/
def UNICODE_ESCAPE_RE : Regex Char Nat :=
  .seq (.lit ['\\', 'u', '{'])
    (.seq (.group 1 (.plus (.cls isHex))) (.lit ['}']))

/-- `int(match.group(name))` -/
def intGroup {ν : Type} [BEq ν] (found : Cursor Char ν) (name : ν) : Except ParseError Nat :=
  match int ((found.group? name).getD []) with
  | some n => .ok n
  | none => .error .valueError

end Patterns

/-! ## Scanners -/

/-- The variables of the loop of `_find_matching`. -/
structure MatchingState where
  depth : Int
  inString : Bool
  escape : Bool

/-- The loop of `_find_matching` over the characters from `idx` on. -/
def findMatchingLoop (openChar closeChar : Char) :
    MatchingState → Nat → List Char → Option Nat
  | _, _, [] => none
  | st, idx, char :: rest =>
      if st.inString then
        if st.escape then
          findMatchingLoop openChar closeChar { st with escape := false } (idx + 1) rest
        else if char == '\\' then
          findMatchingLoop openChar closeChar { st with escape := true } (idx + 1) rest
        else if char == '"' then
          findMatchingLoop openChar closeChar { st with inString := false } (idx + 1) rest
        else findMatchingLoop openChar closeChar st (idx + 1) rest
      else if char == '"' then
        findMatchingLoop openChar closeChar { st with inString := true } (idx + 1) rest
      else if char == openChar then
        findMatchingLoop openChar closeChar { st with depth := st.depth + 1 } (idx + 1) rest
      else if char == closeChar then
        if st.depth - 1 == 0 then some idx
        else
          findMatchingLoop openChar closeChar { st with depth := st.depth - 1 } (idx + 1) rest
      else findMatchingLoop openChar closeChar st (idx + 1) rest

/-- `_find_matching` -/
def findMatching (text : List Char) (openPos : Nat) (openChar closeChar : Char) :
    Except ParseError Nat :=
  match findMatchingLoop openChar closeChar ⟨0, false, false⟩ openPos (text.drop openPos) with
  | some idx => .ok idx
  | none => .error (.logParseError "matching bracket not found")

/-- `_extract_list` -/
def extractList (text : List Char) (marker : String) : Except ParseError (List Char) :=
  match find marker.toList text with
  | none => .error (.logParseError ("marker '" ++ marker ++ "' not found"))
  | some markerPos =>
      let searchPos := markerPos + marker.toList.length
      match find ['['] (text.drop searchPos) with
      | none => .error (.logParseError "list opening bracket not found")
      | some offset =>
          let openPos := searchPos + offset
          match findMatching text openPos '[' ']' with
          | .error e => .error e
          | .ok closePos => .ok ((text.take closePos).drop (openPos + 1))

/-- The variables of the loop of `_split_top_level_items`. -/
structure SplitState where
  items : List (List Char)
  start : Nat
  braceDepth : Int
  bracketDepth : Int
  inString : Bool
  escape : Bool

/-- One round of the loop of `_split_top_level_items`. -/
def splitStep (inner : List Char) (st : SplitState) (idx : Nat) (char : Char) : SplitState :=
  if st.inString then
    if st.escape then { st with escape := false }
    else if char == '\\' then { st with escape := true }
    else if char == '"' then { st with inString := false }
    else st
  else if char == '"' then { st with inString := true }
  else if char == '{' then { st with braceDepth := st.braceDepth + 1 }
  else if char == '}' then { st with braceDepth := st.braceDepth - 1 }
  else if char == '[' then { st with bracketDepth := st.bracketDepth + 1 }
  else if char == ']' then { st with bracketDepth := st.bracketDepth - 1 }
  else if char == ',' && st.braceDepth == 0 && st.bracketDepth == 0 then
    let item := strip ((inner.take idx).drop st.start)
    { st with
      items := if item.isEmpty then st.items else st.items ++ [item]
      start := idx + 1 }
  else st

/-- The loop of `_split_top_level_items` over the characters from `idx` on. -/
def splitLoop (inner : List Char) : SplitState → Nat → List Char → SplitState
  | st, _, [] => st
  | st, idx, char :: rest => splitLoop inner (splitStep inner st idx char) (idx + 1) rest

/-- `_split_top_level_items` -/
def splitTopLevelItems (inner : List Char) : List (List Char) :=
  if (strip inner).isEmpty then []
  else
    let st := splitLoop inner ⟨[], 0, 0, 0, false, false⟩ 0 inner
    let tail := strip (inner.drop st.start)
    if tail.isEmpty then st.items else st.items ++ [tail]

/-! ## Parsers -/

section Parsers

variable [CharacterTable]

/-- What `_decode_debug_string` writes for an escape. -/
def pythonEscape (found : Cursor Char Nat) : List Char :=
  '\\' :: 'U' :: hexPad 8 (ofHex ((found.group? 1).getD []))

/-- The string that `_decode_debug_string` evaluates. -/
def pythonLiteral (token : List Char) : List Char :=
  UNICODE_ESCAPE_RE.sub pythonEscape [] token

/-- `_decode_debug_string` -/
def decodeDebugString (token : List Char) : Except ParseError (List Nat) :=
  match literalEval (pythonLiteral token) with
  | some text => .ok text
  | none => .error (.logParseError "string literal is malformed")

variable {τ : Type}

/-- `_parse_transaction` -/
def parseTransaction (decode : List Char → Except ParseError τ) (item : List Char)
    (blockIndex : Option Nat) : Except ParseError (ParsedTransaction τ) :=
  match TRANSACTION_RE.matchAt [] (strip item) with
  | none => .error (.logParseError "transaction line is malformed")
  | some found => do
    let txId ← intGroup found "id"
    let fromId ← intGroup found "from"
    let toId ← intGroup found "to"
    let text ← decode ((found.group? "text").getD [])
    .ok { txId, fromId, toId, text, blockIndex }

/-- The body of the loop of `_parse_blockchain_transactions`. -/
def parseBlock (decode : List Char → Except ParseError τ) (blockItem : List Char) :
    Except ParseError (List (ParsedTransaction τ)) :=
  match BLOCK_INDEX_RE.search [] blockItem with
  | none => .error (.logParseError "block index not found")
  | some indexMatch => do
    let blockIndex ← intGroup indexMatch 1
    let transactionsInner ← extractList blockItem "transactions: "
    (splitTopLevelItems transactionsInner).mapM fun transactionItem =>
      parseTransaction decode transactionItem (some blockIndex)

/-- `_parse_blockchain_transactions` -/
def parseBlockchainTransactions (decode : List Char → Except ParseError τ)
    (blockchainLine : List Char) : Except ParseError (List (ParsedTransaction τ)) := do
  let blocksInner ← extractList blockchainLine "blocks: "
  let confirmed ← (splitTopLevelItems blocksInner).mapM (parseBlock decode)
  .ok confirmed.flatten

/-- `_parse_mempool_transactions` -/
def parseMempoolTransactions (decode : List Char → Except ParseError τ)
    (mempoolLine : List Char) : Except ParseError (List (ParsedTransaction τ)) := do
  let queueInner ← extractList mempoolLine "queue: "
  (splitTopLevelItems queueInner).mapM fun item => parseTransaction decode item none

end Parsers

end B4n.Webapp
