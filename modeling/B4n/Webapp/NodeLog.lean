import B4n.Lib.Marks
import B4n.Webapp.DebugString
import B4n.Webapp.LatestSnapshot
import B4n.Webapp.Snapshot

/-!
# The log of a node

A node with number `netId` writes two things into its log: lines of its own,
which begin with `[node netId]`, and, when it is asked to, its chain and its pool
as `{:?}` prints them.  The log parser takes the number of the node from the
last `[node ..]` in the log, wherever it stands.

## Main results

* `findNodeIds_eq_marks` — the regular expression finds all of them.
* `marks_escapeDebug` — those in a printed text are those in the text.
* `marks_logText` — what the entries of a log show.
-/

namespace B4n.Webapp

open B4n.Blockchain B4n.Lib B4n.Lib.Text

/-! ## Entries -/

/-- What `gossip` calls the message that it sends. -/
inductive GossipKind
  | trx
  | block
  | other

def GossipKind.display : GossipKind → List Char
  | .trx => "Trx".toList
  | .block => "Block".toList
  | .other => "Other".toList

/-- `{}` and `{:?}` of a `bool` -/
def displayBool (b : Bool) : List Char := if b then "true".toList else "false".toList

/-- The lines that a node writes with its number in front. -/
inductive OwnLine
  | addPeerReplace (peerId : UInt32)
  | addPeer (peerId : UInt32)
  | removePeerDup (peerId : UInt32)
  | removePeer (peerId : UInt32) (peersLeft : Nat)
  | localTrx (inserted : Bool) (hash : Hash32Type)
  | gossip (kind : GossipKind) (peers : Nat)

/-- An entry of a log. -/
inductive LogEntry
  | own (line : OwnLine)
  /-- `NodeMessage::DebugPrint`, with the order in which the hash set of the pool
  is iterated -/
  | snapshot (chain : BlockChain) (pool : MemPool) (seen : List Hash32Type)

def LogEntry.isSnapshot : LogEntry → Bool
  | .own _ => false
  | .snapshot .. => true

/-- The texts of the transactions in an entry, in the order of their printing. -/
def LogEntry.texts : LogEntry → List String
  | .own _ => []
  | .snapshot chain pool _ =>
      chain.blocks.flatMap (fun block => block.transactions.map Transaction.text) ++
        pool.queue.map Transaction.text

/-- The transaction without its text. -/
def withoutText (trx : Transaction) : Transaction := { trx with text := "" }

/-- The entry without the texts of its transactions. -/
def LogEntry.withoutTexts : LogEntry → LogEntry
  | .own line => .own line
  | .snapshot chain pool seen =>
      .snapshot
        { chainId := chain.chainId
          blocks := chain.blocks.map fun block =>
            { block with transactions := block.transactions.map withoutText }
          nonempty := by simpa using chain.nonempty }
        { pool with queue := pool.queue.map withoutText } seen

section Printing

variable [PrintTable]

/-- What follows the number of the node. -/
def OwnLine.message : OwnLine → List Char
  | .addPeerReplace peerId => "add_peer REPLACE ".toList ++ debugNat peerId.toNat
  | .addPeer peerId => "add_peer ".toList ++ debugNat peerId.toNat
  | .removePeerDup peerId =>
      "remove_peer DUP ".toList ++ (debugNat peerId.toNat ++ ", ignored".toList)
  | .removePeer peerId peersLeft =>
      "remove_peer ".toList ++ (debugNat peerId.toNat ++
        (" peers_left=".toList ++ debugNat peersLeft))
  | .localTrx inserted hash =>
      "LocalTrx inserted=".toList ++ (displayBool inserted ++
        (" hash=".toList ++ (debugBytes hash ++ (" text=".toList ++ debugStr "..."))))
  | .gossip kind peers =>
      "gossip ".toList ++ (kind.display ++ (" to ".toList ++ (debugNat peers ++
        " peers".toList)))

def OwnLine.text (netId : UInt32) (line : OwnLine) : List Char :=
  "[node ".toList ++ (debugNat netId.toNat ++ ("] ".toList ++ line.message))

variable [Primitives]

/-- The lines of an entry. -/
def LogEntry.lines (netId : UInt32) : LogEntry → List (List Char)
  | .own line => [line.text netId]
  | .snapshot chain pool seen =>
      [chain.debug, "is_valid=".toList ++ displayBool chain.isValid, mempoolLine pool seen]

/-- The lines of a log. -/
def logLines (netId : UInt32) (entries : List LogEntry) : List (List Char) :=
  entries.flatMap (LogEntry.lines netId)

/-- The log of a node. -/
def logText (netId : UInt32) (entries : List LogEntry) : List Char :=
  (logLines netId entries).flatMap (· ++ ['\n'])

end Printing

variable [CharacterTable]

/-! ## Marks of a node -/

/-- A character that `\d` matches. -/
def isDecimal (c : Char) : Bool := (CharacterTable.decimal c).isSome

theorem isDecimal_ascii {c : Char} (hc : c.toNat < 128) : isDecimal c = c.isDigit := by
  rw [isDecimal, CharacterTable.decimal_ascii c hc]
  by_cases hdigit : c.isDigit <;> simp [hdigit]

/-- An ASCII character that is no digit is no digit for Python either. -/
theorem ne_of_isDecimal {c d : Char} (hc : isDecimal c = true)
    (hd : (d.toNat < 128 && !d.isDigit) = true) : c ≠ d := by
  rintro rfl
  simp only [Bool.and_eq_true, decide_eq_true_eq, Bool.not_eq_true'] at hd
  rw [isDecimal_ascii hd.1, hd.2] at hc
  cases hc

/-- The digits of the mark that a text begins with. -/
def readNodeMark (text : List Char) : Option (List Char) :=
  if "[node ".toList.isPrefixOf text then
    let digits := (text.drop 6).takeWhile isDecimal
    if !digits.isEmpty && ((text.drop 6).dropWhile isDecimal).head? == some ']' then some digits
    else none
  else none

theorem readNodeMark_eq_some_iff {text digits : List Char} :
    readNodeMark text = some digits ↔
      (digits ≠ [] ∧ ∀ c ∈ digits, isDecimal c = true) ∧
        ∃ rest, text = '[' :: ("node ".toList ++ (digits ++ [']']) ++ rest) := by
  constructor
  · intro h
    unfold readNodeMark at h
    split at h
    · next hopen =>
      obtain ⟨behind, rfl⟩ := List.isPrefixOf_iff_prefix.mp hopen
      rw [show ("[node ".toList ++ behind).drop 6 = behind from rfl] at h
      dsimp only at h
      split at h
      · next hclose =>
        cases h
        simp only [Bool.and_eq_true, Bool.not_eq_true', List.isEmpty_eq_false_iff,
          beq_iff_eq] at hclose
        obtain ⟨rest, hrest⟩ := List.head?_eq_some_iff.mp hclose.2
        refine ⟨⟨hclose.1, fun c hc => List.mem_takeWhile_imp hc⟩, rest, ?_⟩
        have hsplit := List.takeWhile_append_dropWhile (p := isDecimal) (l := behind)
        rw [hrest] at hsplit
        nth_rewrite 1 [← hsplit]
        simp
      · cases h
    · cases h
  · rintro ⟨⟨hne, hdigits⟩, rest, rfl⟩
    have hstop : isDecimal ']' = false := by
      rw [isDecimal_ascii (by decide)]
      rfl
    have hdrop : ('[' :: ("node ".toList ++ (digits ++ [']']) ++ rest)).drop 6 =
        digits ++ ']' :: rest := by
      simp
    have htake : (digits ++ ']' :: rest).takeWhile isDecimal = digits := by
      rw [List.takeWhile_append_of_pos hdigits]
      simp [hstop]
    have hbehind : (digits ++ ']' :: rest).dropWhile isDecimal = ']' :: rest := by
      rw [List.dropWhile_append_of_pos hdigits]
      simp [hstop]
    have hopen : "[node ".toList.isPrefixOf
        ('[' :: ("node ".toList ++ (digits ++ [']']) ++ rest)) = true := by
      rw [List.isPrefixOf_iff_prefix]
      exact ⟨digits ++ ']' :: rest, by simp⟩
    have hnonempty : digits.isEmpty = false := List.isEmpty_eq_false_iff.mpr hne
    simp only [readNodeMark, hopen, hdrop, htake, hbehind, hnonempty, if_true]
    rfl

/-- `[node 1]`, with the digits that it says. -/
def nodeMark : MarkForm Char (List Char) where
  first := '['
  body digits := "node ".toList ++ (digits ++ [']'])
  Valid digits := digits ≠ [] ∧ ∀ c ∈ digits, isDecimal c = true
  read? := readNodeMark
  read?_eq_some_iff := readNodeMark_eq_some_iff
  first_not_mem := by
    rintro digits ⟨-, hdigits⟩ hmem
    simp only [List.mem_append, List.mem_singleton] at hmem
    rcases hmem with hmem | hmem | hmem
    · exact absurd hmem (by decide)
    · exact ne_of_isDecimal (hdigits _ hmem) (d := '[') (by decide) rfl
    · exact absurd hmem (by decide)

theorem nodeMark_separates {c : Char} (hascii : (c.toNat < 128 && !c.isDigit) = true)
    (hc : c ∉ "[node ]".toList) : nodeMark.Separates c := by
  refine ⟨fun h => hc (by simp [h, nodeMark]), ?_⟩
  rintro digits ⟨-, hdigits⟩ hmem
  simp only [nodeMark, List.mem_append, List.mem_singleton] at hmem
  rcases hmem with hmem | hmem | rfl
  · exact hc (List.mem_cons_of_mem '[' (List.mem_append_left [']'] hmem))
  · exact ne_of_isDecimal (hdigits _ hmem) hascii rfl
  · exact hc (by decide)

/-- The regular expression finds the marks. -/
theorem findNodeIds_eq_marks (text : List Char) : findNodeIds text = nodeMark.marks text := by
  apply MarkForm.findAll_eq_marks
  · rintro before digits rest ⟨hne, hdigits⟩
    have hstop : ∀ c, ([']'] ++ rest).head? = some c → isDecimal c = false := by
      rintro c ⟨rfl⟩
      rw [isDecimal_ascii (by decide)]
      rfl
    have hplus := Regex.Reaches.plus_cls hne hdigits hstop ("[node ".toList.reverse ++ before)
      ([] : List (Nat × List Char))
    have hmatch := Regex.Reaches.matchAt_eq (r := NODE_ID_RE)
      (.seq (.lit _ _ _ _) (.seq (.group 1 hplus) (.lit _ _ _ _)))
    have htext : nodeMark.first :: (nodeMark.body digits ++ rest) =
        "[node ".toList ++ (digits ++ ([']'] ++ rest)) := by
      simp [nodeMark]
    rw [htext]
    exact ⟨_, _, hmatch, rfl⟩
  · intro before text hread
    apply Regex.run_eq_none
    intro c hc
    cases hc with
    | seq hopen hc =>
        cases hc with
        | seq hgroup hclose =>
            cases hgroup with
            | group hplus =>
                obtain ⟨digits, hne, hdigits, hrest⟩ := hplus.plus_cls
                have hopened := hopen.lit
                have hclosed := hclose.lit
                simp only [Cursor.record] at hclosed
                rw [hrest, hclosed] at hopened
                have hsome : nodeMark.read? text = some digits :=
                  readNodeMark_eq_some_iff.mpr
                    ⟨⟨hne, hdigits⟩, c.rest, by simpa using hopened⟩
                rw [hread] at hsome
                cases hsome

/-! ## What is printed -/

theorem shows_nothing {w : List Char} (hw : '[' ∉ w) : nodeMark.Shows w [] := .skip hw

theorem shows_debugNat (n : Nat) : nodeMark.Shows (debugNat n) [] := by
  apply shows_nothing
  intro hmem
  exact absurd (isDigit_of_mem_debugNat hmem) (by decide)

/-- A bracket before another character than `n` begins no mark. -/
theorem readNodeMark_bracket {c : Char} (hc : c ≠ 'n') (rest : List Char) :
    nodeMark.read? ('[' :: c :: rest) = none := by
  apply MarkForm.read?_eq_none
  intro digits _ behind htext
  exact hc (List.cons.inj (List.cons.inj htext).2).1

section Items

variable {α : Type} {print : α → List Char} {found : α → List (List Char)}

theorem shows_items (hshows : ∀ x, nodeMark.Shows (print x) (found x)) (xs : List α) :
    nodeMark.Shows ([',', ' '].intercalate (xs.map print)) (xs.flatMap found) := by
  rw [List.flatMap_def]
  apply MarkForm.Shows.intercalate (shows_nothing (by decide))
  rw [List.forall₂_map_left_iff, List.forall₂_map_right_iff, List.forall₂_same]
  exact fun x _ => hshows x

/-- A list of values, none of which is printed with an `n` in front. -/
theorem shows_debugList (hshows : ∀ x, nodeMark.Shows (print x) (found x))
    (hhead : ∀ x, ∃ c w, print x = c :: w ∧ c ≠ 'n') (xs : List α) :
    nodeMark.Shows (debugList (xs.map print)) (xs.flatMap found) := by
  have hclose : nodeMark.Shows [']'] [] := shows_nothing (by decide)
  refine .first_cons ?_ ((shows_items hshows xs).append_quiet hclose)
  intro rest
  cases xs with
  | nil => exact readNodeMark_bracket (c := ']') (by decide) rest
  | cons x xs =>
      obtain ⟨c, w, hprint, hc⟩ := hhead x
      cases xs with
      | nil =>
          rw [List.map_cons, List.map_nil, List.intercalate_singleton, hprint]
          exact readNodeMark_bracket hc _
      | cons y ys =>
          rw [List.map_cons, List.map_cons, List.intercalate_cons_cons, hprint]
          exact readNodeMark_bracket hc _

theorem shows_debugSet (hshows : ∀ x, nodeMark.Shows (print x) (found x)) (xs : List α) :
    nodeMark.Shows (debugSet (xs.map print)) (xs.flatMap found) := by
  have hopen : nodeMark.Shows ['{'] [] := shows_nothing (by decide)
  have hclose : nodeMark.Shows ['}'] [] := shows_nothing (by decide)
  exact hopen.quiet_append ((shows_items hshows xs).append_quiet hclose)

end Items

omit [CharacterTable] in
theorem exists_debugNat (n : Nat) : ∃ c w, debugNat n = c :: w ∧ c ≠ 'n' := by
  cases hprinted : debugNat n with
  | nil => exact absurd hprinted (debugNat_ne_nil n)
  | cons c w =>
      refine ⟨c, w, rfl, ?_⟩
      rintro rfl
      have hmem : 'n' ∈ debugNat n := by
        rw [hprinted]
        exact List.mem_cons_self
      exact absurd (isDigit_of_mem_debugNat hmem) (by decide)

theorem shows_debugBytes {n : Nat} (bytes : Bytes n) : nodeMark.Shows (debugBytes bytes) [] := by
  have hbytes := shows_debugList (fun byte : UInt8 => shows_debugNat byte.toNat)
    (fun byte => exists_debugNat byte.toNat) bytes.toList
  rwa [List.flatMap_eq_nil_iff.mpr fun _ _ => rfl] at hbytes

/-- A struct shows what its fields show. -/
theorem shows_debugStruct {name : String} {fields : List (String × List Char)}
    {founds : List (List (List Char))}
    (hnames : (name :: fields.map Prod.fst).all (fun word => !word.toList.contains '[') = true)
    (hfields : List.Forall₂ (fun field found => nodeMark.Shows field.2 found) fields founds) :
    nodeMark.Shows (debugStruct name fields) founds.flatten := by
  have hword : ∀ word ∈ name :: fields.map Prod.fst, nodeMark.Shows word.toList [] := by
    intro word hmem
    have hbracket := List.all_eq_true.mp hnames word hmem
    exact shows_nothing (by simpa using hbracket)
  have hprinted : List.Forall₂ nodeMark.Shows (fields.map debugField) founds := by
    rw [List.forall₂_map_left_iff]
    refine List.forall₂_iff_zip.mpr ⟨hfields.length_eq, fun {field found} hmem => ?_⟩
    have hfield := hword field.1 (List.mem_cons_of_mem _
      (List.mem_map_of_mem (List.of_mem_zip hmem).1))
    have hcolon : nodeMark.Shows ": ".toList [] := shows_nothing (by decide)
    exact hfield.quiet_append (hcolon.quiet_append (List.forall₂_zip hfields hmem))
  have hopen : nodeMark.Shows [' ', '{', ' '] [] := shows_nothing (by decide)
  have hclose : nodeMark.Shows [' ', '}'] [] := shows_nothing (by decide)
  have hinner := MarkForm.Shows.intercalate (shows_nothing (w := [',', ' ']) (by decide)) hprinted
  exact (hword name List.mem_cons_self).quiet_append
    (hopen.quiet_append (hinner.append_quiet hclose))

/-! ## Texts -/

section Texts

variable [PrintTable]

/-- The digits of the marks in a text that are printed as they are. -/
def shownIds (text : List Char) : List (List Char) :=
  (nodeMark.marks text).filter fun digits => digits.all PrintTable.isPlain

/-- A digit that is printed as it is. -/
theorem escapeDebug_of_isDecimal {c : Char} (hdecimal : isDecimal c = true)
    (hplain : PrintTable.isPlain c = true) : escapeDebug c = [c] := by
  have hne : ∀ d : Char, (d.toNat < 128 && !d.isDigit) = true → c ≠ d :=
    fun d => ne_of_isDecimal hdecimal
  unfold escapeDebug
  split
  · exact absurd rfl (hne '\x00' (by decide))
  · exact absurd rfl (hne '\t' (by decide))
  · exact absurd rfl (hne '\r' (by decide))
  · exact absurd rfl (hne '\n' (by decide))
  · exact absurd rfl (hne '\\' (by decide))
  · exact absurd rfl (hne '"' (by decide))
  · rw [if_pos hplain]

/-- A mark is printed as it is if its digits are. -/
theorem flatMap_escapeDebug_mark {digits : List Char} (hvalid : nodeMark.Valid digits)
    (hplain : ∀ c ∈ digits, PrintTable.isPlain c = true) :
    (nodeMark.body digits).flatMap escapeDebug = nodeMark.body digits := by
  apply flatMap_escapeDebug_eq_self
  intro c hc
  simp only [nodeMark, List.mem_append, List.mem_singleton] at hc
  have hword : (']' :: "node ".toList).all (fun d =>
      0x20 ≤ d.toNat && d.toNat ≤ 0x7e && d != '"' && d != '\\') = true := by decide
  have hascii : c ∈ ']' :: "node ".toList → escapeDebug c = [c] := by
    intro hmem
    have hword := List.all_eq_true.mp hword c hmem
    simp only [Bool.and_eq_true, decide_eq_true_eq, bne_iff_ne] at hword
    obtain ⟨⟨⟨hlow, hhigh⟩, hquote⟩, hslash⟩ := hword
    exact escapeDebug_plain hlow hhigh hquote hslash
  rcases hc with hc | hc | rfl
  · exact hascii (List.mem_cons_of_mem _ hc)
  · exact escapeDebug_of_isDecimal (hvalid.2 c hc) (hplain c hc)
  · exact hascii List.mem_cons_self

omit [CharacterTable] in
/-- An escape contains no bracket. -/
theorem bracket_not_mem_escapeDebug {c : Char} (hc : escapeDebug c ≠ [c]) :
    '[' ∉ escapeDebug c := by
  generalize hv : escapeDebug c = v at hc ⊢
  cases hv ▸ printed_escapeDebug c with
  | plain => exact absurd rfl hc
  | nul => decide
  | backslash => decide
  | simple e _ _ _ _ hescape =>
      intro hmem
      have he : '[' = e := by simpa using hmem
      rw [← he] at hescape
      cases hescape
  | unicode =>
      intro hmem
      have hhex : '[' ∈ Nat.toDigits 16 c.toNat := by simpa using hmem
      exact absurd (isHex_of_mem_toDigits hhex) (by decide)

/-- A mark of a printed text is a mark of the text. -/
theorem read?_escapeDebug (c : Char) (text : List Char) :
    nodeMark.read? (c :: text.flatMap escapeDebug) =
      (nodeMark.read? (c :: text)).filter fun digits => digits.all PrintTable.isPlain := by
  apply Option.ext
  intro digits
  rw [Option.filter_eq_some_iff, nodeMark.read?_eq_some_iff, nodeMark.read?_eq_some_iff,
    List.all_eq_true]
  constructor
  · rintro ⟨hvalid, rest, htext⟩
    obtain ⟨hc, hprinted⟩ := List.cons.inj htext
    have hquote := (nodeMark_separates (c := '"') (by decide) (by decide)).2 digits hvalid
    have hslash := (nodeMark_separates (c := '\\') (by decide) (by decide)).2 digits hvalid
    have hplain : ∀ d ∈ nodeMark.body digits, d ≠ '"' ∧ d ≠ '\\' :=
      fun d hd => ⟨ne_of_mem_of_not_mem hd hquote, ne_of_mem_of_not_mem hd hslash⟩
    have hquoted : text.flatMap escapeDebug ++ ['"'] =
        nodeMark.body digits ++ (rest ++ ['"']) := by
      rw [hprinted, List.append_assoc]
    obtain ⟨more, hmore⟩ := prefix_of_printed hplain hquoted
    refine ⟨⟨hvalid, more, by rw [hc, hmore]⟩, fun d hd => ?_⟩
    apply plain_flatMap_escapeDebug text
    rw [hprinted]
    exact List.mem_append_left _ (List.mem_append_right _ (List.mem_append_left _ hd))
  · rintro ⟨⟨hvalid, rest, htext⟩, hplain⟩
    obtain ⟨hc, hrest⟩ := List.cons.inj htext
    refine ⟨hvalid, rest.flatMap escapeDebug, ?_⟩
    rw [hc, hrest, List.flatMap_append, flatMap_escapeDebug_mark hvalid hplain]

/-- What a printed text shows is what the text itself shows, up to digits that
are not printed as they are. -/
theorem marks_escapeDebug (text : List Char) :
    nodeMark.marks (text.flatMap escapeDebug) = shownIds text := by
  induction text with
  | nil => rfl
  | cons c text ih =>
      rw [List.flatMap_cons]
      by_cases hc : escapeDebug c = [c]
      · rw [hc]
        show (nodeMark.read? (c :: text.flatMap escapeDebug)).toList ++
          nodeMark.marks (text.flatMap escapeDebug) = _
        rw [read?_escapeDebug, ih]
        unfold shownIds
        rw [MarkForm.marks, List.filter_append, Option.toList_filter]
      · have hbracket : c ≠ '[' := by
          rintro rfl
          exact hc (escapeDebug_plain (by decide) (by decide) (by decide) (by decide))
        have hnone : nodeMark.read? (c :: text) = none := MarkForm.read?_cons_of_ne hbracket text
        rw [MarkForm.marks_append_of_not_mem (bracket_not_mem_escapeDebug hc), ih]
        unfold shownIds
        rw [MarkForm.marks_cons_of_none hnone]

/-- A printed text, with its quotes. -/
theorem shows_debugStr (text : String) :
    nodeMark.Shows (debugStr text) (shownIds text.toList) := by
  have hquote := nodeMark_separates (c := '"') (by decide) (by decide)
  have hclosed := MarkForm.Shows.upTo hquote (text.toList.flatMap escapeDebug)
  rw [marks_escapeDebug] at hclosed
  have hopen : nodeMark.Shows ['"'] [] := shows_nothing (by decide)
  exact hopen.quiet_append hclosed

/-! ## Transactions, blocks and entries -/

theorem shows_transaction (trx : Transaction) :
    nodeMark.Shows trx.debug (shownIds trx.text.toList) := by
  have hfields : nodeMark.Shows trx.debug [[], [], [], shownIds trx.text.toList].flatten :=
    shows_debugStruct (by simp)
      (.cons (shows_debugNat trx.id.toNat)
        (.cons (shows_debugNat trx.fromId.toNat)
          (.cons (shows_debugNat trx.toId.toNat)
            (.cons (shows_debugStr trx.text) .nil))))
  simpa using hfields

theorem shows_transactions (trxs : List Transaction) :
    nodeMark.Shows (debugList (trxs.map Transaction.debug))
      ((trxs.map Transaction.text).flatMap fun text => shownIds text.toList) := by
  rw [List.flatMap_map]
  exact shows_debugList shows_transaction (fun trx => ⟨'T', _, rfl, by decide⟩) trxs

omit [PrintTable] in
theorem shows_header (header : BlockHeader) :
    nodeMark.Shows header.debug [[], [], [], [], [], [], [], []].flatten :=
  shows_debugStruct (by simp)
    (.cons (shows_debugNat header.version.toNat)
      (.cons (shows_debugNat header.index.toNat)
        (.cons (shows_debugBytes header.previousHash)
          (.cons (shows_debugBytes header.merkleRoot)
            (.cons (shows_debugNat header.timestamp.toNat)
              (.cons (shows_debugNat header.round.toNat)
                (.cons (shows_debugNat header.proposerId.toNat)
                  (.cons (shows_debugBytes header.signature) .nil))))))))

/-- What the texts of some transactions show. -/
def textIds (texts : List String) : List (List Char) :=
  texts.flatMap fun text => shownIds text.toList

theorem shows_block (block : Block) :
    nodeMark.Shows block.debug (textIds (block.transactions.map Transaction.text)) := by
  have hfields : nodeMark.Shows block.debug
      [[], textIds (block.transactions.map Transaction.text)].flatten :=
    shows_debugStruct (by simp)
      (.cons (shows_header block.header)
        (.cons (shows_transactions block.transactions) .nil))
  simpa using hfields

theorem shows_chain (chain : BlockChain) :
    nodeMark.Shows chain.debug (textIds (chain.blocks.flatMap fun block =>
      block.transactions.map Transaction.text)) := by
  have hblocks := shows_debugList shows_block (fun block => ⟨'B', _, rfl, by decide⟩) chain.blocks
  have hfields : nodeMark.Shows chain.debug [[], chain.blocks.flatMap fun block =>
      textIds (block.transactions.map Transaction.text)].flatten :=
    shows_debugStruct (by simp)
      (.cons (shows_debugNat chain.chainId.toNat) (.cons hblocks .nil))
  simpa [textIds, List.flatMap_assoc] using hfields

theorem shows_mempoolLine (pool : MemPool) (seen : List Hash32Type) :
    nodeMark.Shows (mempoolLine pool seen) (textIds (pool.queue.map Transaction.text)) := by
  have hbytes : ∀ hash : Hash32Type, nodeMark.Shows (debugBytes hash) [] := shows_debugBytes
  have hseen := shows_debugSet hbytes seen
  have horder := shows_debugList hbytes (fun hash => ⟨'[', _, rfl, by decide⟩) pool.seenOrder
  have hnone : ∀ hashes : List Hash32Type,
      (hashes.flatMap fun _ => ([] : List (List Char))) = [] :=
    fun hashes => List.flatMap_eq_nil_iff.mpr fun _ _ => rfl
  rw [hnone] at hseen horder
  have hfields : nodeMark.Shows (pool.debug seen)
      [textIds (pool.queue.map Transaction.text), [], []].flatten :=
    shows_debugStruct (by simp)
      (.cons (shows_transactions pool.queue) (.cons hseen (.cons horder .nil)))
  have hpool : nodeMark.Shows (pool.debug seen) (textIds (pool.queue.map Transaction.text)) := by
    simpa using hfields
  have hname : nodeMark.Shows "mempool=".toList [] := shows_nothing (by decide)
  exact hname.quiet_append hpool

omit [PrintTable] in
theorem shows_display (b : Bool) : nodeMark.Shows (displayBool b) [] := by
  apply shows_nothing
  cases b <;> decide

/-- Behind the number of the node, its lines show nothing. -/
theorem shows_message (line : OwnLine) : nodeMark.Shows line.message [] := by
  have hword : ∀ (v : List Char) {w : List Char}, '[' ∉ v → nodeMark.Shows w [] →
      nodeMark.Shows (v ++ w) [] :=
    fun v _ hv hw => (shows_nothing hv).quiet_append hw
  cases line with
  | addPeerReplace peerId => exact hword _ (by decide) (shows_debugNat _)
  | addPeer peerId => exact hword _ (by decide) (shows_debugNat _)
  | removePeerDup peerId =>
      exact hword _ (by decide) ((shows_debugNat _).quiet_append (shows_nothing (by decide)))
  | removePeer peerId peersLeft =>
      exact hword _ (by decide) ((shows_debugNat _).quiet_append
        (hword _ (by decide) (shows_debugNat _)))
  | localTrx inserted hash =>
      have hdots : nodeMark.Shows (debugStr "...") [] := by
        have htext := shows_debugStr "..."
        rwa [shownIds, (shows_nothing (by decide)).marks_eq] at htext
      exact hword _ (by decide) ((shows_display inserted).quiet_append
        (hword _ (by decide) ((shows_debugBytes hash).quiet_append
          (hword _ (by decide) hdots))))
  | gossip kind peers =>
      have hkind : nodeMark.Shows kind.display [] := by
        apply shows_nothing
        cases kind <;> decide
      exact hword _ (by decide) (hkind.quiet_append
        (hword _ (by decide) ((shows_debugNat _).quiet_append (shows_nothing (by decide)))))

omit [PrintTable] in
theorem valid_debugNat (n : Nat) : nodeMark.Valid (debugNat n) :=
  ⟨debugNat_ne_nil n, fun _ hc => digit_debugNat hc⟩

/-- A line of the node shows its number. -/
theorem shows_own (netId : UInt32) (line : OwnLine) :
    nodeMark.Shows (line.text netId) [debugNat netId.toNat] := by
  have hspace : nodeMark.Shows [' '] [] := shows_nothing (by decide)
  have hmark := (MarkForm.Shows.mark (valid_debugNat netId.toNat)).append_quiet
    (hspace.quiet_append (shows_message line))
  have htext : line.text netId = '[' :: nodeMark.body (debugNat netId.toNat) ++
      ([' '] ++ line.message) := by
    unfold OwnLine.text
    generalize line.message = message
    simp [nodeMark]
  rw [htext]
  exact hmark

variable [Primitives]

/-- The digits that an entry shows: a line of the node its number, and a
snapshot what its texts show. -/
def LogEntry.ids (netId : UInt32) : LogEntry → List (List Char)
  | .own _ => [debugNat netId.toNat]
  | .snapshot chain pool seen => textIds (LogEntry.snapshot chain pool seen).texts

theorem shows_entry (netId : UInt32) (entry : LogEntry) :
    nodeMark.Shows ((entry.lines netId).flatMap (· ++ ['\n'])) (entry.ids netId) := by
  have hline : nodeMark.Shows ['\n'] [] := shows_nothing (by decide)
  cases entry with
  | own line =>
      have hown := (shows_own netId line).append_quiet hline
      show nodeMark.Shows ([line.text netId].flatMap (· ++ ['\n'])) [debugNat netId.toNat]
      rwa [List.flatMap_singleton]
  | snapshot chain pool seen =>
      have hname : nodeMark.Shows "is_valid=".toList [] := shows_nothing (by decide)
      have hvalid := hname.quiet_append (shows_display chain.isValid)
      have hlines := ((shows_chain chain).append_quiet hline).append
        ((hvalid.append_quiet hline).quiet_append
          ((shows_mempoolLine pool seen).append_quiet hline))
      have hids : LogEntry.ids netId (.snapshot chain pool seen) =
          textIds (chain.blocks.flatMap fun block => block.transactions.map Transaction.text) ++
            textIds (pool.queue.map Transaction.text) := by
        simp [LogEntry.ids, LogEntry.texts, textIds]
      rw [hids]
      simpa [LogEntry.lines] using hlines

theorem shows_logText (netId : UInt32) (entries : List LogEntry) :
    nodeMark.Shows (logText netId entries) (entries.flatMap (LogEntry.ids netId)) := by
  rw [logText, logLines, List.flatMap_assoc]
  exact MarkForm.Shows.flatMap (shows_entry netId) entries

/-- The marks of a log. -/
theorem marks_logText (netId : UInt32) (entries : List LogEntry) :
    nodeMark.marks (logText netId entries) = entries.flatMap (LogEntry.ids netId) :=
  (shows_logText netId entries).marks_eq

end Texts

end B4n.Webapp
