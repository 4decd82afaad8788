import B4n.Blockchain.MemPool
import B4n.Blockchain.Block
import B4n.Lib.Text
import B4n.Lib.Hex

/-!
# Printed values

The text that `{:?}` prints for the types of the chain and the pool, all of
which derive `Debug`.  A struct is its name and its fields in order, a list
stands in brackets, an array of bytes is a list of numbers, and a string stands
between double quotes with its special characters escaped.

Which characters are printed as they are is decided by tables of the standard
library, of which only the printable ASCII characters are fixed here.

## Main results

* `quoted_escapeDebug` — what is printed for a text stays between its quotes.
* `Transaction.nested_debug`, `Block.nested_debug` — delimiters nest.
* `BlockChain.plain_debug`, `MemPool.plain_debug` — only such characters are
  printed as a string would print as they are.
-/

namespace B4n.Blockchain

open B4n.Lib B4n.Lib.Text

/-- The characters that `{:?}` prints as they are inside a string, if they have
no escape of their own: those that are printable and do not extend a
grapheme. -/
class PrintTable where
  isPlain : Char → Bool
  isPlain_ascii : ∀ c : Char, 0x20 ≤ c.toNat → c.toNat ≤ 0x7e → isPlain c = true

/-! ## Formatters -/

/-- An unsigned integer. -/
def debugNat (n : Nat) : List Char := Nat.toDigits 10 n

/-- A slice, a vector or a queue. -/
def debugList (items : List (List Char)) : List Char :=
  '[' :: ([',', ' '].intercalate items ++ [']'])

/-- A set, in the order of its iteration. -/
def debugSet (items : List (List Char)) : List Char :=
  '{' :: ([',', ' '].intercalate items ++ ['}'])

/-- An array of bytes. -/
def debugBytes {n : Nat} (bytes : Bytes n) : List Char :=
  debugList (bytes.toList.map fun byte => debugNat byte.toNat)

/-- A field of a struct. -/
def debugField (field : String × List Char) : List Char :=
  field.1.toList ++ (": ".toList ++ field.2)

/-- A struct with at least one field. -/
def debugStruct (name : String) (fields : List (String × List Char)) : List Char :=
  name.toList ++ ' ' :: '{' :: ' ' ::
    ([',', ' '].intercalate (fields.map debugField) ++ [' ', '}'])

/-- A character of a string. -/
def escapeDebug [PrintTable] (c : Char) : List Char :=
  match c with
  | '\x00' => ['\\', '0']
  | '\t' => ['\\', 't']
  | '\r' => ['\\', 'r']
  | '\n' => ['\\', 'n']
  | '\\' => ['\\', '\\']
  | '"' => ['\\', '"']
  | c =>
      if PrintTable.isPlain c then [c]
      else '\\' :: 'u' :: '{' :: (Nat.toDigits 16 c.toNat ++ ['}'])

/-- A string. -/
def debugStr [PrintTable] (text : String) : List Char :=
  '"' :: (text.toList.flatMap escapeDebug ++ ['"'])

/-! ## The types of the chain -/

section Types

variable [PrintTable]

/-- `Transaction` -/
def Transaction.debug (trx : Transaction) : List Char :=
  debugStruct "Transaction"
    [("id", debugNat trx.id.toNat),
      ("from", debugNat trx.fromId.toNat),
      ("to", debugNat trx.toId.toNat),
      ("text", debugStr trx.text)]

/-- `BlockHeader` -/
def BlockHeader.debug (header : BlockHeader) : List Char :=
  debugStruct "BlockHeader"
    [("version", debugNat header.version.toNat),
      ("index", debugNat header.index.toNat),
      ("previous_hash", debugBytes header.previousHash),
      ("merkle_root", debugBytes header.merkleRoot),
      ("timestamp", debugNat header.timestamp.toNat),
      ("round", debugNat header.round.toNat),
      ("proposer_id", debugNat header.proposerId.toNat),
      ("signature", debugBytes header.signature)]

/-- `Block` -/
def Block.debug (block : Block) : List Char :=
  debugStruct "Block"
    [("header", block.header.debug),
      ("transactions", debugList (block.transactions.map Transaction.debug))]

/-- `BlockChain` -/
def BlockChain.debug (chain : BlockChain) : List Char :=
  debugStruct "BlockChain"
    [("chain_id", debugNat chain.chainId.toNat),
      ("blocks", debugList (chain.blocks.map Block.debug))]

/-- `MemPool`, whose hash set is iterated in the order `seen`. -/
def MemPool.debug (pool : MemPool) (seen : List Hash32Type) : List Char :=
  debugStruct "MemPool"
    [("queue", debugList (pool.queue.map Transaction.debug)),
      ("seen", debugSet (seen.map debugBytes)),
      ("seen_order", debugList (pool.seenOrder.map debugBytes))]

end Types

/-! ## Nesting -/

/-- Neither a delimiter nor a comma. -/
def plainText (w : List Char) : Bool :=
  w.all fun c => !delimiters.contains c && c != ','

theorem nested_of_plainText {commas : Bool} {w : List Char} (h : plainText w = true) :
    Nested commas w := by
  apply Nested.of_plain
  simpa [plainText] using h

theorem isDigit_of_mem_debugNat {n : Nat} {c : Char} (h : c ∈ debugNat n) :
    c.isDigit = true :=
  Nat.isDigit_of_mem_toDigits (by decide) (by decide) h

theorem nested_debugNat {commas : Bool} (n : Nat) : Nested commas (debugNat n) := by
  apply Nested.of_plain
  intro c hc
  have hdigit := isDigit_of_mem_debugNat hc
  constructor
  · intro hmem
    simp only [delimiters, List.mem_cons, List.not_mem_nil, or_false] at hmem
    rcases hmem with rfl | rfl | rfl | rfl | rfl <;> simp at hdigit
  · rintro rfl
    simp at hdigit

theorem nested_debugList {commas : Bool} {items : List (List Char)}
    (h : ∀ w ∈ items, Nested true w) : Nested commas (debugList items) :=
  .brackets (Nested.intercalate h) .nil

theorem nested_debugBytes {commas : Bool} {n : Nat} (bytes : Bytes n) :
    Nested commas (debugBytes bytes) := by
  apply nested_debugList
  intro w hw
  obtain ⟨byte, -, rfl⟩ := List.mem_map.mp hw
  exact nested_debugNat byte.toNat

theorem nested_debugStruct {commas : Bool} {name : String}
    {fields : List (String × List Char)} (hname : plainText name.toList = true)
    (hfields : ∀ field ∈ fields,
      plainText field.1.toList = true ∧ Nested true field.2) :
    Nested commas (debugStruct name fields) := by
  have hspace : Nested true [' '] := nested_of_plainText rfl
  have hinner : Nested true ([',', ' '].intercalate (fields.map debugField)) := by
    apply Nested.intercalate
    intro w hw
    obtain ⟨field, hfield, rfl⟩ := List.mem_map.mp hw
    have h := hfields field hfield
    exact (nested_of_plainText h.1).append ((nested_of_plainText rfl).append h.2)
  have hbody := Nested.braces (hspace.append (hinner.append hspace)) (Nested.nil : Nested commas [])
  have hopen : Nested commas [' '] := nested_of_plainText rfl
  simpa [debugStruct] using (nested_of_plainText hname).append (hopen.append hbody)

/-- A digit of base sixteen is nothing special, neither in a printed text nor in
a literal. -/
theorem isHex_plain {c : Char} (hc : isHex c = true) :
    c ≠ '"' ∧ c ≠ '\n' ∧ c ≠ '\\' ∧ c ≠ '\x00' ∧ c ≠ '\r' := by
  refine ⟨?_, ?_, ?_, ?_, ?_⟩ <;> rintro rfl <;> simp [isHex] at hc

theorem quoted_hex_append {digits w : List Char} (hdigits : ∀ c ∈ digits, isHex c = true) :
    Quoted (digits ++ w) ↔ Quoted w := by
  apply quoted_append_iff
  intro c hc
  obtain ⟨hquote, -, hslash, -⟩ := isHex_plain (hdigits c hc)
  exact ⟨hquote, hslash⟩

section Types

variable [PrintTable]

/-- A character that is printed as itself. -/
theorem escapeDebug_plain {c : Char} (hlow : 0x20 ≤ c.toNat) (hhigh : c.toNat ≤ 0x7e)
    (hquote : c ≠ '"') (hslash : c ≠ '\\') : escapeDebug c = [c] := by
  unfold escapeDebug
  split
  · simp at hlow
  · simp at hlow
  · simp at hlow
  · simp at hlow
  · exact absurd rfl hslash
  · exact absurd rfl hquote
  · rw [if_pos (PrintTable.isPlain_ascii c hlow hhigh)]

theorem escapeDebug_of_isHex {c : Char} (hc : isHex c = true) : escapeDebug c = [c] := by
  obtain ⟨hlow, hhigh⟩ := isHex_bounds hc
  obtain ⟨hquote, -, hslash, -⟩ := isHex_plain hc
  exact escapeDebug_plain (by omega) (by omega) hquote hslash

theorem flatMap_escapeDebug_eq_self {w : List Char} (hw : ∀ c ∈ w, escapeDebug c = [c]) :
    w.flatMap escapeDebug = w := by
  induction w with
  | nil => rfl
  | cons c w ih =>
      rw [List.flatMap_cons, hw c List.mem_cons_self,
        ih fun d hd => hw d (List.mem_cons_of_mem c hd)]
      rfl

theorem flatMap_escapeDebug_of_hex {w : List Char} (hw : ∀ c ∈ w, isHex c = true) :
    w.flatMap escapeDebug = w :=
  flatMap_escapeDebug_eq_self fun c hc => escapeDebug_of_isHex (hw c hc)

/-- Every character is printed as something that may stand between quotes. -/
theorem quoted_escapeDebug (c : Char) {w : List Char} (hw : Quoted w) :
    Quoted (escapeDebug c ++ w) := by
  unfold escapeDebug
  split
  · exact .escape (by decide) hw
  · exact .escape (by decide) hw
  · exact .escape (by decide) hw
  · exact .escape (by decide) hw
  · exact .escape (by decide) hw
  · exact .escape (by decide) hw
  · next hslash hquote =>
    split
    · exact .char hquote hslash hw
    · simp only [List.cons_append, List.append_assoc, List.nil_append]
      exact .escape (by decide) (.char (by decide) (by decide)
        ((quoted_hex_append fun c => isHex_of_mem_toDigits).mpr
          (.char (by decide) (by decide) hw)))

theorem quoted_flatMap_escapeDebug (text : List Char) : Quoted (text.flatMap escapeDebug) := by
  induction text with
  | nil => exact .nil
  | cons c text ih => exact quoted_escapeDebug c ih

theorem nested_debugStr {commas : Bool} (text : String) : Nested commas (debugStr text) :=
  .quotes (quoted_flatMap_escapeDebug text.toList) .nil

theorem Transaction.nested_debug {commas : Bool} (trx : Transaction) :
    Nested commas trx.debug := by
  apply nested_debugStruct (by decide)
  simp only [List.forall_mem_cons]
  exact ⟨⟨by decide, nested_debugNat _⟩, ⟨by decide, nested_debugNat _⟩,
    ⟨by decide, nested_debugNat _⟩, ⟨by decide, nested_debugStr _⟩, by simp⟩

omit [PrintTable] in
theorem BlockHeader.nested_debug {commas : Bool} (header : BlockHeader) :
    Nested commas header.debug := by
  apply nested_debugStruct (by decide)
  simp only [List.forall_mem_cons]
  exact ⟨⟨by decide, nested_debugNat _⟩, ⟨by decide, nested_debugNat _⟩,
    ⟨by decide, nested_debugBytes _⟩, ⟨by decide, nested_debugBytes _⟩,
    ⟨by decide, nested_debugNat _⟩, ⟨by decide, nested_debugNat _⟩,
    ⟨by decide, nested_debugNat _⟩, ⟨by decide, nested_debugBytes _⟩, by simp⟩

theorem Block.nested_debug {commas : Bool} (block : Block) : Nested commas block.debug := by
  apply nested_debugStruct (by decide)
  have htransactions : Nested true (debugList (block.transactions.map Transaction.debug)) := by
    apply nested_debugList
    intro w hw
    obtain ⟨trx, -, rfl⟩ := List.mem_map.mp hw
    exact trx.nested_debug
  simp only [List.forall_mem_cons]
  exact ⟨⟨by decide, block.header.nested_debug⟩, ⟨by decide, htransactions⟩, by simp⟩

end Types

/-! ## Characters

Whatever is not printed as it is, is printed in ASCII. -/

section Characters

variable [PrintTable]

/-- Every character is one that `{:?}` prints as it is. -/
def Plain (w : List Char) : Prop := ∀ c ∈ w, PrintTable.isPlain c = true

/-- Space and the visible characters of ASCII. -/
def printableAscii (w : List Char) : Bool :=
  w.all fun c => 0x20 ≤ c.toNat && c.toNat ≤ 0x7e

theorem plain_of_ascii {w : List Char} (h : printableAscii w = true) : Plain w := by
  intro c hc
  have hbounds := List.all_eq_true.mp h c hc
  simp only [Bool.and_eq_true, decide_eq_true_eq] at hbounds
  exact PrintTable.isPlain_ascii c hbounds.1 hbounds.2

theorem Plain.append {v w : List Char} (hv : Plain v) (hw : Plain w) : Plain (v ++ w) :=
  fun c hc => (List.mem_append.mp hc).elim (hv c) (hw c)

theorem Plain.ascii_append {v w : List Char} (hv : printableAscii v = true) (hw : Plain w) :
    Plain (v ++ w) := (plain_of_ascii hv).append hw

theorem Plain.intercalate {sep : List Char} (hsep : Plain sep) {items : List (List Char)}
    (hitems : ∀ w ∈ items, Plain w) : Plain (sep.intercalate items) :=
  intercalate_of_append (plain_of_ascii rfl) Plain.append hsep hitems

theorem plain_of_isHex {w : List Char} (hw : ∀ c ∈ w, isHex c = true) : Plain w := by
  intro c hc
  obtain ⟨hlow, hhigh⟩ := isHex_bounds (hw c hc)
  exact PrintTable.isPlain_ascii c (by omega) (by omega)

theorem plain_debugNat (n : Nat) : Plain (debugNat n) := by
  apply plain_of_isHex
  intro c hc
  simp only [isHex, Bool.or_eq_true]
  exact .inl (.inl (by simpa [Char.isDigit, Char.le_def] using isDigit_of_mem_debugNat hc))

theorem plain_debugList {items : List (List Char)} (hitems : ∀ w ∈ items, Plain w) :
    Plain (debugList items) :=
  .ascii_append (v := ['[']) rfl
    ((Plain.intercalate (plain_of_ascii rfl) hitems).append (plain_of_ascii rfl))

theorem plain_debugSet {items : List (List Char)} (hitems : ∀ w ∈ items, Plain w) :
    Plain (debugSet items) :=
  .ascii_append (v := ['{']) rfl
    ((Plain.intercalate (plain_of_ascii rfl) hitems).append (plain_of_ascii rfl))

theorem plain_debugBytes {n : Nat} (bytes : Bytes n) : Plain (debugBytes bytes) := by
  apply plain_debugList
  intro w hw
  obtain ⟨byte, -, rfl⟩ := List.mem_map.mp hw
  exact plain_debugNat byte.toNat

theorem plain_debugStruct {name : String} {fields : List (String × List Char)}
    (hname : printableAscii name.toList = true)
    (hfields : ∀ field ∈ fields, printableAscii field.1.toList = true ∧ Plain field.2) :
    Plain (debugStruct name fields) := by
  have hinner : Plain ([',', ' '].intercalate (fields.map debugField)) := by
    apply Plain.intercalate (plain_of_ascii rfl)
    intro w hw
    obtain ⟨field, hfield, rfl⟩ := List.mem_map.mp hw
    have h := hfields field hfield
    exact .ascii_append h.1 (.ascii_append rfl h.2)
  exact .ascii_append hname (.ascii_append (v := [' ', '{', ' ']) rfl
    (hinner.append (plain_of_ascii rfl)))

theorem plain_escapeDebug (c : Char) : Plain (escapeDebug c) := by
  unfold escapeDebug
  split
  · exact plain_of_ascii rfl
  · exact plain_of_ascii rfl
  · exact plain_of_ascii rfl
  · exact plain_of_ascii rfl
  · exact plain_of_ascii rfl
  · exact plain_of_ascii rfl
  · split
    · next hplain => simpa [Plain] using hplain
    · exact .ascii_append (v := ['\\', 'u', '{']) rfl
        ((plain_of_isHex fun c => isHex_of_mem_toDigits).append (plain_of_ascii rfl))

theorem plain_flatMap_escapeDebug (text : List Char) : Plain (text.flatMap escapeDebug) := by
  intro c hc
  obtain ⟨d, -, hd⟩ := List.mem_flatMap.mp hc
  exact plain_escapeDebug d c hd

theorem plain_debugStr (text : String) : Plain (debugStr text) :=
  .ascii_append (v := ['"']) rfl
    ((plain_flatMap_escapeDebug text.toList).append (plain_of_ascii rfl))

theorem Transaction.plain_debug (trx : Transaction) : Plain trx.debug := by
  apply plain_debugStruct rfl
  simp only [List.forall_mem_cons]
  exact ⟨⟨rfl, plain_debugNat _⟩, ⟨rfl, plain_debugNat _⟩, ⟨rfl, plain_debugNat _⟩,
    ⟨rfl, plain_debugStr _⟩, by simp⟩

theorem plain_transactions (trxs : List Transaction) :
    Plain (debugList (trxs.map Transaction.debug)) := by
  apply plain_debugList
  intro w hw
  obtain ⟨trx, -, rfl⟩ := List.mem_map.mp hw
  exact trx.plain_debug

theorem BlockHeader.plain_debug (header : BlockHeader) : Plain header.debug := by
  apply plain_debugStruct rfl
  simp only [List.forall_mem_cons]
  exact ⟨⟨rfl, plain_debugNat _⟩, ⟨rfl, plain_debugNat _⟩, ⟨rfl, plain_debugBytes _⟩,
    ⟨rfl, plain_debugBytes _⟩, ⟨rfl, plain_debugNat _⟩, ⟨rfl, plain_debugNat _⟩,
    ⟨rfl, plain_debugNat _⟩, ⟨rfl, plain_debugBytes _⟩, by simp⟩

theorem Block.plain_debug (block : Block) : Plain block.debug := by
  apply plain_debugStruct rfl
  simp only [List.forall_mem_cons]
  exact ⟨⟨rfl, block.header.plain_debug⟩, ⟨rfl, plain_transactions _⟩, by simp⟩

theorem BlockChain.plain_debug (chain : BlockChain) : Plain chain.debug := by
  have hblocks : Plain (debugList (chain.blocks.map Block.debug)) := by
    apply plain_debugList
    intro w hw
    obtain ⟨block, -, rfl⟩ := List.mem_map.mp hw
    exact block.plain_debug
  apply plain_debugStruct rfl
  simp only [List.forall_mem_cons]
  exact ⟨⟨rfl, plain_debugNat _⟩, ⟨rfl, hblocks⟩, by simp⟩

theorem MemPool.plain_debug (pool : MemPool) (seen : List Hash32Type) :
    Plain (pool.debug seen) := by
  have hhashes : ∀ hashes : List Hash32Type, ∀ w ∈ hashes.map debugBytes, Plain w := by
    intro hashes w hw
    obtain ⟨hash, -, rfl⟩ := List.mem_map.mp hw
    exact plain_debugBytes hash
  apply plain_debugStruct rfl
  simp only [List.forall_mem_cons]
  exact ⟨⟨rfl, plain_transactions _⟩, ⟨rfl, plain_debugSet (hhashes _)⟩,
    ⟨rfl, plain_debugList (hhashes _)⟩, by simp⟩

end Characters

/-! ## Markers

A marker is looked for behind printed values; these are the ones that it cannot
start in. -/

section Markers

variable {a : Char} {word : List Char}

theorem avoids_debugNat (ha : a.isDigit = false) (n : Nat) :
    avoids (a :: word) (debugNat n) = true := by
  apply avoids_of_not_mem
  intro hmem
  simp [isDigit_of_mem_debugNat hmem] at ha

theorem avoids_intercalate {sep : List Char} {items : List (List Char)}
    (hsep : avoids word sep = true) (hitems : ∀ w ∈ items, avoids word w = true) :
    avoids word (sep.intercalate items) = true :=
  intercalate_of_append (P := fun w => avoids word w = true) rfl avoids_append hsep hitems

theorem avoids_debugBytes {n : Nat} (ha : a.isDigit = false)
    (hpunctuation : a ∉ ['[', ',', ' ', ']']) (bytes : Bytes n) :
    avoids (a :: word) (debugBytes bytes) = true := by
  simp only [List.mem_cons, List.not_mem_nil, or_false, not_or] at hpunctuation
  obtain ⟨hopen, hcomma, hspace, hclose⟩ := hpunctuation
  have hinner : avoids (a :: word)
      ([',', ' '].intercalate (bytes.toList.map fun byte => debugNat byte.toNat)) = true := by
    apply avoids_intercalate
    · exact avoids_of_not_mem (by simp [hcomma, hspace])
    · intro w hw
      obtain ⟨byte, -, rfl⟩ := List.mem_map.mp hw
      exact avoids_debugNat ha byte.toNat
  exact avoids_append (v := ['[']) (avoids_of_not_mem (by simp [hopen]))
    (avoids_append hinner (avoids_of_not_mem (by simp [hclose])))

theorem avoids_debugStruct {name : String} {fields : List (String × List Char)}
    (hname : avoids word (name.toList ++ [' ', '{', ' ']) = true)
    (hsep : avoids word [',', ' '] = true) (hclose : avoids word [' ', '}'] = true)
    (hfields : ∀ field ∈ fields,
      avoids word (field.1.toList ++ ": ".toList) = true ∧ avoids word field.2 = true) :
    avoids word (debugStruct name fields) = true := by
  have hinner : avoids word ([',', ' '].intercalate (fields.map debugField)) = true := by
    apply avoids_intercalate hsep
    intro w hw
    obtain ⟨field, hfield, rfl⟩ := List.mem_map.mp hw
    have h := hfields field hfield
    simpa [debugField] using avoids_append h.1 h.2
  simpa [debugStruct] using avoids_append hname (avoids_append hinner hclose)

end Markers

end B4n.Blockchain
