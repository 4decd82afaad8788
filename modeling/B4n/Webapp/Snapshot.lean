import B4n.Webapp.Scanners
import B4n.Blockchain.Debug

/-!
# Reading a snapshot back

The node prints its chain and its pool with `{:?}`, and the log parser reads
the transactions back.  Texts stay inside their quotes, so the scanners and the
regular expressions see the same items whatever the texts contain; what a text
becomes is left to `decode`, which gets the printed token as it is.

## Main results

* `matchAt_transaction` — the regular expression on a printed transaction.
* `parseBlock_debug` — a printed block.
* `debugPrint_read_back` — a printed chain and a printed pool.
-/

namespace B4n.Webapp

open B4n.Blockchain B4n.Lib B4n.Lib.Text

/-! ## A transaction -/

section Transactions

variable [CharacterTable]

theorem digit_debugNat {n : Nat} {c : Char} (h : c ∈ debugNat n) :
    (CharacterTable.decimal c).isSome = true := by
  simp [decimal_of_isDigit (isDigit_of_mem_debugNat h)]

omit [CharacterTable] in
theorem debugNat_ne_nil (n : Nat) : debugNat n ≠ [] :=
  List.ne_nil_of_length_pos Nat.length_toDigits_pos

/-- `\d+` takes a printed integer, up to an ASCII character that is no digit. -/
theorem reaches_digits {ν : Type} (n : Nat) {w : List Char}
    (hw : w.head?.any (fun c => c.toNat < 128 && !c.isDigit) = true)
    (before rest : List Char) (groups : List (ν × List Char)) :
    Regex.Reaches (.plus digit) ⟨before, debugNat n ++ (w ++ rest), groups⟩
      ⟨(debugNat n).reverse ++ before, w ++ rest, groups⟩ := by
  refine Regex.Reaches.plus_cls (debugNat_ne_nil n) (fun d hd => digit_debugNat hd) ?_ _ _
  intro d hd
  cases w with
  | nil => simp at hw
  | cons c w =>
      cases hd
      simp only [List.head?_cons, Option.any_some, Bool.and_eq_true, decide_eq_true_eq,
        Bool.not_eq_true'] at hw
      simp [CharacterTable.decimal_ascii d hw.1, hw.2]

omit [CharacterTable] in
/-- What stands between quotes is read item by item. -/
theorem reaches_tokenItems {ν : Type} {v : List Char} (hv : Quoted v)
    (before rest : List Char) (groups : List (ν × List Char)) :
    Regex.Reaches (.star tokenItem) ⟨before, v ++ '"' :: rest, groups⟩
      ⟨v.reverse ++ before, '"' :: rest, groups⟩ := by
  induction hv generalizing before with
  | nil =>
      refine Regex.Reaches.stop ?_
      intro c' h
      cases h with
      | altLeft h =>
          cases h with
          | seq h _ => cases h with | cls h => simp at h
      | altRight h => cases h with | cls h => simp at h
  | @char c w hquote hslash _ ih =>
      have hitem : ∀ c', ¬ Regex.Matches (.seq (.cls (· == '\\')) (.cls (· != '\n')))
          ⟨before, c :: (w ++ '"' :: rest), groups⟩ c' := by
        intro c' h
        cases h with
        | seq h _ => cases h with | cls h => simp [hslash] at h
      have hmore := ih (c :: before)
      simp only [List.reverse_cons, List.append_assoc, List.singleton_append]
      exact Regex.Reaches.more
        (.altRight hitem (.cls (by simp [hquote, hslash]) _ _ _)) (by simp) hmore
  | @escape c w hline _ ih =>
      have hmore := ih (c :: '\\' :: before)
      simp only [List.reverse_cons, List.append_assoc, List.singleton_append]
      exact Regex.Reaches.more
        (.altLeft (.seq (.cls rfl _ _ _) (.cls (by simp [hline]) _ _ _)))
        (show (w ++ '"' :: rest).length < (w ++ '"' :: rest).length + 1 + 1 by omega) hmore

omit [CharacterTable] in
/-- The token of the regular expression is everything up to the closing
quote. -/
theorem reaches_quotedToken {ν : Type} {v : List Char} (hv : Quoted v)
    (before rest : List Char) (groups : List (ν × List Char)) :
    Regex.Reaches quotedToken ⟨before, '"' :: (v ++ ['"']) ++ rest, groups⟩
      ⟨('"' :: (v ++ ['"'])).reverse ++ before, rest, groups⟩ := by
  have hitems := reaches_tokenItems hv ('"' :: before) rest groups
  have hclose := Regex.Reaches.seq hitems (.cls (p := (· == '"')) rfl _ _ _)
  simpa [quotedToken] using Regex.Reaches.seq (.cls (p := (· == '"')) rfl before _ _) hclose

omit [CharacterTable] in
/-- A printed transaction, piece by piece as the regular expression reads it. -/
theorem transaction_debug_eq [PrintTable] (trx : Transaction) :
    trx.debug =
      "Transaction \x7b id: ".toList ++ (debugNat trx.id.toNat ++
      (", from: ".toList ++ (debugNat trx.fromId.toNat ++
      (", to: ".toList ++ (debugNat trx.toId.toNat ++
      (", text: ".toList ++ (debugStr trx.text ++
      (" \x7d".toList ++ [])))))))) := by
  simp [Transaction.debug, debugStruct, debugField]

/-- The regular expression on a printed transaction: what each group catches. -/
theorem matchAt_transaction [PrintTable] (trx : Transaction) :
    ∃ before, TRANSACTION_RE.matchAt [] trx.debug = some ⟨before, [],
      [("text", debugStr trx.text), ("to", debugNat trx.toId.toNat),
        ("from", debugNat trx.fromId.toNat), ("id", debugNat trx.id.toNat)]⟩ := by
  have htoken := quoted_flatMap_escapeDebug trx.text.toList
  rw [transaction_debug_eq]
  exact ⟨_, Regex.Reaches.matchAt_eq
    (.seq (.look rfl) (.seq (.lit _ _ _ _)
      (.seq (.group "id" (reaches_digits _ rfl _ _ _)) (.seq (.lit _ _ _ _)
        (.seq (.group "from" (reaches_digits _ rfl _ _ _)) (.seq (.lit _ _ _ _)
          (.seq (.group "to" (reaches_digits _ rfl _ _ _)) (.seq (.lit _ _ _ _)
            (.seq (.group "text" (reaches_quotedToken htoken _ _ _))
              (.seq (.lit _ _ _ _) (.look rfl)))))))))))⟩

/-- What the log parser sees of a transaction: its numbers, the token of its
text and the index of its block. -/
def printed [PrintTable] (blockIndex : Option Nat) (trx : Transaction) :
    ParsedTransaction (List Char) where
  txId := trx.id.toNat
  fromId := trx.fromId.toNat
  toId := trx.toId.toNat
  text := debugStr trx.text
  blockIndex := blockIndex

/-- Decode the token of a text. -/
def decodeText {τ : Type} (decode : List Char → Except ParseError τ)
    (trx : ParsedTransaction (List Char)) : Except ParseError (ParsedTransaction τ) := do
  let text ← decode trx.text
  .ok
    { txId := trx.txId
      fromId := trx.fromId
      toId := trx.toId
      text := text
      blockIndex := trx.blockIndex }

theorem int_toNat (n : UInt64) : int (debugNat n.toNat) = some n.toNat := by
  apply int_toDigits
  calc
    n.toNat < 2 ^ 64 := n.toNat_lt
    _ ≤ 10 ^ 20 := by decide
    _ ≤ 10 ^ INT_MAX_STR_DIGITS := Nat.pow_le_pow_right (by decide) (by decide)

omit [CharacterTable] in
/-- A printed struct has no white space around it. -/
theorem strip_debugStruct {name : String} {c : Char} {w : List Char}
    (hname : name.toList = c :: w) (hc : isSpace c = false)
    (fields : List (String × List Char)) :
    strip (debugStruct name fields) = debugStruct name fields := by
  have hends : debugStruct name fields = c :: ((w ++ ' ' :: '{' :: ' ' ::
      ([',', ' '].intercalate (fields.map debugField) ++ [' '])) ++ ['}']) := by
    simp [debugStruct, hname]
  rw [hends]
  exact strip_eq_self hc (by decide)

/-- A printed transaction is read back, up to the decoding of its text. -/
theorem parseTransaction_debug [PrintTable] {τ : Type}
    (decode : List Char → Except ParseError τ) (trx : Transaction)
    (blockIndex : Option Nat) :
    parseTransaction decode trx.debug blockIndex = decodeText decode (printed blockIndex trx) := by
  have hstrip : strip trx.debug = trx.debug := strip_debugStruct rfl (by decide) _
  obtain ⟨before, hmatch⟩ := matchAt_transaction trx
  have hcaught : ∀ (found : Cursor Char String) (name : String) (n : UInt64),
      found.group? name = some (debugNat n.toNat) → intGroup found name = .ok n.toNat := by
    intro found name n h
    simp [intGroup, h, int_toNat]
  simp only [parseTransaction, hstrip, hmatch]
  rw [hcaught _ "id" trx.id rfl, hcaught _ "from" trx.fromId rfl, hcaught _ "to" trx.toId rfl]
  rfl

end Transactions

/-! ## A block -/

section Blocks

variable [PrintTable]

/-- A printed block up to its index. -/
def blockHead (block : Block) : List Char :=
  "Block \x7b header: BlockHeader \x7b version: ".toList ++
    (debugNat block.header.version.toNat ++ ", ".toList)

omit [PrintTable] in
theorem blockHead_eq (block : Block) :
    blockHead block = "Block \x7b header: BlockHeader \x7b version: ".toList ++
      (debugNat block.header.version.toNat ++ ", ".toList) := rfl

theorem block_debug_index (block : Block) :
    ∃ more, block.debug =
      blockHead block ++ ("index: ".toList ++ (debugNat block.header.index.toNat ++
        (", ".toList ++ more))) := by
  simp [Block.debug, BlockHeader.debug, debugStruct, debugField, blockHead_eq]

omit [PrintTable] in
theorem avoids_blockHead (block : Block) :
    avoids "index: ".toList (blockHead block) = true :=
  avoids_append rfl (avoids_append (avoids_debugNat rfl _) rfl)

variable [CharacterTable]

/-- The block index is the first one in a printed block. -/
theorem search_blockIndex (block : Block) :
    ∃ found, BLOCK_INDEX_RE.search [] block.debug = some found ∧
      found.group? 1 = some (debugNat block.header.index.toNat) := by
  obtain ⟨more, hdebug⟩ := block_debug_index block
  have hskip : ∀ w, w <:+ blockHead block → w ≠ [] → ∀ before,
      BLOCK_INDEX_RE.matchAt before (w ++ ("index: ".toList ++
        (debugNat block.header.index.toNat ++ (", ".toList ++ more)))) = none := by
    intro w hw hne before
    apply Regex.run_eq_none
    intro c h
    cases h with
    | seq hlook h =>
        cases hlook
        cases h with
        | seq hlit _ =>
            exact not_prefix_of_avoids (avoids_blockHead block) hw hne _ ⟨_, hlit.lit.symm⟩
  have hboundary : Regex.Reaches (ν := Nat) wordBoundary
      ⟨(blockHead block).reverse, "index: ".toList ++
        (debugNat block.header.index.toNat ++ (", ".toList ++ more)), []⟩
      ⟨(blockHead block).reverse, "index: ".toList ++
        (debugNat block.header.index.toNat ++ (", ".toList ++ more)), []⟩ := by
    apply Regex.Reaches.look
    simp [blockHead_eq, CharacterTable.isWord_ascii]
  have hmatch := Regex.Reaches.matchAt_eq (.seq hboundary (.seq (.lit _ _ _ _)
    (.group 1 (reaches_digits block.header.index.toNat rfl _ more _))))
  have hsearch := Regex.search_append [] hskip
  rw [← hdebug, List.append_nil] at hsearch
  exact ⟨_, hsearch.trans (Regex.search_of_matchAt hmatch), rfl⟩

omit [PrintTable] [CharacterTable] in
/-- Nothing in a printed header looks like the transactions. -/
theorem avoids_header (header : BlockHeader) :
    avoids "transactions: ".toList header.debug = true := by
  apply avoids_debugStruct rfl rfl rfl
  simp only [List.forall_mem_cons]
  exact ⟨⟨rfl, avoids_debugNat rfl _⟩, ⟨rfl, avoids_debugNat rfl _⟩,
    ⟨rfl, avoids_debugBytes rfl (by decide) _⟩, ⟨rfl, avoids_debugBytes rfl (by decide) _⟩,
    ⟨rfl, avoids_debugNat rfl _⟩, ⟨rfl, avoids_debugNat rfl _⟩,
    ⟨rfl, avoids_debugNat rfl _⟩, ⟨rfl, avoids_debugBytes rfl (by decide) _⟩, by simp⟩

omit [CharacterTable] in
theorem isItem_transaction (trx : Transaction) : IsItem trx.debug where
  nested := trx.nested_debug
  strip_eq := strip_debugStruct rfl (by decide) _
  nonempty := by simp [Transaction.debug, debugStruct]

omit [CharacterTable] in
theorem isItem_of_mem_transactions {trxs : List Transaction} {w : List Char}
    (hw : w ∈ trxs.map Transaction.debug) : IsItem w := by
  obtain ⟨trx, -, rfl⟩ := List.mem_map.mp hw
  exact isItem_transaction trx

omit [CharacterTable] in
theorem isItem_block (block : Block) : IsItem block.debug where
  nested := block.nested_debug
  strip_eq := strip_debugStruct rfl (by decide) _
  nonempty := by simp [Block.debug, debugStruct]

omit [PrintTable] [CharacterTable] in
/-- A printed list behind its marker is cut into its items. -/
theorem extractList_debugList {marker : String} {skip : List Char}
    {items : List (List Char)} (hskip : avoids marker.toList skip = true)
    (hitems : ∀ w ∈ items, IsItem w) (rest : List Char) :
    extractList (skip ++ (marker.toList ++ (debugList items ++ rest))) marker =
      .ok ([',', ' '].intercalate items) ∧
    splitTopLevelItems ([',', ' '].intercalate items) = items := by
  have hinner : Nested true ([',', ' '].intercalate items) :=
    Nested.intercalate fun w hw => (hitems w hw).nested.weaken
  refine ⟨?_, splitTopLevelItems_intercalate hitems⟩
  simpa [debugList] using extractList_eq hskip hinner rest

variable {τ : Type} (decode : List Char → Except ParseError τ)

theorem parseTransactions_debug (blockIndex : Option Nat) (trxs : List Transaction) :
    ((trxs.map Transaction.debug).mapM fun item => parseTransaction decode item blockIndex) =
      (trxs.map (printed blockIndex)).mapM (decodeText decode) := by
  have htrx : (fun item => parseTransaction decode item blockIndex) ∘ Transaction.debug =
      decodeText decode ∘ printed blockIndex := by
    funext trx
    exact parseTransaction_debug decode trx blockIndex
  rw [List.mapM_map, List.mapM_map, htrx]

/-- The transactions of a printed block are read back in order. -/
theorem parseBlock_debug (block : Block) :
    parseBlock decode block.debug =
      (block.transactions.map (printed (some block.header.index.toNat))).mapM
        (decodeText decode) := by
  have hskip : avoids "transactions: ".toList
      ("Block \x7b header: ".toList ++ (block.header.debug ++ ", ".toList)) = true :=
    avoids_append rfl (avoids_append (avoids_header _) rfl)
  have hitems : ∀ w ∈ block.transactions.map Transaction.debug, IsItem w :=
    fun w => isItem_of_mem_transactions
  have hdebug : block.debug =
      ("Block \x7b header: ".toList ++ (block.header.debug ++ ", ".toList)) ++
        ("transactions: ".toList ++
          (debugList (block.transactions.map Transaction.debug) ++ " \x7d".toList)) := by
    simp [Block.debug, debugStruct, debugField]
  obtain ⟨hextract, hsplit⟩ := extractList_debugList hskip hitems " \x7d".toList
  rw [← hdebug] at hextract
  obtain ⟨found, hsearch, hindex⟩ := search_blockIndex block
  have hgroup : intGroup found 1 = .ok block.header.index.toNat := by
    simp [intGroup, hindex, int_toNat]
  simp only [parseBlock, hsearch, hgroup, hextract]
  show (splitTopLevelItems _).mapM _ = _
  rw [hsplit]
  exact parseTransactions_debug decode _ _

end Blocks

/-! ## The whole snapshot -/

section Snapshots

variable [PrintTable]

/-- The line that `NodeMessage::DebugPrint` prints for the pool. -/
def mempoolLine (pool : MemPool) (seen : List Hash32Type) : List Char :=
  "mempool=".toList ++ pool.debug seen

/-- The transactions of a chain, block by block. -/
def printedChain (chain : BlockChain) : List (ParsedTransaction (List Char)) :=
  chain.blocks.flatMap fun block =>
    block.transactions.map (printed (some block.header.index.toNat))

/-- The transactions of a pool's queue. -/
def printedQueue (pool : MemPool) : List (ParsedTransaction (List Char)) :=
  pool.queue.map (printed none)

omit [PrintTable] in
/-- Decoding list by list is decoding all lists in a row. -/
theorem mapM_flatten {α β γ ε : Type} (f : α → List β) (g : β → Except ε γ) (xs : List α) :
    (do
      let lists ← xs.mapM fun x => (f x).mapM g
      Except.ok lists.flatten) = (xs.flatMap f).mapM g := by
  induction xs with
  | nil => rfl
  | cons x xs ih =>
      rw [List.flatMap_cons, List.mapM_append, List.mapM_cons, ← ih]
      simp

variable [CharacterTable] {τ : Type} (decode : List Char → Except ParseError τ)

theorem parseBlockchainTransactions_debug (chain : BlockChain) :
    parseBlockchainTransactions decode chain.debug =
      (printedChain chain).mapM (decodeText decode) := by
  have hskip : avoids "blocks: ".toList ("BlockChain \x7b chain_id: ".toList ++
      (debugNat chain.chainId.toNat ++ ", ".toList)) = true :=
    avoids_append rfl (avoids_append (avoids_debugNat rfl _) rfl)
  have hitems : ∀ w ∈ chain.blocks.map Block.debug, IsItem w := by
    intro w hw
    obtain ⟨block, -, rfl⟩ := List.mem_map.mp hw
    exact isItem_block block
  have hdebug : chain.debug =
      ("BlockChain \x7b chain_id: ".toList ++ (debugNat chain.chainId.toNat ++ ", ".toList)) ++
        ("blocks: ".toList ++ (debugList (chain.blocks.map Block.debug) ++ " \x7d".toList)) := by
    simp [BlockChain.debug, debugStruct, debugField]
  obtain ⟨hextract, hsplit⟩ := extractList_debugList hskip hitems " \x7d".toList
  rw [← hdebug] at hextract
  have hblocks : (parseBlock decode) ∘ Block.debug = fun block =>
      (block.transactions.map (printed (some block.header.index.toNat))).mapM
        (decodeText decode) := by
    funext block
    exact parseBlock_debug decode block
  simp only [parseBlockchainTransactions, hextract]
  show (do
    let confirmed ← (splitTopLevelItems _).mapM (parseBlock decode)
    Except.ok confirmed.flatten) = _
  rw [hsplit, List.mapM_map, hblocks]
  exact mapM_flatten _ _ _

theorem parseMempoolTransactions_debug (pool : MemPool) (seen : List Hash32Type) :
    parseMempoolTransactions decode (mempoolLine pool seen) =
      (printedQueue pool).mapM (decodeText decode) := by
  have hitems : ∀ w ∈ pool.queue.map Transaction.debug, IsItem w :=
    fun w => isItem_of_mem_transactions
  have hline : ∃ rest, mempoolLine pool seen =
      "mempool=MemPool \x7b ".toList ++
        ("queue: ".toList ++ (debugList (pool.queue.map Transaction.debug) ++ rest)) := by
    unfold mempoolLine
    simp [MemPool.debug, debugStruct, debugField]
  have hskip : avoids "queue: ".toList "mempool=MemPool \x7b ".toList = true := rfl
  obtain ⟨rest, hline⟩ := hline
  obtain ⟨hextract, hsplit⟩ := extractList_debugList hskip hitems rest
  rw [← hline] at hextract
  simp only [parseMempoolTransactions, hextract]
  show (splitTopLevelItems _).mapM _ = _
  rw [hsplit]
  exact parseTransactions_debug decode none _

omit [PrintTable] [CharacterTable] in
/-- Without decoding, tokens stay as they are. -/
theorem mapM_decodeText_ok (trxs : List (ParsedTransaction (List Char))) :
    trxs.mapM (decodeText .ok) = .ok trxs := by
  induction trxs with
  | nil => rfl
  | cons trx trxs ih =>
      rw [List.mapM_cons, ih]
      rfl

/-- The log parser reads back exactly the transactions of the chain and of the
queue, in order, with the indices of their blocks and the tokens of their
texts; and decoding acts on each token on its own. -/
theorem debugPrint_read_back (chain : BlockChain) (pool : MemPool)
    (seen : List Hash32Type) :
    parseBlockchainTransactions .ok chain.debug = .ok (printedChain chain) ∧
    parseMempoolTransactions .ok (mempoolLine pool seen) = .ok (printedQueue pool) ∧
    parseBlockchainTransactions decode chain.debug =
      (printedChain chain).mapM (decodeText decode) ∧
    parseMempoolTransactions decode (mempoolLine pool seen) =
      (printedQueue pool).mapM (decodeText decode) := by
  refine ⟨?_, ?_, parseBlockchainTransactions_debug decode chain,
    parseMempoolTransactions_debug decode pool seen⟩
  · rw [parseBlockchainTransactions_debug, mapM_decodeText_ok]
  · rw [parseMempoolTransactions_debug, mapM_decodeText_ok]

end Snapshots

end B4n.Webapp
