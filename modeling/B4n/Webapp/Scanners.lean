import B4n.Webapp.LogParser

/-!
# The scanners of the log parser

`_find_matching` and `_split_top_level_items` walk over a text with a depth and
a flag for strings.  Both are scanners, so each of them comes out of a nested
text in the state in which it went in, whatever the text contains; so the first
finds the bracket that closes a list, and the second cuts a list at the commas
between its items.

## Main results

* `extractList_eq` — the list behind the first occurrence of a marker.
* `splitTopLevelItems_intercalate` — the items of a printed list.
-/

namespace B4n.Webapp

open B4n.Lib.Text

/-! ## Finding the closing bracket -/

/-- `_find_matching` for brackets, at a positive depth; braces do not count. -/
def findMatchingScanner : Scanner Int (Option Nat) where
  loop depth := findMatchingLoop '[' ']' ⟨depth, false, false⟩
  inString depth := findMatchingLoop '[' ']' ⟨depth, true, false⟩
  escaped depth := findMatchingLoop '[' ']' ⟨depth, true, true⟩
  good _ depth := 0 < depth
  bracket depth := depth + 1
  brace depth := depth
  loop_quote _ _ _ := rfl
  inString_quote _ _ _ := rfl
  inString_backslash _ _ _ := rfl
  inString_char _ _ _ _ hquote hslash := by simp [findMatchingLoop, hquote, hslash]
  escaped_char _ _ _ _ := rfl
  loop_char _ hc _ idx rest := by
    simp only [delimiters, List.mem_cons, List.not_mem_nil, or_false, not_or] at hc
    simp [findMatchingLoop, hc]
  good_bracket hdepth := by omega
  loop_bracket hdepth idx rest := by
    simp [findMatchingLoop]
    omega
  good_brace hdepth := hdepth
  loop_brace _ _ _ := ⟨rfl, rfl⟩

/-- The closing bracket of a list. -/
theorem findMatching_eq {v : List Char} (hv : Nested true v) (skip rest : List Char) :
    findMatching (skip ++ '[' :: (v ++ ']' :: rest)) skip.length '[' ']' =
      .ok (skip.length + 1 + v.length) := by
  have hinner : findMatchingLoop '[' ']' ⟨1, false, false⟩ (skip.length + 1)
      (v ++ ']' :: rest) =
      findMatchingLoop '[' ']' ⟨1, false, false⟩ (skip.length + 1 + v.length)
        (']' :: rest) :=
    findMatchingScanner.loop_nested hv (show (0 : Int) < 1 by decide) _ _
  simp [findMatching, findMatchingLoop, hinner]

/-- The list behind the first occurrence of a marker. -/
theorem extractList_eq {marker : String} {skip v : List Char}
    (hskip : avoids marker.toList skip = true) (hv : Nested true v) (rest : List Char) :
    extractList (skip ++ (marker.toList ++ '[' :: (v ++ ']' :: rest))) marker = .ok v := by
  have hmarker := find_append hskip ('[' :: (v ++ ']' :: rest))
  have hopen : find ['['] ('[' :: (v ++ ']' :: rest)) = some 0 := by
    simp [find, List.isPrefixOf]
  have hclose := findMatching_eq hv (skip ++ marker.toList) rest
  simp only [List.append_assoc, List.length_append] at hclose
  have hdrop : (skip ++ (marker.toList ++ '[' :: (v ++ ']' :: rest))).drop
      (skip.length + marker.toList.length) = '[' :: (v ++ ']' :: rest) := by
    simp [← List.append_assoc]
  have hslice : ((skip ++ (marker.toList ++ '[' :: (v ++ ']' :: rest))).take
      (skip.length + marker.toList.length + 1 + v.length)).drop
      (skip.length + marker.toList.length + 1) = v := by
    have hsplit : skip ++ (marker.toList ++ '[' :: (v ++ ']' :: rest)) =
        (skip ++ marker.toList ++ ['[']) ++ (v ++ ']' :: rest) := by simp
    have hlen : (skip ++ marker.toList ++ ['[']).length =
        skip.length + marker.toList.length + 1 := by simp [Nat.add_assoc]
    rw [hsplit, ← hlen, List.take_length_add_append, List.drop_left]
    simp
  simp only [extractList, hmarker, hdrop, hopen, Nat.add_zero, hclose, hslice]

/-! ## Cutting a list into its items -/

/-- `_split_top_level_items`, outside of all lists and structs or, where there may
be commas, inside of some. -/
def splitScanner (inner : List Char) (items : List (List Char)) (start : Nat) :
    Scanner (Int × Int) SplitState where
  loop depth := splitLoop inner ⟨items, start, depth.1, depth.2, false, false⟩
  inString depth := splitLoop inner ⟨items, start, depth.1, depth.2, true, false⟩
  escaped depth := splitLoop inner ⟨items, start, depth.1, depth.2, true, true⟩
  good commas depth := 0 ≤ depth.1 ∧ 0 ≤ depth.2 ∧ (commas = true → 0 < depth.1 + depth.2)
  bracket depth := (depth.1, depth.2 + 1)
  brace depth := (depth.1 + 1, depth.2)
  loop_quote _ _ _ := rfl
  inString_quote _ _ _ := rfl
  inString_backslash _ _ _ := rfl
  inString_char _ _ _ _ hquote hslash := by simp [splitLoop, splitStep, hquote, hslash]
  escaped_char _ _ _ _ := rfl
  loop_char {_ depth c} hdepth hc hcomma idx rest := by
    have hstays : ¬ ((c = ',' ∧ depth.1 = 0) ∧ depth.2 = 0) := by
      rintro ⟨⟨hc, hbrace⟩, hbracket⟩
      have hpos := hdepth.2.2 (hcomma hc)
      omega
    simp only [delimiters, List.mem_cons, List.not_mem_nil, or_false, not_or] at hc
    simp [splitLoop, splitStep, hc, hstays]
  good_bracket hdepth := ⟨hdepth.1, by omega, fun _ => by omega⟩
  loop_bracket _ _ _ := by simp [splitLoop, splitStep]
  good_brace hdepth := ⟨by omega, hdepth.2.1, fun _ => by omega⟩
  loop_brace _ _ _ := by simp [splitLoop, splitStep]

/-- An item of a list: nested, with no comma of its own and no white space
around it. -/
structure IsItem (w : List Char) : Prop where
  nested : Nested false w
  strip_eq : strip w = w
  nonempty : w ≠ []

/-- White space before an item is stripped and does not disturb the nesting. -/
theorem IsItem.of_lead {lead item : List Char} (hitem : IsItem item)
    (hlead : lead = [] ∨ lead = [' ']) :
    Nested false (lead ++ item) ∧ strip (lead ++ item) = item := by
  rcases hlead with rfl | rfl
  · exact ⟨hitem.nested, hitem.strip_eq⟩
  · have hspace : strip (' ' :: item) = strip item := strip_cons_space (by decide) item
    exact ⟨.char (by decide) (by decide) hitem.nested, hspace.trans hitem.strip_eq⟩

/-- Reading an item whole. -/
theorem splitLoop_isItem {lead item : List Char} (hitem : IsItem item)
    (hlead : lead = [] ∨ lead = [' ']) (inner : List Char) (acc : List (List Char))
    (start idx : Nat) (rest : List Char) :
    splitLoop inner ⟨acc, start, 0, 0, false, false⟩ idx ((lead ++ item) ++ rest) =
      splitLoop inner ⟨acc, start, 0, 0, false, false⟩ (idx + (lead ++ item).length) rest :=
  (splitScanner inner acc start).loop_nested (hitem.of_lead hlead).1
    (s := (0, 0)) ⟨Int.le_refl 0, Int.le_refl 0, by simp⟩ idx rest

/-- The loop from the start of an item on, possibly with a space before it: all
items but the last are cut off, and the last is left over. -/
theorem splitLoop_items (lead pre : List Char) {item : List Char}
    {items : List (List Char)} (acc : List (List Char))
    (hlead : lead = [] ∨ lead = [' ']) (hitem : IsItem item)
    (hitems : ∀ w ∈ items, IsItem w) {inner text : List Char}
    (htext : text = lead ++ [',', ' '].intercalate (item :: items))
    (hinner : inner = pre ++ text) :
    ∃ start last,
      splitLoop inner ⟨acc, pre.length, 0, 0, false, false⟩ pre.length text =
        ⟨acc ++ (item :: items).dropLast, start, 0, 0, false, false⟩ ∧
      strip (inner.drop start) = last ∧ last ≠ [] ∧
      (item :: items).dropLast ++ [last] = item :: items := by
  induction items generalizing lead pre item acc text with
  | nil =>
      have hread := splitLoop_isItem hitem hlead inner acc pre.length pre.length []
      have htail : strip (inner.drop pre.length) = item := by
        simp [hinner, htext, (hitem.of_lead hlead).2]
      refine ⟨pre.length, item, ?_, htail, hitem.nonempty, rfl⟩
      simpa [htext, splitLoop] using hread
  | cons next items ih =>
      -- the comma behind the item cuts it off
      let behind := pre ++ (lead ++ item) ++ [',']
      let more := ' ' :: [',', ' '].intercalate (next :: items)
      have hsplit : text = (lead ++ item) ++ ',' :: more := by
        simp [htext, more]
      have hbehind : pre.length + (lead ++ item).length + 1 = behind.length := by
        simp [behind]
        omega
      have hcut : strip ((inner.take (pre.length + (lead ++ item).length)).drop pre.length) =
          item := by
        rw [hinner, hsplit, List.take_length_add_append, List.drop_left, List.take_left,
          (hitem.of_lead hlead).2]
      have hnonempty : item.isEmpty = false := by
        simpa using hitem.nonempty
      have hcomma : splitLoop inner ⟨acc, pre.length, 0, 0, false, false⟩ pre.length text =
          splitLoop inner ⟨acc ++ [item], behind.length, 0, 0, false, false⟩ behind.length
            more := by
        rw [hsplit, splitLoop_isItem hitem hlead, ← hbehind]
        simp only [splitLoop, splitStep, hcut, hnonempty]
        simp
      obtain ⟨start, last, hloop, hlast, hne, hall⟩ :=
        ih [' '] behind (acc ++ [item]) (.inr rfl) (hitems next List.mem_cons_self)
          (fun w hw => hitems w (List.mem_cons_of_mem next hw)) (show more = _ from rfl)
          (by simp [hinner, hsplit, behind])
      refine ⟨start, last, ?_, hlast, hne, ?_⟩
      · rw [hcomma, hloop]
        simp
      · simpa using hall

/-- A printed list is cut into its items. -/
theorem splitTopLevelItems_intercalate {items : List (List Char)}
    (h : ∀ w ∈ items, IsItem w) :
    splitTopLevelItems ([',', ' '].intercalate items) = items := by
  cases items with
  | nil => rfl
  | cons item items =>
      obtain ⟨start, last, hloop, hlast, hne, hall⟩ :=
        splitLoop_items [] [] [] (.inl rfl) (h item List.mem_cons_self)
          (fun w hw => h w (List.mem_cons_of_mem item hw)) rfl rfl
      have hinner : (strip ([',', ' '].intercalate (item :: items))).isEmpty = false := by
        rw [List.isEmpty_eq_false_iff]
        intro hblank
        have hspace := strip_eq_nil_iff.mp hblank
        exact hne (hlast ▸ strip_eq_nil_iff.mpr fun c hc => hspace c (List.mem_of_mem_drop hc))
      have htail : last.isEmpty = false := by
        simpa using hne
      simp only [List.nil_append, List.length_nil] at hloop hlast
      simp only [splitTopLevelItems, hinner, hloop, hlast, htail]
      exact hall

end B4n.Webapp
