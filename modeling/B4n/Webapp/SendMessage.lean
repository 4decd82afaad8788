import B4n.Node.Admin
import B4n.Webapp.Service

/-!
# A message on its way to the node

The text of a message is trimmed, put behind a command, trimmed and encoded by
one program, and cut into lines, decoded, trimmed, taken from behind the command
and trimmed again by another.  The two have different notions of white space and
of lines.  Every white space character of Rust is one of Python, so what Python
trimmed Rust does not trim further; and the only character that ends a line for
Rust is refused by `send_message`.

## Main results

* `sendMessage_issues_one` — one `LocalTrx` with the trimmed text, and nothing
  else.
-/

namespace B4n.Webapp

open B4n.Lib B4n.Lib.Text B4n.Blockchain

/-- White space of Rust is white space of Python. -/
theorem isSpace_of_isWhitespace {c : Char} (h : isWhitespace c = true) : isSpace c = true := by
  simp only [isWhitespace, isSpace, Bool.or_eq_true, Bool.and_eq_true, decide_eq_true_eq,
    beq_iff_eq] at h ⊢
  omega

/-- What `send_message` sends is `trx` and the trimmed text, which is on one line
and not empty. -/
theorem sendMessage_eq_ok {text command : List Char} (h : sendMessage text = .ok command) :
    command = "trx ".toList ++ strip text ∧ strip text ≠ [] ∧
      '\n' ∉ strip text ∧ '\r' ∉ strip text := by
  unfold sendMessage at h
  dsimp only at h
  by_cases hempty : (strip text).isEmpty = true
  · rw [if_pos hempty] at h
    cases h
  rw [if_neg hempty] at h
  by_cases hline : ((strip text).contains '\n' || (strip text).contains '\r') = true
  · rw [if_pos hline] at h
    cases h
  rw [if_neg hline, Except.ok.injEq] at h
  simp only [Bool.or_eq_true, List.contains_iff_mem, not_or] at hline
  exact ⟨h.symm, by simpa using hempty, hline.1, hline.2⟩

/-- What the client sends for a command without white space at its end. -/
theorem adminPayload_eq {command : List Char} (h : TrimmedEnd isSpace command) :
    adminPayload command = utf8 (command ++ ['\n']) := by
  unfold adminPayload rstrip
  rw [h.dropWhile_reverse]

/-- For every text that `send_message` accepts, the bytes that the client sends
make the admin listener issue one transaction, whose text is the trimmed text,
and nothing else. -/
theorem sendMessage_issues_one {text command : List Char} (h : sendMessage text = .ok command)
    (fromId : UInt32) (ids : Nat → UInt64) :
    ∃ trx : Transaction,
      adminConnection fromId ids (adminPayload command) = [.localTrx trx] ∧
      trx.text.toList = strip text := by
  obtain ⟨rfl, hne, hlf, hcr⟩ := sendMessage_eq_ok h
  have htrimmed : Trimmed isSpace (strip text) := by
    rw [strip_eq_trimBy]
    exact trimmed_trimBy isSpace text
  have hend : TrimmedEnd isSpace ("trx ".toList ++ strip text) := htrimmed.last.append hne _
  have hnewline : '\n' ∉ "trx ".toList ++ strip text := by
    rw [List.mem_append, not_or]
    exact ⟨by decide, hlf⟩
  have hreturn : ("trx ".toList ++ strip text).getLast? ≠ some '\r' := by
    intro hlast
    exact absurd (hend _ hlast) (by decide)
  have hlines : lines (adminPayload ("trx ".toList ++ strip text)) =
      [some ("trx ".toList ++ strip text)] := by
    have hone := lines_utf8 hnewline hreturn []
    rwa [List.append_nil, ← adminPayload_eq hend] at hone
  have hcommand := adminCommand_trx (htrimmed.mono fun c => isSpace_of_isWhitespace) hne
  refine ⟨⟨ids 0, fromId.toUInt64, 0, String.ofList (strip text)⟩, ?_,
    String.toList_ofList⟩
  unfold adminConnection
  rw [hlines]
  unfold adminLoop
  rw [hcommand]
  rfl

end B4n.Webapp

namespace B4n.Webapp.Sample

open B4n.Blockchain

/-- White space of Python only at one end, and a line separator in the middle. -/
def separators : List Char := "\u3000stop\u2028print \x1f".toList

theorem sendMessage_issues_one_separators :
    ∃ trx : Transaction,
      adminConnection 7 UInt64.ofNat (adminPayload "trx stop\u2028print".toList) =
        [.localTrx trx] ∧
      trx.text.toList = "stop\u2028print".toList := by
  have hstrip : strip separators = "stop\u2028print".toList := by decide +kernel
  rw [← hstrip]
  exact @sendMessage_issues_one separators _ (by decide +kernel) 7 UInt64.ofNat

end B4n.Webapp.Sample
