import Mathlib.Data.List.Basic
import NeuralQuery.Proofs.Lines
import NeuralQuery.Token.Scan

/-!
# NeuralQuery.Proofs.Caret

Where the caret of a report stands (`Diagnostic.caret_counts_bytes`).

A report ends in two lines, the line of the source behind its number and the caret below it, and
both start with a margin of the same width. The line is quoted character by character from the first
one that can be seen; the caret is moved by the number of *bytes* between that one and the place of
the fault. So it stands below the character at that place exactly if all those between have one
byte.
-/

namespace NeuralQuery

/-! ## Trimmed lines -/

namespace Text

theorem length_le_byteLength (cs : List Char) : cs.length ≤ byteLength cs := by
  induction cs with
  | nil => exact Nat.le_refl 0
  | cons c cs ih =>
    have hpos := c.utf8Size_pos
    rw [byteLength_cons, List.length_cons]
    omega

theorem byteLength_eq_length_iff (cs : List Char) :
    byteLength cs = cs.length ↔ ∀ c ∈ cs, c.utf8Size = 1 := by
  induction cs with
  | nil => simp
  | cons c cs ih =>
    have hpos := c.utf8Size_pos
    have hcs := length_le_byteLength cs
    rw [byteLength_cons, List.length_cons, List.forall_mem_cons, ← ih]
    omega

/-- The white space in front of a line and what is left of the line. -/
theorem trimStart_append (cs : List Char) : cs.takeWhile isBlank ++ trimStart cs = cs :=
  List.takeWhile_append_dropWhile

/-- Trimming a line ends at the first character that can be seen. -/
theorem trimStart_of_visible {w : List Char} {c : Char} (h : ∃ x ∈ w ++ [c], isBlank x = false)
    (rest : List Char) : trimStart (w ++ c :: rest) = trimStart w ++ c :: rest := by
  rw [trimStart, List.dropWhile_append]
  split
  · rename_i hnil
    rw [List.isEmpty_iff] at hnil
    have hblank : ∀ x ∈ w, isBlank x = true := by
      intro x hx
      rw [← trimStart_append w, trimStart, hnil, List.append_nil] at hx
      exact List.all_eq_true.mp List.all_takeWhile x hx
    have hc : isBlank c = false := by
      obtain ⟨x, hx, hvisible⟩ := h
      rcases List.mem_append.mp hx with hx | hx
      · rw [hblank x hx] at hvisible
        cases hvisible
      · rwa [← List.mem_singleton.mp hx]
    rw [trimStart, hnil, List.nil_append, List.dropWhile_cons_of_neg (by simp [hc])]
  · rfl

theorem trimEnd_append (ds cs : List Char) :
    trimEnd (ds ++ cs) = if trimEnd cs = [] then trimEnd ds else ds ++ trimEnd cs := by
  simp only [trimEnd, List.reverse_append, List.dropWhile_append, List.reverse_eq_nil_iff,
    List.isEmpty_iff]
  split
  · rfl
  · rw [List.reverse_append, List.reverse_reverse]

/-- A line that is trimmed at both ends has no newline, if it had none before its last character. -/
theorem newline_notMem_trimmed {cs : List Char} (h : '\n' ∉ cs.dropLast) :
    '\n' ∉ trimEnd (trimStart cs) := by
  intro hmem
  obtain ⟨gap, hgap, _, hlast⟩ := trimEnd_split (trimStart cs)
  have hcs := trimStart_append cs
  generalize trimEnd (trimStart cs) = visible at hmem hgap hlast
  rw [hgap, ← List.append_assoc] at hcs
  rcases List.eq_nil_or_concat gap with rfl | ⟨gap, c, rfl⟩
  · -- the newline would be the last character, which can be seen
    have hne := List.ne_nil_of_mem hmem
    obtain ⟨front, c, rfl⟩ : ∃ front c, visible = front ++ [c] :=
      ⟨_, _, (List.dropLast_concat_getLast hne).symm⟩
    rw [List.append_nil, ← List.append_assoc] at hcs
    rw [← hcs, List.dropLast_concat] at h
    rcases List.mem_append.mp hmem with hfront | hc
    · exact h (List.mem_append_right _ hfront)
    · obtain rfl := List.mem_singleton.mp hc
      have := hlast '\n' (by simp)
      cases this
  · rw [List.concat_eq_append, ← List.append_assoc] at hcs
    rw [← hcs, List.dropLast_concat] at h
    exact h (List.mem_append_left _ (List.mem_append_right _ hmem))

end Text

namespace Diagnostic

/-! ## The last two lines -/

/-- The last line of a report and the one above it. -/
def EndsIn (report : String) (quoted caret : List Char) : Prop :=
  ∃ above, Text.pieces report.toList = above ++ [quoted ++ ['\n'], caret ++ ['\n']]

/-- The caret ends its line in this column; columns count characters and start from zero. -/
def CaretAt (line : List Char) (column : Nat) : Prop :=
  ∃ front, line = front ++ ['^'] ∧ '^' ∉ front ∧ front.length = column

/-- A report ends in a line that shows a text behind a front, up to the white space at the end of
the text, and in a line with the caret in this column. -/
def Shows (report : String) (front shown : List Char) (column : Nat) : Prop :=
  ∃ visible gap caret, shown = visible ++ gap ∧ (∀ x ∈ gap, Text.isBlank x = true) ∧
    (∀ x ∈ visible.getLast?, Text.isBlank x = false) ∧
    EndsIn report (front ++ visible) caret ∧ CaretAt caret column

/-- What stands before the quoted line with this number. -/
def margin (number : Nat) : List Char :=
  (toString number).toList ++ [' ', '|', ' ']

theorem newline_notMem_margin (number : Nat) : '\n' ∉ margin number := by
  intro hmem
  rcases List.mem_append.mp hmem with hmem | hmem
  · have hdigits : (toString number).toList = Nat.toDigits 10 number := Nat.toList_repr
    rw [hdigits] at hmem
    have hdigit := Nat.isDigit_of_mem_toDigits (by decide) (by decide) hmem
    cases hdigit
  · simp at hmem

theorem endsIn_of_toList {report : String} {quoted caret : List Char} (above : List Char)
    (h : report.toList = above ++ ['\n'] ++ (quoted ++ ['\n'] ++ (caret ++ ['\n'])))
    (hquoted : '\n' ∉ quoted) (hcaret : '\n' ∉ caret) : EndsIn report quoted caret := by
  refine ⟨Text.pieces (above ++ ['\n']), ?_⟩
  have hbelow : Text.pieces (quoted ++ ['\n'] ++ (caret ++ ['\n'])) =
      [quoted ++ ['\n'], caret ++ ['\n']] := by
    rw [Text.pieces_append (by simp), Text.pieces_line hquoted, Text.pieces_line hcaret]
    rfl
  rw [h, Text.pieces_append (by simp), hbelow]

/-- The lines of a report. -/
theorem renderLine_eq (d : Diagnostic) (line : Text.Line) (file : String) :
    d.renderLine line file = d.heading ++ "\n" ++
      "-> " ++ file ++ ":" ++ toString line.number ++ "\n" ++
      (String.ofList (List.replicate ((toString line.number).length + 1) ' ') ++ "|") ++ "\n" ++
      toString line.number ++ " | " ++
        String.ofList (Text.trimEnd (Text.trimStart line.text)) ++ "\n" ++
      (String.ofList (List.replicate ((toString line.number).length + 1) ' ') ++ "|") ++ " " ++
        (String.ofList (List.replicate (caretColumn line) '-') ++ "^") ++ "\n" := rfl

/-- The line is quoted behind the margin. Below it are a margin of the same width, the dashes and
the caret. -/
theorem renderLine_shows (d : Diagnostic) (line : Text.Line) (file : String)
    (h : '\n' ∉ line.text.dropLast) :
    Shows (d.renderLine line file) (margin line.number) (Text.trimStart line.text)
      ((margin line.number).length + caretColumn line) := by
  obtain ⟨width, hwidth⟩ : ∃ width, width = (toString line.number).length := ⟨_, rfl⟩
  obtain ⟨bar, hbar⟩ : ∃ bar, bar = List.replicate (width + 1) ' ' ++ ['|'] := ⟨_, rfl⟩
  obtain ⟨lead, hlead⟩ : ∃ lead, lead = bar ++ ' ' :: List.replicate (caretColumn line) '-' :=
    ⟨_, rfl⟩
  have hlength : lead.length = (margin line.number).length + caretColumn line := by
    simp only [hlead, hbar, hwidth, margin, List.length_append, List.length_cons,
      List.length_replicate, List.length_nil, String.length_toList]
    omega
  have hfree : ∀ {c : Char}, c ≠ ' ' → c ≠ '|' → c ≠ '-' → c ∉ lead := by
    intro c hblank hbar' hdash hmem
    simp only [hlead, hbar, List.mem_append, List.mem_cons, List.mem_replicate, List.not_mem_nil,
      or_false, hblank, hbar', hdash, and_false] at hmem
  obtain ⟨gap, hgap, hblank, hlast⟩ := Text.trimEnd_split (Text.trimStart line.text)
  refine ⟨_, gap, lead ++ ['^'], hgap, hblank, hlast, ?_, lead, rfl,
    hfree (by decide) (by decide) (by decide), hlength⟩
  refine endsIn_of_toList (d.heading.toList ++ '\n' :: ("-> ".toList ++ (file.toList ++
    (':' :: ((toString line.number).toList ++ '\n' :: bar))))) ?_ ?_ ?_
  · have hnewline : "\n".toList = ['\n'] := rfl
    have hcolon : ":".toList = [':'] := rfl
    have hmargin : " | ".toList = [' ', '|', ' '] := rfl
    have hspace : " ".toList = [' '] := rfl
    have hstroke : "|".toList = ['|'] := rfl
    have hcaret : "^".toList = ['^'] := rfl
    simp only [renderLine_eq, String.toList_append, String.toList_ofList, hlead, hbar, hwidth,
      margin, hnewline, hcolon, hmargin, hspace, hstroke, hcaret, List.append_assoc,
      List.cons_append, List.nil_append]
  · rw [List.mem_append, not_or]
    exact ⟨newline_notMem_margin _, Text.newline_notMem_trimmed h⟩
  · rw [List.mem_append, not_or]
    exact ⟨hfree (by decide) (by decide) (by decide), by decide⟩

/-! ## Places in the source -/

/-- The line of a place: its text up to the place, and the rest of it. -/
theorem ofOffset_place {before w : List Char} (hbefore : ∀ x ∈ before.getLast?, x = '\n')
    (hw : '\n' ∉ w) (c : Char) (back : List Char) :
    ∃ rest, rest <+: back ∧ '\n' ∉ (w ++ c :: rest).dropLast ∧
      Text.Line.ofOffset (before ++ (w ++ c :: back)) (Text.byteLength (before ++ w)) =
        ⟨1 + (Text.pieces before).length, w ++ c :: rest, Text.byteLength w⟩ := by
  obtain ⟨rest, later, hpieces⟩ : ∃ rest later, Text.pieces (c :: back) = (c :: rest) :: later := by
    rw [Text.pieces]
    split
    · exact ⟨_, _, rfl⟩
    · split
      · exact ⟨_, _, rfl⟩
      · exact ⟨_, _, rfl⟩
  have hback : c :: back = c :: rest ++ later.flatten := by
    rw [← Text.pieces_flatten (c :: back), hpieces, List.flatten_cons]
  have hline := Text.pieces_append_of_notMem hw hpieces
  have hcut := Text.pieces_isCut (w ++ c :: back)
  rw [hline] at hcut
  have hends : '\n' ∉ (w ++ c :: rest).dropLast := (@Text.IsCut.mem [] _ _ hcut).2
  refine ⟨rest, ⟨later.flatten, (List.cons.inj hback).2.symm⟩, hends, ?_⟩
  have hpos := c.utf8Size_pos
  have ho : Text.byteLength w < Text.byteLength (w ++ c :: rest) := by
    rw [Text.byteLength_append, Text.byteLength_cons]
    omega
  have hfound := Text.Line.within_append ho 1 (Text.pieces before) later
  rw [Text.pieces_flatten] at hfound
  rw [Text.Line.ofOffset, Text.pieces_append hbefore, hline, Text.byteLength_append]
  exact hfound

/-- The caret is moved by the bytes between the first character that can be seen and the place. -/
theorem caretColumn_place {w rest : List Char} {c : Char}
    (h : ∃ x ∈ w ++ [c], Text.isBlank x = false) (number : Nat) :
    caretColumn ⟨number, w ++ c :: rest, Text.byteLength w⟩ =
      Text.byteLength (Text.trimStart w) := by
  have hw := congrArg Text.byteLength (Text.trimStart_append w)
  rw [Text.byteLength_append] at hw
  rw [caretColumn, Text.trimStart_of_visible h, Text.byteLength_append, Text.byteLength_append]
  simp only
  omega

/-- Behind the end of a line the caret is moved by the bytes of all that can be seen of it. -/
theorem caretColumn_end (number : Nat) (text : List Char) :
    caretColumn ⟨number, text, Text.byteLength (Text.trimEnd text)⟩ =
      Text.byteLength (Text.trimEnd (Text.trimStart text)) := by
  have htext := Text.trimStart_append text
  have hbytes := congrArg Text.byteLength htext
  rw [Text.byteLength_append] at hbytes
  rw [caretColumn]
  simp only
  have hend := Text.trimEnd_append (text.takeWhile Text.isBlank) (Text.trimStart text)
  rw [htext] at hend
  rw [hend]
  split
  · rename_i hnil
    obtain ⟨gap, hgap, _⟩ := Text.trimEnd_split (text.takeWhile Text.isBlank)
    have hle := congrArg Text.byteLength hgap
    rw [Text.byteLength_append] at hle
    rw [hnil, Text.byteLength_nil]
    omega
  · rw [Text.byteLength_append]
    omega

/-- The line of an offset at the end of the source or behind it. -/
theorem ofOffset_end {content : List Char} {position : Nat}
    (h : Text.byteLength content ≤ position) :
    '\n' ∉ ((Text.pieces content).getLastD []).dropLast ∧
      Text.Line.ofOffset content position =
        ⟨max 1 (Text.pieces content).length, (Text.pieces content).getLastD [],
          Text.byteLength (Text.trimEnd ((Text.pieces content).getLastD []))⟩ := by
  have hcut := Text.pieces_isCut content
  rw [← Text.pieces_flatten content] at h
  rw [Text.Line.ofOffset]
  rcases List.eq_nil_or_concat (Text.pieces content) with hnil | ⟨front, last, heq⟩
  · rw [hnil]
    exact ⟨by simp, rfl⟩
  · rw [List.concat_eq_append] at heq
    rw [heq] at h hcut ⊢
    refine ⟨by simpa using hcut.mem.2, ?_⟩
    rw [Text.Line.within_of_ge h]
    simp [Nat.add_comm]

theorem column_eq_iff (front lead : List Char) :
    front.length + Text.byteLength lead = (front ++ lead).length ↔ ∀ x ∈ lead, x.utf8Size = 1 := by
  rw [List.length_append, Nat.add_left_cancel_iff, Text.byteLength_eq_length_iff]

/-- The caret has the margin before it and as many columns as there are bytes between the first
character that can be seen of the line and the place of the fault. So it stands below the character
at that place exactly if all those between have one byte. At the end of the source the same goes for
the end of the last line. -/
theorem caret_counts_bytes (d : Diagnostic) (source file : String) :
    (∀ (before w back : List Char) (c : Char), source.toList = before ++ (w ++ c :: back) →
      (∀ x ∈ before.getLast?, x = '\n') → '\n' ∉ w →
      (∃ x ∈ w ++ [c], Text.isBlank x = false) →
      d.position.offset = Text.byteLength (before ++ w) →
      let front := margin (1 + (Text.pieces before).length)
      let lead := Text.trimStart w
      ∃ rest column, rest <+: back ∧
        Shows (d.render source file) front (lead ++ c :: rest) column ∧
        column = front.length + Text.byteLength lead ∧
        (column = (front ++ lead).length ↔ ∀ x ∈ lead, x.utf8Size = 1)) ∧
    (Text.byteLength source.toList ≤ d.position.offset →
      let front := margin (max 1 (Text.pieces source.toList).length)
      let shown := Text.trimStart ((Text.pieces source.toList).getLastD [])
      ∃ column, Shows (d.render source file) front shown column ∧
        column = front.length + Text.byteLength (Text.trimEnd shown) ∧
        (column = (front ++ Text.trimEnd shown).length ↔
          ∀ x ∈ Text.trimEnd shown, x.utf8Size = 1)) := by
  constructor
  · intro before w back c hsource hbefore hw hvisible hpos front lead
    obtain ⟨rest, hrest, hline, hfound⟩ := ofOffset_place hbefore hw c back
    have hshows := renderLine_shows d
      ⟨1 + (Text.pieces before).length, w ++ c :: rest, Text.byteLength w⟩ file hline
    simp only [caretColumn_place hvisible, Text.trimStart_of_visible hvisible] at hshows
    rw [render, hsource, hpos, hfound]
    exact ⟨rest, _, hrest, hshows, rfl, column_eq_iff front lead⟩
  · intro hend front shown
    obtain ⟨hline, hfound⟩ := ofOffset_end hend
    have hshows := renderLine_shows d
      ⟨max 1 (Text.pieces source.toList).length, (Text.pieces source.toList).getLastD [],
        Text.byteLength (Text.trimEnd ((Text.pieces source.toList).getLastD []))⟩ file hline
    simp only [caretColumn_end] at hshows
    rw [render, hfound]
    exact ⟨_, hshows, rfl, column_eq_iff front _⟩

/-- A string with a character of two bytes, and behind it a character that starts no token. -/
def twoByteSource : String :=
  "\"é\" é"

/-- The caret stands one column behind the character that the report is about. -/
theorem twoByteSource_missed :
    ∃ d quoted caret, Token.tokenize twoByteSource "q" = .error d ∧
      d.position.offset = Text.byteLength "\"é\" ".toList ∧
      EndsIn (d.render twoByteSource "q") quoted caret ∧
      quoted = "1 | ".toList ++ ("\"é\" ".toList ++ ['é']) ∧
      ("1 | ".toList ++ "\"é\" ".toList).length = 8 ∧ CaretAt caret 9 := by
  refine ⟨⟨.unrecognisedToken "é", ⟨5, "q"⟩⟩, _, "  | -----^".toList, by decide +kernel,
    by decide +kernel, ⟨["Error: UnrecognisedToken [syntax]\n".toList, "-> q:1\n".toList,
      "  |\n".toList], ?_⟩, rfl, rfl, "  | -----".toList, rfl, by decide, rfl⟩
  decide +kernel

end Diagnostic
end NeuralQuery
