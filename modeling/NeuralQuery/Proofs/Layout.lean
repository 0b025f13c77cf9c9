import NeuralQuery.Proofs.RoundTrip
import NeuralQuery.Proofs.Rows

/-!
# NeuralQuery.Proofs.Layout

White space and comments do not matter (`Build.layout_irrelevant`).

The lexemes of a text are cut out of it by the spans of its tokens (`Token.slice`) and set again
with other gaps between them (`Token.laidOut`). A gap makes no token and parts the lexemes around
it, so the new text has tokens with the same contents (`Token.tokenize_laidOut`), and rows with the
same contents are read and checked alike.
-/

namespace NeuralQuery

/-! ## Gaps -/

/-- White space and comments, each comment up to the end of its line. -/
inductive IsGap : List Char → Prop where
  | nil : IsGap []
  | blank {c : Char} {w : List Char} : Text.isBlank c = true → IsGap w → IsGap (c :: w)
  | comment {body w : List Char} : '\n' ∉ body → IsGap w → IsGap (';' :: (body ++ '\n' :: w))

theorem Text.mayExtend_of_isBlank {c : Char} (h : isBlank c = true) :
    Token.Shape.mayExtend c = false := by
  have hne : ∀ d, isBlank d = false → c ≠ d := by
    rintro d hd rfl
    rw [hd] at h
    cases h
  have halpha : c.isAlpha = false := by
    cases hc : c.isAlpha with
    | false => rfl
    | true => exact absurd h (by simp [isBlank_of_isAlpha hc])
  have hdigit : c.isDigit = false := by
    cases hc : c.isDigit with
    | false => rfl
    | true => exact absurd h (by simp [isBlank_of_isDigit hc])
  simp [Token.Shape.mayExtend, Token.Shape.isWordRest, Char.isAlphanum, halpha, hdigit,
    hne '_' (by decide), hne '-' (by decide), hne '.' (by decide), hne '=' (by decide)]

theorem Token.Shape.first?_comment {body : List Char} (hb : '\n' ∉ body) (rest : List Char) :
    first? (';' :: (body ++ '\n' :: rest)) =
      some (.comment, ⟨';' :: body, '\n' :: rest⟩) := by
  have hall : all = [.blank] ++ .comment :: _ := rfl
  have hline : ∀ c ∈ body, (c != '\n') = true := by
    intro c hc
    simp only [bne_iff_ne]
    rintro rfl
    exact hb hc
  have hend : Stops (· != '\n') ('\n' :: rest) := by
    intro c hc
    obtain rfl := Option.some.inj hc
    rfl
  refine first?_of_cut hall (by simp only [List.mem_singleton, forall_eq]; rfl) ?_
  simp only [cut?, Cut.run, takeWhile_of_stops hline hend, dropWhile_of_stops hline hend]
  rfl

namespace IsGap

open Token

/-- No lexeme goes on in a gap. -/
theorem parted {w : List Char} (h : IsGap w) (hne : w ≠ []) (rest : List Char) :
    Parted (w ++ rest) := by
  intro c hc
  cases h with
  | nil => exact absurd rfl hne
  | blank hb _ =>
    obtain rfl := Option.some.inj hc
    exact Text.mayExtend_of_isBlank hb
  | comment _ _ =>
    obtain rfl := Option.some.inj hc
    decide

/-- A gap ahead makes no token. -/
theorem tokens {w : List Char} (h : IsGap w) {s : Scan} {rest : List Char}
    (hs : s.ahead = w ++ rest) : s.tokens = (s.past ⟨w, rest⟩).tokens := by
  induction h generalizing s with
  | nil => exact Scan.tokens_blanks hs (by simp)
  | @blank c w hb _ ih =>
    have hone : s.tokens = (s.past ⟨[c], w ++ rest⟩).tokens :=
      Scan.tokens_blanks hs (by simpa using hb)
    rw [hone, ih rfl, Scan.past_past]
    rfl
  | @comment body w hb _ ih =>
    have hahead : s.ahead = ';' :: (body ++ '\n' :: (w ++ rest)) := by simpa using hs
    have hcomment : s.tokens = (s.past ⟨';' :: body, '\n' :: (w ++ rest)⟩).tokens := by
      rw [Scan.tokens_of_some (hahead ▸ Shape.first?_comment hb (w ++ rest))]
      cases (s.past ⟨';' :: body, '\n' :: (w ++ rest)⟩).tokens <;> rfl
    have hline : (s.past ⟨';' :: body, '\n' :: (w ++ rest)⟩).tokens =
        ((s.past ⟨';' :: body, '\n' :: (w ++ rest)⟩).past ⟨['\n'], w ++ rest⟩).tokens :=
      Scan.tokens_blanks rfl (List.forall_mem_singleton.mpr rfl)
    rw [hcomment, hline, Scan.past_past, ih rfl, Scan.past_past]
    simp

theorem reads {w : String} (h : IsGap w.toList) : Reads Anything w (· = []) := by
  intro s rest hs _
  refine ⟨[], rfl, ?_⟩
  rw [h.tokens hs]
  cases (s.past ⟨w.toList, rest⟩).tokens <;> rfl

end IsGap

/-! ## Lexemes cut out of a text -/

namespace Text

/-- The first `n` bytes of a text. -/
def takeBytes : Nat → List Char → List Char
  | _, [] => []
  | n, c :: cs => if n = 0 then [] else c :: takeBytes (n - c.utf8Size) cs

theorem takeBytes_append (cs ds : List Char) : takeBytes (byteLength cs) (cs ++ ds) = cs := by
  induction cs with
  | nil => cases ds <;> simp [takeBytes]
  | cons c cs ih =>
    have hpos := c.utf8Size_pos
    simp only [List.cons_append, byteLength_cons, takeBytes]
    rw [if_neg (by omega), Nat.add_sub_cancel_left, ih]

end Text

namespace Token

/-- The text that a token spans. -/
def slice (source : String) (t : Token) : String :=
  String.ofList
    (Text.takeBytes (t.span.stop - t.span.start) (Text.dropBytes t.span.start source.toList))

/-- The lexemes of a row, with `lead` in front of them and one of the texts `gaps` behind each. -/
def laidOut (source : String) (row : List Token) (lead : String) (gaps : List String) : String :=
  lead ++ String.join (List.zipWith (fun t gap => t.slice source ++ gap) row gaps)

/-- A lexeme that is cut out of its text is read again as the same token. -/
theorem StandsIn.slice {source file : String} {t : Token} (h : t.StandsIn (.ofSource source file))
    (hsize : Text.byteLength source.toList < UInt32.size) :
    Lexes Parted (t.slice source) t.kind t.value := by
  obtain ⟨front, text, rest, shape, hsource, hfirst, htoken, hspan⟩ := h.span hsize
  have hslice : (t.slice source).toList = text := by
    simp only [Token.slice, String.toList_ofList, hspan, hsource, Text.dropBytes_append,
      Text.byteLength_append, Nat.add_sub_cancel_left, Text.takeBytes_append]
  intro rest' hr
  rw [hslice]
  exact ⟨shape, Shape.first?_again hfirst htoken hr, Shape.token?_content htoken⟩

theorem reads_pieces {source : String} {row : List Token} {gaps : List String}
    (hrow : ∀ t ∈ row, Lexes Parted (t.slice source) t.kind t.value)
    (hlen : gaps.length = row.length) (hgaps : ∀ gap ∈ gaps, gap ≠ "" ∧ IsGap gap.toList) :
    Reads Anything (String.join (List.zipWith (fun t gap => t.slice source ++ gap) row gaps))
      (fun us => us.map content = row.map content) := by
  induction row generalizing gaps with
  | nil => exact (reads_empty _).imp fun us hus => by rw [hus]
  | cons t row ih =>
    obtain ⟨gap, gaps, rfl⟩ := List.exists_cons_of_length_eq_add_one hlen
    obtain ⟨ht, hrow⟩ := List.forall_mem_cons.mp hrow
    obtain ⟨⟨hne, hgap⟩, hgaps⟩ := List.forall_mem_cons.mp hgaps
    have hne : gap.toList ≠ [] := by simpa using hne
    -- the gap behind a lexeme parts it from the next one
    have hpiece := ht.reads.append hgap.reads fun rest _ => hgap.parted hne rest
    rw [List.zipWith_cons_cons, String.join_cons]
    refine (hpiece.append (ih hrow (by simpa using hlen) hgaps) fun _ _ => trivial).imp ?_
    rintro us ⟨_, rest, rfl, ⟨_, _, rfl, ⟨span, rfl⟩, rfl⟩, hrest⟩
    simp only [List.append_nil, List.cons_append, List.nil_append, List.map_cons, hrest]
    rfl

/-- Lexemes with other gaps between them are read as tokens with the same contents. -/
theorem tokenize_laidOut {source file : String} {row : List Token} {ending : Token}
    (h : tokenize source file = .ok (row ++ [ending]))
    (hsize : Text.byteLength source.toList < UInt32.size) {lead : String} {gaps : List String}
    (hlead : IsGap lead.toList) (hlen : gaps.length = row.length)
    (hgaps : ∀ gap ∈ gaps, gap ≠ "" ∧ IsGap gap.toList) :
    ∃ row' ending', tokenize (laidOut source row lead gaps) file = .ok (row' ++ [ending']) ∧
      (row' ++ [ending']).map content = (row ++ [ending]).map content := by
  obtain ⟨row₀, heq, hstand⟩ := Scan.tokens_stand h
  obtain ⟨rfl, hend⟩ := List.append_inj' heq rfl
  obtain rfl := List.singleton_inj.mp hend
  have hpieces := reads_pieces (fun t ht => (hstand t ht).slice hsize) hlen hgaps
  have hreads : Reads Fenced _ _ :=
    (hlead.reads.append hpieces fun _ _ => trivial).before fun _ _ => trivial
  obtain ⟨row', span, ⟨_, us, rfl, rfl, hus⟩, htok⟩ := hreads.tokenize file
  refine ⟨_, _, htok, ?_⟩
  rw [List.nil_append, List.map_append, List.map_append, hus]
  rfl

end Token

/-! ## Builds -/

/-- Texts of fewer than `2 ^ 32` bytes with the same lexemes, whatever white space and comments
stand between them, have tokens with the same contents. So they fail to build with the same fault,
or they build the same typed query, with the same symbols, and report the same faults in the same
order. -/
theorem Build.layout_irrelevant {source : String} {options : BuildOptions} {row : List Token}
    {ending : Token}
    (htok : Token.tokenize source (options.fileName.getD "<string>") = .ok (row ++ [ending]))
    {lead : String} {gaps : List String} (hlead : IsGap lead.toList)
    (hlen : gaps.length = row.length) (hgaps : ∀ gap ∈ gaps, gap ≠ "" ∧ IsGap gap.toList)
    (hsize : Text.byteLength source.toList < UInt32.size)
    (hsize' : Text.byteLength (Token.laidOut source row lead gaps).toList < UInt32.size) :
    (∃ tokens, Token.tokenize (Token.laidOut source row lead gaps)
        (options.fileName.getD "<string>") = .ok tokens ∧
      tokens.map Token.content = (row ++ [ending]).map Token.content) ∧
    ((∃ d d', Build.ofText source options = .error d ∧
        Build.ofText (Token.laidOut source row lead gaps) options = .error d' ∧
        d'.fault = d.fault) ∨
      ∃ b b', Build.ofText source options = .ok b ∧
        Build.ofText (Token.laidOut source row lead gaps) options = .ok b' ∧
        b'.query.unplaced = b.query.unplaced ∧ b'.query.symbols = b.query.symbols ∧
        b'.diagnostics.map Diagnostic.fault = b.diagnostics.map Diagnostic.fault) := by
  obtain ⟨row', ending', htok', hcontent⟩ := Token.tokenize_laidOut htok hsize hlead hlen hgaps
  refine ⟨⟨_, htok', hcontent⟩, ?_⟩
  have hread := Query.ofTokens_relaid (Token.tokenize_row htok).1 (Token.tokenize_row htok').1
    (Token.tokenize_inSequence htok hsize) (Token.tokenize_inSequence htok' hsize') hcontent
    (options.fileName.getD "<string>")
  rcases hread with ⟨d, d', hd, hd', hfault⟩ | ⟨q, q', hq, hq', hrelaid⟩
  · exact .inl ⟨d, d', Build.ofSource_eq_error_iff.mpr (.inr ⟨_, htok, hd⟩),
      Build.ofSource_eq_error_iff.mpr (.inr ⟨_, htok', hd'⟩), hfault⟩
  · have hsame := Typing.query_relaid options.policy hrelaid
    have hquery : (Typing.query options.policy q').value.unplaced =
        (Typing.query options.policy q).value.unplaced := congrArg Checked.value hsame
    have hsymbols := congrArg Typed.Query.symbols hquery
    have hreports := congrArg (fun c => c.diagnostics.map Diagnostic.fault) hsame
    simp only [Checked.erased, List.map_map] at hreports
    exact .inr ⟨_, _, Build.ofSource_eq_ok_iff.mpr ⟨_, q, htok, hq, rfl⟩,
      Build.ofSource_eq_ok_iff.mpr ⟨_, q', htok', hq', rfl⟩, hquery, hsymbols, hreports⟩

/-- A source with as little white space as can be. -/
def Build.terseSource : String :=
  "(vnnlib-version<2.0>)(declare-network N(declare-input x float32[2]))(assert(<=x[2]-1))"

/-- Its tokens, without the end. -/
def Build.terseRow : List Token :=
  ((Token.tokenize terseSource "<string>").toOption.getD []).dropLast

theorem Build.terseSource_layout_irrelevant :
    ∃ b b', Build.ofText Build.terseSource {} = .ok b ∧
      Build.ofText (Token.laidOut Build.terseSource Build.terseRow "\u00a0"
        (List.replicate Build.terseRow.length ";=\n")) {} = .ok b' ∧
      b'.query.unplaced = b.query.unplaced ∧ b'.query.symbols = b.query.symbols ∧
      b'.diagnostics.map Diagnostic.fault = [.indexOutOfBounds "x" 2 0 2] := by
  have hfaults : (Build.ofText Build.terseSource {}).toOption.map (fun b =>
      b.diagnostics.map Diagnostic.fault) = some [.indexOutOfBounds "x" 2 0 2] := by decide +kernel
  have hlead : IsGap "\u00a0".toList := .blank (by decide) .nil
  have hgap : IsGap ";=\n".toList := .comment (show '\n' ∉ ['='] by simp) .nil
  have hgaps : ∀ gap ∈ List.replicate Build.terseRow.length ";=\n",
      gap ≠ "" ∧ IsGap gap.toList := by
    intro gap hmem
    obtain ⟨_, rfl⟩ := List.mem_replicate.mp hmem
    exact ⟨by decide, hgap⟩
  cases hb : Build.ofText Build.terseSource {} with
  | error d =>
    rw [hb] at hfaults
    cases hfaults
  | ok b =>
    obtain ⟨tokens, _, htok, _⟩ := Build.ofSource_eq_ok_iff.mp hb
    obtain ⟨row, span, rfl, _⟩ := Token.Scan.tokens_row htok
    obtain rfl : Build.terseRow = row := by
      have hname : ({} : BuildOptions).fileName.getD "<string>" = "<string>" := rfl
      rw [hname] at htok
      simp [Build.terseRow, htok, Except.toOption]
    obtain ⟨_, hbuilds⟩ := Build.layout_irrelevant htok hlead (List.length_replicate ..) hgaps
      (by decide +kernel) (by decide +kernel)
    rcases hbuilds with ⟨d, _, hd, _⟩ | ⟨_, b', hb₁, hb', hquery, hsymbols, hreports⟩
    · cases hd.symm.trans hb
    · obtain rfl := Except.ok.inj (hb₁.symm.trans hb)
      rw [hb] at hfaults
      exact ⟨_, b', rfl, hb', hquery, hsymbols, hreports.trans (Option.some.inj hfaults)⟩

end NeuralQuery
