import NeuralQuery.Proofs.Spelling

/-!
# NeuralQuery.Proofs.Tiling

Tokens tile their text (`Token.tokenize_tiles`).

* `Tiles file n cs row` : with `n` bytes before it, the text `cs` is the lexemes of these tokens
  with gaps around them, and each token has the span of its lexeme.
* `Token.Quotes`        : the value of a token is its lexeme, or for a string what the text between
  its quotes means.
-/

namespace NeuralQuery

/-! ## Gaps -/

namespace IsGap

theorem blanks {w v : List Char} (hw : ∀ c ∈ w, Text.isBlank c = true) (h : IsGap v) :
    IsGap (w ++ v) := by
  induction w with
  | nil => exact h
  | cons c w ih =>
    obtain ⟨hc, hw⟩ := List.forall_mem_cons.mp hw
    exact .blank hc (ih hw)

theorem of_newline {v : List Char} (h : IsGap ('\n' :: v)) : IsGap v := by
  generalize hcs : '\n' :: v = cs at h
  cases h with
  | nil => cases hcs
  | blank _ hw =>
    obtain ⟨_, rfl⟩ := List.cons.inj hcs
    exact hw
  | comment _ _ => simp at hcs

end IsGap

namespace Token

/-! ## Lexemes -/

/-- The value of a token is its text, or for a string what the text between the quotes means. -/
def Quotes (t : Token) (text : List Char) : Prop :=
  (t.kind ≠ .string ∧ t.value = String.ofList text) ∨
    (t.kind = .string ∧ ∃ inner, text = '"' :: (inner ++ ['"']) ∧
      t.value = String.ofList (Text.unescape inner))

namespace Shape.Spells

variable {shape : Shape} {text : List Char} {span : Span} {t : Token} (h : shape.Spells text)
include h

theorem ne_nil : text ≠ [] :=
  (cut?_of h.mem_all h.cut?).1

variable (ht : shape.token? text span = some t)
include ht

theorem quotes : t.Quotes text := by
  cases h with
  | blank _ _ => cases ht
  | comment _ => cases ht
  | number _ =>
    cases ht
    exact .inl ⟨by simp, rfl⟩
  | @string inner _ =>
    cases ht
    exact .inr ⟨rfl, inner, rfl, by simp⟩
  | word _ =>
    cases ht
    refine .inl ⟨fun hkind => ?_, rfl⟩
    have hword := Kind.ofWord_mem (String.ofList text)
    simp only at hkind
    simp [hkind, Kind.reserved] at hword
  | @mark m kind hm =>
    cases ht
    refine .inl ⟨fun hkind => ?_, rfl⟩
    simp only at hkind
    simp [hkind, Kind.marks] at hm

theorem head_ne_newline (rest : List Char) : (text ++ rest).head? ≠ some '\n' := by
  obtain ⟨c, ds, rfl⟩ := List.exists_cons_of_ne_nil h.ne_nil
  have hshape : shape ≠ .blank := by
    rintro rfl
    cases ht
  intro hc
  obtain rfl := Option.some.inj hc
  exact not_spells_newline hshape ds h

end Shape.Spells

/-! ## Tiles -/

/-- The text `cs`, with `n` bytes before it, is the lexemes of these tokens with a gap in front of
each. What follows the last one is a gap if the end of the text counts as the end of a line. -/
inductive Tiles (file : String) : Nat → List Char → List Token → Prop where
  | gap {n : Nat} {w : List Char} : IsGap (w ++ ['\n']) → Tiles file n w []
  | token {n : Nat} {w text rest : List Char} {shape : Shape} {t : Token} {row : List Token} :
      IsGap w → shape.Spells text → shape.token? text t.span = some t →
      t.span = ⟨file, n + Text.byteLength w, n + Text.byteLength (w ++ text)⟩ →
      Tiles file (n + Text.byteLength (w ++ text)) rest row →
      Tiles file n (w ++ (text ++ rest)) (t :: row)

namespace Tiles

variable {file : String} {n : Nat} {cs w : List Char} {row : List Token}

/-- Characters in front of a tiled text go into its first gap. -/
theorem prepend (hw : ∀ v rest, cs ++ ['\n'] = v ++ rest → rest.head? ≠ some '\n' → IsGap v →
      IsGap (w ++ v)) (h : Tiles file (n + Text.byteLength w) cs row) :
    Tiles file n (w ++ cs) row := by
  cases h with
  | gap hgap =>
    refine .gap ?_
    rw [List.append_assoc]
    exact hw (cs ++ ['\n']) [] (by simp) (by simp) hgap
  | @token _ v text rest _ t row hgap hspells htoken hspan hrest =>
    have hlead := hw v (text ++ (rest ++ ['\n'])) (by simp) (hspells.head_ne_newline htoken _) hgap
    have hbytes : n + Text.byteLength w + Text.byteLength (v ++ text) =
        n + Text.byteLength (w ++ v ++ text) := by
      simp only [Text.byteLength_append]
      omega
    rw [← List.append_assoc]
    refine .token hlead hspells htoken ?_ (hbytes ▸ hrest)
    rw [hspan, hbytes, Text.byteLength_append w v, Nat.add_assoc]

theorem blanks (hw : ∀ c ∈ w, Text.isBlank c = true)
    (h : Tiles file (n + Text.byteLength w) cs row) : Tiles file n (w ++ cs) row :=
  h.prepend fun _ _ _ _ hgap => hgap.blanks hw

/-- A comment goes on to the end of its line, and the next gap with that end. -/
theorem comment {body : List Char} (hb : '\n' ∉ body) (hend : Stops (· != '\n') cs)
    (h : Tiles file (n + Text.byteLength (';' :: body)) cs row) :
    Tiles file n (';' :: body ++ cs) row := by
  refine h.prepend fun v rest hsplit hrest hgap => ?_
  have hline : (cs ++ ['\n']).head? = some '\n' := by
    rcases cs with _ | ⟨c, cs⟩
    · rfl
    · have hc : c = '\n' := by simpa using hend c rfl
      rw [hc]
      rfl
  -- no lexeme starts with the end of a line, so that the gap is not empty
  rw [hsplit] at hline
  rcases v with _ | ⟨c, v⟩
  · exact absurd hline hrest
  · obtain rfl := Option.some.inj hline
    exact .comment hb hgap.of_newline

end Tiles

/-- What a comment leaves is nothing, or starts with the end of its line. -/
theorem Shape.stops_of_comment {body rest : List Char}
    (h : first? (';' :: body ++ rest) = some (.comment, ⟨';' :: body, rest⟩)) :
    Stops (· != '\n') rest := by
  have hcut : (Cut.run (· != '\n') (body ++ rest)).behind [';'] = ⟨';' :: body, rest⟩ :=
    Option.some.inj (mem_of_first? h).2
  have hrun : Cut.run (· != '\n') (body ++ rest) = ⟨body, rest⟩ := by
    have htaken : (Cut.run (· != '\n') (body ++ rest)).taken = body :=
      (List.cons.inj (congrArg Cut.taken hcut)).2
    have hrest : (Cut.run (· != '\n') (body ++ rest)).rest = rest := congrArg Cut.rest hcut
    calc Cut.run (· != '\n') (body ++ rest)
        = ⟨(Cut.run (· != '\n') (body ++ rest)).taken,
            (Cut.run (· != '\n') (body ++ rest)).rest⟩ := rfl
      _ = ⟨body, rest⟩ := by rw [htaken, hrest]
  exact (run_eq_iff.mp hrun).2

/-- The tokens ahead tile the text ahead. -/
theorem Scan.tokens_tile {s : Scan} {ts : List Token} (h : s.tokens = .ok ts)
    (hb : s.offset + Text.byteLength s.ahead < UInt32.size) :
    ∃ row, ts = row ++ [s.ending] ∧ Tiles s.file s.offset s.ahead row := by
  refine tokens_induct (P := fun s ts => s.offset + Text.byteLength s.ahead < UInt32.size →
    ∃ row, ts = row ++ [s.ending] ∧ Tiles s.file s.offset s.ahead row) ?_ ?_ _ rfl h hb
  · intro s hs _
    refine ⟨[], by simp [ending, hs, spanOf], ?_⟩
    rw [hs]
    exact .gap (.blank rfl .nil)
  · rintro s shape ⟨taken, rest⟩ ts hf ih hb
    have happ : taken ++ rest = s.ahead := (Shape.first?_of hf).2
    have hspells : shape.Spells taken := Shape.spells_of_first? hf
    rw [← happ] at hf hb
    rw [Text.byteLength_append] at hb
    obtain ⟨row, rfl, htiles⟩ := ih (by simp only [past]; omega)
    rw [ending_past happ, ← happ]
    cases htoken : shape.token? taken (s.spanOf (Text.byteLength taken)) with
    | some t =>
      have hspan : t.span = ⟨s.file, s.offset, s.offset + Text.byteLength taken⟩ := by
        rw [Shape.token?_span htoken, spanOf, Span.ofBytes, Position.wrap_of_lt (by omega),
          Position.wrap_of_lt (by omega)]
      refine ⟨t :: row, rfl, ?_⟩
      exact .token (w := []) .nil hspells (Shape.token?_span htoken ▸ htoken) hspan htiles
    | none =>
      refine ⟨row, rfl, ?_⟩
      cases hspells with
      | blank _ hblank => exact htiles.blanks hblank
      | comment hbody => exact htiles.comment hbody (Shape.stops_of_comment hf)
      | _ => cases htoken

/-- The tokens of a text of fewer than `2 ^ 32` bytes tile it, with a token for its end behind them.
A text without tokens is reported at a character of it, at which nothing starts that is skipped or
makes a token, and has tokens up to there. -/
theorem tokenize_tiles (source file : String)
    (hsize : Text.byteLength source.toList < UInt32.size) :
    (∀ tokens, tokenize source file = .ok tokens →
      ∃ row, tokens = row ++ [ending ⟨file, Text.byteLength source.toList,
          Text.byteLength source.toList⟩] ∧
        Laid file row ∧ Tiles file 0 source.toList row ∧
        ∀ t ∈ row, t.kind ≠ .eof ∧ ∃ front text rest, source.toList = front ++ (text ++ rest) ∧
          t.span = ⟨file, Text.byteLength front, Text.byteLength (front ++ text)⟩ ∧
          t.Quotes text) ∧
    ∀ d, tokenize source file = .error d →
      ∃ front c back, source.toList = front ++ c :: back ∧
        d = ⟨.unrecognisedToken (String.singleton c), ⟨Text.byteLength front, file⟩⟩ ∧
        (∀ (shape : Shape) (text : List Char), text <+: c :: back → ¬ shape.Spells text) ∧
        ∃ tokens, tokenize (String.ofList front) file = .ok tokens := by
  constructor
  · intro tokens h
    obtain ⟨row, rfl, htiles⟩ := Scan.tokens_tile h (by simpa [Scan.ofSource] using hsize)
    obtain ⟨_, hlexemes, _⟩ := tokenize_row h
    obtain ⟨row', heq, hstand⟩ := Scan.tokens_stand h
    obtain ⟨rfl, _⟩ := List.append_inj' heq rfl
    refine ⟨row, ?_, tokenize_laid h hsize, htiles, fun t ht => ⟨(hlexemes t ht).ne_eof, ?_⟩⟩
    · simp [Scan.ending, Scan.ofSource, Span.ofBytes, Position.wrap_of_lt hsize]
    · obtain ⟨front, text, rest, shape, hsource, hfirst, htoken, hspan⟩ := (hstand t ht).span hsize
      exact ⟨front, text, rest, hsource, hspan, (Shape.spells_of_first? hfirst).quotes htoken⟩
  · intro d h
    obtain ⟨front, c, back, hahead, rfl, hnone, tokens, htokens⟩ := Scan.tokens_stuck h
    have hahead : source.toList = front ++ c :: back := hahead
    refine ⟨front, c, back, hahead, ?_, ?_, tokens, ?_⟩
    · rw [hahead, Text.byteLength_append] at hsize
      have hfront : Text.byteLength front < UInt32.size := by omega
      simp [Scan.ofSource, Position.ofBytes, Position.wrap_of_lt hfront]
    · intro shape text htext
      exact Shape.not_spells_of_first? hnone htext shape
    · simpa [tokenize, Scan.ofSource, Scan.only] using htokens

/-- A comment with a character of two bytes, a string with an escape, and a comment at the end. -/
def commentedSource : String :=
  "(x ; é\n\"a\\n\");z"

/-- The same comment, and behind it a character that starts no token. -/
def strayCharacterSource : String :=
  "; é\nx é"

theorem tokenize_tiles_commentedSource :
    (∃ row, tokenize commentedSource "q" = .ok (row ++ [ending ⟨"q", 16, 16⟩]) ∧
      row.map (fun t => (t.value, t.span.start, t.span.stop)) =
        [("(", 0, 1), ("x", 1, 2), ("a\n", 8, 13), (")", 13, 14)] ∧
      Laid "q" row ∧ Tiles "q" 0 commentedSource.toList row) ∧
    ∃ front back, strayCharacterSource.toList = front ++ 'é' :: back ∧
      Text.byteLength front = 7 ∧ ∃ tokens, tokenize (String.ofList front) "q" = .ok tokens := by
  constructor
  · have hbytes : Text.byteLength commentedSource.toList = 16 := by decide +kernel
    have hvalues : (tokenize commentedSource "q").toOption.any (fun tokens =>
        tokens.map (fun t => (t.value, t.span.start, t.span.stop)) ==
          [("(", 0, 1), ("x", 1, 2), ("a\n", 8, 13), (")", 13, 14)] ++ [("EOF", 16, 16)]) =
            true := by
      decide +kernel
    cases h : tokenize commentedSource "q" with
    | error d =>
      rw [h] at hvalues
      cases hvalues
    | ok tokens =>
      rw [h, Except.toOption, Option.any_some, beq_iff_eq] at hvalues
      obtain ⟨row, rfl, hlaid, htiles, _⟩ :=
        (tokenize_tiles commentedSource "q" (by rw [hbytes]; decide)).1 tokens h
      rw [hbytes] at hvalues ⊢
      rw [List.map_append] at hvalues
      exact ⟨row, rfl, (List.append_inj' hvalues rfl).1, hlaid, htiles⟩
  · have herror : tokenize strayCharacterSource "q" =
        .error ⟨.unrecognisedToken "é", ⟨7, "q"⟩⟩ := by
      decide +kernel
    obtain ⟨front, c, back, hsource, hd, _, htokens⟩ :=
      (tokenize_tiles strayCharacterSource "q" (by decide +kernel)).2 _ herror
    have hc : String.singleton 'é' = String.singleton c :=
      Fault.unrecognisedToken.inj (congrArg Diagnostic.fault hd)
    obtain rfl : 'é' = c := by simpa using congrArg String.toList hc
    exact ⟨front, back, hsource, (congrArg (fun d => d.position.offset) hd).symm, htokens⟩

end Token
end NeuralQuery
