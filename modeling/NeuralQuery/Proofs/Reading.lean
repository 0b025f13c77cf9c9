import Mathlib.Data.List.Forall2
import NeuralQuery.Proofs.Derivation
import NeuralQuery.Proofs.Relexing

/-!
# NeuralQuery.Proofs.Reading

Texts that are put together from lexemes, and the tokens they are read as.

* `Lexes stop text kind value` : the text is one lexeme, in front of any text that `stop` admits.
* `Reads stop text P`          : the text is read as a row of tokens with the property `P`, and what
  stands behind it is read as if it stood alone.

A text is read piece by piece (`Reads.append`), so that the row of a form is made of the rows of its
parts (`reads_form`).
-/

namespace NeuralQuery
namespace Token

/-! ## Scans -/

theorem Shape.token?_span {shape : Shape} {text : List Char} {span : Span} {t : Token}
    (h : shape.token? text span = some t) : t.span = span := by
  cases shape <;> cases h <;> rfl

theorem Shape.token?_content {shape : Shape} {text : List Char} {span : Span} {t : Token}
    (h : shape.token? text span = some t) (span' : Span) :
    shape.token? text span' = some ⟨t.kind, t.value, span'⟩ := by
  cases shape <;> cases h <;> rfl

namespace Scan

theorem past_past (s : Scan) (taken more : List Char) (rest rest' : List Char) :
    (s.past ⟨taken, rest⟩).past ⟨more, rest'⟩ = s.past ⟨taken ++ more, rest'⟩ := by
  simp [past, Nat.add_assoc]

/-- White space ahead makes no token. -/
theorem tokens_run (s : Scan) : s.tokens = (s.past (Cut.run Text.isBlank s.ahead)).tokens := by
  by_cases h : s.ahead.takeWhile Text.isBlank = []
  · have hdrop : s.ahead.dropWhile Text.isBlank = s.ahead := by
      have happ := List.takeWhile_append_dropWhile (p := Text.isBlank) (l := s.ahead)
      rwa [h, List.nil_append] at happ
    rw [Cut.run, h, hdrop]
    rfl
  · have hcut : Shape.cut? .blank s.ahead = some (Cut.run Text.isBlank s.ahead) := by
      simpa [Shape.cut?, Cut.run] using h
    have hall : Shape.all = [] ++ .blank :: _ := rfl
    rw [tokens_of_some (Shape.first?_of_cut hall (by simp) hcut)]
    cases (s.past (Cut.run Text.isBlank s.ahead)).tokens <;> rfl

theorem tokens_blanks {s : Scan} {cs rest : List Char} (hs : s.ahead = cs ++ rest)
    (hb : ∀ c ∈ cs, Text.isBlank c = true) : s.tokens = (s.past ⟨cs, rest⟩).tokens := by
  rw [tokens_run s, tokens_run (s.past ⟨cs, rest⟩), hs, Cut.run, Cut.run, past_past,
    List.takeWhile_append_of_pos hb, List.dropWhile_append_of_pos hb]
  rfl

/-- In a text of fewer than `2 ^ 32` bytes every token has some length, and ends before the ones
behind it start. -/
theorem tokens_ordered {s : Scan} {ts : List Token} (h : s.tokens = .ok ts)
    (hb : s.offset + Text.byteLength s.ahead < UInt32.size) :
    ts.Pairwise (fun t u => t.span.start < t.span.stop ∧ t.span.stop ≤ u.span.start) ∧
      ∀ t ∈ ts, s.offset ≤ t.span.start := by
  refine tokens_induct (P := fun s ts => s.offset + Text.byteLength s.ahead < UInt32.size →
    ts.Pairwise (fun t u => t.span.start < t.span.stop ∧ t.span.stop ≤ u.span.start) ∧
      ∀ t ∈ ts, s.offset ≤ t.span.start) ?_ ?_ _ rfl h hb
  · intro s hs hb
    have hstart : (Token.ending (s.spanOf 0)).span.start = s.offset :=
      Position.wrap_of_lt (by omega)
    simp [hstart]
  · intro s shape c ts hf ih hb
    obtain ⟨hne, happ⟩ := Shape.first?_of hf
    have hbytes : Text.byteLength s.ahead = Text.byteLength c.taken + Text.byteLength c.rest := by
      rw [← happ, Text.byteLength_append]
    have hpos := Text.byteLength_pos hne
    obtain ⟨hrest, hle⟩ := ih (by simp only [past]; omega)
    have hlt : ∀ u ∈ ts, s.offset + Text.byteLength c.taken ≤ u.span.start := hle
    cases ht : shape.token? c.taken (s.spanOf (Text.byteLength c.taken)) with
    | none =>
      refine ⟨hrest, fun u hu => ?_⟩
      have := hlt u hu
      omega
    | some t =>
      have hspan := Shape.token?_span ht
      have hstart : t.span.start = s.offset := by
        rw [hspan]
        exact Position.wrap_of_lt (by omega)
      have hstop : t.span.stop = s.offset + Text.byteLength c.taken := by
        rw [hspan]
        exact Position.wrap_of_lt (by omega)
      refine ⟨List.pairwise_cons.mpr ⟨fun u hu => ?_, hrest⟩, List.forall_mem_cons.mpr
        ⟨Nat.le_of_eq hstart.symm, fun u hu => ?_⟩⟩
      · have := hlt u hu
        omega
      · have := hlt u hu
        omega

end Scan

/-! ## One lexeme -/

/-- The text is read as one token, in front of any text that `stop` admits. -/
def Lexes (stop : List Char → Prop) (text : String) (kind : Kind) (value : String) : Prop :=
  ∀ rest, stop rest → ∃ shape,
    Shape.first? (text.toList ++ rest) = some (shape, ⟨text.toList, rest⟩) ∧
      ∀ span, shape.token? text.toList span = some ⟨kind, value, span⟩

/-- Any text may follow. -/
def Anything (_ : List Char) : Prop :=
  True

theorem lexes_word {word : String} (h : Shape.IsWord word.toList) :
    Lexes Fenced word (Kind.ofWord word) word := fun rest hr =>
  ⟨.word, Shape.first?_word h hr.parted, fun span => by simp [Shape.token?]⟩

theorem lexes_number {text : String} (h : IsNumberText text.toList) :
    Lexes Fenced text .number text := fun rest hr =>
  ⟨.number, Shape.first?_number h hr.parted, fun span => by simp [Shape.token?]⟩

theorem lexes_bracket {m : String × Kind} (h : m ∈ Kind.marks.take 5) :
    Lexes Anything m.1 m.2 m.1 := fun rest _ =>
  ⟨.mark m.1 m.2, Shape.first?_bracket h rest, fun span => by simp [Shape.token?]⟩

theorem lexes_mark {m : String × Kind} (h : m ∈ Kind.marks) : Lexes Fenced m.1 m.2 m.1 :=
  fun rest hr => ⟨.mark m.1 m.2, Shape.first?_mark h hr.parted, fun span => by simp [Shape.token?]⟩

/-- A text in quotes is read whole, characters that do not survive by their escapes. -/
theorem lexes_quote (s : String) :
    Lexes Anything (Text.quote s) .string (String.ofList (s.toList.flatMap Text.reread)) := by
  intro rest _
  have hfirst := Shape.first?_quoteChars s.toList rest
  refine ⟨.string, by simpa [Text.quote] using hfirst, fun span => ?_⟩
  simp [Shape.token?, Text.quote, Text.quoteChars, Text.unescape_escape]

theorem lexes_surviving {s : String} (h : ∀ c ∈ s.toList, Text.Survives c) :
    Lexes Anything (Text.quote s) .string s := by
  simpa [Text.flatMap_reread h] using lexes_quote s

theorem lexes_reserved {m : String × Kind} (h : m ∈ Kind.reserved) :
    Lexes Fenced m.1 m.2 m.1 := by
  have hall : ∀ m ∈ Kind.reserved, m.1.toList ≠ [] ∧
      (m.1.toList.take 1).all Shape.isWordStart = true ∧
      (m.1.toList.drop 1).all Shape.isWordRest = true ∧ Kind.ofWord m.1 = m.2 := by decide
  obtain ⟨hne, hstart, hrest, hk⟩ := hall m h
  exact hk ▸ lexes_word (.of_all hne hstart hrest)

/-! ## Texts -/

/-- The text is read as a row with the property `P`, in front of any text that `stop` admits. -/
def Reads (stop : List Char → Prop) (text : String) (P : List Token → Prop) : Prop :=
  ∀ (s : Scan) (rest : List Char), s.ahead = text.toList ++ rest → stop rest →
    ∃ row, P row ∧ s.tokens = (s.past ⟨text.toList, rest⟩).tokens.map (row ++ ·)

def IsToken (kind : Kind) (value : String) (row : List Token) : Prop :=
  ∃ span, row = [⟨kind, value, span⟩]

/-- A row with the property `P`, and behind it one with the property `Q`. -/
def Beside (P Q : List Token → Prop) (row : List Token) : Prop :=
  ∃ ts us, row = ts ++ us ∧ P ts ∧ Q us

/-- One row after the other, each with its property. -/
def Rows (Ps : List (List Token → Prop)) (row : List Token) : Prop :=
  ∃ rows : List (List Token), row = rows.flatten ∧ List.Forall₂ (fun P ts => P ts) Ps rows

variable {stop stop' : List Char → Prop} {text text' : String} {P Q : List Token → Prop}

theorem fenced_cons {c : Char} {cs : List Char} (h : c ∈ fences) : Fenced (c :: cs) := by
  intro d hd
  obtain rfl : c = d := by simpa using hd
  exact h

theorem Lexes.reads {kind : Kind} {value : String} (h : Lexes stop text kind value) :
    Reads stop text (IsToken kind value) := by
  intro s rest hs hr
  obtain ⟨shape, hf, htok⟩ := h rest hr
  rw [← hs] at hf
  refine ⟨[⟨kind, value, s.spanOf (Text.byteLength text.toList)⟩], ⟨_, rfl⟩, ?_⟩
  rw [Scan.tokens_of_some hf, htok]
  rfl

namespace Reads

theorem imp (h : Reads stop text P) (hpq : ∀ row, P row → Q row) : Reads stop text Q := by
  intro s rest hs hr
  obtain ⟨row, hrow, htok⟩ := h s rest hs hr
  exact ⟨row, hpq row hrow, htok⟩

theorem before (h : Reads stop text P) (hstop : ∀ rest, stop' rest → stop rest) :
    Reads stop' text P :=
  fun s rest hs hr => h s rest hs (hstop rest hr)

theorem append (h : Reads stop text P) (h' : Reads stop' text' Q)
    (hstop : ∀ rest, stop' rest → stop (text'.toList ++ rest)) :
    Reads stop' (text ++ text') (Beside P Q) := by
  intro s rest hs hr
  rw [String.toList_append, List.append_assoc] at hs
  obtain ⟨ts, hts, heq⟩ := h s _ hs (hstop rest hr)
  obtain ⟨us, hus, heq'⟩ := h' (s.past ⟨text.toList, text'.toList ++ rest⟩) rest rfl hr
  refine ⟨ts ++ us, ⟨ts, us, rfl, hts, hus⟩, ?_⟩
  rw [heq, heq', Scan.past_past, String.toList_append]
  cases (s.past ⟨text.toList ++ text'.toList, rest⟩).tokens with
  | error e => rfl
  | ok more => simp [Except.map]

end Reads

/-- A text that is read to its end. -/
theorem Reads.tokenize (h : Reads Fenced text P) (file : String) :
    ∃ row span, P row ∧ tokenize text file = .ok (row ++ [Token.ending span]) := by
  have hs : (Scan.ofSource text file).ahead = text.toList ++ [] := by simp [Scan.ofSource]
  obtain ⟨row, hrow, htok⟩ := h _ [] hs (by simp [Fenced])
  rw [Scan.tokens_of_nil (s := (Scan.ofSource text file).past ⟨text.toList, []⟩) rfl] at htok
  exact ⟨row, _, hrow, htok⟩

theorem reads_empty (stop : List Char → Prop) : Reads stop "" (· = []) := by
  intro s rest hs _
  refine ⟨[], rfl, ?_⟩
  have hpast : s.past ⟨"".toList, rest⟩ = s := by
    have hs : s.ahead = rest := hs
    simp [Scan.past, ← hs]
  rw [hpast]
  cases s.tokens <;> rfl

/-! ## Forms -/

/-- A lead that white space makes up and that fences off what stands before it. -/
structure IsLead (lead : String) : Prop where
  blank : lead.toList.all Text.isBlank = true
  fence : lead.toList.head?.any fences.contains = true

theorem IsLead.reads {lead : String} (h : IsLead lead) : Reads Anything lead (· = []) := by
  intro s rest hs _
  refine ⟨[], rfl, ?_⟩
  rw [Scan.tokens_blanks hs (List.all_eq_true.mp h.blank)]
  cases (s.past ⟨lead.toList, rest⟩).tokens <;> rfl

theorem IsLead.fenced {lead : String} (h : IsLead lead) (rest : List Char) :
    Fenced (lead.toList ++ rest) := by
  obtain ⟨c, hhead, hc⟩ := (Option.any_eq_true _ _).mp h.fence
  obtain ⟨cs, hcs⟩ := List.head?_eq_some_iff.mp hhead
  rw [hcs]
  exact fenced_cons (by simpa using hc)

theorem led_cons (lead part : String) (parts : List String) :
    Text.led lead (part :: parts) = lead ++ (part ++ Text.led lead parts) := by
  simp [Text.led, String.append_assoc]

theorem led_fenced {lead : String} (h : IsLead lead) (parts : List String) {rest : List Char}
    (hr : Fenced rest) : Fenced ((Text.led lead parts).toList ++ rest) := by
  cases parts with
  | nil => exact hr
  | cons part parts =>
    rw [led_cons, String.toList_append, List.append_assoc]
    exact h.fenced _

theorem reads_led {lead : String} (hl : IsLead lead) {parts : List String}
    {Ps : List (List Token → Prop)} (h : List.Forall₂ (Reads Fenced) parts Ps) :
    Reads Fenced (Text.led lead parts) (Rows Ps) := by
  induction h with
  | nil => exact (reads_empty _).imp fun row hrow => ⟨[], hrow, .nil⟩
  | @cons part P parts Ps hpart _ ih =>
    rw [led_cons]
    have hrest := hpart.append ih fun _ hr => led_fenced hl parts hr
    refine (hl.reads.append hrest fun _ _ => trivial).imp ?_
    rintro row ⟨_, _, rfl, rfl, ts, us, rfl, hts, rows, rfl, hrows⟩
    exact ⟨ts :: rows, rfl, .cons hts hrows⟩

theorem reads_open : Reads Anything "(" (IsToken .openParen "(") :=
  Lexes.reads (lexes_bracket (m := ("(", .openParen)) (by decide))

theorem reads_close : Reads Anything ")" (IsToken .closeParen ")") :=
  Lexes.reads (lexes_bracket (m := (")", .closeParen)) (by decide))

/-- Tokens in parentheses: a head, and behind it rows with these properties. -/
inductive IsForm (kind : Kind) (Ps : List (List Token → Prop)) : List Token → Prop where
  | mk {left head right : Token} {rows : List (List Token)} :
      left.kind = .openParen → head.kind = kind → List.Forall₂ (fun P ts => P ts) Ps rows →
      right.kind = .closeParen → IsForm kind Ps (left :: head :: (rows.flatten ++ [right]))

theorem reads_form {head : String} {kind : Kind} {value : String}
    (hh : Lexes Fenced head kind value) {parts : List String} {Ps : List (List Token → Prop)}
    (h : List.Forall₂ (Reads Fenced) parts Ps) :
    Reads Anything (Text.form head parts) (IsForm kind Ps) := by
  have hlead : IsLead " " := ⟨by decide, by decide⟩
  have hparts := reads_open.append (hh.reads.append (reads_led hlead h) fun _ hr =>
    led_fenced hlead parts hr) fun _ _ => trivial
  have hform := hparts.append reads_close fun _ _ => fenced_cons (by decide)
  have htext : Text.form head parts = "(" ++ (head ++ Text.led " " parts) ++ ")" := by
    simp [Text.form, String.append_assoc]
  rw [htext]
  refine hform.imp ?_
  rintro row ⟨_, _, rfl, ⟨_, _, rfl, ⟨_, rfl⟩, _, _, rfl, ⟨_, rfl⟩, rows, rfl, hrows⟩, _, rfl⟩
  exact .mk rfl rfl hrows rfl

/-! ## Integers in brackets -/

theorem repr_isDigits (n : Nat) : IsDigits n.repr.toList := by
  rw [Nat.toList_repr]
  exact ⟨Nat.toDigits_ne_nil, fun c hc => Nat.isDigit_of_mem_toDigits (by decide) (by decide) hc⟩

theorem decimal_isNumberText (i : Int64) : IsNumberText (Number.decimal i).toList := by
  rw [Number.decimal, Int.repr_eq_if]
  split
  · simpa using IsNumberText.mk (.inl rfl) (repr_isDigits _) .absent .absent
  · simpa using IsNumberText.mk (.inr rfl) (repr_isDigits _) .absent .absent

theorem decimal_isInteger (i : Int64) (span : Span) :
    IsInteger ⟨.number, Number.decimal i, span⟩ i :=
  ⟨rfl, Number.int64?_eq_some_iff.mp (Number.int64?_decimal i)⟩

theorem reads_row (values : List Int64) :
    Reads Fenced (",".intercalate (values.map Number.decimal)) (DerivesRow · values) := by
  induction values with
  | nil =>
    refine (reads_empty Fenced).imp ?_
    rintro _ rfl
    exact .empty
  | cons i values ih =>
    have hfirst := (lexes_number (decimal_isNumberText i)).reads
    by_cases hv : values = []
    · subst hv
      rw [List.map_cons, List.map_nil, String.intercalate_singleton]
      refine hfirst.imp ?_
      rintro _ ⟨span, rfl⟩
      exact .last (decimal_isInteger i span)
    · rw [List.map_cons, String.intercalate_cons_of_ne_nil (by simpa using hv)]
      have hcomma := Lexes.reads (lexes_bracket (m := (",", .comma)) (by decide))
      have hpair := hfirst.append hcomma fun _ _ => fenced_cons (by decide)
      refine (hpair.append ih fun _ _ => trivial).imp ?_
      rintro _ ⟨_, us, rfl, ⟨_, _, rfl, ⟨span, rfl⟩, _, rfl⟩, hus⟩
      exact .cons (decimal_isInteger i span) rfl hus hv

/-- Integers in brackets with commas. -/
inductive IsBracketed (values : List Int64) : List Token → Prop where
  | mk {left right : Token} {ts : List Token} :
      left.kind = .openBracket → DerivesRow ts values → right.kind = .closeBracket →
      IsBracketed values (left :: (ts ++ [right]))

theorem reads_bracketed (values : List Int64) :
    Reads Anything (Text.bracketed values) (IsBracketed values) := by
  have hopen := Lexes.reads (lexes_bracket (m := ("[", .openBracket)) (by decide))
  have hclose := Lexes.reads (lexes_bracket (m := ("]", .closeBracket)) (by decide))
  have hinner := hopen.append (reads_row values) fun _ _ => trivial
  refine (hinner.append hclose fun _ _ => fenced_cons (by decide)).imp ?_
  rintro _ ⟨_, _, rfl, ⟨_, ts, rfl, ⟨_, rfl⟩, hts⟩, _, rfl⟩
  exact .mk rfl hts rfl

theorem bracketed_fenced (values : List Int64) (rest : List Char) :
    Fenced ((Text.bracketed values).toList ++ rest) := by
  have htext : (Text.bracketed values).toList =
      '[' :: (",".intercalate (values.map Number.decimal) ++ "]").toList := by
    simp [Text.bracketed]
  rw [htext]
  exact fenced_cons (by decide)

end Token
end NeuralQuery
