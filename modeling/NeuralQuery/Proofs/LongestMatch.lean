import Mathlib.Data.List.Pairwise
import NeuralQuery.Proofs.Spelling

/-!
# NeuralQuery.Proofs.LongestMatch

The first shape that fits takes the longest lexeme (`Token.tokenize_munches`).

* `Shape.Longest` : a lexeme at the front of a text that is as long as any lexeme there, of whatever
  shape.
* `Scan.Munches`  : reading a text by longest lexemes. It knows no order of the shapes.

A shape takes at least as much off a text as any of its own texts that stand there
(`Shape.Spells.cut?_append`). For two shapes the order of trying them decides: the later one starts
with other characters, or it is one character that the earlier one does not spell
(`Shape.Precedes`).
-/

namespace NeuralQuery
namespace Token
namespace Shape

/-! ## What a shape takes at least -/

theorem run_append_length {p : Char → Bool} {w : List Char} (h : ∀ c ∈ w, p c = true)
    (rest : List Char) : w.length ≤ (Cut.run p (w ++ rest)).taken.length := by
  simp only [Cut.run, List.takeWhile_append_of_pos h, List.length_append]
  omega

theorem run?_append_length {p : Char → Bool} {w : List Char} (hne : w ≠ [])
    (h : ∀ c ∈ w, p c = true) (rest : List Char) :
    ∃ c, run? p (w ++ rest) = some c ∧ w.length ≤ c.taken.length := by
  have hlength := run_append_length h rest
  have hpos := List.length_pos_iff.mpr hne
  refine ⟨Cut.run p (w ++ rest), if_neg ?_, hlength⟩
  rw [List.isEmpty_iff, ← List.length_eq_zero_iff]
  omega

theorem digits?_append_length {ds : List Char} (h : IsDigits ds) (rest : List Char) :
    ∃ c, digits? (ds ++ rest) = some c ∧ ds.length ≤ c.taken.length :=
  run?_append_length h.1 h.2 rest

theorem fraction_append_length {f : List Char} (h : IsFraction f) (rest : List Char) :
    f.length ≤ (fraction (f ++ rest)).taken.length := by
  cases h with
  | absent => exact Nat.zero_le _
  | digits hd =>
    obtain ⟨c, hc, hlength⟩ := digits?_append_length hd rest
    simp only [fraction, List.cons_append, hc, Cut.behind, List.nil_append, List.length_cons]
    omega

theorem exponent_append_length {x : List Char} (h : IsExponent x) (rest : List Char) :
    x.length ≤ (exponent (x ++ rest)).taken.length := by
  cases h with
  | absent => exact Nat.zero_le _
  | digits he hs hd =>
    obtain ⟨c, hc, hlength⟩ := digits?_append_length hd rest
    simp only [exponent, List.cons_append, List.append_assoc, he, if_true,
      sign_append_digits hs hd rest, hc, Cut.behind, List.length_cons, List.length_append]
    omega

/-- An exponent mark ends the digits of a fraction, and of a number without one. -/
theorem stops_exponentMark {e : Char} (he : e = 'e' ∨ e = 'E') (rest : List Char) :
    Stops Char.isDigit (e :: rest) := by
  intro c hc
  obtain rfl := Option.some.inj hc
  rcases he with rfl | rfl <;> rfl

theorem fraction_append_exponentMark {f : List Char} (h : IsFraction f) {e : Char}
    (he : e = 'e' ∨ e = 'E') (rest : List Char) : fraction (f ++ e :: rest) = ⟨f, e :: rest⟩ := by
  cases h with
  | absent => exact fraction_of_ne (by rcases he with rfl | rfl <;> decide) rest
  | digits hd =>
    simp only [List.cons_append, fraction, digits?_append hd (stops_exponentMark he rest),
      Cut.behind, List.nil_append]

/-- What is taken off the parts of a number one after the other makes up what is taken of it. -/
theorem unsigned?_length {cs : List Char} {whole : Cut} (h : digits? cs = some whole) {n : Nat}
    (hn : n ≤ whole.taken.length + (fraction whole.rest).taken.length +
      (exponent (fraction whole.rest).rest).taken.length) :
    ∃ c, unsigned? cs = some c ∧ n ≤ c.taken.length := by
  refine ⟨(exponent (fraction whole.rest).rest).behind
    (whole.taken ++ (fraction whole.rest).taken), ?_, ?_⟩
  · simp only [unsigned?, h]
  · simpa only [Cut.behind, List.length_append] using hn

theorem unsigned?_append_length {w f x : List Char} (hw : IsDigits w) (hf : IsFraction f)
    (hx : IsExponent x) (rest : List Char) :
    ∃ c, unsigned? (w ++ (f ++ (x ++ rest))) = some c ∧
      (w ++ (f ++ x)).length ≤ c.taken.length := by
  -- the last part that is there parts the ones before it, and may itself go on in the rest
  cases hx with
  | @digits e sg ds he hs hd =>
    have hlength := exponent_append_length (IsExponent.digits he hs hd) rest
    have hstops := stops_exponentMark he (sg ++ ds ++ rest)
    refine unsigned?_length (digits?_append hw (hf.stops hstops)) ?_
    rw [fraction_append_exponentMark hf he]
    simp only [List.length_append, List.cons_append] at hlength ⊢
    omega
  | absent =>
    cases hf with
    | @digits ds hd =>
      have hlength := fraction_append_length (IsFraction.digits hd) rest
      have hstops : Stops Char.isDigit ('.' :: (ds ++ rest)) := by
        intro c hc
        obtain rfl := Option.some.inj hc
        rfl
      refine unsigned?_length (digits?_append hw hstops) ?_
      simp only [List.append_nil, List.length_append, List.cons_append] at hlength ⊢
      omega
    | absent =>
      obtain ⟨whole, hwhole, hlength⟩ := digits?_append_length hw rest
      refine unsigned?_length hwhole ?_
      simp only [List.append_nil]
      omega

theorem number?_append_length {text : List Char} (h : IsNumberText text) (rest : List Char) :
    ∃ c, number? (text ++ rest) = some c ∧ text.length ≤ c.taken.length := by
  cases h with
  | @mk sign w f x hs hw hf hx =>
    obtain ⟨c, hc, hlength⟩ := unsigned?_append_length hw hf hx rest
    simp only [List.append_assoc]
    rcases hs with rfl | rfl
    · refine ⟨c, ?_, hlength⟩
      rw [← hc]
      obtain ⟨d, es, rfl⟩ := List.exists_cons_of_ne_nil hw.1
      refine number?_of_ne ?_ _
      rintro rfl
      cases hw.2 '-' (by simp)
    · refine ⟨c.behind ['-'], ?_, ?_⟩
      · simp only [List.cons_append, List.nil_append, number?, hc, Option.map_some]
      · simp only [Cut.behind, List.length_append] at hlength ⊢
        omega

/-- A shape fits a text that one of its own stands in front of, and takes no less than that. -/
theorem Spells.cut?_append {s : Shape} {text : List Char} (h : s.Spells text) (rest : List Char) :
    ∃ c, s.cut? (text ++ rest) = some c ∧ text.length ≤ c.taken.length := by
  cases h with
  | blank hne hall => exact run?_append_length hne hall rest
  | @comment body hb =>
    have hall : ∀ c ∈ body, (c != '\n') = true := by
      intro c hc
      rw [bne_iff_ne]
      rintro rfl
      exact hb hc
    have hlength := run_append_length hall rest
    refine ⟨(Cut.run (· != '\n') (body ++ rest)).behind [';'], rfl, ?_⟩
    simp only [Cut.behind, List.length_append, List.length_cons, List.length_nil]
    omega
  | number hn => exact number?_append_length hn rest
  | @string inner hq =>
    -- a quoted string ends at its first bare quote, so no other text of its shape stands here
    have hclosing := closing?_again (closing?_of_isQuoted hq) rest
    refine ⟨⟨'"' :: (inner ++ ['"']), rest⟩, ?_, Nat.le_refl _⟩
    simp only [Shape.cut?, List.cons_append, hclosing, Option.map_some, Cut.behind,
      List.nil_append]
  | word hw =>
    obtain ⟨d, ds, rfl, hd, hds⟩ := hw
    have hlength := run_append_length hds rest
    refine ⟨(Cut.run isWordRest (ds ++ rest)).behind [d], if_pos hd, ?_⟩
    simp only [Cut.behind, List.length_append, List.length_cons, List.length_nil]
    omega
  | @mark t kind hm =>
    refine ⟨⟨t.toList, rest⟩, ?_, Nat.le_refl _⟩
    simp only [Shape.cut?, after?_self, Option.map_some]

/-! ## The order of the shapes -/

/-- Whether a text of this shape may start with a character. -/
def starts : Shape → Char → Bool
  | blank, d => Text.isBlank d
  | comment, d => d == ';'
  | number, d => d.isDigit || d == '-'
  | string, d => d == '"'
  | word, d => isWordStart d
  | mark text _, d => text.toList.head? == some d

theorem Spells.starts {s : Shape} {d : Char} {ds : List Char} (h : s.Spells (d :: ds)) :
    s.starts d = true := by
  generalize htext : d :: ds = text at h
  cases h with
  | blank _ hall =>
    subst htext
    exact hall d (by simp)
  | comment _ =>
    cases htext
    rfl
  | number hn =>
    cases hn with
    | @mk sign w f x hs hw _ _ =>
      obtain ⟨e, es, rfl⟩ := List.exists_cons_of_ne_nil hw.1
      rcases hs with rfl | rfl
      · cases htext
        simp [Shape.starts, hw.2 d (by simp)]
      · cases htext
        rfl
  | string _ =>
    cases htext
    rfl
  | word hw =>
    obtain ⟨e, es, rfl, he, _⟩ := hw
    cases htext
    exact he
  | mark _ => simp [Shape.starts, ← htext]

/-- The earlier of two shapes is no worse where both fit: the later one starts with other
characters, or has one text of one character only, which the earlier one does not have. -/
def Precedes (s t : Shape) : Prop :=
  (∀ d, t.starts d = true → s.starts d = false) ∨
    ∃ text kind, t = .mark text kind ∧ text.toList.length = 1 ∧ s.cut? text.toList = none

/-- `Precedes` for a bracket or an operator, by its characters. -/
def precedesMark (s : Shape) (m : String × Kind) : Bool :=
  m.1.toList.head?.all (fun d => !s.starts d) ||
    (m.1.toList.length == 1 && (s.cut? m.1.toList).isNone)

theorem precedes_mark {s : Shape} {m : String × Kind} (h : s.precedesMark m = true) :
    s.Precedes (.mark m.1 m.2) := by
  rcases Bool.or_eq_true_iff.mp h with h | h
  · refine .inl fun d hd => ?_
    rw [beq_iff_eq.mp hd] at h
    simpa using h
  · rw [Bool.and_eq_true, beq_iff_eq, Option.isNone_iff_eq_none] at h
    exact .inr ⟨m.1, m.2, rfl, h.1, h.2⟩

theorem starts_of_number {d : Char} (hd : number.starts d = true) :
    blank.starts d = false ∧ comment.starts d = false := by
  rcases Bool.or_eq_true_iff.mp hd with hd | hd
  · refine ⟨Text.isBlank_of_isDigit hd, ?_⟩
    rw [Shape.starts, beq_eq_false_iff_ne]
    rintro rfl
    cases hd
  · rw [beq_iff_eq.mp hd]
    decide

theorem starts_of_word {d : Char} (hd : word.starts d = true) {s : Shape}
    (hs : s ∈ [blank, comment, number, string]) : s.starts d = false := by
  obtain ⟨hblank, hcomment, hstring, hdigit, hminus⟩ := isWordStart_cases hd
  revert s
  simp [Shape.starts, hblank, hcomment, hstring, hdigit, hminus]

/-- The order in which the shapes are tried. -/
theorem all_precedes : all.Pairwise Precedes := by
  refine List.pairwise_append.mpr ⟨?_, ?_, ?_⟩
  · -- comments and strings start with one character each
    have hone : ∀ {s t : Shape} {e : Char}, (∀ d, t.starts d = true → d = e) →
        s.starts e = false → s.Precedes t := by
      intro s t e ht hs
      refine .inl fun d hd => ?_
      rw [ht d hd]
      exact hs
    have hcomment : ∀ d, comment.starts d = true → d = ';' := fun d => beq_iff_eq.mp
    have hstring : ∀ d, string.starts d = true → d = '"' := fun d => beq_iff_eq.mp
    have hword : ∀ s ∈ [blank, comment, number, string], s.Precedes word :=
      fun s hs => .inl fun d hd => starts_of_word hd hs
    simp only [List.mem_cons, List.not_mem_nil, or_false, forall_eq_or_imp, forall_eq] at hword
    simp only [List.pairwise_cons, List.mem_cons, List.not_mem_nil, or_false, forall_eq_or_imp,
      forall_eq, List.Pairwise.nil, and_true, IsEmpty.forall_iff, implies_true]
    refine ⟨⟨?_, ?_, ?_, hword.1⟩, ⟨?_, ?_, hword.2.1⟩, ⟨?_, hword.2.2.1⟩, hword.2.2.2⟩
    · exact hone hcomment (by decide)
    · exact .inl fun d hd => (starts_of_number hd).1
    · exact hone hstring (by decide)
    · exact .inl fun d hd => (starts_of_number hd).2
    · exact hone hstring (by decide)
    · exact hone hstring (by decide)
  · rw [List.pairwise_map]
    have hmarks : Kind.marks.Pairwise fun m n => precedesMark (.mark m.1 m.2) n = true := by decide
    exact hmarks.imp precedes_mark
  · intro s hs t ht
    obtain ⟨m, hm, rfl⟩ := List.mem_map.mp ht
    have hmarks : ([blank, comment, number, string, word] : List Shape).all
        (fun s => Kind.marks.all s.precedesMark) = true := by decide
    exact precedes_mark (List.all_eq_true.mp (List.all_eq_true.mp hmarks s hs) m hm)

namespace Precedes

variable {s t : Shape} (h : s.Precedes t)
include h

/-- Where both fit, the earlier shape takes no less. -/
theorem length_le (hs : s ∈ all) (ht : t ∈ all) {cs : List Char} {c e : Cut}
    (hc : s.cut? cs = some c) (he : t.cut? cs = some e) : e.taken.length ≤ c.taken.length := by
  obtain ⟨hcne, hcapp⟩ := cut?_of hs hc
  obtain ⟨hene, heapp⟩ := cut?_of ht he
  obtain ⟨x, xs, hx⟩ := List.exists_cons_of_ne_nil hcne
  rcases h with hstarts | ⟨text, kind, rfl, hlength, _⟩
  · obtain ⟨y, ys, hy⟩ := List.exists_cons_of_ne_nil hene
    have hsstarts : s.starts x = true := (hx ▸ spells_of_cut? hs hc).starts
    have htstarts : t.starts y = true := (hy ▸ spells_of_cut? ht he).starts
    rw [hx, ← heapp, hy] at hcapp
    obtain rfl := (List.cons.inj hcapp).1
    rw [hstarts x htstarts] at hsstarts
    cases hsstarts
  · obtain ⟨rest, _, rfl⟩ := Option.map_eq_some_iff.mp he
    rw [hlength]
    exact List.length_pos_iff.mpr hcne

/-- No text has both shapes. -/
theorem not_both {text : List Char} (hs : s.Spells text) : ¬ t.Spells text := by
  intro ht
  rcases h with hstarts | ⟨m, kind, rfl, _, hnone⟩
  · obtain ⟨d, ds, rfl⟩ := List.exists_cons_of_ne_nil (cut?_of hs.mem_all hs.cut?).1
    have hsstarts := hs.starts
    rw [hstarts d ht.starts] at hsstarts
    cases hsstarts
  · cases ht
    rw [hs.cut?] at hnone
    cases hnone

end Precedes

/-- A text has one shape at most. -/
theorem Spells.unique {s t : Shape} {text : List Char} (hs : s.Spells text) (ht : t.Spells text) :
    s = t := by
  by_contra hne
  have hdisjoint : all.Pairwise fun s t => ¬ (s.Spells text ∧ t.Spells text) :=
    all_precedes.imp fun h hboth => h.not_both hboth.1 hboth.2
  have : Std.Symm fun s t : Shape => ¬ (s.Spells text ∧ t.Spells text) :=
    ⟨fun _ _ h hboth => h hboth.symm⟩
  exact hdisjoint.forall hs.mem_all ht.mem_all hne ⟨hs, ht⟩

/-! ## The longest lexeme -/

/-- A cut of a text behind a lexeme than which no lexeme there is longer. -/
structure Longest (s : Shape) (cs : List Char) (c : Cut) : Prop where
  append : c.taken ++ c.rest = cs
  spells : s.Spells c.taken
  length_le : ∀ (t : Shape) text, t.Spells text → text <+: cs → text.length ≤ c.taken.length

/-- There is one longest lexeme at most. -/
theorem Longest.unique {s t : Shape} {cs : List Char} {c e : Cut} (hc : s.Longest cs c)
    (he : t.Longest cs e) : s = t ∧ c = e := by
  have hprefix : c.taken <+: cs := ⟨c.rest, hc.append⟩
  have hprefix' : e.taken <+: cs := ⟨e.rest, he.append⟩
  have hlength : c.taken.length = e.taken.length :=
    Nat.le_antisymm (he.length_le s c.taken hc.spells hprefix)
      (hc.length_le t e.taken he.spells hprefix')
  obtain ⟨htaken, hrest⟩ := List.append_inj (hc.append.trans he.append.symm) hlength
  cases c
  cases e
  cases htaken
  cases hrest
  exact ⟨hc.spells.unique he.spells, rfl⟩

theorem longest_of_first? {cs : List Char} {s : Shape} {c : Cut} (h : first? cs = some (s, c)) :
    s.Longest cs c := by
  refine ⟨(first?_of h).2, spells_of_first? h, ?_⟩
  rintro t text ht ⟨rest, rfl⟩
  obtain ⟨hs, hc⟩ := mem_of_first? h
  obtain ⟨e, he, hlength⟩ := ht.cut?_append rest
  refine Nat.le_trans hlength ?_
  -- a shape before the first that fits does not fit, and the ones after it come off no better
  obtain ⟨before, x, after, hall, hx, hbefore⟩ := List.findSome?_eq_some_iff.mp h
  obtain ⟨_, _, heq⟩ := Option.map_eq_some_iff.mp hx
  obtain rfl : x = s := congrArg Prod.fst heq
  have hprecedes := all_precedes
  have hmem := ht.mem_all
  rw [hall, List.pairwise_append, List.pairwise_cons] at hprecedes
  rw [hall, List.mem_append, List.mem_cons] at hmem
  rcases hmem with hmem | rfl | hmem
  · have hnone := hbefore t hmem
    rw [he] at hnone
    cases hnone
  · rw [hc] at he
    cases he
    exact Nat.le_refl _
  · exact (hprecedes.2.1.1 t hmem).length_le hs ht.mem_all hc he

theorem first?_eq_some_iff {cs : List Char} {s : Shape} {c : Cut} :
    first? cs = some (s, c) ↔ s.Longest cs c := by
  constructor
  · exact longest_of_first?
  · intro h
    cases hf : first? cs with
    | none => exact absurd h.spells (not_spells_of_first? hf ⟨c.rest, h.append⟩ s)
    | some found =>
      obtain ⟨rfl, rfl⟩ := h.unique (longest_of_first? hf)
      rfl

theorem first?_eq_none_iff {cs : List Char} :
    first? cs = none ↔ ∀ (s : Shape) text, text <+: cs → ¬ s.Spells text := by
  constructor
  · exact fun h s text ht => not_spells_of_first? h ht s
  · intro h
    cases hf : first? cs with
    | none => rfl
    | some found =>
      have hlongest := longest_of_first? hf
      exact absurd hlongest.spells (h _ _ ⟨_, hlongest.append⟩)

end Shape

/-! ## Reading by longest lexemes -/

/-- Taking the longest lexeme off the text ahead, again and again, gives this result. -/
inductive Scan.Munches : Scan → Except Diagnostic (List Token) → Prop where
  | done {s : Scan} : s.ahead = [] → Munches s (.ok [Token.ending (s.spanOf 0)])
  | stuck {s : Scan} {d : Char} {ds : List Char} : s.ahead = d :: ds →
      (∀ (shape : Shape) text, text <+: s.ahead → ¬ shape.Spells text) →
      Munches s (.error ⟨.unrecognisedToken (String.singleton d), s.position⟩)
  | lexeme {s : Scan} {shape : Shape} {c : Cut} {r : Except Diagnostic (List Token)} :
      shape.Longest s.ahead c → Munches (s.past c) r →
      Munches s (r.map fun ts =>
        (shape.token? c.taken (s.spanOf (Text.byteLength c.taken))).toList ++ ts)

namespace Scan

theorem munches_tokens (s : Scan) : s.Munches s.tokens := by
  induction hn : s.ahead.length using Nat.strong_induction_on generalizing s with
  | _ n ih =>
    subst hn
    cases hahead : s.ahead with
    | nil =>
      rw [tokens_of_nil hahead]
      exact .done hahead
    | cons d ds =>
      cases hf : Shape.first? s.ahead with
      | none =>
        rw [tokens_of_none hahead hf]
        exact .stuck hahead (Shape.first?_eq_none_iff.mp hf)
      | some found =>
        rw [tokens_of_some hf]
        exact .lexeme (Shape.first?_eq_some_iff.mp hf)
          (ih _ (Shape.first?_of hf).rest_length_lt (s.past found.2) rfl)

theorem Munches.tokens {s : Scan} {r : Except Diagnostic (List Token)} (h : s.Munches r) :
    s.tokens = r := by
  induction h with
  | done hahead => exact tokens_of_nil hahead
  | stuck hahead hnone => exact tokens_of_none hahead (Shape.first?_eq_none_iff.mpr hnone)
  | lexeme hlongest _ ih => rw [tokens_of_some (Shape.first?_eq_some_iff.mpr hlongest), ih]

end Scan

/-- Reading a text as tokens is reading it by longest lexemes, and no text is a lexeme of two
shapes. -/
theorem tokenize_munches (source file : String) :
    (∀ r, tokenize source file = r ↔ (Scan.ofSource source file).Munches r) ∧
      ∀ (s t : Shape) text, s.Spells text → t.Spells text → s = t := by
  refine ⟨fun r => ⟨?_, Scan.Munches.tokens⟩, fun s t text => Shape.Spells.unique⟩
  rintro rfl
  exact Scan.munches_tokens (Scan.ofSource source file)

end Token
end NeuralQuery
