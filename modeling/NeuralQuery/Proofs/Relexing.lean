import NeuralQuery.Proofs.Numerals

/-!
# NeuralQuery.Proofs.Relexing

Lexemes that are read back as they were written. A word, a number or an operator is taken off the
front of a text whole, if what stands behind it cannot make it longer (`Parted`), as is so behind a
fence (`Fenced`); brackets and quoted strings need none. So a lexeme that was taken off some text is
taken off any text that it starts and that parts it from the rest (`Shape.first?_again`). A text in
quotes is always taken whole, and stands for the text it was made from as far as the characters of
that text survive (`Text.Survives`); the others stay escaped (`Text.unescape_escape`).
-/

namespace NeuralQuery

/-! ## Characters -/

namespace Text

/-- Letters by their code points. -/
theorem isAlpha_iff {c : Char} :
    c.isAlpha = true ↔ (65 ≤ c.toNat ∧ c.toNat ≤ 90) ∨ (97 ≤ c.toNat ∧ c.toNat ≤ 122) := by
  change (decide (65 ≤ c.toNat ∧ c.toNat ≤ 90) || (decide (97 ≤ c.toNat) &&
    decide (c.toNat ≤ 122))) = true ↔ _
  simp only [Bool.or_eq_true, Bool.and_eq_true, decide_eq_true_eq]

theorem isBlank_of_isAlpha {c : Char} (h : c.isAlpha = true) : isBlank c = false := by
  have hn : (65 ≤ c.toNat ∧ c.toNat ≤ 90) ∨ (97 ≤ c.toNat ∧ c.toNat ≤ 122) := isAlpha_iff.mp h
  simp only [isBlank, Bool.or_eq_false_iff, Bool.and_eq_false_iff, decide_eq_false_iff_not,
    beq_eq_false_iff_ne]
  omega

theorem isBlank_of_isDigit {c : Char} (h : c.isDigit = true) : isBlank c = false := by
  simp only [Char.isDigit, Bool.and_eq_true, decide_eq_true_eq, UInt32.le_iff_toNat_le,
    ge_iff_le] at h
  have hn : 48 ≤ c.toNat ∧ c.toNat ≤ 57 := h
  simp only [isBlank, Bool.or_eq_false_iff, Bool.and_eq_false_iff, decide_eq_false_iff_not,
    beq_eq_false_iff_ne]
  omega

end Text

namespace Token

theorem Shape.isWordStart_of_isDigit {c : Char} (h : c.isDigit = true) :
    isWordStart c = false := by
  simp only [Char.isDigit, Bool.and_eq_true, decide_eq_true_eq, UInt32.le_iff_toNat_le,
    ge_iff_le] at h
  have hn : 48 ≤ c.toNat ∧ c.toNat ≤ 57 := h
  simp only [isWordStart, Bool.or_eq_false_iff, beq_eq_false_iff_ne]
  refine ⟨?_, ?_⟩
  · rw [← Bool.not_eq_true, Text.isAlpha_iff]
    omega
  · rintro rfl
    revert hn
    decide

/-- The characters that may follow a word, a number or an operator in a written text. -/
def fences : List Char :=
  [' ', '\n', ')', '[', ']', ',', '>']

def Fenced (rest : List Char) : Prop :=
  ∀ c ∈ rest.head?, c ∈ fences

theorem Fenced.stops {rest : List Char} (h : Fenced rest) {p : Char → Bool}
    (hp : fences.all (fun c => !p c) = true) : Stops p rest := by
  intro c hc
  simpa using List.all_eq_true.mp hp c (h c hc)

namespace Shape

/-- A character that may make a longer lexeme, or another one, of what stands before it. -/
def mayExtend (c : Char) : Bool :=
  isWordRest c || c == '.' || c == '='

end Shape

/-- No lexeme in front of this text goes on in it. -/
def Parted (rest : List Char) : Prop :=
  Stops Shape.mayExtend rest

theorem Fenced.parted {rest : List Char} (h : Fenced rest) : Parted rest :=
  h.stops (by decide)

namespace Parted

variable {rest : List Char} (h : Parted rest)
include h

theorem stops {p : Char → Bool} (hp : ∀ c, p c = true → Shape.mayExtend c = true) :
    Stops p rest := by
  intro c hc
  cases hpc : p c with
  | false => rfl
  | true => exact absurd (hp c hpc) (by simp [h c hc])

theorem stops_isWordRest : Stops Shape.isWordRest rest :=
  h.stops fun c hc => by simp [Shape.mayExtend, hc]

theorem stops_isDigit : Stops Char.isDigit rest :=
  h.stops fun c hc => by simp [Shape.mayExtend, Shape.isWordRest, Char.isAlphanum, hc]

/-- A character that may go on with a lexeme is not the next one. -/
theorem ne {c : Char} {cs : List Char} (hr : rest = c :: cs) {d : Char}
    (hd : Shape.mayExtend d = true) : c ≠ d := by
  rintro rfl
  have hc := h c (by simp [hr])
  simp [hd] at hc

end Parted

namespace Shape

/-! ## The shape that fits -/

/-- A shape is the first that fits, if it fits and none before it does. -/
theorem first?_of_cut {cs : List Char} {before after : List Shape} {s : Shape} {c : Cut}
    (hall : all = before ++ s :: after) (hb : ∀ t ∈ before, t.cut? cs = none)
    (hs : s.cut? cs = some c) : first? cs = some (s, c) := by
  have hnone : before.findSome? (fun t => (t.cut? cs).map fun c => (t, c)) = none :=
    List.findSome?_eq_none_iff.mpr fun t ht => by simp [hb t ht]
  simp [first?, hall, List.findSome?_append, hnone, hs]

theorem cut?_blank_eq_none {c : Char} {cs : List Char} (h : Text.isBlank c = false) :
    cut? .blank (c :: cs) = none := by
  simp [cut?, Cut.run, h]

theorem cut?_comment_eq_none {c : Char} {cs : List Char} (h : c ≠ ';') :
    cut? .comment (c :: cs) = none := by
  simp [cut?, h]

theorem cut?_string_eq_none {c : Char} {cs : List Char} (h : c ≠ '"') :
    cut? .string (c :: cs) = none := by
  simp [cut?, h]

theorem cut?_number_eq_none {c : Char} {cs : List Char} (h : c.isDigit = false) (hm : c ≠ '-') :
    cut? .number (c :: cs) = none := by
  simp [cut?, number?, hm, unsigned?, digits?, Cut.run, h]

/-! ## Words -/

/-- The text of a word. -/
def IsWord (cs : List Char) : Prop :=
  ∃ c ds, cs = c :: ds ∧ isWordStart c = true ∧ ∀ d ∈ ds, isWordRest d = true

theorem IsWord.of_all {cs : List Char} (hne : cs ≠ [])
    (hstart : (cs.take 1).all isWordStart = true) (hrest : (cs.drop 1).all isWordRest = true) :
    IsWord cs := by
  obtain ⟨c, ds, rfl⟩ := List.exists_cons_of_ne_nil hne
  exact ⟨c, ds, rfl, by simpa using hstart, by simpa using hrest⟩

theorem cut?_word_isWord {cs : List Char} {c : Cut} (h : cut? .word cs = some c) :
    IsWord c.taken := by
  match cs with
  | [] => simp [cut?] at h
  | d :: ds =>
    simp only [cut?] at h
    split at h
    · rename_i hd
      cases h
      exact ⟨d, ds.takeWhile isWordRest, by simp [Cut.behind, Cut.run], hd, fun e he =>
        List.all_eq_true.mp List.all_takeWhile e he⟩
    · cases h

theorem isWordStart_cases {c : Char} (h : isWordStart c = true) :
    Text.isBlank c = false ∧ c ≠ ';' ∧ c ≠ '"' ∧ c.isDigit = false ∧ c ≠ '-' := by
  have hne : ∀ d, isWordStart d = false → c ≠ d := by
    rintro d hd rfl
    rw [hd] at h
    cases h
  refine ⟨?_, hne _ (by decide), hne _ (by decide), ?_, hne _ (by decide)⟩
  · simp only [isWordStart, Bool.or_eq_true, beq_iff_eq] at h
    rcases h with h | rfl
    · exact Text.isBlank_of_isAlpha h
    · decide
  · cases hd : c.isDigit with
    | false => rfl
    | true => exact absurd h (by simp [isWordStart_of_isDigit hd])

theorem first?_word {cs rest : List Char} (h : IsWord cs) (hr : Parted rest) :
    first? (cs ++ rest) = some (.word, ⟨cs, rest⟩) := by
  obtain ⟨c, ds, rfl, hc, hd⟩ := h
  have hstops := hr.stops_isWordRest
  have hword : cut? .word (c :: (ds ++ rest)) = some ⟨c :: ds, rest⟩ := by
    simp [cut?, hc, Cut.run, Cut.behind, takeWhile_of_stops hd hstops,
      dropWhile_of_stops hd hstops]
  obtain ⟨hblank, hcomment, hstring, hdigit, hminus⟩ := isWordStart_cases hc
  have hall : all = [.blank, .comment, .number, .string] ++ .word :: _ := rfl
  refine first?_of_cut hall ?_ hword
  simp only [List.mem_cons, List.not_mem_nil, or_false, forall_eq_or_imp, forall_eq,
    List.cons_append]
  exact ⟨cut?_blank_eq_none hblank, cut?_comment_eq_none hcomment,
    cut?_number_eq_none hdigit hminus, cut?_string_eq_none hstring⟩

/-! ## Numbers -/

theorem digits?_append {ds rest : List Char} (h : IsDigits ds) (hr : Stops Char.isDigit rest) :
    digits? (ds ++ rest) = some ⟨ds, rest⟩ := by
  simp [digits?, Cut.run, takeWhile_of_stops h.2 hr, dropWhile_of_stops h.2 hr, h.1]

theorem sign_append_digits {sg ds : List Char} (hs : sg = [] ∨ sg = ['+'] ∨ sg = ['-'])
    (hd : IsDigits ds) (rest : List Char) : sign (sg ++ (ds ++ rest)) = ⟨sg, ds ++ rest⟩ := by
  rcases hs with rfl | rfl | rfl
  · obtain ⟨d, es, rfl⟩ := List.exists_cons_of_ne_nil hd.1
    have hdigit := hd.2 d (by simp)
    unfold sign
    split
    · rename_i heq
      cases heq
      cases hdigit
    · rename_i heq
      cases heq
      cases hdigit
    · rfl
  · rfl
  · rfl

theorem exponent_append_parted {x rest : List Char} (h : IsExponent x) (hr : Parted rest) :
    exponent (x ++ rest) = ⟨x, rest⟩ := by
  have hstops := hr.stops_isDigit
  cases h with
  | absent =>
    cases rest with
    | nil => rfl
    | cons c cs =>
      have hlower : c ≠ 'e' := hr.ne rfl (by decide)
      have hupper : c ≠ 'E' := hr.ne rfl (by decide)
      simp [exponent, hlower, hupper]
  | @digits e sg ds he hs hd =>
    simp [exponent, he, sign_append_digits hs hd rest, digits?_append hd hstops, Cut.behind]

theorem fraction_append_parted {f x rest : List Char} (hf : IsFraction f) (hx : IsExponent x)
    (hr : Parted rest) : fraction (f ++ (x ++ rest)) = ⟨f, x ++ rest⟩ := by
  have hstops : Stops Char.isDigit (x ++ rest) := hx.stops hr.stops_isDigit
  cases hf with
  | digits hd => simp [fraction, digits?_append hd hstops, Cut.behind]
  | absent =>
    unfold fraction
    split
    · rename_i ds heq
      -- what follows is an exponent or parted from the digits, and never starts with a point
      cases hx with
      | absent => exact absurd rfl (hr.ne heq (by decide))
      | digits he _ _ =>
        simp only [List.nil_append, List.cons_append] at heq
        cases heq
        simp at he
    · rfl

theorem unsigned?_append {w f x rest : List Char} (hw : IsDigits w) (hf : IsFraction f)
    (hx : IsExponent x) (hr : Parted rest) :
    unsigned? (w ++ (f ++ (x ++ rest))) = some ⟨w ++ (f ++ x), rest⟩ := by
  have hstops : Stops Char.isDigit (f ++ (x ++ rest)) := hf.stops (hx.stops hr.stops_isDigit)
  simp [unsigned?, digits?_append hw hstops, fraction_append_parted hf hx hr,
    exponent_append_parted hx hr, Cut.behind]

theorem number?_append {cs rest : List Char} (h : IsNumberText cs) (hr : Parted rest) :
    number? (cs ++ rest) = some ⟨cs, rest⟩ := by
  cases h with
  | @mk sign w f x hs hw hf hx =>
    have hu := unsigned?_append hw hf hx hr
    rcases hs with rfl | rfl
    · simp only [List.nil_append, List.append_assoc]
      unfold number?
      split
      · rename_i ds heq
        exact absurd heq (hw.ne_head (by decide) _ _)
      · exact hu
    · simp [number?, hu, Cut.behind]

theorem first?_number {cs rest : List Char} (h : IsNumberText cs) (hr : Parted rest) :
    first? (cs ++ rest) = some (.number, ⟨cs, rest⟩) := by
  have hhead : ∃ c ds, cs = c :: ds ∧ Text.isBlank c = false ∧ c ≠ ';' := by
    cases h with
    | @mk sign w f x hs hw _ _ =>
      rcases hs with rfl | rfl
      · obtain ⟨d, es, rfl⟩ := List.exists_cons_of_ne_nil hw.1
        have hd := hw.2 d (by simp)
        refine ⟨d, _, rfl, Text.isBlank_of_isDigit hd, ?_⟩
        rintro rfl
        cases hd
      · exact ⟨'-', _, rfl, by decide, by decide⟩
  have hnumber : cut? .number (cs ++ rest) = some ⟨cs, rest⟩ := number?_append h hr
  obtain ⟨c, ds, rfl, hblank, hcomment⟩ := hhead
  have hall : all = [.blank, .comment] ++ .number :: _ := rfl
  refine first?_of_cut hall ?_ hnumber
  simp only [List.mem_cons, List.not_mem_nil, or_false, forall_eq_or_imp, forall_eq,
    List.cons_append]
  exact ⟨cut?_blank_eq_none hblank, cut?_comment_eq_none hcomment⟩

/-! ## Brackets and operators -/

theorem first?_bracket {m : String × Kind} (h : m ∈ Kind.marks.take 5) (rest : List Char) :
    first? (m.1.toList ++ rest) = some (.mark m.1 m.2, ⟨m.1.toList, rest⟩) := by
  simp only [Kind.marks, List.take_succ_cons, List.take_zero, List.mem_cons, List.not_mem_nil,
    or_false] at h
  rcases h with rfl | rfl | rfl | rfl | rfl <;> rfl

theorem cut?_longer_eq_none {c : Char} {text : String} {kind : Kind} (ht : text.toList = [c, '='])
    {rest : List Char} (h : Stops (· == '=') rest) : cut? (.mark text kind) (c :: rest) = none := by
  cases rest with
  | nil => simp [cut?, ht, after?]
  | cons d cs =>
    have hd : '=' ≠ d := by
      rintro rfl
      simpa using h '=' (by simp)
    simp [cut?, ht, after?, hd]

theorem first?_less {rest : List Char} (h : Stops (· == '=') rest) :
    first? ('<' :: rest) = some (.mark "<" .less, ⟨['<'], rest⟩) := by
  have hall : all = all.take 13 ++ .mark "<" .less :: all.drop 14 := rfl
  have hlonger : cut? (.mark "<=" .lessEquals) ('<' :: rest) = none := cut?_longer_eq_none rfl h
  refine first?_of_cut hall ?_ rfl
  simp only [all, Kind.marks, List.map_cons, List.map_nil, List.cons_append, List.nil_append,
    List.take_succ_cons, List.take_zero, List.mem_cons, List.not_mem_nil, or_false,
    forall_eq_or_imp, forall_eq, hlonger]
  exact ⟨rfl, rfl, rfl, rfl, rfl, rfl, rfl, rfl, rfl, rfl, rfl, rfl, trivial⟩

theorem first?_greater {rest : List Char} (h : Stops (· == '=') rest) :
    first? ('>' :: rest) = some (.mark ">" .greater, ⟨['>'], rest⟩) := by
  have hall : all = all.take 15 ++ .mark ">" .greater :: all.drop 16 := rfl
  have hlonger : cut? (.mark ">=" .greaterEquals) ('>' :: rest) = none := cut?_longer_eq_none rfl h
  refine first?_of_cut hall ?_ rfl
  simp only [all, Kind.marks, List.map_cons, List.map_nil, List.cons_append, List.nil_append,
    List.take_succ_cons, List.take_zero, List.mem_cons, List.not_mem_nil, or_false,
    forall_eq_or_imp, forall_eq, hlonger]
  exact ⟨rfl, rfl, rfl, rfl, rfl, rfl, rfl, rfl, rfl, rfl, rfl, rfl, rfl, rfl, trivial⟩

theorem first?_minus {rest : List Char} (h : Stops Char.isDigit rest) :
    first? ('-' :: rest) = some (.mark "-" .dash, ⟨['-'], rest⟩) := by
  have hall : all = all.take 17 ++ .mark "-" .dash :: all.drop 18 := rfl
  have hnumber : cut? .number ('-' :: rest) = none := by
    have hrun : rest.takeWhile Char.isDigit = [] := by
      simpa using takeWhile_of_stops (List.forall_mem_nil _) h
    simp [cut?, number?, unsigned?, digits?, Cut.run, hrun]
  refine first?_of_cut hall ?_ rfl
  simp only [all, Kind.marks, List.map_cons, List.map_nil, List.cons_append, List.nil_append,
    List.take_succ_cons, List.take_zero, List.mem_cons, List.not_mem_nil, or_false,
    forall_eq_or_imp, forall_eq, hnumber]
  exact ⟨rfl, rfl, trivial, rfl, rfl, rfl, rfl, rfl, rfl, rfl, rfl, rfl, rfl, rfl, rfl, rfl, rfl⟩

/-- What an operator is parted from can neither make it longer nor make a number of it. -/
theorem first?_mark {m : String × Kind} (h : m ∈ Kind.marks) {rest : List Char}
    (hr : Parted rest) :
    first? (m.1.toList ++ rest) = some (.mark m.1 m.2, ⟨m.1.toList, rest⟩) := by
  have hequals : Stops (· == '=') rest := hr.stops fun c hc => by simp_all [mayExtend]
  simp only [Kind.marks, List.mem_cons, List.not_mem_nil, or_false] at h
  rcases h with rfl | rfl | rfl | rfl | rfl | rfl | rfl | rfl | rfl | rfl | rfl | rfl | rfl | rfl
  -- brackets, the comma and operators of two characters are taken whatever follows
  iterate 8 rfl
  · exact first?_less hequals
  · rfl
  · exact first?_greater hequals
  · rfl
  · exact first?_minus hr.stops_isDigit
  · rfl

end Shape

/-! ## Tokens -/

namespace IsLexeme

variable {t : Token}

/-- A token is a number, a quoted string, a word or a mark. -/
theorem sorts (h : t.IsLexeme) :
    (t.kind = .number ∧ IsNumberText t.value.toList) ∨ t.kind = .string ∨
      (t.kind = Kind.ofWord t.value ∧ Shape.IsWord t.value.toList) ∨
      t.kind ∈ Kind.marks.map Prod.snd := by
  obtain ⟨shape, cs, c, span, hf, htok⟩ := h
  obtain ⟨hmem, hcut⟩ := Shape.mem_of_first? hf
  cases shape with
  | blank => cases htok
  | comment => cases htok
  | number =>
    cases htok
    exact .inl ⟨rfl, by simpa using Shape.number?_numberText hcut⟩
  | string =>
    cases htok
    exact .inr (.inl rfl)
  | word =>
    cases htok
    exact .inr (.inr (.inl ⟨rfl, by simpa using Shape.cut?_word_isWord hcut⟩))
  | mark text kind =>
    cases htok
    have hmark : (text, kind) ∈ Kind.marks := by simpa [Shape.all] using hmem
    exact .inr (.inr (.inr (List.mem_map_of_mem hmark)))

theorem numberText (h : t.IsLexeme) (hk : t.kind = .number) : IsNumberText t.value.toList := by
  rcases h.sorts with ⟨_, hn⟩ | hs | ⟨hw, _⟩ | hm
  · exact hn
  · cases hk.symm.trans hs
  · have hword := Kind.ofWord_mem t.value
    simp [← hw, hk, Kind.reserved] at hword
  · simp [hk, Kind.marks] at hm

theorem ne_eof (h : t.IsLexeme) : t.kind ≠ .eof := by
  intro hk
  rcases h.sorts with ⟨hn, _⟩ | hs | ⟨hw, _⟩ | hm
  · cases hk.symm.trans hn
  · cases hk.symm.trans hs
  · have hword := Kind.ofWord_mem t.value
    simp [← hw, hk, Kind.reserved] at hword
  · simp [hk, Kind.marks] at hm

end IsLexeme
end Token

/-! ## Quoted strings -/

namespace Text

/-- A character that is written as it is, or by an escape that is read back. -/
def Survives (c : Char) : Prop :=
  escape c ∈ [[c], ['\\', 'n'], ['\\', 't'], ['\\', '"'], ['\\', '\\']]

instance (c : Char) : Decidable (Survives c) :=
  inferInstanceAs (Decidable (_ ∈ _))

theorem Survives.cases {c : Char} (h : Survives c) :
    (escape c = [c] ∧ c ≠ '"' ∧ c ≠ '\\') ∨ c = '\n' ∨ c = '\t' ∨ c = '"' ∨ c = '\\' := by
  by_cases hn : c = '\n'
  · exact .inr (.inl hn)
  by_cases ht : c = '\t'
  · exact .inr (.inr (.inl ht))
  by_cases hq : c = '"'
  · exact .inr (.inr (.inr (.inl hq)))
  by_cases hb : c = '\\'
  · exact .inr (.inr (.inr (.inr hb)))
  refine .inl ⟨?_, hq, hb⟩
  -- what is left is escaped by other characters or not at all
  by_cases h0 : c = '\x00'
  · subst h0
    revert h
    decide
  by_cases hr : c = '\r'
  · subst hr
    revert h
    decide
  simp only [Survives, escape, h0, ht, hr, hn, hq, hb, if_false] at h ⊢
  split
  · rename_i hcode
    simp [hcode, codePoint] at h
  · rfl

/-- What a character in quotes is read back as: itself, or else the escape it is written by. -/
def reread (c : Char) : List Char :=
  if Survives c then [c] else escape c

/-- A character that neither ends a text in quotes nor starts an escape. -/
def IsPlain (c : Char) : Prop :=
  c ≠ '"' ∧ c ≠ '\\'

theorem digitChar_isPlain (n : Nat) : IsPlain n.digitChar := by
  by_cases h : n < 16
  · have hall : ∀ m < 16, m.digitChar ≠ '"' ∧ m.digitChar ≠ '\\' := by decide
    exact hall n h
  · have hstar : n.digitChar = '*' := by
      unfold Nat.digitChar
      repeat rw [if_neg (by omega)]
    rw [hstar]
    exact ⟨by decide, by decide⟩

theorem toDigits_isPlain (n : Nat) : ∀ c ∈ Nat.toDigits 16 n, IsPlain c := by
  induction n using Nat.strongRecOn with
  | ind n ih =>
    rw [Nat.toDigits_eq_if (by decide)]
    split
    · simpa using digitChar_isPlain n
    · rename_i hle
      intro c hc
      rcases List.mem_append.mp hc with hc | hc
      · exact ih (n / 16) (Nat.div_lt_self (by omega) (by decide)) c hc
      · obtain rfl := List.mem_singleton.mp hc
        exact digitChar_isPlain _

theorem escape_cases (c : Char) :
    Survives c ∨ c = '\x00' ∨ c = '\r' ∨ escape c = codePoint c := by
  by_cases hread : c ∈ ['\n', '\t', '"', '\\']
  · simp only [List.mem_cons, List.not_mem_nil, or_false] at hread
    rcases hread with rfl | rfl | rfl | rfl
    all_goals exact .inl (by decide)
  by_cases h0 : c = '\x00'
  · exact .inr (.inl h0)
  by_cases hr : c = '\r'
  · exact .inr (.inr (.inl hr))
  simp only [List.mem_cons, List.not_mem_nil, or_false, not_or] at hread
  by_cases hcode : (isExtender c || isIgnorable c || isUnprintable c) = true
  · exact .inr (.inr (.inr (by simp [escape, h0, hr, hread, hcode])))
  · have hraw : escape c = [c] := by simp [escape, h0, hr, hread, hcode]
    exact .inl (by simp [Survives, hraw])

/-- An escape that is not read back starts with a backslash and a character that tells nothing. -/
theorem escape_of_not_survives {c : Char} (h : ¬Survives c) :
    ∃ d ds, escape c = '\\' :: d :: ds ∧ d ∉ ['n', 't', '\\', '"', '\n'] ∧
      ∀ e ∈ ds, IsPlain e := by
  rcases escape_cases c with hc | rfl | rfl | hcode
  · exact absurd hc h
  · exact ⟨'0', [], rfl, by decide, by simp⟩
  · exact ⟨'r', [], rfl, by decide, by simp⟩
  · refine ⟨'u', '\x7b' :: (Nat.toDigits 16 c.toNat ++ ['\x7d']), hcode, by decide, fun e he => ?_⟩
    simp only [List.mem_cons, List.mem_append, List.not_mem_nil, or_false] at he
    rcases he with rfl | he | rfl
    · exact ⟨by decide, by decide⟩
    · exact toDigits_isPlain _ e he
    · exact ⟨by decide, by decide⟩

theorem unescape_cons {c : Char} (h : c ≠ '\\') (cs : List Char) :
    unescape (c :: cs) = c :: unescape cs := by
  cases cs with
  | nil => rfl
  | cons d ds => simp [unescape, h]

theorem unescape_append {ds : List Char} (h : ∀ d ∈ ds, IsPlain d) (cs : List Char) :
    unescape (ds ++ cs) = ds ++ unescape cs := by
  induction ds with
  | nil => rfl
  | cons d ds ih =>
    obtain ⟨hd, hds⟩ := List.forall_mem_cons.mp h
    rw [List.cons_append, unescape_cons hd.2, ih hds, List.cons_append]

theorem unescape_escape (cs : List Char) : unescape (cs.flatMap escape) = cs.flatMap reread := by
  induction cs with
  | nil => rfl
  | cons c cs ih =>
    rw [List.flatMap_cons, List.flatMap_cons]
    by_cases hc : Survives c
    · rw [reread, if_pos hc]
      rcases hc.cases with ⟨hraw, _, hb⟩ | rfl | rfl | rfl | rfl
      · rw [hraw, List.singleton_append, unescape_cons hb, ih, List.singleton_append]
      all_goals simp [escape, unescape, ih]
    · obtain ⟨d, ds, hescape, hd, hds⟩ := escape_of_not_survives hc
      simp only [List.mem_cons, List.not_mem_nil, or_false, not_or] at hd
      rw [reread, if_neg hc, hescape]
      simp [unescape, hd, unescape_append hds, ih]

theorem flatMap_reread {cs : List Char} (h : ∀ c ∈ cs, Survives c) : cs.flatMap reread = cs := by
  induction cs with
  | nil => rfl
  | cons c cs ih =>
    obtain ⟨hc, hcs⟩ := List.forall_mem_cons.mp h
    rw [List.flatMap_cons, ih hcs, reread, if_pos hc, List.singleton_append]

end Text

namespace Token

namespace Shape

theorem closing?_cons {c : Char} (hq : c ≠ '"') (hb : c ≠ '\\') (cs : List Char) :
    closing? (c :: cs) = (closing? cs).map (Cut.behind [c]) := by
  cases cs with
  | nil => simp [closing?, hq]
  | cons d ds => simp [closing?, hq, hb]

theorem closing?_append_plain {ds : List Char} (h : ∀ d ∈ ds, Text.IsPlain d) (cs : List Char) :
    closing? (ds ++ cs) = (closing? cs).map (Cut.behind ds) := by
  induction ds with
  | nil => cases h : closing? cs <;> simp [h, Cut.behind]
  | cons d ds ih =>
    obtain ⟨hd, hds⟩ := List.forall_mem_cons.mp h
    rw [List.cons_append, closing?_cons hd.1 hd.2, ih hds]
    cases closing? cs <;> rfl

theorem closing?_escape (cs rest : List Char) :
    closing? (cs.flatMap Text.escape ++ '"' :: rest) =
      some ⟨cs.flatMap Text.escape ++ ['"'], rest⟩ := by
  induction cs with
  | nil => cases rest <;> rfl
  | cons c cs ih =>
    rw [List.flatMap_cons, List.append_assoc]
    by_cases hc : Text.Survives c
    · rcases hc.cases with ⟨hraw, hq, hb⟩ | rfl | rfl | rfl | rfl
      · rw [hraw, List.singleton_append, closing?_cons hq hb, ih]
        rfl
      all_goals simp [Text.escape, closing?, ih, Cut.behind]
    · obtain ⟨d, ds, hescape, hd, hds⟩ := Text.escape_of_not_survives hc
      simp only [List.mem_cons, List.not_mem_nil, or_false, not_or] at hd
      rw [hescape]
      simp [closing?, hd, closing?_append_plain hds, ih, Cut.behind]

/-- A closing quote is found again, whatever stands behind it. -/
theorem closing?_again {cs : List Char} {c : Cut} (h : closing? cs = some c) (rest : List Char) :
    closing? (c.taken ++ rest) = some ⟨c.taken, rest⟩ := by
  have hquote : closing? ('"' :: rest) = some ⟨['"'], rest⟩ := by cases rest <;> rfl
  fun_induction closing? cs generalizing c with
  | case1 => cases h
  | case2 => cases h; exact hquote
  | case3 => cases h
  | case4 => cases h; exact hquote
  | case5 => cases h
  | case6 d cs hd _ ih =>
    obtain ⟨e, he, rfl⟩ := Option.map_eq_some_iff.mp h
    simp [Cut.behind, closing?, hd, ih he]
  | case7 x d cs hq hb ih =>
    obtain ⟨e, he, rfl⟩ := Option.map_eq_some_iff.mp h
    simp [Cut.behind, closing?_cons hq hb, ih he]

theorem first?_string {inner rest : List Char} (h : closing? (inner ++ rest) = some ⟨inner, rest⟩) :
    first? ('"' :: (inner ++ rest)) = some (.string, ⟨'"' :: inner, rest⟩) := by
  have hcut : cut? .string ('"' :: (inner ++ rest)) = some ⟨'"' :: inner, rest⟩ := by
    simp [cut?, h, Cut.behind]
  have hall : all = [.blank, .comment, .number] ++ .string :: _ := rfl
  refine first?_of_cut hall ?_ hcut
  simp only [List.mem_cons, List.not_mem_nil, or_false, forall_eq_or_imp, forall_eq]
  exact ⟨rfl, rfl, rfl⟩

theorem first?_quoteChars (cs rest : List Char) :
    first? (Text.quoteChars cs ++ rest) = some (.string, ⟨Text.quoteChars cs, rest⟩) :=
  first?_string (by simpa using closing?_escape cs rest)

/-! ## Lexemes again -/

/-- What was taken off a text for a token is taken off any text that starts with it and parts it
from the rest. -/
theorem first?_again {cs text : List Char} {shape : Shape} {rest rest' : List Char} {span : Span}
    {t : Token} (h : first? cs = some (shape, ⟨text, rest⟩)) (ht : shape.token? text span = some t)
    (hr : Parted rest') : first? (text ++ rest') = some (shape, ⟨text, rest'⟩) := by
  obtain ⟨hmem, hcut⟩ := mem_of_first? h
  cases shape with
  | blank => cases ht
  | comment => cases ht
  | number => exact first?_number (number?_numberText hcut) hr
  | string =>
    rcases cs with _ | ⟨d, ds⟩
    · simp [cut?] at hcut
    · by_cases hd : d = '"'
      · subst hd
        simp only [cut?] at hcut
        obtain ⟨e, he, heq⟩ := Option.map_eq_some_iff.mp hcut
        cases heq
        exact first?_string (closing?_again he rest')
      · simp [cut?, hd] at hcut
  | word => exact first?_word (cut?_word_isWord hcut) hr
  | mark text kind =>
    obtain ⟨_, _, heq⟩ := Option.map_eq_some_iff.mp hcut
    cases heq
    have hmark : (text, kind) ∈ Kind.marks := by simpa [all] using hmem
    exact first?_mark hmark hr

end Shape
end Token
end NeuralQuery
