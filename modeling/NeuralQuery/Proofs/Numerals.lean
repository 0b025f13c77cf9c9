import NeuralQuery.Number.Binary64
import NeuralQuery.Token.Scan

/-!
# NeuralQuery.Proofs.Numerals

The texts of numbers, and what they are read as.

* `IsNumberText` : the shape of a number token. Every number that is taken off a text has it
  (`number?_numberText`), and every text of this shape has a binary64 value
  (`binary64?_numberText`).
* `SpellsInt`    : the integer that digits with an optional sign stand for. Reading a signed
  integer of 64 bits succeeds on exactly the texts that spell one (`int64?_eq_some_iff`).
-/

namespace NeuralQuery

/-- Decimal digits, at least one. -/
def IsDigits (cs : List Char) : Prop :=
  cs ≠ [] ∧ ∀ c ∈ cs, c.isDigit = true

inductive IsFraction : List Char → Prop where
  | absent : IsFraction []
  | digits {ds : List Char} : IsDigits ds → IsFraction ('.' :: ds)

inductive IsExponent : List Char → Prop where
  | absent : IsExponent []
  | digits {e : Char} {sign ds : List Char} :
      e = 'e' ∨ e = 'E' → sign = [] ∨ sign = ['+'] ∨ sign = ['-'] → IsDigits ds →
      IsExponent (e :: (sign ++ ds))

/-- An optional minus sign, digits, and an optional fraction and exponent. -/
inductive IsNumberText : List Char → Prop where
  | mk {sign whole fraction exponent : List Char} :
      sign = [] ∨ sign = ['-'] → IsDigits whole → IsFraction fraction → IsExponent exponent →
      IsNumberText (sign ++ (whole ++ (fraction ++ exponent)))

/-- The integer that digits with an optional sign stand for. -/
inductive SpellsInt : List Char → Int → Prop where
  | plain {ds : List Char} : IsDigits ds → SpellsInt ds (Nat.ofDigitChars 10 ds 0)
  | plus {ds : List Char} : IsDigits ds → SpellsInt ('+' :: ds) (Nat.ofDigitChars 10 ds 0)
  | minus {ds : List Char} : IsDigits ds → SpellsInt ('-' :: ds) (-(Nat.ofDigitChars 10 ds 0))

/-! ## Integers -/

namespace Number

theorem natural?_eq_some_iff {cs : List Char} {n : Nat} :
    natural? cs = some n ↔ IsDigits cs ∧ n = Nat.ofDigitChars 10 cs 0 := by
  unfold natural? IsDigits
  constructor
  · intro h
    split at h
    · cases h
    · rename_i hc
      cases h
      simp only [Bool.or_eq_true, List.isEmpty_iff, Bool.not_eq_true', not_or,
        Bool.not_eq_false, List.all_eq_true] at hc
      exact ⟨hc, rfl⟩
  · rintro ⟨⟨hne, hd⟩, rfl⟩
    rw [if_neg]
    simpa [hne] using hd

/-- Reading an integer finds exactly the integer that is spelled. -/
theorem integer?_eq_some_iff {cs : List Char} {i : Int} :
    integer? cs = some i ↔ SpellsInt cs i := by
  constructor
  · intro h
    unfold integer? at h
    split at h
    · obtain ⟨n, hn, rfl⟩ := Option.map_eq_some_iff.mp h
      obtain ⟨hd, rfl⟩ := natural?_eq_some_iff.mp hn
      exact .minus hd
    · obtain ⟨n, hn, rfl⟩ := Option.map_eq_some_iff.mp h
      obtain ⟨hd, rfl⟩ := natural?_eq_some_iff.mp hn
      exact .plus hd
    · obtain ⟨n, hn, rfl⟩ := Option.map_eq_some_iff.mp h
      obtain ⟨hd, rfl⟩ := natural?_eq_some_iff.mp hn
      exact .plain hd
  · intro h
    cases h with
    | plain hd =>
      rw [integer?_of_digits hd.2, natural?_eq_some_iff.mpr ⟨hd, rfl⟩]
      rfl
    | plus hd => simp [integer?, natural?_eq_some_iff.mpr ⟨hd, rfl⟩]
    | minus hd => simp [integer?, natural?_eq_some_iff.mpr ⟨hd, rfl⟩]

theorem int64?_eq_some_iff {text : String} {i : Int64} :
    int64? text = some i ↔ SpellsInt text.toList i.toInt := by
  rw [← integer?_eq_some_iff]
  unfold int64?
  constructor
  · intro h
    split at h
    · rename_i n hn
      split at h
      · rename_i hb
        cases h
        rw [hn, Int64.toInt_ofInt_of_le hb.1 (Int.lt_of_le_sub_one hb.2)]
      · cases h
    · cases h
  · intro h
    rw [h]
    have hb : Int64.minValue.toInt ≤ i.toInt ∧ i.toInt ≤ Int64.maxValue.toInt :=
      ⟨i.minValue_le_toInt, i.toInt_le⟩
    simp only [if_pos hb, Int64.ofInt_toInt]

end Number

/-! ## Binary values -/

/-- The binary64 value of a number with a fraction or an exponent. -/
def Number.nearest (text : String) : Binary64 :=
  (Number.binary64? text).getD default

/-- A run of characters that satisfy `p` ends before this text. -/
def Stops (p : Char → Bool) (rest : List Char) : Prop :=
  ∀ c ∈ rest.head?, p c = false

theorem takeWhile_of_stops {p : Char → Bool} {cs rest : List Char} (hc : ∀ c ∈ cs, p c = true)
    (hr : Stops p rest) : (cs ++ rest).takeWhile p = cs := by
  have ht : rest.takeWhile p = [] := by
    cases rest with
    | nil => rfl
    | cons c cs => simp [hr c (by simp)]
  rw [List.takeWhile_append_of_pos hc, ht, List.append_nil]

theorem dropWhile_of_stops {p : Char → Bool} {cs rest : List Char} (hc : ∀ c ∈ cs, p c = true)
    (hr : Stops p rest) : (cs ++ rest).dropWhile p = rest := by
  have ht : rest.dropWhile p = rest := by
    cases rest with
    | nil => rfl
    | cons c cs => simp [hr c (by simp)]
  rw [List.dropWhile_append_of_pos hc, ht]

theorem IsDigits.ne_head {ds : List Char} (h : IsDigits ds) {c : Char} (hc : c.isDigit = false)
    (rest : List Char) : ∀ cs, ds ++ rest ≠ c :: cs := by
  intro cs he
  obtain ⟨d, es, rfl⟩ := List.exists_cons_of_ne_nil h.1
  have hd := h.2 d (by simp)
  cases he
  rw [hc] at hd
  cases hd

theorem IsExponent.stops {x rest : List Char} (h : IsExponent x) (hr : Stops Char.isDigit rest) :
    Stops Char.isDigit (x ++ rest) := by
  cases h with
  | absent => exact hr
  | digits he _ _ =>
    intro c hc
    obtain rfl : _ = c := by simpa using hc
    rcases he with rfl | rfl <;> decide

theorem IsFraction.stops {f rest : List Char} (h : IsFraction f) (hr : Stops Char.isDigit rest) :
    Stops Char.isDigit (f ++ rest) := by
  cases h with
  | absent => exact hr
  | digits _ =>
    intro c hc
    obtain rfl : '.' = c := by simpa using hc
    decide

namespace Number

theorem exponent?_isExponent {x : List Char} (h : IsExponent x) : ∃ i, exponent? x = some i := by
  cases h with
  | absent => exact ⟨0, rfl⟩
  | @digits e sign ds he hs hd =>
    have hi : ∃ i, SpellsInt (sign ++ ds) i := by
      rcases hs with rfl | rfl | rfl
      · exact ⟨_, .plain hd⟩
      · exact ⟨_, .plus hd⟩
      · exact ⟨_, .minus hd⟩
    obtain ⟨i, hi⟩ := hi
    exact ⟨i, by simp [exponent?, he, integer?_eq_some_iff.mpr hi]⟩

theorem magnitudeBits?_number {w f x : List Char} (hw : IsDigits w) (hf : IsFraction f)
    (hx : IsExponent x) : ∃ n, magnitudeBits? (w ++ (f ++ x)) = some n := by
  obtain ⟨i, hi⟩ := exponent?_isExponent hx
  have hxs : Stops Char.isDigit x := by
    have hend : Stops Char.isDigit [] := by simp [Stops]
    simpa using hx.stops hend
  simp only [magnitudeBits?, takeWhile_of_stops hw.2 (hf.stops hxs),
    dropWhile_of_stops hw.2 (hf.stops hxs)]
  cases hf with
  | absent =>
    cases hx with
    | absent => simp [hw.1, exponent?]
    | digits he _ _ => rcases he with rfl | rfl <;> simp [hw.1, hi]
  | digits hd =>
    simp only [List.cons_append, takeWhile_of_stops hd.2 hxs, dropWhile_of_stops hd.2 hxs]
    simp [hw.1, hi]

/-- Every number has a binary64 value. -/
theorem binary64?_numberText {text : String} (h : IsNumberText text.toList) :
    ∃ v, binary64? text = some v := by
  generalize hcs : text.toList = cs at h
  cases h with
  | @mk sign w f x hs hw hf hx =>
    obtain ⟨n, hn⟩ := magnitudeBits?_number hw hf hx
    unfold binary64?
    rcases hs with rfl | rfl
    · rw [List.nil_append] at hcs
      rw [hcs]
      split
      · rename_i he
        exact absurd he (hw.ne_head (by decide) _ _)
      · rename_i he
        exact absurd he (hw.ne_head (by decide) _ _)
      · exact ⟨_, by rw [hn]; rfl⟩
    · rw [hcs]
      exact ⟨_, by simp only [List.cons_append, List.nil_append, hn]; rfl⟩

end Number

/-! ## Number tokens -/

namespace Token
namespace Shape

theorem digits?_isDigits {cs : List Char} {c : Cut} (h : digits? cs = some c) :
    IsDigits c.taken := by
  refine ⟨(digits?_of h).1, ?_⟩
  simp only [digits?] at h
  split at h
  · cases h
  · cases h
    intro d hd
    exact List.all_eq_true.mp List.all_takeWhile d hd

theorem fraction_isFraction (cs : List Char) : IsFraction (fraction cs).taken := by
  unfold fraction
  split
  · split
    · rename_i hd
      exact .digits (digits?_isDigits hd)
    · exact .absent
  · exact .absent

theorem sign_taken (cs : List Char) :
    (sign cs).taken = [] ∨ (sign cs).taken = ['+'] ∨ (sign cs).taken = ['-'] := by
  unfold sign
  split <;> simp

theorem exponent_isExponent (cs : List Char) : IsExponent (exponent cs).taken := by
  unfold exponent
  split
  · rename_i e ds
    split
    · rename_i he
      split
      · rename_i hd
        have hx := IsExponent.digits he (sign_taken ds) (digits?_isDigits hd)
        simpa [Cut.behind] using hx
      · exact .absent
    · exact .absent
  · exact .absent

theorem number?_numberText {cs : List Char} {c : Cut} (h : number? cs = some c) :
    IsNumberText c.taken := by
  have hu : ∀ {ds : List Char} {d : Cut} {sign : List Char}, sign = [] ∨ sign = ['-'] →
      unsigned? ds = some d → IsNumberText (sign ++ d.taken) := by
    intro ds d sign hs hd
    simp only [unsigned?] at hd
    split at hd
    · rename_i whole hw
      cases hd
      have hn := IsNumberText.mk hs (digits?_isDigits hw) (fraction_isFraction whole.rest)
        (exponent_isExponent (fraction whole.rest).rest)
      simpa [Cut.behind] using hn
    · cases hd
  unfold number? at h
  split at h
  · obtain ⟨d, hd, rfl⟩ := Option.map_eq_some_iff.mp h
    exact hu (.inr rfl) hd
  · exact hu (.inl rfl) h

end Shape

/-- A word is reserved, or else a name. -/
theorem Kind.ofWord_mem (word : String) :
    ofWord word = identifier ∨ (word, ofWord word) ∈ reserved := by
  unfold ofWord
  cases h : reserved.lookup word with
  | none => exact .inl rfl
  | some k =>
    obtain ⟨front, back, he, _⟩ := List.lookup_eq_some_iff.mp h
    exact .inr (by simp [he])

/-- Induction over the lexemes of a text that is read to its end. -/
theorem Scan.tokens_induct {P : Scan → List Token → Prop}
    (nil : ∀ s : Scan, s.ahead = [] → P s [Token.ending (s.spanOf 0)])
    (cut : ∀ (s : Scan) (shape : Shape) (c : Cut) (ts : List Token),
      Shape.first? s.ahead = some (shape, c) → P (s.past c) ts →
      P s ((shape.token? c.taken (s.spanOf (Text.byteLength c.taken))).toList ++ ts))
    (n : Nat) :
    ∀ {s : Scan} {ts : List Token}, s.ahead.length = n → s.tokens = .ok ts → P s ts := by
  induction n using Nat.strongRecOn with
  | ind n ih =>
    intro s ts hn h
    match hs : s.ahead with
    | [] =>
      rw [tokens_of_nil hs] at h
      cases h
      exact nil s hs
    | d :: ds =>
      match hf : Shape.first? s.ahead with
      | none =>
        rw [tokens_of_none hs hf] at h
        cases h
      | some (shape, c) =>
        rw [tokens_of_some hf] at h
        match hr : (s.past c).tokens with
        | .error e =>
          rw [hr] at h
          cases h
        | .ok us =>
          rw [hr] at h
          cases h
          have hlt := (Shape.first?_of hf).rest_length_lt
          exact cut s shape c us hf (ih _ (hn ▸ hlt) rfl hr)

/-- Induction over the lexemes of a text up to the character with which none starts. -/
theorem Scan.error_induct {P : Scan → Diagnostic → Prop}
    (stuck : ∀ (s : Scan) (d : Char) (ds : List Char), s.ahead = d :: ds →
      Shape.first? s.ahead = none → P s ⟨.unrecognisedToken (String.singleton d), s.position⟩)
    (cut : ∀ (s : Scan) (shape : Shape) (c : Cut) (e : Diagnostic),
      Shape.first? s.ahead = some (shape, c) → P (s.past c) e → P s e)
    (n : Nat) :
    ∀ {s : Scan} {e : Diagnostic}, s.ahead.length = n → s.tokens = .error e → P s e := by
  induction n using Nat.strongRecOn with
  | ind n ih =>
    intro s e hn h
    cases hf : Shape.first? s.ahead with
    | none =>
      cases hs : s.ahead with
      | nil =>
        rw [tokens_of_nil hs] at h
        cases h
      | cons d ds =>
        rw [tokens_of_none hs hf] at h
        cases h
        exact stuck s d ds hs hf
    | some p =>
      obtain ⟨shape, c⟩ := p
      rw [tokens_of_some hf] at h
      have hlt := (Shape.first?_of hf).rest_length_lt
      cases hr : (s.past c).tokens with
      | ok ts =>
        rw [hr] at h
        cases h
      | error e' =>
        rw [hr] at h
        cases h
        exact cut s shape c e hf (ih _ (hn ▸ hlt) rfl hr)

/-- The token is what some lexeme stands for. -/
def IsLexeme (t : Token) : Prop :=
  ∃ shape cs c span, Shape.first? cs = some (shape, c) ∧ shape.token? c.taken span = some t

/-- The tokens of a text are those of its lexemes, and one for its end. -/
theorem Scan.tokens_row {s : Scan} {ts : List Token} (h : s.tokens = .ok ts) :
    ∃ row span, ts = row ++ [Token.ending span] ∧ ∀ t ∈ row, t.IsLexeme := by
  refine Scan.tokens_induct
    (P := fun _ ts => ∃ row span, ts = row ++ [Token.ending span] ∧ ∀ t ∈ row, t.IsLexeme)
    ?_ ?_ _ rfl h
  · intro s _
    exact ⟨[], _, rfl, by simp⟩
  · rintro s shape c _ hf ⟨row, span, rfl, hrow⟩
    refine ⟨_, span, (List.append_assoc ..).symm, fun t ht => ?_⟩
    rcases List.mem_append.mp ht with ht | ht
    · exact ⟨shape, s.ahead, c, _, hf, by simpa using ht⟩
    · exact hrow t ht

theorem Shape.mem_of_first? {cs : List Char} {s : Shape} {c : Cut}
    (h : first? cs = some (s, c)) : s ∈ all ∧ s.cut? cs = some c := by
  obtain ⟨t, ht, hcut⟩ := List.exists_of_findSome?_eq_some h
  obtain ⟨d, hd, heq⟩ := Option.map_eq_some_iff.mp hcut
  cases heq
  exact ⟨ht, hd⟩

end Token
end NeuralQuery
