import NeuralQuery.Text.Blank
import NeuralQuery.Text.Quoted
import NeuralQuery.Token

/-!
# NeuralQuery.Token.Lexeme

The shapes of text that tokens are made of, and what each takes off the front of a text. The
shapes are tried in a fixed order and the first that fits wins, so a signed number is tried before
the minus sign and each operator before the shorter ones that it starts with.
-/

namespace NeuralQuery
namespace Token

inductive Shape where
  | blank
  | comment
  | number
  | string
  | word
  | mark (text : String) (kind : Kind)
  deriving DecidableEq, Repr

/-- A text cut in two: what was taken off its front, and the rest. -/
structure Cut where
  taken : List Char
  rest : List Char
  deriving DecidableEq, Repr

namespace Cut

/-- The longest front whose characters satisfy a test. -/
def run (p : Char → Bool) (cs : List Char) : Cut :=
  ⟨cs.takeWhile p, cs.dropWhile p⟩

/-- Puts characters back in front of what was taken. -/
def behind (front : List Char) (c : Cut) : Cut :=
  { c with taken := front ++ c.taken }

end Cut

namespace Shape

def isWordStart (c : Char) : Bool :=
  c.isAlpha || c == '_'

def isWordRest (c : Char) : Bool :=
  c.isAlphanum || c == '_' || c == '-'

/-- At least one digit, or nothing at all. -/
def digits? (cs : List Char) : Option Cut :=
  let c := Cut.run Char.isDigit cs
  if c.taken.isEmpty then none else some c

/-- A point with digits behind it, or nothing. -/
def fraction (cs : List Char) : Cut :=
  match cs with
  | '.' :: ds =>
    match digits? ds with
    | some c => c.behind ['.']
    | none => ⟨[], cs⟩
  | _ => ⟨[], cs⟩

/-- A plus or minus sign, or nothing. -/
def sign (cs : List Char) : Cut :=
  match cs with
  | '+' :: ds => ⟨['+'], ds⟩
  | '-' :: ds => ⟨['-'], ds⟩
  | _ => ⟨[], cs⟩

/-- An exponent mark with an optional sign and digits behind it, or nothing. -/
def exponent (cs : List Char) : Cut :=
  match cs with
  | e :: ds =>
    if e = 'e' ∨ e = 'E' then
      match digits? (sign ds).rest with
      | some c => c.behind (e :: (sign ds).taken)
      | none => ⟨[], cs⟩
    else ⟨[], cs⟩
  | [] => ⟨[], cs⟩

/-- Digits with an optional fraction and exponent. -/
def unsigned? (cs : List Char) : Option Cut :=
  match digits? cs with
  | some whole =>
    let f := fraction whole.rest
    some ((exponent f.rest).behind (whole.taken ++ f.taken))
  | none => none

def number? (cs : List Char) : Option Cut :=
  match cs with
  | '-' :: ds => (unsigned? ds).map (Cut.behind ['-'])
  | _ => unsigned? cs

/-- The text up to and with the closing quote. A backslash takes the next character with it, and
may not stand at the end of a line. -/
def closing? : List Char → Option Cut
  | [] => none
  | [c] => if c = '"' then some ⟨[c], []⟩ else none
  | c :: d :: cs =>
    if c = '"' then some ⟨[c], d :: cs⟩
    else if c = '\\' then
      if d = '\n' then none else (closing? cs).map (Cut.behind [c, d])
    else (closing? (d :: cs)).map (Cut.behind [c])

/-- What follows a given front, if the text starts with it. -/
def after? : List Char → List Char → Option (List Char)
  | [], cs => some cs
  | _ :: _, [] => none
  | m :: ms, c :: cs => if m = c then after? ms cs else none

/-- What a shape takes off the front of a text, if the text starts with it. -/
def cut? : Shape → List Char → Option Cut
  | blank, cs =>
    let c := Cut.run Text.isBlank cs
    if c.taken.isEmpty then none else some c
  | comment, ';' :: cs => some ((Cut.run (· != '\n') cs).behind [';'])
  | comment, _ => none
  | number, cs => number? cs
  | string, '"' :: cs => (closing? cs).map (Cut.behind ['"'])
  | string, _ => none
  | word, c :: cs => if isWordStart c then some ((Cut.run isWordRest cs).behind [c]) else none
  | word, [] => none
  | mark text _, cs => (after? text.toList cs).map fun rest => ⟨text.toList, rest⟩

/-- All shapes, in the order in which they are tried. -/
def all : List Shape :=
  [blank, comment, number, string, word] ++ Kind.marks.map fun (text, kind) => mark text kind

/-- The token for a text of this shape. White space and comments make none. -/
def token? (s : Shape) (text : List Char) (span : Span) : Option Token :=
  match s with
  | blank => none
  | comment => none
  | number => some ⟨.number, String.ofList text, span⟩
  | string => some ⟨.string, String.ofList (Text.unescape text.tail.dropLast), span⟩
  | word => some ⟨Kind.ofWord (String.ofList text), String.ofList text, span⟩
  | mark _ kind => some ⟨kind, String.ofList text, span⟩

/-- The first shape that fits, with its cut. -/
def first? (cs : List Char) : Option (Shape × Cut) :=
  all.findSome? fun s => (s.cut? cs).map fun c => (s, c)

end Shape

/-! ## What was taken and the rest make up the text -/

/-- A cut of `cs` that takes at least one character off it. -/
def Cut.Of (cs : List Char) (c : Cut) : Prop :=
  c.taken ≠ [] ∧ c.taken ++ c.rest = cs

theorem Cut.Of.rest_length_lt {cs : List Char} {c : Cut} (h : Cut.Of cs c) :
    c.rest.length < cs.length := by
  obtain ⟨hne, happ⟩ := h
  have hpos := List.length_pos_iff.mpr hne
  rw [← happ, List.length_append]
  omega

namespace Shape

theorem run_append (p : Char → Bool) (cs : List Char) :
    (Cut.run p cs).taken ++ (Cut.run p cs).rest = cs :=
  List.takeWhile_append_dropWhile

theorem digits?_of {cs : List Char} {c : Cut} (h : digits? cs = some c) : Cut.Of cs c := by
  simp only [digits?] at h
  split at h
  · cases h
  · rename_i hne
    cases h
    exact ⟨by simpa using hne, run_append _ _⟩

theorem fraction_append (cs : List Char) : (fraction cs).taken ++ (fraction cs).rest = cs := by
  unfold fraction
  split
  · split
    · rename_i hd
      have := (digits?_of hd).2
      simp [Cut.behind, this]
    · rfl
  · rfl

theorem sign_append (cs : List Char) : (sign cs).taken ++ (sign cs).rest = cs := by
  unfold sign
  split <;> rfl

theorem exponent_append (cs : List Char) : (exponent cs).taken ++ (exponent cs).rest = cs := by
  unfold exponent
  split
  · rename_i e ds
    split
    · split
      · rename_i hd
        have hs := sign_append ds
        have := (digits?_of hd).2
        simp [Cut.behind, this, hs]
      · rfl
    · rfl
  · rfl

theorem unsigned?_of {cs : List Char} {c : Cut} (h : unsigned? cs = some c) : Cut.Of cs c := by
  simp only [unsigned?] at h
  split at h
  · rename_i whole hw
    cases h
    obtain ⟨hne, happ⟩ := digits?_of hw
    refine ⟨by simp [Cut.behind, hne], ?_⟩
    simp only [Cut.behind, List.append_assoc, exponent_append, fraction_append, happ]
  · cases h

theorem number?_of {cs : List Char} {c : Cut} (h : number? cs = some c) : Cut.Of cs c := by
  unfold number? at h
  split at h
  · obtain ⟨d, hd, rfl⟩ := Option.map_eq_some_iff.mp h
    refine ⟨by simp [Cut.behind], ?_⟩
    simp [Cut.behind, (unsigned?_of hd).2]
  · exact unsigned?_of h

theorem closing?_append {cs : List Char} {c : Cut} (h : closing? cs = some c) :
    c.taken ++ c.rest = cs := by
  fun_induction closing? cs generalizing c with
  | case1 => cases h
  | case2 => cases h; rfl
  | case3 => cases h
  | case4 => cases h; rfl
  | case5 => cases h
  | case6 d cs _ _ ih =>
    obtain ⟨e, he, rfl⟩ := Option.map_eq_some_iff.mp h
    simp [Cut.behind, ih he]
  | case7 x d cs _ _ ih =>
    obtain ⟨e, he, rfl⟩ := Option.map_eq_some_iff.mp h
    simp [Cut.behind, ih he]

theorem after?_append {ms cs rest : List Char} (h : after? ms cs = some rest) :
    ms ++ rest = cs := by
  induction ms generalizing cs with
  | nil => cases h; rfl
  | cons m ms ih =>
    rcases cs with _ | ⟨c, cs⟩
    · cases h
    · simp only [after?] at h
      split at h
      · rename_i hmc
        rw [List.cons_append, ih h, hmc]
      · cases h

theorem mark_ne_nil {text : String} {kind : Kind} (h : mark text kind ∈ all) :
    text.toList ≠ [] := by
  have hm : ∀ m ∈ Kind.marks, m.1.toList ≠ [] := by decide
  simp only [all, List.mem_append, List.mem_cons, List.not_mem_nil, List.mem_map, reduceCtorEq,
    or_self, false_or] at h
  obtain ⟨m, hmem, heq⟩ := h
  cases heq
  exact hm m hmem

theorem cut?_of {s : Shape} (hs : s ∈ all) {cs : List Char} {c : Cut} (h : s.cut? cs = some c) :
    Cut.Of cs c := by
  cases s with
  | blank =>
    simp only [cut?] at h
    split at h
    · cases h
    · rename_i hne
      cases h
      exact ⟨by simpa using hne, run_append _ _⟩
  | comment =>
    rcases cs with _ | ⟨d, ds⟩
    · simp [cut?] at h
    · by_cases hd : d = ';'
      · subst hd
        simp only [cut?, Option.some.injEq] at h
        subst h
        exact ⟨by simp [Cut.behind], by simp [Cut.behind, run_append]⟩
      · simp [cut?, hd] at h
  | number => exact number?_of h
  | string =>
    rcases cs with _ | ⟨d, ds⟩
    · simp [cut?] at h
    · by_cases hd : d = '"'
      · subst hd
        simp only [cut?] at h
        obtain ⟨e, he, rfl⟩ := Option.map_eq_some_iff.mp h
        exact ⟨by simp [Cut.behind], by simp [Cut.behind, closing?_append he]⟩
      · simp [cut?, hd] at h
  | word =>
    rcases cs with _ | ⟨d, ds⟩
    · simp [cut?] at h
    · simp only [cut?] at h
      split at h
      · cases h
        exact ⟨by simp [Cut.behind], by simp [Cut.behind, run_append]⟩
      · cases h
  | mark text kind =>
    obtain ⟨rest, hrest, rfl⟩ := Option.map_eq_some_iff.mp h
    exact ⟨mark_ne_nil hs, after?_append hrest⟩

theorem first?_of {cs : List Char} {s : Shape} {c : Cut} (h : first? cs = some (s, c)) :
    Cut.Of cs c := by
  obtain ⟨t, ht, hcut⟩ := List.exists_of_findSome?_eq_some h
  obtain ⟨d, hd, heq⟩ := Option.map_eq_some_iff.mp hcut
  cases heq
  exact cut?_of ht hd

end Shape
end Token
end NeuralQuery
