import NeuralQuery.Diagnostic
import NeuralQuery.Token.Lexeme

/-!
# NeuralQuery.Token.Scan

Reading a text as tokens. A scan has some of a text still ahead and knows how many bytes are
behind it; it takes one lexeme after the other off the text ahead until nothing is left, and ends
with a token for the end of the text. A character with which no lexeme starts stops it.
-/

namespace NeuralQuery
namespace Token

/-- What is ahead in a named text, and the number of bytes before it. -/
structure Scan where
  file : String
  offset : Nat
  ahead : List Char
  deriving DecidableEq, Repr

namespace Scan

def ofSource (source file : String) : Scan :=
  ⟨file, 0, source.toList⟩

def position (s : Scan) : Position :=
  .ofBytes s.file s.offset

/-- The span of the next `n` bytes. -/
def spanOf (s : Scan) (n : Nat) : Span :=
  .ofBytes s.file s.offset (s.offset + n)

/-- The scan behind a cut of the text ahead. -/
def past (s : Scan) (c : Cut) : Scan :=
  { s with offset := s.offset + Text.byteLength c.taken, ahead := c.rest }

/-- The tokens ahead. -/
def tokens (s : Scan) : Except Diagnostic (List Token) :=
  match hr : s.ahead with
  | [] => .ok [Token.ending (s.spanOf 0)]
  | d :: ds =>
    match hf : Shape.first? (d :: ds) with
    | none => .error ⟨.unrecognisedToken (String.singleton d), s.position⟩
    | some (shape, c) =>
      have : c.rest.length < s.ahead.length := hr ▸ (Shape.first?_of hf).rest_length_lt
      match tokens (s.past c) with
      | .error e => .error e
      | .ok ts =>
        match shape.token? c.taken (s.spanOf (Text.byteLength c.taken)) with
        | some t => .ok (t :: ts)
        | none => .ok ts
termination_by s.ahead.length

theorem tokens_of_nil {s : Scan} (h : s.ahead = []) :
    s.tokens = .ok [Token.ending (s.spanOf 0)] := by
  unfold tokens
  split
  · rfl
  · simp_all

theorem tokens_of_none {s : Scan} {d : Char} {ds : List Char} (h : s.ahead = d :: ds)
    (hf : Shape.first? s.ahead = none) :
    s.tokens = .error ⟨.unrecognisedToken (String.singleton d), s.position⟩ := by
  unfold tokens
  split
  · simp_all
  · rename_i e es hr
    rw [h] at hr
    cases hr
    rw [h] at hf
    split
    · rfl
    · rename_i hs
      rw [hf] at hs
      cases hs

theorem tokens_of_some {s : Scan} {shape : Shape} {c : Cut}
    (hf : Shape.first? s.ahead = some (shape, c)) :
    s.tokens = (s.past c).tokens.map fun ts =>
      (shape.token? c.taken (s.spanOf (Text.byteLength c.taken))).toList ++ ts := by
  have hne : s.ahead ≠ [] := by
    intro h
    have := (Shape.first?_of hf).rest_length_lt
    simp [h] at this
  conv => lhs; unfold tokens
  split
  · contradiction
  · rename_i d ds hr
    rw [hr] at hf
    split
    · simp_all
    · rename_i shape' e hs
      rw [hf] at hs
      cases hs
      cases (s.past c).tokens with
      | error e => rfl
      | ok ts => simp only [Except.map]; split <;> simp_all

end Scan

/-- The tokens of a text, or the first character with which no token starts. -/
def tokenize (source file : String) : Except Diagnostic (List Token) :=
  (Scan.ofSource source file).tokens

end Token
end NeuralQuery
