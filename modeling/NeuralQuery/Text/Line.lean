import NeuralQuery.Text.Blank
import NeuralQuery.Text.Bytes

/-!
# NeuralQuery.Text.Line

The line of a text that holds a given byte offset. A text is cut after each newline, so a piece
keeps the newline that ends it and a text that ends in a newline has no empty last piece.
-/

namespace NeuralQuery
namespace Text

/-- A text cut after each newline. -/
def pieces : List Char → List (List Char)
  | [] => []
  | c :: cs =>
    if c = '\n' then [c] :: pieces cs
    else
      match pieces cs with
      | [] => [[c]]
      | p :: ps => (c :: p) :: ps

/-- A line with its number, counted from one, and an offset into it. -/
structure Line where
  number : Nat
  text : List Char
  offset : Nat
  deriving DecidableEq, Repr

/-- The piece that holds an offset, which is relative to the start of the first piece; `number`
is the line number of that piece. An offset past the end lands behind the last visible
character of the last piece. -/
def Line.within (number position : Nat) : List (List Char) → Line
  | [] => ⟨number, [], 0⟩
  | [p] =>
    if position < byteLength p then ⟨number, p, position⟩
    else ⟨number, p, byteLength (trimEnd p)⟩
  | p :: q :: ps =>
    if position < byteLength p then ⟨number, p, position⟩
    else Line.within (number + 1) (position - byteLength p) (q :: ps)

def Line.ofOffset (content : List Char) (position : Nat) : Line :=
  Line.within 1 position (pieces content)

@[simp] theorem pieces_flatten (cs : List Char) : (pieces cs).flatten = cs := by
  induction cs with
  | nil => rfl
  | cons c cs ih =>
    simp only [pieces]
    split
    · simp [ih]
    · split <;> simp_all

end Text
end NeuralQuery
