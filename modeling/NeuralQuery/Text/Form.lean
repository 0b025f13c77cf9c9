import NeuralQuery.Number.Integer

/-!
# NeuralQuery.Text.Form

How the text of a query is put together: parenthesised forms with blanks between their parts, and
lists of integers in brackets.
-/

namespace NeuralQuery
namespace Text

/-- Every part behind a lead of its own. -/
def led (lead : String) (parts : List String) : String :=
  String.join (parts.map fun part => lead ++ part)

/-- A parenthesised form: a head and its parts. -/
def form (head : String) (parts : List String) : String :=
  "(" ++ head ++ led " " parts ++ ")"

/-- Integers in brackets with commas, such as `[0,1]`. -/
def bracketed (values : List Int64) : String :=
  "[" ++ ",".intercalate (values.map Number.decimal) ++ "]"

/-- Indices in brackets; a tensor without indices has no brackets. -/
def subscript (indices : List Int64) : String :=
  if indices.isEmpty then "" else bracketed indices

end Text
end NeuralQuery
