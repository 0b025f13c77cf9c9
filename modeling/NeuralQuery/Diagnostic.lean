import NeuralQuery.Fault
import NeuralQuery.Span
import NeuralQuery.Text.Line

/-!
# NeuralQuery.Diagnostic

A fault at a position, and its report: a heading, the place, and the source line with a caret
under the offset. The line is quoted without the white space around it; the caret moves with it.
-/

namespace NeuralQuery

structure Diagnostic where
  fault : Fault
  position : Position
  deriving DecidableEq, Repr

namespace Diagnostic

def heading (d : Diagnostic) : String :=
  s!"Error: {d.fault.label} [{d.fault.category.name}]" ++
    match d.fault.tip? with
    | some tip => s!" ({tip})"
    | none => ""

/-- The column of the caret under a line that is quoted without its leading white space. -/
def caretColumn (line : Text.Line) : Nat :=
  line.offset - (Text.byteLength line.text - Text.byteLength (Text.trimStart line.text))

/-- The report of one fault, given the line it was found in. -/
def renderLine (d : Diagnostic) (line : Text.Line) (file : String) : String :=
  let number := toString line.number
  let margin := String.ofList (List.replicate (number.length + 1) ' ') ++ "|"
  let quoted := String.ofList (Text.trimEnd (Text.trimStart line.text))
  let arrow := String.ofList (List.replicate (caretColumn line) '-') ++ "^"
  d.heading ++ "\n" ++
    "-> " ++ file ++ ":" ++ number ++ "\n" ++
    margin ++ "\n" ++
    number ++ " | " ++ quoted ++ "\n" ++
    margin ++ " " ++ arrow ++ "\n"

/-- The report of one fault against the source it was found in. -/
def render (d : Diagnostic) (source file : String) : String :=
  d.renderLine (Text.Line.ofOffset source.toList d.position.offset) file

/-- All reports, with an empty line between two of them. -/
def report (ds : List Diagnostic) (source file : String) : String :=
  let pieces := Text.pieces source.toList
  "\n".intercalate
    (ds.map fun d => d.renderLine (Text.Line.within 1 d.position.offset pieces) file)

theorem report_eq_intercalate (ds : List Diagnostic) (source file : String) :
    report ds source file = "\n".intercalate (ds.map fun d => d.render source file) := rfl

def count (c : Fault.Category) (ds : List Diagnostic) : Nat :=
  ds.countP fun d => d.fault.category == c

end Diagnostic
end NeuralQuery
