import NeuralQuery.ValueType

/-!
# NeuralQuery.Policy

What to do with a comparison of literals only, which no declared tensor gives a type, and the
options of a build.
-/

namespace NeuralQuery

inductive LiteralPolicy where
  /-- Leave the literal kinds in the typed query. -/
  | keep
  /-- Give both sides this type, if it is an element type that their literals may adopt. -/
  | adopt (type : ValueType)
  /-- Report the comparison. -/
  | reject
  deriving DecidableEq, Repr

namespace LiteralPolicy

def text : LiteralPolicy → String
  | keep => "keep"
  | adopt t => t.name
  | reject => "reject"

/-- A policy by its text, or the reason why the text names none. -/
def ofText (text : String) : Except String LiteralPolicy :=
  if text = "keep" then .ok keep
  else if text = "reject" then .ok reject
  else
    match ElementType.ofName? text with
    | some t => .ok (adopt (.element t))
    | none => .error s!"expected `keep`, `reject` or a concrete element type, found `{text}`"

/-- The policies that can be asked for are those that adopt no type or an element type. -/
theorem ofText_text {p : LiteralPolicy} (h : ∀ t, p = adopt t → t.isConcrete = true) :
    ofText p.text = .ok p := by
  cases p with
  | keep => rfl
  | reject => rfl
  | adopt t =>
    cases t with
    | element t => cases t <;> rfl
    | literal k => cases h _ rfl
    | unknown => cases h _ rfl

end LiteralPolicy

structure BuildOptions where
  policy : LiteralPolicy := .keep
  /-- The name that positions and reports give to a text without a file. -/
  fileName : Option String := none

end NeuralQuery
