import NeuralQuery.Typed.Arith

/-!
# NeuralQuery.Typed.Formula

Boolean expressions over typed arithmetic.
-/

namespace NeuralQuery
namespace Typed

inductive Formula where
  | compare (op : Comparison) (lhs rhs : Arith) (span : Span)
  | connective (op : Connective) (operands : List Formula) (span : Span)
  /-- What stands in for an expression that is no formula; it keeps the text of it. -/
  | invalid (source : String) (span : Span)
  deriving Repr

namespace Formula

def type : Formula → ValueType
  | compare .. => .element .bool
  | connective .. => .element .bool
  | invalid .. => .unknown

def span : Formula → Span
  | compare _ _ _ s => s
  | connective _ _ s => s
  | invalid _ s => s

mutual

def text : Formula → String
  | compare op l r _ => Text.form op.symbol [l.text, r.text]
  | connective op fs _ => Text.form op.symbol (texts fs)
  | invalid source _ => source

def texts : List Formula → List String
  | [] => []
  | f :: fs => f.text :: texts fs

end

theorem texts_eq_map (fs : List Formula) : texts fs = fs.map text := by
  induction fs with
  | nil => rfl
  | cons f fs ih => rw [texts, ih, List.map_cons]

/-- Induction over a formula with a hypothesis for every operand in a list. -/
theorem inductOn {P : Formula → Prop}
    (compare : ∀ op l r s, P (.compare op l r s))
    (connective : ∀ op fs s, (∀ f ∈ fs, P f) → P (.connective op fs s))
    (invalid : ∀ source s, P (.invalid source s)) : ∀ f, P f
  | .compare op l r s => compare op l r s
  | .connective op fs s => connective op fs s fun f _ => inductOn compare connective invalid f
  | .invalid source s => invalid source s

end Formula
end Typed
end NeuralQuery
