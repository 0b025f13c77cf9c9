import NeuralQuery.Expr
import NeuralQuery.SymbolTable

/-!
# NeuralQuery.Typed.Arith

Arithmetic expressions with types. A literal keeps its literal kind until it meets an operand with
an element type, which is then pinned to it.
-/

namespace NeuralQuery
namespace Typed

inductive Arith where
  | var (symbol : SymbolId) (name : String) (indices : List Int64) (type : ValueType)
      (span : Span)
  | int (lexeme : String) (value : Int64) (type : ValueType) (span : Span)
  | float (lexeme : String) (value : Binary64) (type : ValueType) (span : Span)
  | negate (operand : Arith) (type : ValueType) (span : Span)
  | aggregate (op : Aggregate) (operands : List Arith) (type : ValueType) (span : Span)
  | minus (head : Arith) (rest : List Arith) (type : ValueType) (span : Span)
  /-- What stands in for an expression without a type; it keeps the text of that expression. -/
  | invalid (source : String) (span : Span)
  deriving Repr

namespace Arith

def type : Arith → ValueType
  | var _ _ _ t _ => t
  | int _ _ t _ => t
  | float _ _ t _ => t
  | negate _ t _ => t
  | aggregate _ _ t _ => t
  | minus _ _ t _ => t
  | invalid _ _ => .unknown

def span : Arith → Span
  | var _ _ _ _ s => s
  | int _ _ _ s => s
  | float _ _ _ s => s
  | negate _ _ s => s
  | aggregate _ _ _ s => s
  | minus _ _ _ s => s
  | invalid _ s => s

/-- The operands in written order. -/
def operands : Arith → List Arith
  | negate e _ _ => [e]
  | aggregate _ es _ _ => es
  | minus h r _ _ => h :: r
  | _ => []

mutual

def text : Arith → String
  | var _ name indices _ _ => name ++ Text.subscript indices
  | int lexeme _ _ _ => lexeme
  | float lexeme _ _ _ => lexeme
  | negate e _ _ => Text.form "-" [e.text]
  | aggregate op es _ _ => Text.form op.symbol (texts es)
  | minus h r _ _ => Text.form "-" (h.text :: texts r)
  | invalid source _ => source

def texts : List Arith → List String
  | [] => []
  | e :: es => e.text :: texts es

end

mutual

/-- Gives an element type to every literal of an expression of literals. An expression that has a
type, or none at all, is left alone. -/
def pin (t : ElementType) : Arith → Arith
  | var symbol name indices type s => var symbol name indices type s
  | int lexeme value type s => int lexeme value (if type.isLiteral then .element t else type) s
  | float lexeme value type s =>
    float lexeme value (if type.isLiteral then .element t else type) s
  | negate e type s =>
    if type.isLiteral then negate (e.pin t) (.element t) s else negate e type s
  | aggregate op es type s =>
    if type.isLiteral then aggregate op (pinAll t es) (.element t) s else aggregate op es type s
  | minus h r type s =>
    if type.isLiteral then minus (h.pin t) (pinAll t r) (.element t) s else minus h r type s
  | invalid source s => invalid source s

def pinAll (t : ElementType) : List Arith → List Arith
  | [] => []
  | e :: es => e.pin t :: pinAll t es

end

theorem texts_eq_map (es : List Arith) : texts es = es.map text := by
  induction es with
  | nil => rfl
  | cons e es ih => rw [texts, ih, List.map_cons]

theorem pinAll_eq_map (t : ElementType) (es : List Arith) : pinAll t es = es.map (pin t) := by
  induction es with
  | nil => rfl
  | cons e es ih => rw [pinAll, ih, List.map_cons]

/-- Induction over an expression with a hypothesis for every operand in a list. -/
theorem inductOn {P : Arith → Prop}
    (var : ∀ symbol name indices t s, P (.var symbol name indices t s))
    (int : ∀ lexeme value t s, P (.int lexeme value t s))
    (float : ∀ lexeme value t s, P (.float lexeme value t s))
    (negate : ∀ e t s, P e → P (.negate e t s))
    (aggregate : ∀ op es t s, (∀ e ∈ es, P e) → P (.aggregate op es t s))
    (minus : ∀ h r t s, P h → (∀ e ∈ r, P e) → P (.minus h r t s))
    (invalid : ∀ source s, P (.invalid source s)) : ∀ e, P e
  | .var symbol name indices t s => var symbol name indices t s
  | .int lexeme value t s => int lexeme value t s
  | .float lexeme value t s => float lexeme value t s
  | .negate e t s => negate e t s (inductOn var int float negate aggregate minus invalid e)
  | .aggregate op es t s => aggregate op es t s fun e _ =>
      inductOn var int float negate aggregate minus invalid e
  | .minus h r t s =>
    minus h r t s (inductOn var int float negate aggregate minus invalid h) fun e _ =>
      inductOn var int float negate aggregate minus invalid e
  | .invalid source s => invalid source s

end Arith
end Typed
end NeuralQuery
