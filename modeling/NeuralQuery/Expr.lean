import NeuralQuery.Number.Binary64
import NeuralQuery.Span
import NeuralQuery.Text.Form

/-!
# NeuralQuery.Expr

Expressions as they are written, before any of them has a type. Arithmetic and boolean forms share
one type, because only the place of an expression says which of the two it has to be.
-/

namespace NeuralQuery

inductive Comparison where
  | greater
  | less
  | greaterEqual
  | lessEqual
  | equal
  | notEqual
  deriving DecidableEq, Repr

inductive Connective where
  | and
  | or
  deriving DecidableEq, Repr

/-- The operators over any number of operands. -/
inductive Aggregate where
  | sum
  | product
  deriving DecidableEq, Repr

namespace Comparison

def all : List Comparison :=
  [greater, less, greaterEqual, lessEqual, equal, notEqual]

def symbol : Comparison → String
  | greater => ">"
  | less => "<"
  | greaterEqual => ">="
  | lessEqual => "<="
  | equal => "=="
  | notEqual => "!="

end Comparison

namespace Connective

def all : List Connective :=
  [and, or]

def symbol : Connective → String
  | and => "and"
  | or => "or"

end Connective

def Aggregate.symbol : Aggregate → String
  | sum => "+"
  | product => "*"

inductive Expr where
  /-- A tensor, or one element of it. -/
  | var (name : String) (indices : List Int64) (span : Span)
  /-- An integer literal; the lexeme keeps its sign. -/
  | int (lexeme : String) (value : Int64) (span : Span)
  | float (lexeme : String) (value : Binary64) (span : Span)
  | negate (operand : Expr) (span : Span)
  | aggregate (op : Aggregate) (operands : List Expr) (span : Span)
  /-- The head less each of the rest. -/
  | minus (head : Expr) (rest : List Expr) (span : Span)
  | compare (op : Comparison) (lhs rhs : Expr) (span : Span)
  | connective (op : Connective) (operands : List Expr) (span : Span)
  deriving Repr

namespace Expr

def span : Expr → Span
  | var _ _ s => s
  | int _ _ s => s
  | float _ _ s => s
  | negate _ s => s
  | aggregate _ _ s => s
  | minus _ _ s => s
  | compare _ _ _ s => s
  | connective _ _ s => s

def isBoolean : Expr → Bool
  | compare .. => true
  | connective .. => true
  | _ => false

/-- The operands in written order. -/
def operands : Expr → List Expr
  | var .. => []
  | int .. => []
  | float .. => []
  | negate e _ => [e]
  | aggregate _ es _ => es
  | minus h r _ => h :: r
  | compare _ l r _ => [l, r]
  | connective _ es _ => es

mutual

/-- The expression as it would be written with single blanks. -/
def text : Expr → String
  | var name indices _ => name ++ Text.subscript indices
  | int lexeme _ _ => lexeme
  | float lexeme _ _ => lexeme
  | negate e _ => Text.form "-" [e.text]
  | aggregate op es _ => Text.form op.symbol (texts es)
  | minus h r _ => Text.form "-" (h.text :: texts r)
  | compare op l r _ => Text.form op.symbol [l.text, r.text]
  | connective op es _ => Text.form op.symbol (texts es)

def texts : List Expr → List String
  | [] => []
  | e :: es => e.text :: texts es

end

mutual

/-- Every node of an expression with its depth, each before its operands. -/
def outline (depth : Nat) : Expr → List (Nat × Expr)
  | e@(var ..) => [(depth, e)]
  | e@(int ..) => [(depth, e)]
  | e@(float ..) => [(depth, e)]
  | e@(negate f _) => (depth, e) :: f.outline (depth + 1)
  | e@(aggregate _ es _) => (depth, e) :: outlines (depth + 1) es
  | e@(minus h r _) => (depth, e) :: (h.outline (depth + 1) ++ outlines (depth + 1) r)
  | e@(compare _ l r _) => (depth, e) :: (l.outline (depth + 1) ++ r.outline (depth + 1))
  | e@(connective _ es _) => (depth, e) :: outlines (depth + 1) es

def outlines (depth : Nat) : List Expr → List (Nat × Expr)
  | [] => []
  | e :: es => e.outline depth ++ outlines depth es

end

theorem texts_eq_map (es : List Expr) : texts es = es.map text := by
  induction es with
  | nil => rfl
  | cons e es ih => rw [texts, ih, List.map_cons]

/-- Induction over an expression with a hypothesis for every operand in a list. -/
theorem inductOn {P : Expr → Prop}
    (var : ∀ name indices s, P (.var name indices s))
    (int : ∀ lexeme value s, P (.int lexeme value s))
    (float : ∀ lexeme value s, P (.float lexeme value s))
    (negate : ∀ e s, P e → P (.negate e s))
    (aggregate : ∀ op es s, (∀ e ∈ es, P e) → P (.aggregate op es s))
    (minus : ∀ h r s, P h → (∀ e ∈ r, P e) → P (.minus h r s))
    (compare : ∀ op l r s, P l → P r → P (.compare op l r s))
    (connective : ∀ op es s, (∀ e ∈ es, P e) → P (.connective op es s)) : ∀ e, P e
  | .var name indices s => var name indices s
  | .int lexeme value s => int lexeme value s
  | .float lexeme value s => float lexeme value s
  | .negate e s =>
    negate e s (inductOn var int float negate aggregate minus compare connective e)
  | .aggregate op es s => aggregate op es s fun e _ =>
      inductOn var int float negate aggregate minus compare connective e
  | .minus h r s =>
    minus h r s (inductOn var int float negate aggregate minus compare connective h) fun e _ =>
      inductOn var int float negate aggregate minus compare connective e
  | .compare op l r s =>
    compare op l r s (inductOn var int float negate aggregate minus compare connective l)
      (inductOn var int float negate aggregate minus compare connective r)
  | .connective op es s => connective op es s fun e _ =>
      inductOn var int float negate aggregate minus compare connective e

end Expr
end NeuralQuery
