import NeuralQuery.ElementType

/-!
# NeuralQuery.ValueType

The type of a value in an expression, and when two of them agree.

A literal has no declared type. It starts with one of three literal kinds and adopts the element
type of the operand it meets, if that type is in its family. Two different element types never
agree. The type `unknown` belongs to what was refused before and agrees with anything, so that one
mistake is not reported again by everything around it.
-/

namespace NeuralQuery

/-- What a literal is, as long as no element type is settled for it. -/
inductive LiteralKind where
  | float
  | negativeInt
  | positiveInt
  deriving DecidableEq, Repr

namespace LiteralKind

def all : List LiteralKind :=
  [float, negativeInt, positiveInt]

def name : LiteralKind → String
  | float => "float-constant"
  | negativeInt => "negative-int-constant"
  | positiveInt => "positive-int-constant"

/-- How much a literal kind demands of its element type. -/
def rank : LiteralKind → Nat
  | positiveInt => 1
  | negativeInt => 2
  | float => 3

/-- The more demanding of two kinds. -/
def join (a b : LiteralKind) : LiteralKind :=
  if b.rank ≤ a.rank then a else b

/-- The element types that a literal of this kind may adopt. -/
def admits : LiteralKind → ElementType → Bool
  | float, t => t.isFloat
  | positiveInt, t => t.isInteger || t.isFloat
  | negativeInt, t => t.isSigned || t.isFloat

/-- The kind of the negated literal. -/
def negate : LiteralKind → LiteralKind
  | float => float
  | negativeInt => positiveInt
  | positiveInt => negativeInt

end LiteralKind

inductive ValueType where
  | element (type : ElementType)
  | literal (kind : LiteralKind)
  | unknown
  deriving DecidableEq, Repr

namespace ValueType

def all : List ValueType :=
  ElementType.all.map element ++ unknown :: LiteralKind.all.map literal

def name : ValueType → String
  | element t => t.name
  | literal k => k.name
  | unknown => "unknown"

def ofName? (text : String) : Option ValueType :=
  all.find? fun t => t.name == text

def isLiteral : ValueType → Bool
  | literal _ => true
  | _ => false

/-- Neither a literal kind nor `unknown`. -/
def isConcrete : ValueType → Bool
  | element _ => true
  | _ => false

def isFloat : ValueType → Bool
  | element t => t.isFloat
  | _ => false

def isSigned : ValueType → Bool
  | element t => t.isSigned
  | _ => false

def isUnsigned : ValueType → Bool
  | element t => t.isUnsigned
  | _ => false

def isInteger : ValueType → Bool
  | element t => t.isInteger
  | _ => false

def isComplex : ValueType → Bool
  | element t => t.isComplex
  | _ => false

/-- Literals count as numbers, `unknown` does not. -/
def isNumeric : ValueType → Bool
  | element t => t.isNumeric
  | literal _ => true
  | unknown => false

/-- A literal of type `b` may adopt `a`. -/
def adopts (a b : ValueType) : Bool :=
  match a, b with
  | element t, literal k => k.admits t
  | _, _ => false

/-- The element type that a literal of a kind takes over from `t`, if it may. -/
def adopted? (t : ValueType) (k : LiteralKind) : Option ElementType :=
  match t with
  | element e => if k.admits e then some e else none
  | _ => none

/-- The same element type on both sides. -/
def sameElement (a b : ValueType) : Bool :=
  match a, b with
  | element s, element t => s == t
  | _, _ => false

/-- The type on which two operands settle, if they agree. -/
def unify : ValueType → ValueType → Option ValueType
  | unknown, b => some b
  | a, unknown => some a
  | literal a, literal b => some (literal (a.join b))
  | element t, literal k => if k.admits t then some (element t) else none
  | literal k, element t => if k.admits t then some (element t) else none
  | element s, element t => if s = t then some (element s) else none

/-- The type of the negated value. -/
def negate : ValueType → ValueType
  | literal k => literal k.negate
  | t => t

theorem isSome_adopted? (t : ValueType) (k : LiteralKind) :
    (t.adopted? k).isSome = t.adopts (.literal k) := by
  cases t with
  | element e => cases h : k.admits e <;> simp [adopted?, adopts, h]
  | literal j => rfl
  | unknown => rfl

theorem adopted?_eq_some_iff {t : ValueType} {k : LiteralKind} {e : ElementType} :
    t.adopted? k = some e ↔ t = element e ∧ k.admits e = true := by
  cases t with
  | element u =>
    rw [adopted?, Option.ite_none_right_eq_some]
    constructor
    · rintro ⟨hk, hu⟩
      cases hu
      exact ⟨rfl, hk⟩
    · rintro ⟨hu, hk⟩
      cases hu
      exact ⟨hk, rfl⟩
  | literal j => simp [adopted?]
  | unknown => simp [adopted?]

theorem ofName?_name (t : ValueType) : ofName? t.name = some t := by
  cases t with
  | element t => cases t <;> decide
  | literal k => cases k <;> decide
  | unknown => decide

end ValueType
end NeuralQuery
