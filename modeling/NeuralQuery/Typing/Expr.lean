import NeuralQuery.Policy
import NeuralQuery.Typed.Formula
import NeuralQuery.Typing.Checked

/-!
# NeuralQuery.Typing.Expr

The types of expressions.

Every expression is given the type it has by itself, as arithmetic or as a formula; its place then
demands one of the two, and what is of the other sort is reported and replaced by a node that only
keeps its text. The operands of an arithmetic form have to agree on one type. Where they do not, or
where one of them was refused before, the form has the type `unknown`, which nothing around it
reports again.
-/

namespace NeuralQuery
namespace Typing

open Typed
open Checked

/-! ## Tensors -/

/-- The bounds of one dimension admit an index. A negative bound leaves the size open. -/
def admitsIndex (bound index : Int64) : Bool :=
  decide (0 ≤ index) && (decide (bound < 0) || decide (index < bound))

/-- The indices that fall outside the shape of a tensor, dimension by dimension. -/
def checkBounds (name : String) (position : Position) (dimension : Nat) :
    List Int64 → List Int64 → Checked Unit
  | index :: indices, bound :: shape => do
    if admitsIndex bound index then pure ()
    else note (.indexOutOfBounds name index dimension bound) position
    checkBounds name position (dimension + 1) indices shape
  | _, _ => pure ()

/-- The indices of a tensor fit its shape. -/
def checkIndices (name : String) (position : Position) (indices shape : List Int64) :
    Checked Unit :=
  if indices.length = shape.length then checkBounds name position 0 indices shape
  else note (.indexRankMismatch name shape.length indices.length) position

/-- A reference to a tensor. A name that leads to no tensor is reported. -/
def reference (table : SymbolTable) (name : String) (indices : List Int64) (span : Span) :
    Checked Arith :=
  match table.resolve name span.position with
  | .error d => do
    report d
    return .invalid name span
  | .ok id =>
    let symbol := table.get id
    if symbol.kind = .network then do
      note (.networkUsedAsTensor name) span.position
      return .invalid name span
    else do
      checkIndices name span.position indices symbol.shape
      return .var id name indices symbol.type span

/-! ## Arithmetic -/

/-- The kind of an integer literal, by its sign. -/
def intKind (lexeme : String) : LiteralKind :=
  if lexeme.toList.head? = some '-' then .negativeInt else .positiveInt

/-- The type on which operands agree, from left to right, starting with the type of those before
them. An operand that does not fit is reported and left out. -/
def agree : Option ValueType → List Arith → Checked (Option ValueType)
  | running, [] => pure running
  | running, a :: operands =>
    if a.type ≠ .unknown ∧ !a.type.isNumeric then do
      note (.nonNumericOperand a.type.name a.text) a.span.position
      agree running operands
    else
      match running with
      | none => agree (some a.type) operands
      | some t =>
        match t.unify a.type with
        | some u => agree (some u) operands
        | none => do
          note (.typeMismatch t.name a.type.name a.text) a.span.position
          agree (some t) operands

/-- The type of a form with these operands: `unknown` as soon as one of them was refused, now or
before. -/
def commonType (operands : List Arith) (agreed : Checked (Option ValueType)) : ValueType :=
  if agreed.diagnostics.isEmpty && operands.all (fun a => a.type != .unknown) then
    agreed.value.getD .unknown
  else .unknown

/-- Operands with the type of their form. Literals among them adopt it. -/
structure Settled where
  type : ValueType
  operands : List Arith

def settle (operands : List Arith) : Checked Settled :=
  let agreed := agree none operands
  let type := commonType operands agreed
  match type with
  | .element t => ⟨⟨type, operands.map (Arith.pin t)⟩, agreed.diagnostics⟩
  | _ => ⟨⟨type, operands⟩, agreed.diagnostics⟩

def negation (operand : Arith) (span : Span) : Checked Arith := do
  let s ← settle [operand]
  return .negate (s.operands.headD operand) s.type.negate span

def aggregation (op : Aggregate) (operands : List Arith) (span : Span) : Checked Arith := do
  let s ← settle operands
  return .aggregate op s.operands s.type span

def difference (head : Arith) (rest : List Arith) (span : Span) : Checked Arith := do
  let s ← settle (head :: rest)
  return .minus (s.operands.headD head) s.operands.tail s.type span

/-! ## Comparisons -/

/-- What becomes of the two sides of a comparison of literals only. -/
def applyPolicy (policy : LiteralPolicy) (kind : LiteralKind) (lhs rhs : Arith)
    (position : Position) : Checked (Arith × Arith) :=
  match policy with
  | .keep => pure (lhs, rhs)
  | .adopt t =>
    match t.adopted? kind with
    | some e => pure (lhs.pin e, rhs.pin e)
    | none => do
      note (.typeMismatch t.name kind.name (lhs.text ++ " " ++ rhs.text)) position
      return (lhs, rhs)
  | .reject => do
    note (.unpinnedLiteral kind.name) position
    return (lhs, rhs)

/-- The two sides of a comparison with the type they share. A side of type `unknown` was reported
before and shares any type. -/
def reconcile (policy : LiteralPolicy) (lhs rhs : Arith) (position : Position) :
    Checked (Arith × Arith) :=
  match lhs.type.unify rhs.type with
  | none => do
    note (.comparisonMismatch lhs.type.name rhs.type.name) position
    return (lhs, rhs)
  | some (.literal kind) =>
    if lhs.type.isLiteral && rhs.type.isLiteral then applyPolicy policy kind lhs rhs position
    else pure (lhs, rhs)
  | some (.element t) => pure (lhs.pin t, rhs.pin t)
  | some .unknown => pure (lhs, rhs)

def comparison (policy : LiteralPolicy) (op : Comparison) (lhs rhs : Arith) (span : Span) :
    Checked Formula := do
  let (lhs, rhs) ← reconcile policy lhs rhs span.position
  return .compare op lhs rhs span

/-! ## Expressions -/

/-- An expression with the type it has by itself. -/
inductive Term where
  | arith (arith : Arith)
  | formula (formula : Formula)

/-- A term in a place for arithmetic; `e` is the expression it was made from. -/
def Term.asArith (e : Expr) : Term → Checked Arith
  | arith a => pure a
  | formula _ => do
    note (.expectedArithmetic e.text) e.span.position
    return .invalid e.text e.span

/-- A term in a place for a formula; `e` is the expression it was made from. -/
def Term.asFormula (e : Expr) : Term → Checked Formula
  | formula f => pure f
  | arith a => do
    note (.expectedBoolean e.text a.type.name) e.span.position
    return .invalid e.text e.span

section
variable (table : SymbolTable) (policy : LiteralPolicy)

mutual

/-- The term for an expression. Operands are checked from left to right, before their form. -/
def term : Expr → Checked Term
  | .var name indices span => do
    let a ← reference table name indices span
    return .arith a
  | .int lexeme value span => return .arith (.int lexeme value (.literal (intKind lexeme)) span)
  | .float lexeme value span => return .arith (.float lexeme value (.literal .float) span)
  | .negate e span => do
    let t ← term e
    let a ← t.asArith e
    let n ← negation a span
    return .arith n
  | .aggregate op es span => do
    let operands ← ariths es
    let a ← aggregation op operands span
    return .arith a
  | .minus e es span => do
    let t ← term e
    let head ← t.asArith e
    let rest ← ariths es
    let a ← difference head rest span
    return .arith a
  | .compare op l r span => do
    let s ← term l
    let lhs ← s.asArith l
    let t ← term r
    let rhs ← t.asArith r
    let f ← comparison policy op lhs rhs span
    return .formula f
  | .connective op es span => do
    let fs ← formulas es
    return .formula (.connective op fs span)

/-- Expressions in places for arithmetic. -/
def ariths : List Expr → Checked (List Arith)
  | [] => return []
  | e :: es => do
    let t ← term e
    let a ← t.asArith e
    let rest ← ariths es
    return a :: rest

/-- Expressions in places for formulas. -/
def formulas : List Expr → Checked (List Formula)
  | [] => return []
  | e :: es => do
    let t ← term e
    let f ← t.asFormula e
    let rest ← formulas es
    return f :: rest

end

/-- An expression in a place for arithmetic. -/
def arith (e : Expr) : Checked Arith := do
  let t ← term table policy e
  t.asArith e

/-- An expression in a place for a formula. -/
def formula (e : Expr) : Checked Formula := do
  let t ← term table policy e
  t.asFormula e

end

end Typing
end NeuralQuery
