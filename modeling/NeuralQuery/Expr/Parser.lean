import NeuralQuery.Query.Grammar
import NeuralQuery.Token.Cursor

/-!
# NeuralQuery.Expr.Parser

Reading expressions from tokens.

An expression is a number, a tensor with optional indices, or a parenthesised form of an operator
and operands. The parser of compound forms takes the parser of their operands as an argument;
`expr` ties the knot as often as compound forms may nest.
-/

namespace NeuralQuery
namespace Parser

/-- The text is a number with a fraction or an exponent. -/
def isFractional (text : String) : Bool :=
  text.toList.any fun c => c == '.' || c == 'e' || c == 'E'

/-- The current token as a number literal. -/
def number : Parser Expr := do
  let t ← advance
  if isFractional t.value then
    match Number.binary64? t.value with
    | some value => return .float t.value value t.span
    | none => throw ⟨.malformedNumber t.value, t.span.position⟩
  else
    match Number.int64? t.value with
    | some value => return .int t.value value t.span
    | none => throw ⟨.malformedNumber t.value, t.span.position⟩

def integer : Parser Int64 := do
  let t ← expectOr .number "expected an integer"
  match Number.int64? t.value with
  | some value => return value
  | none =>
    if isFractional t.value then
      throw ⟨.unexpectedTokenDetailed t.value "expected an integer", t.span.position⟩
    else throw ⟨.malformedNumber t.value, t.span.position⟩

/-- Integers with commas between them, at most one comma for each token of the bound. -/
def integersWithin : List Token → Parser (List Int64)
  | [] => do
    let i ← integer
    return [i]
  | _ :: bound => do
    let i ← integer
    if (← kind) = .comma then
      let _ ← advance
      let is ← integersWithin bound
      return i :: is
    else return [i]

/-- Integers with commas between them, up to the closing bracket. -/
def integers : Parser (List Int64) := do
  if (← kind) = .closeBracket then return []
  else integersWithin (← ahead)

/-- The current token as the name of a tensor, with the indices that follow it. -/
def reference : Parser Expr := do
  let t ← advance
  if (← kind) = .openBracket then
    let _ ← advance
    let indices ← integers
    let close ← expectOr .closeBracket "expected `]` after the indices"
    return .var t.value indices (t.span.upTo close.span)
  else return .var t.value [] t.span

/-- Operands up to the closing parenthesis, at most one for each token of the bound. Where the
bound is used up no token is left, and the end of the text is no operand. -/
def operandsWithin (operand : Parser Expr) : List Token → Parser (List Expr)
  | [] => unexpected
  | _ :: bound => do
    if (← kind) = .closeParen then return []
    else
      let e ← operand
      let es ← operandsWithin operand bound
      return e :: es

/-- An operator with its operands and the span of their form. -/
structure Application where
  operator : Token
  operands : List Expr
  span : Span

/-- A parenthesised operator with its operands. -/
def application (operand : Parser Expr) : Parser Application := do
  let start ← expect .openParen
  let operator ← advance
  let operands ← operandsWithin operand (← ahead)
  let close ← advance
  return ⟨operator, operands, start.span.upTo close.span⟩

/-- The operator has the wrong number of operands. -/
def Application.arity (a : Application) (message : String) : Diagnostic :=
  ⟨.unexpectedTokenDetailed a.operator.value message, a.operator.span.position⟩

/-- The comparison that an operator token stands for. -/
def comparisonOf : Token.Kind → Comparison
  | .greater => .greater
  | .less => .less
  | .greaterEquals => .greaterEqual
  | .lessEquals => .lessEqual
  | .equals => .equal
  | _ => .notEqual

/-- The connective that an operator token stands for. -/
def connectiveOf : Token.Kind → Connective
  | .and => .and
  | _ => .or

open Grammar in
/-- The expression for an operator and its operands, if their number is right. A difference of one
operand is its negation. -/
def Application.expr (a : Application) : CompoundForm → Except Diagnostic Expr
  | .sum =>
    if a.operands.isEmpty then .error (a.arity "`+` takes at least one operand")
    else .ok (.aggregate .sum a.operands a.span)
  | .product =>
    if a.operands.isEmpty then .error (a.arity "`*` takes at least one operand")
    else .ok (.aggregate .product a.operands a.span)
  | .difference =>
    match a.operands with
    | [] => .error (a.arity "`-` takes at least one operand")
    | [e] => .ok (.negate e a.span)
    | h :: r => .ok (.minus h r a.span)
  | .comparison =>
    match a.operands with
    | [l, r] => .ok (.compare (comparisonOf a.operator.kind) l r a.span)
    | _ => .error (a.arity "comparisons take exactly two operands")
  | .connective =>
    let op := connectiveOf a.operator.kind
    if a.operands.isEmpty then .error (a.arity s!"`{op.symbol}` takes at least one operand")
    else .ok (.connective op a.operands a.span)

/-- A parenthesised form, read as one of a given family of operators. -/
def formOf (operand : Parser Expr) (form : Grammar.CompoundForm) : Parser Expr := do
  let a ← application operand
  match a.expr form with
  | .ok e => return e
  | .error d => throw d

section
variable (g : Grammar)

/-- A parenthesised form of a known operator, one level deeper. -/
def compoundOf (operand : Parser Expr) : Parser Expr := do
  match g.compound? (← peek 1) with
  | some form => nested (formOf operand form)
  | none =>
    let _ ← advance
    complain "expected an operator after `(`"

/-- An expression, given how to read the operands of a compound one. -/
def exprOf (operand : Parser Expr) : Parser Expr := do
  match g.operand? (← kind) with
  | some .number => number
  | some .reference => reference
  | some .compound => compoundOf g operand
  | none => unexpected

/-- An expression in which at most `levels` more compound forms nest. -/
def exprWithin : Nat → Parser Expr
  | 0 => exprOf g unexpected
  | levels + 1 => exprOf g (exprWithin levels)

def expr : Parser Expr :=
  exprWithin g maxNesting

def compound : Parser Expr :=
  compoundOf g (expr g)

def form (f : Grammar.CompoundForm) : Parser Expr :=
  formOf (expr g) f

end

end Parser
end NeuralQuery
