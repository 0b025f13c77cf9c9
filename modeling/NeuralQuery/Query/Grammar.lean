import NeuralQuery.Query
import NeuralQuery.Token

/-!
# NeuralQuery.Query.Grammar

Which token announces which form. Every compound form starts with a parenthesis and a keyword or
operator, so one token decides what to read.
-/

namespace NeuralQuery

namespace Grammar

/-- A form at the top of a query. -/
inductive StatementForm where
  | version
  | network
  | assertion
  deriving DecidableEq, Repr

/-- A form inside a network. -/
inductive ItemForm where
  | relation
  | tensor (role : Role)
  deriving DecidableEq, Repr

/-- What an expression can start with. -/
inductive OperandForm where
  | number
  | reference
  | compound
  deriving DecidableEq, Repr

/-- A compound expression, by the family of its operator. -/
inductive CompoundForm where
  | sum
  | product
  | difference
  | comparison
  | connective
  deriving DecidableEq, Repr

end Grammar

open Grammar in
/-- The forms that tokens announce: a keyword or operator behind a parenthesis, and for operands
the token itself. -/
structure Grammar where
  statement? : Token.Kind → Option StatementForm
  item? : Token.Kind → Option ItemForm
  operand? : Token.Kind → Option OperandForm
  compound? : Token.Kind → Option CompoundForm

namespace Grammar

/-- The grammar of queries. -/
def standard : Grammar where
  statement?
    | .version => some .version
    | .declareNetwork => some .network
    | .assert => some .assertion
    | _ => none
  item?
    | .declareInput => some (.tensor .input)
    | .declareHidden => some (.tensor .hidden)
    | .declareOutput => some (.tensor .output)
    | .isometricTo => some .relation
    | .equalTo => some .relation
    | _ => none
  operand?
    | .number => some .number
    | .identifier => some .reference
    | .openParen => some .compound
    | _ => none
  compound?
    | .plus => some .sum
    | .star => some .product
    | .dash => some .difference
    | .greater => some .comparison
    | .less => some .comparison
    | .greaterEquals => some .comparison
    | .lessEquals => some .comparison
    | .equals => some .comparison
    | .notEquals => some .comparison
    | .and => some .connective
    | .or => some .connective
    | _ => none

/-- The grammar in which no token announces anything. -/
def empty : Grammar where
  statement? _ := none
  item? _ := none
  operand? _ := none
  compound? _ := none

end Grammar
end NeuralQuery
