import NeuralQuery.Number.Integer
import NeuralQuery.Text.Quoted

/-!
# NeuralQuery.Fault

Everything that can be wrong with a query, as causes with what they concern, and the wording of
each: its label, its category, its message and the advice that goes with it.

A fault of the category `parsing` or `reading` ends a build. All others are collected next to the
typed query.
-/

namespace NeuralQuery

inductive Fault where
  | unrecognisedToken (token : String)
  | unexpectedToken (token : String)
  | unexpectedTokenDetailed (token message : String)
  | malformedNumber (token : String)
  | unknownType (type : String)
  | variableAlreadyDeclared (name network : String)
  | variableNotDeclared (name : String)
  | ambiguousVariable (name networks : String)
  | networkAlreadyDeclared (network : String)
  | networkNotDeclared (network : String)
  | typeMismatch (expected received operand : String)
  | comparisonMismatch (lhs rhs : String)
  | nonNumericOperand (type operand : String)
  | expectedArithmetic (found : String)
  | expectedBoolean (found type : String)
  | networkUsedAsTensor (network : String)
  | unpinnedLiteral (type : String)
  | indexRankMismatch (name : String) (expected received : Nat)
  | indexOutOfBounds (name : String) (index : Int64) (dimension : Nat) (bound : Int64)
  | invalidVersion (version : String)
  | contradictoryRelations (network : String)
  | selfRelation (network : String)
  | signatureMismatch (network other detail : String)
  | unreadableFile (path message : String)
  deriving DecidableEq, Repr

inductive Fault.Category where
  | parsing
  | naming
  | typing
  | shape
  | structural
  | reading
  deriving DecidableEq, Repr

namespace Fault

namespace Category

def all : List Category :=
  [parsing, naming, typing, shape, structural, reading]

def name : Category → String
  | parsing => "syntax"
  | naming => "symbol"
  | typing => "type"
  | shape => "shape"
  | structural => "structural"
  | reading => "io"

end Category

def category : Fault → Category
  | unrecognisedToken .. | unexpectedToken .. | unexpectedTokenDetailed ..
  | malformedNumber .. | unknownType .. => .parsing
  | variableAlreadyDeclared .. | variableNotDeclared .. | ambiguousVariable ..
  | networkAlreadyDeclared .. | networkNotDeclared .. => .naming
  | typeMismatch .. | comparisonMismatch .. | nonNumericOperand .. | expectedArithmetic ..
  | expectedBoolean .. | networkUsedAsTensor .. | unpinnedLiteral .. => .typing
  | indexRankMismatch .. | indexOutOfBounds .. => .shape
  | invalidVersion .. | contradictoryRelations .. | selfRelation .. | signatureMismatch .. =>
    .structural
  | unreadableFile .. => .reading

def label : Fault → String
  | unrecognisedToken .. => "UnrecognisedToken"
  | unexpectedToken .. => "UnexpectedToken"
  | unexpectedTokenDetailed .. => "UnexpectedTokenDetailed"
  | malformedNumber .. => "NumberParseError"
  | unknownType .. => "UnknownType"
  | variableAlreadyDeclared .. => "VariableAlreadyDeclared"
  | variableNotDeclared .. => "VariableNotDeclared"
  | ambiguousVariable .. => "AmbiguousVariable"
  | networkAlreadyDeclared .. => "NetworkAlreadyDeclared"
  | networkNotDeclared .. => "NetworkNotDeclared"
  | typeMismatch .. => "TypeMatchError"
  | comparisonMismatch .. => "ComparisonTypeMismatch"
  | nonNumericOperand .. => "NonNumericOperand"
  | expectedArithmetic .. => "ExpectedArithmetic"
  | expectedBoolean .. => "ExpectedBoolean"
  | networkUsedAsTensor .. => "NetworkUsedAsTensor"
  | unpinnedLiteral .. => "UnpinnedLiteral"
  | indexRankMismatch .. => "IndexRankMismatch"
  | indexOutOfBounds .. => "IndexOutOfBounds"
  | invalidVersion .. => "InvalidVersion"
  | contradictoryRelations .. => "ContradictoryRelations"
  | selfRelation .. => "SelfRelation"
  | signatureMismatch .. => "RelationSignatureMismatch"
  | unreadableFile .. => "FileReadError"

/-- What is wrong, without its category. -/
def description : Fault → String
  | unrecognisedToken token => s!"unrecognised token: {Text.quote token}"
  | unexpectedToken token => s!"unexpected token: {Text.quote token}"
  | unexpectedTokenDetailed token message =>
    s!"unexpected token ({message}): {Text.quote token}"
  | malformedNumber token => s!"error parsing number: {Text.quote token}"
  | unknownType type => s!"unknown element type {Text.quote type}"
  | variableAlreadyDeclared name network =>
    s!"variable {Text.quote name} already declared in network {Text.quote network}"
  | variableNotDeclared name => s!"variable {Text.quote name} not declared"
  | ambiguousVariable name networks =>
    s!"variable {Text.quote name} is ambiguous, declared in {networks}"
  | networkAlreadyDeclared network => s!"network {Text.quote network} already declared"
  | networkNotDeclared network => s!"network {Text.quote network} not declared"
  | typeMismatch expected received operand =>
    s!"types do not match: expected `{expected}`, received `{received}` from `{operand}`"
  | comparisonMismatch lhs rhs => s!"comparison operands do not match: `{lhs}` and `{rhs}`"
  | nonNumericOperand type operand => s!"non-numeric operand `{operand}` of type `{type}`"
  | expectedArithmetic found => s!"expected arithmetic expression, found `{found}`"
  | expectedBoolean found type =>
    s!"expected boolean expression, found `{found}` of type `{type}`"
  | networkUsedAsTensor network => s!"network {Text.quote network} used as a tensor"
  | unpinnedLiteral type => s!"literal-only comparison left with type `{type}`"
  | indexRankMismatch name expected received =>
    s!"wrong number of indices for {Text.quote name}: expected {expected}, received {received}"
  | indexOutOfBounds name index dimension bound =>
    s!"index {Number.decimal index} out of bound {Number.decimal bound} for dimension {dimension} of " ++
      Text.quote name
  | invalidVersion version => s!"invalid version {Text.quote version}"
  | contradictoryRelations network =>
    s!"network {Text.quote network} declares contradictory relations"
  | selfRelation network => s!"network {Text.quote network} is related to itself"
  | signatureMismatch network other detail =>
    s!"network {Text.quote network} does not match {Text.quote other}: {detail}"
  | unreadableFile path message => s!"failed to read {Text.quote path}: {message}"

def message (f : Fault) : String :=
  s!"[{f.category.name}] {f.description}"

/-- Advice for the author of the query. A character that starts no token speaks for itself. -/
def tip? : Fault → Option String
  | unrecognisedToken _ => none
  | unexpectedToken token => some s!"Unexpected token: `{token}`, is a parenthesis missing?"
  | unexpectedTokenDetailed token message => some s!"Unexpected token: `{token}`, {message}"
  | malformedNumber token => some s!"Invalid number: `{token}`, is it above the integer limit?"
  | unknownType type => some s!"Unknown element type `{type}` found"
  | variableAlreadyDeclared name network =>
    some s!"Variable `{name}` already declared in network `{network}`"
  | variableNotDeclared name => some s!"Variable `{name}` not declared"
  | ambiguousVariable name networks =>
    some s!"Variable `{name}` is declared in several networks: {networks}"
  | networkAlreadyDeclared network => some s!"Network `{network}` already declared"
  | networkNotDeclared network => some s!"Network `{network}` not declared"
  | typeMismatch expected received operand =>
    some s!"Expected type `{expected}`, received `{received}` from `{operand}`"
  | comparisonMismatch lhs rhs => some s!"Cannot compare `{lhs}` with `{rhs}`"
  | nonNumericOperand type operand => some s!"Operand `{operand}` has non-numeric type `{type}`"
  | expectedArithmetic found => some s!"Expected an arithmetic expression, found `{found}`"
  | expectedBoolean found type =>
    some s!"Expected a boolean expression, found `{found}` of type `{type}`"
  | networkUsedAsTensor network => some s!"`{network}` names a network, not a tensor"
  | unpinnedLiteral type => some s!"Comparison of literals only, type stays `{type}`"
  | indexRankMismatch name expected received =>
    some s!"`{name}` has rank {expected}, received {received} indices"
  | indexOutOfBounds name index dimension bound =>
    some (s!"Index {Number.decimal index} out of bound {Number.decimal bound} for dimension {dimension} of " ++
      s!"`{name}`")
  | invalidVersion version => some s!"Version `{version}` is not of the form <major.minor>"
  | contradictoryRelations network => some s!"Network `{network}` declares more than one relation"
  | selfRelation network => some s!"Network `{network}` is related to itself"
  | signatureMismatch network other detail =>
    some s!"Network `{network}` does not match `{other}`: {detail}"
  | unreadableFile path message => some s!"Could not read `{path}`: {message}"

end Fault
end NeuralQuery
