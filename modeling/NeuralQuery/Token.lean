import NeuralQuery.Span

/-!
# NeuralQuery.Token

The tokens of a query: brackets, operators, numbers, strings, reserved words and other names.
-/

namespace NeuralQuery

inductive Token.Kind where
  | eof
  | number
  | string
  | identifier
  | openBracket
  | closeBracket
  | openParen
  | closeParen
  | comma
  | equals
  | notEquals
  | less
  | lessEquals
  | greater
  | greaterEquals
  | plus
  | dash
  | star
  | version
  | declareNetwork
  | declareInput
  | declareHidden
  | declareOutput
  | isometricTo
  | equalTo
  | assert
  | and
  | or
  deriving DecidableEq, Repr

/-- A token with the text it stands for, which for a string is the text between its quotes. -/
structure Token where
  kind : Token.Kind
  value : String
  span : Span
  deriving DecidableEq, Repr

namespace Token

namespace Kind

def all : List Kind :=
  [eof, number, string, identifier, openBracket, closeBracket, openParen, closeParen, comma,
   equals, notEquals, less, lessEquals, greater, greaterEquals, plus, dash, star, version,
   declareNetwork, declareInput, declareHidden, declareOutput, isometricTo, equalTo, assert, and,
   or]

def name : Kind → String
  | eof => "EOF"
  | number => "Number"
  | string => "String"
  | identifier => "Identifier"
  | openBracket => "OpenBracket"
  | closeBracket => "CloseBracket"
  | openParen => "OpenParen"
  | closeParen => "CloseParen"
  | comma => "Comma"
  | equals => "Equals"
  | notEquals => "NotEquals"
  | less => "Less"
  | lessEquals => "LessEquals"
  | greater => "Greater"
  | greaterEquals => "GreaterEquals"
  | plus => "Plus"
  | dash => "Dash"
  | star => "Star"
  | version => "VnnlibVersion"
  | declareNetwork => "DeclareNetwork"
  | declareInput => "DeclareInput"
  | declareHidden => "DeclareHidden"
  | declareOutput => "DeclareOutput"
  | isometricTo => "IsometricTo"
  | equalTo => "EqualTo"
  | assert => "Assert"
  | and => "And"
  | or => "Or"

def ofName? (text : String) : Option Kind :=
  all.find? fun k => k.name == text

/-- The words that are not free to be names. -/
def reserved : List (String × Kind) :=
  [("vnnlib-version", version), ("declare-network", declareNetwork),
   ("declare-input", declareInput), ("declare-hidden", declareHidden),
   ("declare-output", declareOutput), ("isometric-to", isometricTo), ("equal-to", equalTo),
   ("assert", assert), ("and", and), ("or", or)]

def ofWord (word : String) : Kind :=
  (reserved.lookup word).getD identifier

/-- Brackets and operators. An operator stands before every shorter one that it starts with. -/
def marks : List (String × Kind) :=
  [("[", openBracket), ("]", closeBracket), ("(", openParen), (")", closeParen), (",", comma),
   ("==", equals), ("!=", notEquals), ("<=", lessEquals), ("<", less), (">=", greaterEquals),
   (">", greater), ("+", plus), ("-", dash), ("*", star)]

theorem ofName?_name (k : Kind) : ofName? k.name = some k := by
  cases k <;> decide

end Kind

/-- The token that ends every text. -/
def ending (span : Span) : Token :=
  ⟨.eof, "EOF", span⟩

def isOneOf (t : Token) (kinds : List Kind) : Bool :=
  kinds.contains t.kind

/-- A token as a record with its kind and value. -/
def display (t : Token) : String :=
  "Token \x7b\nkind: " ++ t.kind.name ++ ",\nvalue: " ++ t.value ++ "\x7d"

end Token
end NeuralQuery
