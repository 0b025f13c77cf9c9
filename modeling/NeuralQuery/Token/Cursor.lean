import NeuralQuery.Diagnostic
import NeuralQuery.Token

/-!
# NeuralQuery.Token.Cursor

A place in a row of tokens, and the parsers that move it.

The last token of a row is always the end of the text, so a cursor has a current token wherever it
stands, and it never moves past the end. A parser that fails leaves the cursor where it stopped.
The cursor also counts the compound expressions that are open, of which there are never more than
`maxNesting`.
-/

namespace NeuralQuery

/-- Value and place of the token that ends a row. -/
structure Ending where
  value : String
  span : Span
  deriving DecidableEq, Repr

def Ending.token (e : Ending) : Token :=
  ⟨.eof, e.value, e.span⟩

structure Cursor where
  file : String
  ahead : List Token
  ending : Ending
  depth : Nat
  deriving DecidableEq, Repr

/-- The deepest nesting of compound expressions. -/
def maxNesting : Nat := 256

namespace Cursor

/-- The start of a row of tokens, which is given an end if it has none. -/
def ofTokens (tokens : List Token) (file : String) : Cursor :=
  match tokens.getLast? with
  | none => ⟨file, [], ⟨"EOF", ⟨file, 0, 0⟩⟩, 0⟩
  | some t =>
    if t.kind = .eof then ⟨file, tokens.dropLast, ⟨t.value, t.span⟩, 0⟩
    else ⟨file, tokens, ⟨"EOF", ⟨t.span.file, t.span.stop, t.span.stop⟩⟩, 0⟩

def current (c : Cursor) : Token :=
  match c.ahead with
  | [] => c.ending.token
  | t :: _ => t

def kind (c : Cursor) : Token.Kind :=
  c.current.kind

def position (c : Cursor) : Position :=
  c.current.span.position

/-- The kind of the token `n` places further on. -/
def peek (c : Cursor) (n : Nat) : Token.Kind :=
  match c.ahead[n]? with
  | some t => t.kind
  | none => .eof

def advance (c : Cursor) : Cursor :=
  { c with ahead := c.ahead.tail }

/-- There are tokens before the end. -/
def hasTokens (c : Cursor) : Bool :=
  c.kind != .eof

/-- The current token is out of place. -/
def unexpected (c : Cursor) : Diagnostic :=
  ⟨.unexpectedToken c.current.value, c.position⟩

/-- The current token is out of place, for a stated reason. -/
def complaint (c : Cursor) (message : String) : Diagnostic :=
  ⟨.unexpectedTokenDetailed c.current.value message, c.position⟩

def enter (c : Cursor) : Except Diagnostic Cursor :=
  if maxNesting ≤ c.depth then .error (c.complaint "expression nested too deeply")
  else .ok { c with depth := c.depth + 1 }

def leave (c : Cursor) : Cursor :=
  { c with depth := c.depth - 1 }

end Cursor

/-- A step over tokens with a result or a diagnostic, and a cursor either way. -/
abbrev Parser := EStateM Diagnostic Cursor

namespace Parser

def kind : Parser Token.Kind := fun c => .ok c.kind c

def peek (n : Nat) : Parser Token.Kind := fun c => .ok (c.peek n) c

/-- The tokens before the end of the row. A loop that uses up at least one of them in each round
takes them as its bound. -/
def ahead : Parser (List Token) := fun c => .ok c.ahead c

/-- Moves on and returns the token that was current. -/
def advance : Parser Token := fun c => .ok c.current c.advance

def unexpected {α : Type} : Parser α := fun c => .error c.unexpected c

def complain {α : Type} (message : String) : Parser α := fun c => .error (c.complaint message) c

/-- Moves past a token of the given kind, or fails with `d`. -/
def expectElse (k : Token.Kind) (d : Diagnostic) : Parser Token := fun c =>
  if c.kind = k then advance c else .error d c

def expect (k : Token.Kind) : Parser Token := fun c => expectElse k c.unexpected c

/-- Moves past a token of the given kind, or says what was expected. -/
def expectOr (k : Token.Kind) (message : String) : Parser Token := fun c =>
  expectElse k (c.complaint message) c

/-- Runs a parser one level deeper. The level is left again also when the parser fails. -/
def nested {α : Type} (p : Parser α) : Parser α := fun c =>
  match c.enter with
  | .error d => .error d c
  | .ok c =>
    match p c with
    | .ok a c => .ok a c.leave
    | .error d c => .error d c.leave

end Parser
end NeuralQuery
