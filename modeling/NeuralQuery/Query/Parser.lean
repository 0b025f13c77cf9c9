import NeuralQuery.Expr.Parser

/-!
# NeuralQuery.Query.Parser

Reading a whole query from tokens: the version first, then the networks, then the assertions.
-/

namespace NeuralQuery

/-- A form at the top of a query. -/
inductive Statement where
  | version (version : Version)
  | network (network : Network)
  | assertion (assertion : Assertion)

namespace Parser

/-- The dimensions of a tensor in brackets. -/
def shape : Parser (List Int64) := do
  let _ ← expectOr .openBracket "expected `[` to open the shape"
  let dims ← integers
  let _ ← expectOr .closeBracket "expected `]` to close the shape"
  return dims

def version : Parser Version := do
  let start ← expect .openParen
  let _ ← expect .version
  let _ ← expectOr .less "expected `<` before the version number"
  let number ← expectOr .number "expected a version number"
  let _ ← expectOr .greater "expected `>` after the version number"
  let close ← expect .closeParen
  return ⟨number.value, start.span.upTo close.span⟩

def relation : Parser Relation := do
  let start ← expect .openParen
  let keyword ← advance
  let target ← expectOr .identifier "expected the related network name"
  let close ← expect .closeParen
  let kind := if keyword.kind = .equalTo then .equal else .isometric
  return ⟨kind, target.value, start.span.upTo close.span⟩

def elementType : Parser ElementType := do
  let t ← expectOr .identifier "expected element type"
  match ElementType.ofName? t.value with
  | some type => return type
  | none => throw ⟨.unknownType t.value, t.span.position⟩

/-- The name of the node that a tensor stands for. Hidden tensors cannot do without. -/
def onnxName (role : Role) : Parser (Option String) := do
  if (← kind) = .string then
    let t ← advance
    return some t.value
  else if role = .hidden then complain "hidden tensors require an ONNX node name"
  else return none

def declaration (role : Role) : Parser Declaration := do
  let start ← expect .openParen
  let _ ← advance
  let name ← expectOr .identifier "expected identifier during tensor declaration"
  let type ← elementType
  let shape ← shape
  let onnxName ← onnxName role
  let close ← expect .closeParen
  return ⟨name.value, .element type, shape, onnxName, start.span.upTo close.span⟩

/-- One form inside a network. -/
def item : Grammar.ItemForm → Parser Network.Item
  | .relation => do
    let r ← relation
    return .relation r
  | .tensor role => do
    let d ← declaration role
    return .tensor role d

section
variable (g : Grammar)

/-- Adds the forms that follow to a network, at most one for each token of the bound. -/
def itemsWithin : List Token → Network → Parser Network
  | [], n => return n
  | _ :: bound, n => do
    if (← kind) = .openParen then
      match g.item? (← peek 1) with
      | some form =>
        let i ← item form
        itemsWithin bound (n.add i)
      | none =>
        let _ ← advance
        complain "expected a tensor declaration or network relation"
    else return n

def network : Parser Network := do
  let start ← expect .openParen
  let _ ← expect .declareNetwork
  let name ← expectOr .identifier "expected network name"
  let n ← itemsWithin g (← ahead) { name := name.value, span := .nowhere }
  let close ← expectOr .closeParen "expected `)` to close the network declaration"
  return { n with span := start.span.upTo close.span }

def assertion : Parser Assertion := do
  let start ← expect .openParen
  let _ ← expect .assert
  let condition ← expr g
  let close ← expectOr .closeParen "expected `)` after the asserted expression"
  return ⟨condition, start.span.upTo close.span⟩

def statementOf : Grammar.StatementForm → Parser Statement
  | .version => do
    let v ← version
    return .version v
  | .network => do
    let n ← network g
    return .network n
  | .assertion => do
    let a ← assertion g
    return .assertion a

def statement : Parser Statement := do
  if (← kind) = .openParen then
    match g.statement? (← peek 1) with
    | some form => statementOf g form
    | none => complain "expected a version, network declaration or assertion"
  else complain "expected a version, network declaration or assertion"

/-- The networks and assertions behind the version, networks first, at most one form for each token
of the bound; `asserted` says whether an assertion stands before. -/
def bodyWithin : List Token → (asserted : Bool) → Parser (List Network × List Assertion)
  | [], _ => return ([], [])
  | _ :: bound, asserted => fun c =>
    if c.hasTokens then
      match statement g c with
      | .error d c => .error d c
      | .ok (.version v) c' =>
        .error ⟨.unexpectedTokenDetailed v.lexeme "version declared more than once", c.position⟩ c'
      | .ok (.network n) c' =>
        if asserted then
          .error ⟨.unexpectedTokenDetailed n.name "network declarations must precede assertions",
            c.position⟩ c'
        else
          match bodyWithin bound false c' with
          | .ok (ns, bs) c => .ok (n :: ns, bs) c
          | .error d c => .error d c
      | .ok (.assertion a) c' =>
        match bodyWithin bound true c' with
        | .ok (ns, bs) c => .ok (ns, a :: bs) c
        | .error d c => .error d c
    else .ok ([], []) c

end

/-- The version that opens a query. -/
def leadingVersion : Parser Version := do
  if (← kind) = .openParen ∧ (← peek 1) = .version then version
  else complain "expected `(vnnlib-version <major.minor>)` first"

def query : Parser Query := do
  let version ← leadingVersion
  let (networks, assertions) ← bodyWithin .standard (← ahead) false
  let c ← get
  return ⟨version, networks, assertions, ⟨c.file, 0, c.position.offset⟩⟩

end Parser

/-- The query that a row of tokens stands for, or the first mistake in it. -/
def Query.ofTokens (tokens : List Token) (file : String) : Except Diagnostic Query :=
  match Parser.query (Cursor.ofTokens tokens file) with
  | .ok q _ => .ok q
  | .error d _ => .error d

end NeuralQuery
