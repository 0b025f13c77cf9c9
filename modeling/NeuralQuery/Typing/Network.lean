import NeuralQuery.Typed.Query
import NeuralQuery.Typing.Checked

/-!
# NeuralQuery.Typing.Network

Checking networks: their tensors become symbols, and their relations are compared with the first
network of the query that has the name they refer to, wherever it stands.
-/

namespace NeuralQuery
namespace Typing

open Checked

/-! ## Signatures -/

/-- A shape as it is quoted in messages, such as `[1, 3]`. -/
def shapeText (shape : List Int64) : String :=
  "[" ++ ", ".intercalate (shape.map Number.decimal) ++ "]"

/-- How a tensor differs from the one it is compared with. -/
def tensorMismatch? (role : String) (place : Nat) (a b : Declaration) : Option String :=
  if a.type ≠ b.type then
    some s!"{role} {place} `{a.name}` has type `{a.type.name}`, expected `{b.type.name}`"
  else if a.shape ≠ b.shape then
    some (s!"{role} {place} `{a.name}` has shape {shapeText a.shape}, " ++
      s!"expected {shapeText b.shape}")
  else none

/-- The first difference between two rows of tensors; `place` is the number of the first pair. -/
def firstMismatch? (role : String) (place : Nat) :
    List Declaration → List Declaration → Option String
  | a :: ours, b :: theirs =>
    match tensorMismatch? role place a b with
    | some detail => some detail
    | none => firstMismatch? role (place + 1) ours theirs
  | _, _ => none

def sideMismatch? (role : String) (ours theirs : List Declaration) : Option String :=
  if ours.length ≠ theirs.length then
    some s!"{ours.length} {role}s against {theirs.length}"
  else firstMismatch? role 0 ours theirs

/-- Why a network cannot take the place of another one, if it cannot: the first difference between
their inputs, else between their outputs. -/
def signatureMismatch? (network other : Network) : Option String :=
  match sideMismatch? "input" network.inputs other.inputs with
  | some detail => some detail
  | none => sideMismatch? "output" network.outputs other.outputs

/-! ## Relations -/

/-- The network that a name refers to: the first one declared with it. -/
def declared? (networks : List Network) (name : String) : Option Network :=
  networks.find? fun n => n.name == name

/-- Checks a relation and tells whether its target is another declared network. -/
def relation (networks : List Network) (network : Network) (r : Relation) : Checked Bool :=
  if r.target = network.name then do
    note (.selfRelation network.name) r.span.position
    return false
  else
    match declared? networks r.target with
    | none => do
      note (.networkNotDeclared r.target) r.span.position
      return false
    | some other =>
      match signatureMismatch? network other with
      | some detail => do
        note (.signatureMismatch network.name r.target detail) r.span.position
        return true
      | none => return true

/-! ## Networks -/

/-- Enters a tensor as a symbol and binds its name in the scope of its network. -/
def definition (table : SymbolTable) (scope : ScopeId) (network : String) (d : Declaration)
    (kind : SymbolKind) : Checked (Typed.Definition × SymbolTable) :=
  let symbol := Symbol.ofDeclaration d kind network
  let (id, table) := table.insert symbol
  let typed := Typed.Definition.ofSymbol id symbol d.span
  match table.declareVariable scope id d.span.position with
  | .ok table => pure (typed, table)
  | .error e => do
    report e
    return (typed, table)

/-- A network of which some forms are checked. -/
structure Draft where
  network : Typed.Network
  scope : ScopeId
  /-- The number of relations so far. -/
  related : Nat
  table : SymbolTable

namespace Draft

/-- Checks one more form. Any relation but the first is one too many. -/
def add (networks : List Network) (network : Network) (d : Draft) :
    Network.Item → Checked Draft
  | .relation r => do
    let resolved ← relation networks network r
    if d.related = 0 then pure ()
    else note (.contradictoryRelations network.name) r.span.position
    let d := { d with related := d.related + 1 }
    return if resolved then { d with network := d.network.relate r } else d
  | .tensor role declaration => do
    let (typed, table) ← definition d.table d.scope network.name declaration (.tensor role)
    return { d with table, network := d.network.define role typed }

def addAll (networks : List Network) (network : Network) (d : Draft) :
    List Network.Item → Checked Draft
  | [] => return d
  | i :: items => do
    let d ← d.add networks network i
    addAll networks network d items

end Draft

/-- The symbol of a network, if it got one. -/
def ownSymbol : Except Diagnostic SymbolId → Checked (Option SymbolId)
  | .ok id => return some id
  | .error e => do
    report e
    return none

/-- Checks a network, form by form as they are written. `networks` are all networks of the query. -/
def network (networks : List Network) (table : SymbolTable) (n : Network) :
    Checked (Typed.Network × SymbolTable) := do
  let opening := table.declareNetwork n.name n.span.position
  let symbol ← ownSymbol opening.symbol
  let start : Typed.Network := { name := n.name, symbol, span := n.span }
  let d ← Draft.addAll networks n ⟨start, opening.scope, 0, opening.table⟩ n.items
  return (d.network, d.table)

/-- Checks networks one after the other. -/
def networksFrom (networks : List Network) (table : SymbolTable) :
    List Network → Checked (List Typed.Network × SymbolTable)
  | [] => return ([], table)
  | n :: ns => do
    let (typed, table) ← network networks table n
    let (rest, table) ← networksFrom networks table ns
    return (typed :: rest, table)

end Typing
end NeuralQuery
