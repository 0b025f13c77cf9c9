import NeuralQuery.Diagnostic
import NeuralQuery.Query

/-!
# NeuralQuery.SymbolTable

Every symbol that a query declares, and the names under which they can be reached.

Symbols are kept in one list and known by their place in it. Each network opens a scope, in which
its tensors are bound to symbols. A network whose name is taken still gets a scope, so that its
own declarations can be checked, but that scope is detached: it has no symbol of its own and no
name is ever looked up in it.
-/

namespace NeuralQuery

inductive SymbolKind where
  | tensor (role : Role)
  | network
  | unknown
  deriving DecidableEq, Repr

/-- The place of a symbol in its table. -/
structure SymbolId where
  index : Nat
  deriving DecidableEq, Repr

/-- The place of a scope in its table. -/
structure ScopeId where
  index : Nat
  deriving DecidableEq, Repr

structure Symbol where
  name : String
  onnxName : Option String
  type : ValueType
  shape : List Int64
  kind : SymbolKind
  network : String
  deriving DecidableEq, Repr

namespace Symbol

def rank (s : Symbol) : Nat :=
  s.shape.length

def isScalar (s : Symbol) : Bool :=
  s.shape.isEmpty

/-- The symbol of a network. -/
def ofNetwork (name : String) : Symbol :=
  ⟨name, none, .unknown, [], .network, name⟩

/-- The symbol of a declared tensor. -/
def ofDeclaration (d : Declaration) (kind : SymbolKind) (network : String) : Symbol :=
  ⟨d.name, d.onnxName, d.type, d.shape, kind, network⟩

/-- What stands in for a symbol that no table holds. -/
def nothing : Symbol :=
  ⟨"", none, .unknown, [], .unknown, ""⟩

end Symbol

/-- The tensors of one network by name. The scope is attached if it has the symbol of its
network. -/
structure Scope where
  name : String
  symbol : Option SymbolId
  bindings : List (String × SymbolId)
  deriving DecidableEq, Repr

namespace Scope

def isAttached (s : Scope) : Bool :=
  s.symbol.isSome

def get? (s : Scope) (name : String) : Option SymbolId :=
  s.bindings.lookup name

end Scope

structure SymbolTable where
  symbols : List Symbol
  scopes : List Scope
  deriving DecidableEq, Repr

namespace SymbolTable

def empty : SymbolTable :=
  ⟨[], []⟩

def get (t : SymbolTable) (id : SymbolId) : Symbol :=
  t.symbols.getD id.index .nothing

/-- Adds a symbol that no name leads to yet. -/
def insert (t : SymbolTable) (s : Symbol) : SymbolId × SymbolTable :=
  (⟨t.symbols.length⟩, { t with symbols := t.symbols ++ [s] })

/-- The scope in which the tensors of a network are looked up. -/
def network? (t : SymbolTable) (name : String) : Option ScopeId :=
  (t.scopes.findIdx? fun s => s.isAttached && s.name == name).map ScopeId.mk

/-- The symbol of a network. -/
def global? (t : SymbolTable) (name : String) : Option SymbolId :=
  t.scopes.findSome? fun s => if s.name == name then s.symbol else none

/-- A new scope, with the symbol of its network or the reason why it has none. -/
structure Opening where
  scope : ScopeId
  symbol : Except Diagnostic SymbolId
  table : SymbolTable

/-- Opens a scope for a network. A name that is taken gets a detached scope. -/
def declareNetwork (t : SymbolTable) (name : String) (position : Position) : Opening :=
  let scope : ScopeId := ⟨t.scopes.length⟩
  match t.network? name with
  | some _ =>
    { scope
      symbol := .error ⟨.networkAlreadyDeclared name, position⟩
      table := { t with scopes := t.scopes ++ [⟨name, none, []⟩] } }
  | none =>
    let (id, t) := t.insert (.ofNetwork name)
    { scope
      symbol := .ok id
      table := { t with scopes := t.scopes ++ [⟨name, some id, []⟩] } }

/-- Binds a symbol to its name in a scope, unless the name is bound there. -/
def declareVariable (t : SymbolTable) (scope : ScopeId) (id : SymbolId) (position : Position) :
    Except Diagnostic SymbolTable :=
  let name := (t.get id).name
  match t.scopes[scope.index]? with
  | none => .ok t
  | some s =>
    match s.get? name with
    | some _ => .error ⟨.variableAlreadyDeclared name s.name, position⟩
    | none =>
      let s := { s with bindings := s.bindings ++ [(name, id)] }
      .ok { t with scopes := t.scopes.set scope.index s }

/-- The attached scopes in which a name is bound, with its symbol there. -/
def candidates (t : SymbolTable) (name : String) : List (Scope × SymbolId) :=
  (t.scopes.filter Scope.isAttached).filterMap fun s => (s.get? name).map fun id => (s, id)

/-- The symbol that a name stands for. It must be bound in exactly one attached scope; a name that
is bound in none may still name a network. -/
def resolve (t : SymbolTable) (name : String) (position : Position) :
    Except Diagnostic SymbolId :=
  match t.candidates name with
  | [(_, id)] => .ok id
  | [] =>
    match t.global? name with
    | some id => .ok id
    | none => .error ⟨.variableNotDeclared name, position⟩
  | many =>
    let networks := ", ".intercalate (many.map fun (s, _) => "`" ++ s.name ++ "`")
    .error ⟨.ambiguousVariable name networks, position⟩

end SymbolTable
end NeuralQuery
