import NeuralQuery.Lookup
import NeuralQuery.SymbolTable

/-!
# NeuralQuery.Registry

The symbols of a query while it is checked.

Symbols stand in one arena and are known by their place in it. Each network opens a scope. A scope
is detached if the name of its network was taken, and no name is looked up in it. Two indexes lead
from the name of a network to its attached scope and to its symbol. They repeat what the scopes tell
and are updated along with them, one field after the other, so that nothing but the operations
themselves keeps the four fields in step.

`Registry.table` is what all this comes to: a table in which every attached scope has the symbol of
its network.
-/

namespace NeuralQuery

structure NetworkScope where
  name : String
  detached : Bool
  bindings : Lookup SymbolId

structure Registry where
  arena : List Symbol
  scopes : List NetworkScope
  networks : Lookup ScopeId
  globals : Lookup SymbolId

namespace Registry

def empty : Registry :=
  ⟨[], [], .empty, .empty⟩

def get (r : Registry) (id : SymbolId) : Symbol :=
  r.arena.getD id.index .nothing

/-- Puts a symbol into the arena. No name leads to it yet. -/
def insert (r : Registry) (s : Symbol) : SymbolId × Registry :=
  (⟨r.arena.length⟩, { r with arena := r.arena ++ [s] })

/-- Opens a scope for a network, and enters its symbol and both index entries unless the name is
taken. -/
def declareNetwork (r : Registry) (name : String) (position : Position) :
    (ScopeId × Except Diagnostic SymbolId) × Registry :=
  let detached := r.networks.contains name
  let scope : ScopeId := ⟨r.scopes.length⟩
  let r := { r with scopes := r.scopes ++ [⟨name, detached, .empty⟩] }
  if detached then ((scope, .error ⟨.networkAlreadyDeclared name, position⟩), r)
  else
    let (symbol, r) := r.insert (.ofNetwork name)
    let r := { r with networks := r.networks.insert name scope }
    let r := { r with globals := r.globals.insert name symbol }
    ((scope, .ok symbol), r)

/-- Binds a symbol to its name in a scope, unless the name is bound there. -/
def declareVariable (r : Registry) (scope : ScopeId) (id : SymbolId) (position : Position) :
    Except Diagnostic Unit × Registry :=
  let name := (r.get id).name
  match r.scopes[scope.index]? with
  | none => (.ok (), r)
  | some s =>
    if s.bindings.contains name then
      (.error ⟨.variableAlreadyDeclared name s.name, position⟩, r)
    else
      let s := { s with bindings := s.bindings.insert name id }
      (.ok (), { r with scopes := r.scopes.set scope.index s })

/-- The scopes in which a name is found, with its symbol there. -/
def found (r : Registry) (name : String) : List (NetworkScope × SymbolId) :=
  (r.scopes.filter fun s => !s.detached).filterMap fun s =>
    (s.bindings.get? name).map fun id => (s, id)

/-- The symbol that a name stands for. It must be found in exactly one scope; a name that is found
in none may still name a network. -/
def resolve (r : Registry) (name : String) (position : Position) : Except Diagnostic SymbolId :=
  match r.found name with
  | [(_, id)] => .ok id
  | [] =>
    match r.globals.get? name with
    | some id => .ok id
    | none => .error ⟨.variableNotDeclared name, position⟩
  | many =>
    let networks := ", ".intercalate (many.map fun (s, _) => "`" ++ s.name ++ "`")
    .error ⟨.ambiguousVariable name networks, position⟩

/-- A scope of the table. It is attached if it has the symbol of its network. -/
def scope (r : Registry) (s : NetworkScope) : Scope where
  name := s.name
  symbol := if s.detached then none else r.globals.get? s.name
  bindings := s.bindings.entries

/-- The table that is kept here. -/
def table (r : Registry) : SymbolTable where
  symbols := r.arena
  scopes := r.scopes.map r.scope

end Registry
end NeuralQuery
