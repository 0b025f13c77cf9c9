import NeuralQuery.Registry
import NeuralQuery.Typing.Query

/-!
# NeuralQuery.Typing.Checker

The check of a query as one pass over a state that every part of it shares: the symbols so far and
the reports so far, next to the policy and the networks by name.

Each part may read and change all of this. What it does change is a matter of proof: networks enter
their symbols, everything else only adds reports. A pass comes to the same as `Typing.query`, which
hands on the table from network to network and lets expressions do no more than read it.
-/

namespace NeuralQuery

structure Checker where
  symbols : Registry
  diagnostics : List Diagnostic
  policy : LiteralPolicy
  /-- The first network of each name, wherever it stands. -/
  declared : Lookup Network

/-- A part of a pass. -/
abbrev Check := StateM Checker

namespace Checker

open Typed
open Typing (Settled Term)

/-- The state in which the pass over a query begins. -/
def start (policy : LiteralPolicy) (q : NeuralQuery.Query) : Checker where
  symbols := .empty
  diagnostics := []
  policy := policy
  declared := q.networks.foldl (fun m n => m.insertNew n.name n) .empty

/-- Reports a diagnostic. -/
def report (d : Diagnostic) : Check Unit :=
  modify fun c => { c with diagnostics := c.diagnostics ++ [d] }

/-- Reports a fault. -/
def note (fault : Fault) (position : Position) : Check Unit :=
  report ⟨fault, position⟩

/-- Does something to the symbols. -/
def onSymbols {α : Type} (f : Registry → α × Registry) : Check α :=
  modifyGet fun c =>
    let (a, symbols) := f c.symbols
    (a, { c with symbols })

/-! ## Tensors -/

/-- Reports the indices that fall outside the shape of a tensor, dimension by dimension. -/
def checkBounds (name : String) (position : Position) (dimension : Nat) :
    List Int64 → List Int64 → Check Unit
  | index :: indices, bound :: shape => do
    if Typing.admitsIndex bound index then pure ()
    else note (.indexOutOfBounds name index dimension bound) position
    checkBounds name position (dimension + 1) indices shape
  | _, _ => pure ()

def checkIndices (name : String) (position : Position) (indices shape : List Int64) :
    Check Unit :=
  if indices.length = shape.length then checkBounds name position 0 indices shape
  else note (.indexRankMismatch name shape.length indices.length) position

/-- A reference to a tensor. A name that leads to no tensor is reported. -/
def reference (name : String) (indices : List Int64) (span : Span) : Check Arith := do
  let c ← get
  match c.symbols.resolve name span.position with
  | .error d => do
    report d
    return .invalid name span
  | .ok id =>
    let c ← get
    let symbol := c.symbols.get id
    if symbol.kind = .network then do
      note (.networkUsedAsTensor name) span.position
      return .invalid name span
    else do
      checkIndices name span.position indices symbol.shape
      return .var id name indices symbol.type span

/-! ## Arithmetic -/

/-- Goes through operands from left to right, with the type of those before them and whether one of
them was refused. -/
def unify : Option ValueType → Bool → List Arith → Check (Option ValueType × Bool)
  | running, failed, [] => pure (running, failed)
  | running, failed, a :: operands =>
    if a.type ≠ .unknown ∧ !a.type.isNumeric then do
      note (.nonNumericOperand a.type.name a.text) a.span.position
      unify running true operands
    else
      match running with
      | none => unify (some a.type) failed operands
      | some t =>
        match t.unify a.type with
        | some u => unify (some u) failed operands
        | none => do
          note (.typeMismatch t.name a.type.name a.text) a.span.position
          unify (some t) true operands

/-- Settles operands on one type. Literals among them adopt it. -/
def settle (operands : List Arith) : Check Settled := do
  let (running, failed) ← unify none false operands
  if failed || operands.any (fun a => a.type == .unknown) then
    return ⟨.unknown, operands⟩
  else
    match running.getD .unknown with
    | .element t => return ⟨.element t, operands.map (Arith.pin t)⟩
    | type => return ⟨type, operands⟩

def negation (operand : Arith) (span : Span) : Check Arith := do
  let s ← settle [operand]
  return .negate (s.operands.headD operand) s.type.negate span

def aggregation (op : Aggregate) (operands : List Arith) (span : Span) : Check Arith := do
  let s ← settle operands
  return .aggregate op s.operands s.type span

def difference (head : Arith) (rest : List Arith) (span : Span) : Check Arith := do
  let s ← settle (head :: rest)
  return .minus (s.operands.headD head) s.operands.tail s.type span

/-! ## Comparisons -/

/-- What becomes of the two sides of a comparison of literals only. -/
def applyPolicy (kind : LiteralKind) (lhs rhs : Arith) (position : Position) :
    Check (Arith × Arith) := do
  let c ← get
  match c.policy with
  | .keep => return (lhs, rhs)
  | .adopt t =>
    match t.adopted? kind with
    | some e => return (lhs.pin e, rhs.pin e)
    | none => do
      note (.typeMismatch t.name kind.name (lhs.text ++ " " ++ rhs.text)) position
      return (lhs, rhs)
  | .reject => do
    note (.unpinnedLiteral kind.name) position
    return (lhs, rhs)

/-- The two sides of a comparison with the type they share. -/
def reconcile (lhs rhs : Arith) (position : Position) : Check (Arith × Arith) :=
  match lhs.type.unify rhs.type with
  | none => do
    note (.comparisonMismatch lhs.type.name rhs.type.name) position
    return (lhs, rhs)
  | some (.literal kind) =>
    if lhs.type.isLiteral && rhs.type.isLiteral then applyPolicy kind lhs rhs position
    else pure (lhs, rhs)
  | some (.element t) => pure (lhs.pin t, rhs.pin t)
  | some .unknown => pure (lhs, rhs)

def comparison (op : Comparison) (lhs rhs : Arith) (span : Span) : Check Formula := do
  let (lhs, rhs) ← reconcile lhs rhs span.position
  return .compare op lhs rhs span

/-! ## Expressions -/

/-- A term in a place for arithmetic; `e` is the expression it was made from. -/
def asArith (e : Expr) : Term → Check Arith
  | .arith a => pure a
  | .formula _ => do
    note (.expectedArithmetic e.text) e.span.position
    return .invalid e.text e.span

/-- A term in a place for a formula; `e` is the expression it was made from. -/
def asFormula (e : Expr) : Term → Check Formula
  | .formula f => pure f
  | .arith a => do
    note (.expectedBoolean e.text a.type.name) e.span.position
    return .invalid e.text e.span

mutual

/-- The term for an expression. Operands are checked from left to right, before their form. -/
def term : Expr → Check Term
  | .var name indices span => do
    let a ← reference name indices span
    return .arith a
  | .int lexeme value span =>
    return .arith (.int lexeme value (.literal (Typing.intKind lexeme)) span)
  | .float lexeme value span => return .arith (.float lexeme value (.literal .float) span)
  | .negate e span => do
    let t ← term e
    let a ← asArith e t
    let n ← negation a span
    return .arith n
  | .aggregate op es span => do
    let operands ← ariths es
    let a ← aggregation op operands span
    return .arith a
  | .minus e es span => do
    let t ← term e
    let head ← asArith e t
    let rest ← ariths es
    let a ← difference head rest span
    return .arith a
  | .compare op l r span => do
    let s ← term l
    let lhs ← asArith l s
    let t ← term r
    let rhs ← asArith r t
    let f ← comparison op lhs rhs span
    return .formula f
  | .connective op es span => do
    let fs ← formulas es
    return .formula (.connective op fs span)

/-- Expressions in places for arithmetic. -/
def ariths : List Expr → Check (List Arith)
  | [] => return []
  | e :: es => do
    let t ← term e
    let a ← asArith e t
    let rest ← ariths es
    return a :: rest

/-- Expressions in places for formulas. -/
def formulas : List Expr → Check (List Formula)
  | [] => return []
  | e :: es => do
    let t ← term e
    let f ← asFormula e t
    let rest ← formulas es
    return f :: rest

end

def arith (e : Expr) : Check Arith := do
  let t ← term e
  asArith e t

def formula (e : Expr) : Check Formula := do
  let t ← term e
  asFormula e t

/-! ## Networks -/

/-- Checks a relation and tells whether its target is another declared network. -/
def relation (network : NeuralQuery.Network) (r : Relation) : Check Bool := do
  if r.target = network.name then do
    note (.selfRelation network.name) r.span.position
    return false
  else
    let c ← get
    match c.declared.get? r.target with
    | none => do
      note (.networkNotDeclared r.target) r.span.position
      return false
    | some other =>
      match Typing.signatureMismatch? network other with
      | some detail => do
        note (.signatureMismatch network.name r.target detail) r.span.position
        return true
      | none => return true

/-- Enters a tensor as a symbol and binds its name in the scope of its network. -/
def definition (scope : ScopeId) (network : String) (d : Declaration) (kind : SymbolKind) :
    Check Definition := do
  let symbol := Symbol.ofDeclaration d kind network
  let id ← onSymbols fun r => r.insert symbol
  let bound ← onSymbols fun r => r.declareVariable scope id d.span.position
  match bound with
  | .ok () => pure ()
  | .error e => report e
  return Definition.ofSymbol id symbol d.span

/-- A network of which some forms are checked, with the number of its relations so far. -/
structure Progress where
  network : Typed.Network
  related : Nat

/-- Checks one more form. Any relation but the first is one too many. -/
def addForm (network : NeuralQuery.Network) (scope : ScopeId) (p : Progress) :
    Network.Item → Check Progress
  | .relation r => do
    let resolved ← relation network r
    if p.related = 0 then pure ()
    else note (.contradictoryRelations network.name) r.span.position
    let typed := if resolved then p.network.relate r else p.network
    return ⟨typed, p.related + 1⟩
  | .tensor role declaration => do
    let typed ← definition scope network.name declaration (.tensor role)
    return { p with network := p.network.define role typed }

def addForms (network : NeuralQuery.Network) (scope : ScopeId) :
    Progress → List Network.Item → Check Progress
  | p, [] => return p
  | p, i :: items => do
    let p ← addForm network scope p i
    addForms network scope p items

/-- The symbol of a network, if it got one. -/
def ownSymbol : Except Diagnostic SymbolId → Check (Option SymbolId)
  | .ok id => return some id
  | .error e => do
    report e
    return none

/-- Checks a network, form by form as they are written. -/
def network (n : NeuralQuery.Network) : Check Typed.Network := do
  let (scope, own) ← onSymbols fun r => r.declareNetwork n.name n.span.position
  let symbol ← ownSymbol own
  let p ← addForms n scope ⟨{ name := n.name, symbol, span := n.span }, 0⟩ n.items
  return p.network

def networks : List NeuralQuery.Network → Check (List Typed.Network)
  | [] => return []
  | n :: ns => do
    let typed ← network n
    let rest ← networks ns
    return typed :: rest

/-! ## Queries -/

/-- A version that cannot be read is reported and counts as 0.0. -/
def version (v : NeuralQuery.Version) : Check Typed.Version :=
  match Typing.versionNumbers? v.lexeme with
  | some (major, minor) => pure ⟨major, minor, v.span⟩
  | none => do
    note (.invalidVersion v.lexeme) v.span.position
    return ⟨0, 0, v.span⟩

def assertion (a : NeuralQuery.Assertion) : Check Typed.Assertion := do
  let condition ← formula a.condition
  return ⟨condition, a.span⟩

def assertions : List NeuralQuery.Assertion → Check (List Typed.Assertion)
  | [] => return []
  | a :: rest => do
    let typed ← assertion a
    let others ← assertions rest
    return typed :: others

def query (q : NeuralQuery.Query) : Check Typed.Query := do
  let version ← version q.version
  let networks ← networks q.networks
  let assertions ← assertions q.assertions
  let c ← get
  return ⟨version, networks, assertions, c.symbols.table, q.span⟩

/-- The typed query and all reports of a whole pass. -/
def check (policy : LiteralPolicy) (q : NeuralQuery.Query) : Checked Typed.Query :=
  let (typed, c) := query q (start policy q)
  ⟨typed, c.diagnostics⟩

end Checker
end NeuralQuery
