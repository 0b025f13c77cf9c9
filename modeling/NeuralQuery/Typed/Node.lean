import NeuralQuery.Typed.Query

/-!
# NeuralQuery.Typed.Node

One type for all nodes of a typed query, and walks over them. Relations are no nodes.
-/

namespace NeuralQuery
namespace Typed

inductive Node where
  | query (query : Query)
  | version (version : Version)
  | network (network : Network)
  | definition (definition : Definition)
  | assertion (assertion : Assertion)
  | formula (formula : Formula)
  | arith (arith : Arith)

mutual

/-- Every node of an expression with its depth, each before its operands. -/
def Arith.outline (depth : Nat) : Arith → List (Nat × Node)
  | a@(.var ..) => [(depth, .arith a)]
  | a@(.int ..) => [(depth, .arith a)]
  | a@(.float ..) => [(depth, .arith a)]
  | a@(.negate e _ _) => (depth, .arith a) :: e.outline (depth + 1)
  | a@(.aggregate _ es _ _) => (depth, .arith a) :: Arith.outlines (depth + 1) es
  | a@(.minus h r _ _) =>
    (depth, .arith a) :: (h.outline (depth + 1) ++ Arith.outlines (depth + 1) r)
  | a@(.invalid ..) => [(depth, .arith a)]

def Arith.outlines (depth : Nat) : List Arith → List (Nat × Node)
  | [] => []
  | e :: es => e.outline depth ++ Arith.outlines depth es

end

mutual

/-- Every node of a formula with its depth, each before its operands. -/
def Formula.outline (depth : Nat) : Formula → List (Nat × Node)
  | f@(.compare _ l r _) =>
    (depth, .formula f) :: (l.outline (depth + 1) ++ r.outline (depth + 1))
  | f@(.connective _ fs _) => (depth, .formula f) :: Formula.outlines (depth + 1) fs
  | f@(.invalid ..) => [(depth, .formula f)]

def Formula.outlines (depth : Nat) : List Formula → List (Nat × Node)
  | [] => []
  | f :: fs => f.outline depth ++ Formula.outlines depth fs

end

def Network.outline (depth : Nat) (n : Network) : List (Nat × Node) :=
  (depth, .network n) :: n.definitions.map fun d => (depth + 1, .definition d)

def Assertion.outline (depth : Nat) (a : Assertion) : List (Nat × Node) :=
  (depth, .assertion a) :: a.condition.outline (depth + 1)

def Query.outline (depth : Nat) (q : Query) : List (Nat × Node) :=
  (depth, .query q) :: (depth + 1, .version q.version) ::
    (q.networks.flatMap (Network.outline (depth + 1)) ++
      q.assertions.flatMap (Assertion.outline (depth + 1)))

namespace Node

/-- The direct children, in source order. -/
def children : Node → List Node
  | query q =>
    version q.version :: (q.networks.map network ++ q.assertions.map assertion)
  | version _ => []
  | network n => n.definitions.map definition
  | definition _ => []
  | assertion a => [formula a.condition]
  | formula (.compare _ l r _) => [arith l, arith r]
  | formula (.connective _ fs _) => fs.map formula
  | formula (.invalid _ _) => []
  | arith a => a.operands.map arith

/-- A node and all below it with their depths, each before its children. -/
def outline (depth : Nat) : Node → List (Nat × Node)
  | query q => q.outline depth
  | version v => [(depth, version v)]
  | network n => n.outline depth
  | definition d => [(depth, definition d)]
  | assertion a => a.outline depth
  | formula f => f.outline depth
  | arith a => a.outline depth

/-- A node and all below it, each before its children. -/
def descendants (n : Node) : List Node :=
  (n.outline 0).map Prod.snd

/-- The type of an expression or tensor. -/
def type? : Node → Option ValueType
  | formula f => some f.type
  | arith a => some a.type
  | definition d => some d.type
  | _ => none

def span : Node → Span
  | query q => q.span
  | version v => v.span
  | network n => n.span
  | definition d => d.span
  | assertion a => a.span
  | formula f => f.span
  | arith a => a.span

def text : Node → String
  | query q => q.text
  | version v => v.text
  | network n => n.text
  | definition d => d.text
  | assertion a => a.text
  | formula f => f.text
  | arith a => a.text

end Node
end Typed
end NeuralQuery
