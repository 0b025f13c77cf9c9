import NeuralQuery.Expr
import NeuralQuery.ValueType

/-!
# NeuralQuery.Query

A query as it is written: a version, the networks it speaks of, and what it asserts about them.
-/

namespace NeuralQuery

/-- The declared version of the language, unread. -/
structure Version where
  lexeme : String
  span : Span
  deriving DecidableEq, Repr

/-- How a network is related to another one. -/
inductive RelationKind where
  | isometric
  | equal
  deriving DecidableEq, Repr

def RelationKind.keyword : RelationKind → String
  | isometric => "isometric-to"
  | equal => "equal-to"

structure Relation where
  kind : RelationKind
  target : String
  span : Span
  deriving DecidableEq, Repr

/-- The place of a tensor in its network. -/
inductive Role where
  | input
  | hidden
  | output
  deriving DecidableEq, Repr

/-- A declared tensor. A negative dimension has no static size. -/
structure Declaration where
  name : String
  type : ValueType
  shape : List Int64
  onnxName : Option String
  span : Span
  deriving DecidableEq, Repr

structure Network where
  name : String
  relations : List Relation := []
  inputs : List Declaration := []
  hidden : List Declaration := []
  outputs : List Declaration := []
  span : Span
  deriving DecidableEq, Repr

structure Assertion where
  condition : Expr
  span : Span

structure Query where
  version : Version
  networks : List Network
  assertions : List Assertion
  span : Span

namespace Network

/-- A form inside a network. -/
inductive Item where
  | relation (relation : Relation)
  | tensor (role : Role) (declaration : Declaration)
  deriving Repr

def Item.span : Item → Span
  | relation r => r.span
  | tensor _ d => d.span

/-- Adds a form at the end of the list it belongs to. -/
def add (n : Network) : Item → Network
  | .relation r => { n with relations := n.relations ++ [r] }
  | .tensor .input d => { n with inputs := n.inputs ++ [d] }
  | .tensor .hidden d => { n with hidden := n.hidden ++ [d] }
  | .tensor .output d => { n with outputs := n.outputs ++ [d] }

/-- All forms of a network in the order of their offsets, which is the written one unless offsets
start again inside the network. Forms that start at the same place keep the order relations, inputs,
hidden, outputs. -/
def items (n : Network) : List Item :=
  let grouped := n.relations.map .relation ++ n.inputs.map (.tensor .input) ++
    n.hidden.map (.tensor .hidden) ++ n.outputs.map (.tensor .output)
  grouped.mergeSort fun a b => a.span.start ≤ b.span.start

end Network
end NeuralQuery
