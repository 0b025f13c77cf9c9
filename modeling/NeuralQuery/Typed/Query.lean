import NeuralQuery.Text.Quoted
import NeuralQuery.Typed.Formula

/-!
# NeuralQuery.Typed.Query

A query with types and symbols, and its text, which is again a query.
-/

namespace NeuralQuery
namespace Typed

structure Version where
  major : UInt32
  minor : UInt32
  span : Span

/-- A declared tensor with the symbol it introduced. -/
structure Definition where
  symbol : SymbolId
  name : String
  kind : SymbolKind
  type : ValueType
  shape : List Int64
  onnxName : Option String
  span : Span

structure Network where
  name : String
  /-- Absent where an earlier network took the name. -/
  symbol : Option SymbolId
  isometricTo : Option String := none
  equalTo : Option String := none
  inputs : List Definition := []
  hidden : List Definition := []
  outputs : List Definition := []
  span : Span

structure Assertion where
  condition : Formula
  span : Span

structure Query where
  version : Version
  networks : List Network
  assertions : List Assertion
  symbols : SymbolTable
  span : Span

def Version.text (v : Version) : String :=
  "(vnnlib-version <" ++ v.major.toNat.repr ++ "." ++ v.minor.toNat.repr ++ ">)"

namespace Definition

def ofSymbol (id : SymbolId) (s : Symbol) (span : Span) : Definition :=
  ⟨id, s.name, s.kind, s.type, s.shape, s.onnxName, span⟩

def keyword (d : Definition) : String :=
  match d.kind with
  | .tensor .input => "declare-input"
  | .tensor .hidden => "declare-hidden"
  | .tensor .output => "declare-output"
  | .network => "declare"
  | .unknown => "declare"

def text (d : Definition) : String :=
  let onnxName :=
    match d.onnxName with
    | some name => [Text.quote name]
    | none => []
  Text.form d.keyword ([d.name, d.type.name, Text.bracketed d.shape] ++ onnxName)

end Definition

namespace Network

/-- All tensors: inputs, hidden, outputs. -/
def definitions (n : Network) : List Definition :=
  n.inputs ++ n.hidden ++ n.outputs

/-- Keeps the target of the first relation of each kind. -/
def relate (n : Network) (r : Relation) : Network :=
  match r.kind with
  | .isometric => { n with isometricTo := n.isometricTo.or (some r.target) }
  | .equal => { n with equalTo := n.equalTo.or (some r.target) }

/-- Puts a tensor behind the others of its role. -/
def define (n : Network) (role : Role) (definition : Definition) : Network :=
  match role with
  | .input => { n with inputs := n.inputs ++ [definition] }
  | .hidden => { n with hidden := n.hidden ++ [definition] }
  | .output => { n with outputs := n.outputs ++ [definition] }

/-- The forms inside a network: its relations and its tensors. -/
def parts (n : Network) : List String :=
  (n.isometricTo.toList.map fun target => Text.form RelationKind.isometric.keyword [target]) ++
    (n.equalTo.toList.map fun target => Text.form RelationKind.equal.keyword [target]) ++
    n.definitions.map Definition.text

/-- The network with each of its forms on an indented line. -/
def text (n : Network) : String :=
  "(declare-network " ++ n.name ++ Text.led "\n  " n.parts ++ ")"

end Network

def Assertion.text (a : Assertion) : String :=
  Text.form "assert" [a.condition.text]

namespace Query

def network? (q : Query) (name : String) : Option Network :=
  q.networks.find? fun n => n.name == name

/-- The version, then every network and assertion on a new line. -/
def text (q : Query) : String :=
  q.version.text ++ Text.led "\n" (q.networks.map Network.text) ++
    Text.led "\n" (q.assertions.map Assertion.text)

end Query
end Typed
end NeuralQuery
