import Mathlib.Data.List.Forall2
import NeuralQuery.Policy
import NeuralQuery.Proofs.Numerals
import NeuralQuery.Query

/-!
# NeuralQuery.Proofs.WellTyped

What it means for a query to be well typed, said without a table of symbols, a running type or an
order in which things are looked at.

* `HasType networks e t` : as arithmetic, `e` has the type `t` over the tensors of the networks.
* `WellFormed`           : an expression is a formula whose comparisons compare like with like.
* `WellTyped`            : the whole query.

No rule gives the type `unknown`: it belongs to what a check refuses.
-/

namespace NeuralQuery

/-! ## Types that go together -/

/-- The operands of an arithmetic form have one type in common: the numeric element type of some of
them, which all others have or may adopt, or else the most demanding of their literal kinds. -/
inductive Agrees : List ValueType → ValueType → Prop where
  | element {types : List ValueType} {t : ElementType} :
      t.isNumeric = true → .element t ∈ types →
      (∀ u ∈ types, u = .element t ∨ ∃ k, u = .literal k ∧ k.admits t = true) →
      Agrees types (.element t)
  | literal {types : List ValueType} {k : LiteralKind} :
      .literal k ∈ types → (∀ u ∈ types, ∃ j, u = .literal j ∧ j.rank ≤ k.rank) →
      Agrees types (.literal k)

/-- The two sides of a comparison go together. Literals alone do so only if the policy has a use for
them: it keeps them, or names an element type for the more demanding of the two. -/
inductive Comparable (policy : LiteralPolicy) : ValueType → ValueType → Prop where
  | same (t : ElementType) : Comparable policy (.element t) (.element t)
  | left {t : ElementType} {k : LiteralKind} :
      k.admits t = true → Comparable policy (.literal k) (.element t)
  | right {t : ElementType} {k : LiteralKind} :
      k.admits t = true → Comparable policy (.element t) (.literal k)
  | kept (j k : LiteralKind) : policy = .keep → Comparable policy (.literal j) (.literal k)
  | adopted {j k m : LiteralKind} {t : ElementType} :
      policy = .adopt (.element t) → m = j ∨ m = k → j.rank ≤ m.rank → k.rank ≤ m.rank →
      m.admits t = true → Comparable policy (.literal j) (.literal k)

/-! ## Tensors -/

/-- All tensors of a network. -/
def Network.declarations (n : Network) : List Declaration :=
  n.inputs ++ n.hidden ++ n.outputs

def Network.Declares (n : Network) (name : String) : Prop :=
  ∃ d ∈ n.declarations, d.name = name

/-- The name stands for this tensor: it is declared in the network of the tensor and in no other. -/
def Refers (networks : List Network) (name : String) (d : Declaration) : Prop :=
  ∃ n ∈ networks, d ∈ n.declarations ∧ d.name = name ∧
    ∀ m ∈ networks, m.Declares name → m.name = n.name

/-- One index for each dimension, inside it. A negative dimension has no static size. -/
def FitsShape (indices shape : List Int64) : Prop :=
  List.Forall₂ (fun index bound => 0 ≤ index ∧ (bound < 0 ∨ index < bound)) indices shape

/-! ## Expressions -/

/-- The kind of an integer literal by its sign. -/
inductive IntKind : List Char → LiteralKind → Prop where
  | negative (cs : List Char) : IntKind ('-' :: cs) .negativeInt
  | positive {cs : List Char} : cs.head? ≠ some '-' → IntKind cs .positiveInt

/-- The type of an expression as arithmetic. In a form with several operands, `type` assigns each of
them its type. -/
inductive HasType (networks : List Network) : Expr → ValueType → Prop where
  | var {name : String} {indices : List Int64} {s : Span} {d : Declaration} :
      Refers networks name d → FitsShape indices d.shape →
      HasType networks (.var name indices s) d.type
  | int {lexeme : String} {value : Int64} {s : Span} {k : LiteralKind} :
      IntKind lexeme.toList k → HasType networks (.int lexeme value s) (.literal k)
  | float (lexeme : String) (value : Binary64) (s : Span) :
      HasType networks (.float lexeme value s) (.literal .float)
  | negate {e : Expr} {s : Span} {t : ValueType} :
      HasType networks e t → t.isNumeric = true → HasType networks (.negate e s) t.negate
  | aggregate {op : Aggregate} {es : List Expr} {s : Span} {t : ValueType}
      (type : Expr → ValueType) :
      (∀ e ∈ es, HasType networks e (type e)) → Agrees (es.map type) t →
      HasType networks (.aggregate op es s) t
  | minus {h : Expr} {r : List Expr} {s : Span} {t : ValueType} (type : Expr → ValueType) :
      (∀ e ∈ h :: r, HasType networks e (type e)) → Agrees ((h :: r).map type) t →
      HasType networks (.minus h r s) t

/-- The expression is a formula, and all its parts are of the right sort and type. -/
inductive WellFormed (networks : List Network) (policy : LiteralPolicy) : Expr → Prop where
  | compare {op : Comparison} {l r : Expr} {s : Span} {t u : ValueType} :
      HasType networks l t → HasType networks r u → Comparable policy t u →
      WellFormed networks policy (.compare op l r s)
  | connective {op : Connective} {es : List Expr} {s : Span} :
      (∀ e ∈ es, WellFormed networks policy e) →
      WellFormed networks policy (.connective op es s)

/-! ## Queries -/

/-- A decimal number below `2 ^ 32`. A plus sign may stand before it, which the number tokens of a
text never have. -/
def IsU32 (cs : List Char) : Prop :=
  ∃ ds, (cs = ds ∨ cs = '+' :: ds) ∧ IsDigits ds ∧ Nat.ofDigitChars 10 ds 0 < UInt32.size

/-- Two such numbers with a point between them. -/
def IsVersion (lexeme : String) : Prop :=
  ∃ major minor, lexeme.toList = major ++ '.' :: minor ∧ IsU32 major ∧ IsU32 minor

/-- The types and shapes of a row of tensors. -/
def signature (ds : List Declaration) : List (ValueType × List Int64) :=
  ds.map fun d => (d.type, d.shape)

/-- A relation of `n` leads to another network of the same signature. -/
def Relates (networks : List Network) (n : Network) (r : Relation) : Prop :=
  ∃ m ∈ networks, m.name = r.target ∧ m.name ≠ n.name ∧
    signature n.inputs = signature m.inputs ∧ signature n.outputs = signature m.outputs

structure WellTyped (policy : LiteralPolicy) (q : Query) : Prop where
  version : IsVersion q.version.lexeme
  networks : (q.networks.map Network.name).Nodup
  tensors : ∀ n ∈ q.networks, (n.declarations.map Declaration.name).Nodup
  related : ∀ n ∈ q.networks, n.relations.length ≤ 1
  relations : ∀ n ∈ q.networks, ∀ r ∈ n.relations, Relates q.networks n r
  assertions : ∀ a ∈ q.assertions, WellFormed q.networks policy a.condition

end NeuralQuery
