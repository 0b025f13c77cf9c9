import NeuralQuery.Proofs.Numerals
import NeuralQuery.Query.Parser

/-!
# NeuralQuery.Proofs.Derivation

The grammar of queries, as a relation between rows of tokens and the trees they are written forms
of. A form is put together from the rows of its parts; nothing here reads from left to right,
looks ahead or counts.

* `DerivesExpr`   : expressions, of any nesting. `Expr.depth` measures how far they nest.
* `DerivesItem`   : relations and tensors inside a network.
* `DerivesQuery`  : a version, networks and assertions, whose conditions nest at most
  `maxNesting` deep.

A number token is read by its text alone, as an integer if it spells one (`SpellsInt`) and as the
nearest binary64 value if it has a fraction or an exponent.
-/

namespace NeuralQuery

/-! ## Expressions -/

/-- The token is a number without fraction or exponent, whose integer fits 64 bits. -/
structure IsInteger (t : Token) (i : Int64) : Prop where
  kind : t.kind = .number
  spells : SpellsInt t.value.toList i.toInt

/-- The token that an operator is written with. -/
def Comparison.token : Comparison → Token.Kind
  | .greater => .greater
  | .less => .less
  | .greaterEqual => .greaterEquals
  | .lessEqual => .lessEquals
  | .equal => .equals
  | .notEqual => .notEquals

def Connective.token : Connective → Token.Kind
  | .and => .and
  | .or => .or

def Aggregate.token : Aggregate → Token.Kind
  | .sum => .plus
  | .product => .star

/-- Integers with commas between them, or none at all. -/
inductive DerivesRow : List Token → List Int64 → Prop where
  | empty : DerivesRow [] []
  | last {t : Token} {i : Int64} : IsInteger t i → DerivesRow [t] [i]
  | cons {t comma : Token} {i : Int64} {ts : List Token} {is : List Int64} :
      IsInteger t i → comma.kind = .comma → DerivesRow ts is → is ≠ [] →
      DerivesRow (t :: comma :: ts) (i :: is)

/-- The tree of an operator over operands. A difference of one operand is its negation. -/
inductive Applies (s : Span) : Token.Kind → List Expr → Expr → Prop where
  | aggregate {es : List Expr} (op : Aggregate) :
      es ≠ [] → Applies s op.token es (.aggregate op es s)
  | negate (e : Expr) : Applies s .dash [e] (.negate e s)
  | minus {r : List Expr} (h : Expr) : r ≠ [] → Applies s .dash (h :: r) (.minus h r s)
  | compare (op : Comparison) (l r : Expr) : Applies s op.token [l, r] (.compare op l r s)
  | connective {es : List Expr} (op : Connective) :
      es ≠ [] → Applies s op.token es (.connective op es s)

inductive DerivesExpr : List Token → Expr → Prop where
  | name {t : Token} : t.kind = .identifier → DerivesExpr [t] (.var t.value [] t.span)
  | indexed {t left right : Token} {ts : List Token} {is : List Int64} :
      t.kind = .identifier → left.kind = .openBracket → DerivesRow ts is →
      right.kind = .closeBracket →
      DerivesExpr (t :: left :: (ts ++ [right])) (.var t.value is (t.span.upTo right.span))
  | integer {t : Token} {i : Int64} :
      Parser.isFractional t.value = false → IsInteger t i →
      DerivesExpr [t] (.int t.value i t.span)
  | fractional {t : Token} :
      Parser.isFractional t.value = true → t.kind = .number →
      DerivesExpr [t] (.float t.value (Number.nearest t.value) t.span)
  | compound {left op right : Token} {e : Expr} (parts : List (List Token × Expr)) :
      left.kind = .openParen → (∀ p ∈ parts, DerivesExpr p.1 p.2) → right.kind = .closeParen →
      Applies (left.span.upTo right.span) op.kind (parts.map Prod.snd) e →
      DerivesExpr (left :: op :: (parts.flatMap Prod.fst ++ [right])) e

mutual

/-- The number of compound forms around the innermost atom. -/
def Expr.depth : Expr → Nat
  | .var .. => 0
  | .int .. => 0
  | .float .. => 0
  | .negate e _ => e.depth + 1
  | .aggregate _ es _ => Expr.depths es + 1
  | .minus h r _ => max h.depth (Expr.depths r) + 1
  | .compare _ l r _ => max l.depth r.depth + 1
  | .connective _ es _ => Expr.depths es + 1

def Expr.depths : List Expr → Nat
  | [] => 0
  | e :: es => max e.depth (Expr.depths es)

end

theorem Expr.depths_le {es : List Expr} {n : Nat} :
    Expr.depths es ≤ n ↔ ∀ e ∈ es, e.depth ≤ n := by
  induction es with
  | nil => simp [Expr.depths]
  | cons e es ih => simp only [Expr.depths, Nat.max_le, ih, List.forall_mem_cons]

namespace Applies

variable {s : Span} {k : Token.Kind} {es : List Expr} {e : Expr}

theorem ne_nil (h : Applies s k es e) : es ≠ [] := by
  cases h <;> simp_all

theorem depth (h : Applies s k es e) : e.depth = Expr.depths es + 1 := by
  cases h <;> simp [Expr.depth, Expr.depths]

theorem depth_lt {n : Nat} (h : Applies s k es e) (hn : ∀ f ∈ es, f.depth < n) :
    e.depth < n + 1 := by
  obtain ⟨f, hf⟩ := List.exists_mem_of_ne_nil _ h.ne_nil
  have hpos := hn f hf
  have hle : Expr.depths es ≤ n - 1 := Expr.depths_le.mpr fun g hg => by
    have := hn g hg
    omega
  rw [h.depth]
  omega

end Applies

/-! ## Networks -/

def RelationKind.token : RelationKind → Token.Kind
  | .isometric => .isometricTo
  | .equal => .equalTo

def Role.token : Role → Token.Kind
  | .input => .declareInput
  | .hidden => .declareHidden
  | .output => .declareOutput

inductive DerivesRelation : List Token → Relation → Prop where
  | mk {left keyword target right : Token} {kind : RelationKind} :
      left.kind = .openParen → keyword.kind = kind.token → target.kind = .identifier →
      right.kind = .closeParen →
      DerivesRelation [left, keyword, target, right]
        ⟨kind, target.value, left.span.upTo right.span⟩

/-- The name of a node behind a tensor. Only a hidden tensor cannot do without. -/
inductive DerivesNode (role : Role) : List Token → Option String → Prop where
  | absent : role ≠ .hidden → DerivesNode role [] none
  | named {t : Token} : t.kind = .string → DerivesNode role [t] (some t.value)

inductive DerivesTensor (role : Role) : List Token → Declaration → Prop where
  | mk {left keyword name type squareL squareR right : Token} {t : ElementType}
      {dims node : List Token} {shape : List Int64} {onnxName : Option String} :
      left.kind = .openParen → keyword.kind = role.token → name.kind = .identifier →
      type.kind = .identifier → type.value = t.name → squareL.kind = .openBracket →
      DerivesRow dims shape → squareR.kind = .closeBracket → DerivesNode role node onnxName →
      right.kind = .closeParen →
      DerivesTensor role
        (left :: keyword :: name :: type :: squareL :: (dims ++ squareR :: (node ++ [right])))
        ⟨name.value, .element t, shape, onnxName, left.span.upTo right.span⟩

inductive DerivesItem : List Token → Network.Item → Prop where
  | relation {ts : List Token} {r : Relation} : DerivesRelation ts r → DerivesItem ts (.relation r)
  | tensor {ts : List Token} {d : Declaration} (role : Role) :
      DerivesTensor role ts d → DerivesItem ts (.tensor role d)

namespace Network

def Item.relation? : Item → Option Relation
  | .relation r => some r
  | .tensor _ _ => none

def Item.tensor? (role : Role) : Item → Option Declaration
  | .relation _ => none
  | .tensor r d => if r = role then some d else none

/-- The network with these forms, each list in written order. -/
def ofItems (name : String) (items : List Item) (span : Span) : Network where
  name
  relations := items.filterMap Item.relation?
  inputs := items.filterMap (Item.tensor? .input)
  hidden := items.filterMap (Item.tensor? .hidden)
  outputs := items.filterMap (Item.tensor? .output)
  span

/-- Adding forms one after the other keeps each list in written order. -/
theorem foldl_add (n : Network) (items : List Item) :
    items.foldl add n =
      { n with
        relations := n.relations ++ items.filterMap Item.relation?
        inputs := n.inputs ++ items.filterMap (Item.tensor? .input)
        hidden := n.hidden ++ items.filterMap (Item.tensor? .hidden)
        outputs := n.outputs ++ items.filterMap (Item.tensor? .output) } := by
  induction items generalizing n with
  | nil => simp
  | cons i items ih =>
    rw [List.foldl_cons, ih]
    cases i with
    | relation r => simp [add, List.filterMap_cons, Item.relation?, Item.tensor?]
    | tensor role d => cases role <;> simp [add, List.filterMap_cons, Item.relation?, Item.tensor?]

end Network

inductive DerivesNetwork : List Token → Network → Prop where
  | mk {left keyword name right : Token} (parts : List (List Token × Network.Item)) :
      left.kind = .openParen → keyword.kind = .declareNetwork → name.kind = .identifier →
      (∀ p ∈ parts, DerivesItem p.1 p.2) → right.kind = .closeParen →
      DerivesNetwork (left :: keyword :: name :: (parts.flatMap Prod.fst ++ [right]))
        (.ofItems name.value (parts.map Prod.snd) (left.span.upTo right.span))

/-! ## Queries -/

inductive DerivesVersion : List Token → Version → Prop where
  | mk {left keyword less number greater right : Token} :
      left.kind = .openParen → keyword.kind = .version → less.kind = .less →
      number.kind = .number → greater.kind = .greater → right.kind = .closeParen →
      DerivesVersion [left, keyword, less, number, greater, right]
        ⟨number.value, left.span.upTo right.span⟩

inductive DerivesAssertion : List Token → Assertion → Prop where
  | mk {left keyword right : Token} {ts : List Token} {e : Expr} :
      left.kind = .openParen → keyword.kind = .assert → DerivesExpr ts e →
      e.depth ≤ maxNesting → right.kind = .closeParen →
      DerivesAssertion (left :: keyword :: (ts ++ [right])) ⟨e, left.span.upTo right.span⟩

/-- A query in a named source, up to the token that ends it. -/
inductive DerivesQuery (file : String) (ending : Token) : List Token → Query → Prop where
  | mk {ts : List Token} {v : Version} (networks : List (List Token × Network))
      (assertions : List (List Token × Assertion)) :
      DerivesVersion ts v → (∀ p ∈ networks, DerivesNetwork p.1 p.2) →
      (∀ p ∈ assertions, DerivesAssertion p.1 p.2) →
      DerivesQuery file ending
        (ts ++ (networks.flatMap Prod.fst ++ assertions.flatMap Prod.fst))
        ⟨v, networks.map Prod.snd, assertions.map Prod.snd, ⟨file, 0, ending.span.start⟩⟩

end NeuralQuery
