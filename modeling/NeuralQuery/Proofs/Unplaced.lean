import Mathlib.Data.List.Basic
import NeuralQuery.Proofs.Derivation

/-!
# NeuralQuery.Proofs.Unplaced

Queries without their places in a source. Two queries that are equal when all spans are taken away
are written in the same way, apart from white space and the order of forms inside a network.
-/

namespace NeuralQuery

/-! ## Expressions -/

mutual

/-- The expression in no source. -/
def Expr.unplaced : Expr → Expr
  | .var name indices _ => .var name indices .nowhere
  | .int lexeme value _ => .int lexeme value .nowhere
  | .float lexeme value _ => .float lexeme value .nowhere
  | .negate e _ => .negate e.unplaced .nowhere
  | .aggregate op es _ => .aggregate op (Expr.unplacedAll es) .nowhere
  | .minus h r _ => .minus h.unplaced (Expr.unplacedAll r) .nowhere
  | .compare op l r _ => .compare op l.unplaced r.unplaced .nowhere
  | .connective op es _ => .connective op (Expr.unplacedAll es) .nowhere

def Expr.unplacedAll : List Expr → List Expr
  | [] => []
  | e :: es => e.unplaced :: Expr.unplacedAll es

end

namespace Expr

theorem unplacedAll_eq_map (es : List Expr) : unplacedAll es = es.map unplaced := by
  induction es with
  | nil => rfl
  | cons e es ih => rw [unplacedAll, ih, List.map_cons]

theorem depths_unplaced {es : List Expr} (h : ∀ e ∈ es, e.unplaced.depth = e.depth) :
    depths (unplacedAll es) = depths es := by
  induction es with
  | nil => rfl
  | cons e es ih =>
    obtain ⟨he, hes⟩ := List.forall_mem_cons.mp h
    rw [unplacedAll, depths, depths, he, ih hes]

theorem depth_unplaced (e : Expr) : e.unplaced.depth = e.depth := by
  induction e using Expr.inductOn with
  | var name indices s => rfl
  | int lexeme value s => rfl
  | float lexeme value s => rfl
  | negate e s ih => rw [unplaced, depth, depth, ih]
  | aggregate op es s ih => rw [unplaced, depth, depth, depths_unplaced ih]
  | minus h r s ihh ihr => rw [unplaced, depth, depth, ihh, depths_unplaced ihr]
  | compare op l r s ihl ihr => rw [unplaced, depth, depth, ihl, ihr]
  | connective op es s ih => rw [unplaced, depth, depth, depths_unplaced ih]

@[simp] theorem span_unplaced (e : Expr) : e.unplaced.span = .nowhere := by
  cases e <;> rfl

theorem texts_unplaced {es : List Expr} (h : ∀ e ∈ es, e.unplaced.text = e.text) :
    texts (unplacedAll es) = texts es := by
  induction es with
  | nil => rfl
  | cons e es ih =>
    obtain ⟨he, hes⟩ := List.forall_mem_cons.mp h
    rw [unplacedAll, texts, texts, he, ih hes]

@[simp] theorem text_unplaced (e : Expr) : e.unplaced.text = e.text := by
  induction e using Expr.inductOn with
  | var name indices s => rfl
  | int lexeme value s => rfl
  | float lexeme value s => rfl
  | negate e s ih => rw [unplaced, text, text, ih]
  | aggregate op es s ih => rw [unplaced, text, text, texts_unplaced ih]
  | minus h r s ihh ihr => rw [unplaced, text, text, ihh, texts_unplaced ihr]
  | compare op l r s ihl ihr => rw [unplaced, text, text, ihl, ihr]
  | connective op es s ih => rw [unplaced, text, text, texts_unplaced ih]

end Expr

/-! ## Networks -/

def Relation.unplaced (r : Relation) : Relation :=
  { r with span := .nowhere }

def Declaration.unplaced (d : Declaration) : Declaration :=
  { d with span := .nowhere }

namespace Network

def Item.unplaced : Item → Item
  | .relation r => .relation r.unplaced
  | .tensor role d => .tensor role d.unplaced

def unplaced (n : Network) : Network where
  name := n.name
  relations := n.relations.map Relation.unplaced
  inputs := n.inputs.map Declaration.unplaced
  hidden := n.hidden.map Declaration.unplaced
  outputs := n.outputs.map Declaration.unplaced
  span := .nowhere

/-- The forms of a network by what they are: relations, inputs, hidden, outputs. -/
def grouped (n : Network) : List Item :=
  n.relations.map .relation ++ n.inputs.map (.tensor .input) ++ n.hidden.map (.tensor .hidden) ++
    n.outputs.map (.tensor .output)

theorem ofItems_grouped (n : Network) : ofItems n.name n.grouped n.span = n := by
  simp [ofItems, grouped, List.filterMap_append, List.filterMap_map, Function.comp_def,
    Item.relation?, Item.tensor?]

/-- Forms that are grouped are the same forms. -/
theorem grouped_ofItems_perm (name : String) (items : List Item) (s : Span) :
    (ofItems name items s).grouped.Perm items := by
  induction items with
  | nil => exact .nil
  | cons i items ih =>
    refine List.Perm.trans ?_ (ih.cons i)
    cases i with
    | relation r => simp [grouped, ofItems, List.filterMap_cons, Item.relation?, Item.tensor?]
    | tensor role d =>
      cases role <;>
        simp only [grouped, ofItems, List.filterMap_cons, Item.relation?, Item.tensor?,
          if_true, if_false, reduceCtorEq, List.map_cons, List.append_assoc, List.cons_append]
      case input => exact List.perm_middle
      case hidden =>
        rw [← List.append_assoc, ← List.append_assoc]
        exact List.perm_middle
      case output =>
        rw [← List.append_assoc, ← List.append_assoc, ← List.append_assoc, ← List.append_assoc]
        exact List.perm_middle

theorem ofItems_unplaced (name : String) (items : List Item) (s : Span) :
    (ofItems name items s).unplaced = ofItems name (items.map Item.unplaced) .nowhere := by
  have hrelation : ∀ i : Item, i.unplaced.relation? = i.relation?.map Relation.unplaced := by
    intro i
    cases i <;> rfl
  have htensor : ∀ (role : Role) (i : Item),
      i.unplaced.tensor? role = (i.tensor? role).map Declaration.unplaced := by
    intro role i
    cases i with
    | relation r => rfl
    | tensor role' d =>
      simp only [Item.unplaced, Item.tensor?]
      split <;> rfl
  simp only [ofItems, unplaced, List.map_filterMap, List.filterMap_map, Function.comp_def,
    hrelation, htensor]

end Network

/-! ## Queries -/

def Assertion.unplaced (a : Assertion) : Assertion :=
  ⟨a.condition.unplaced, .nowhere⟩

end NeuralQuery
