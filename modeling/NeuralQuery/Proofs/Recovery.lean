import NeuralQuery.Proofs.Naming
import NeuralQuery.Proofs.SingleFault

/-!
# NeuralQuery.Proofs.Recovery

The check of an expression keeps its tree, whatever it reports.

* `Tree`       : the forms of an expression with their spans, without types and symbols. A gap stands
  for an expression that was refused; it has the span of that expression.
* `Tree.prune` : the tree with a gap for every form that is refused in its place, from the root
  downwards: arithmetic in a place for a formula, a formula in a place for arithmetic, and there
  also a name that stands for no tensor.

The tree of a checked condition is the pruned tree of the condition (`formula_tree`), and without
reports there is nothing to prune (`prune_eq_self`).
-/

namespace NeuralQuery

open Typed (Arith Formula)

/-! ## Trees -/

/-- A form by itself: what it says besides its operands. -/
inductive Form where
  | var (name : String) (indices : List Int64)
  | int (lexeme : String) (value : Int64)
  | float (lexeme : String) (value : Binary64)
  | negate
  | aggregate (op : Aggregate)
  | minus
  | compare (op : Comparison)
  | connective (op : Connective)

inductive Tree where
  | node (form : Form) (operands : List Tree) (span : Span)
  | gap (span : Span)

namespace Form

def isBoolean : Form → Bool
  | compare _ => true
  | connective _ => true
  | _ => false

/-- The place of the operands of a form. -/
def operandPlace : Form → Place
  | connective _ => .formula
  | _ => .arith

/-- The form is not what its place demands: it is of the other sort, or a name in a place for
arithmetic that stands for no tensor. -/
def isRefused (tensor : String → Bool) : Place → Form → Bool
  | .arith, var name _ => !tensor name
  | .arith, f => f.isBoolean
  | .formula, f => !f.isBoolean

end Form

namespace Tree

section
variable (tensor : String → Bool)

mutual

/-- The tree with gaps for the outermost forms that are refused. -/
def prune (place : Place) : Tree → Tree
  | gap s => gap s
  | node f ts s =>
    if f.isRefused tensor place then gap s else node f (pruneAll f.operandPlace ts) s

def pruneAll (place : Place) : List Tree → List Tree
  | [] => []
  | t :: ts => t.prune place :: pruneAll place ts

end

theorem pruneAll_eq_map (place : Place) (ts : List Tree) :
    pruneAll tensor place ts = ts.map (prune tensor place) := by
  induction ts with
  | nil => rfl
  | cons t ts ih => rw [pruneAll, ih, List.map_cons]

end
end Tree

namespace Expr

def form : Expr → Form
  | var name indices _ => .var name indices
  | int lexeme value _ => .int lexeme value
  | float lexeme value _ => .float lexeme value
  | negate _ _ => .negate
  | aggregate op _ _ => .aggregate op
  | minus _ _ _ => .minus
  | compare op _ _ _ => .compare op
  | connective op _ _ => .connective op

mutual

def tree : Expr → Tree
  | e@(var _ _ s) => .node e.form [] s
  | e@(int _ _ s) => .node e.form [] s
  | e@(float _ _ s) => .node e.form [] s
  | e@(negate f s) => .node e.form [f.tree] s
  | e@(aggregate _ es s) => .node e.form (trees es) s
  | e@(minus h r s) => .node e.form (h.tree :: trees r) s
  | e@(compare _ l r s) => .node e.form [l.tree, r.tree] s
  | e@(connective _ es s) => .node e.form (trees es) s

def trees : List Expr → List Tree
  | [] => []
  | e :: es => e.tree :: trees es

end

theorem trees_eq_map (es : List Expr) : trees es = es.map tree := by
  induction es with
  | nil => rfl
  | cons e es ih => rw [trees, ih, List.map_cons]

theorem tree_eq (e : Expr) : e.tree = .node e.form (e.operands.map tree) e.span := by
  cases e <;> simp [tree, operands, span, trees_eq_map]

theorem isBoolean_form (e : Expr) : e.form.isBoolean = e.isBoolean := by
  cases e <;> rfl

theorem operandPlace_form (e : Expr) : e.form.operandPlace = e.operandPlace := by
  cases e <;> rfl

section
variable {tensor : String → Bool} {place : Place} {e : Expr}

theorem prune_refused (h : e.form.isRefused tensor place = true) :
    e.tree.prune tensor place = .gap e.span := by
  rw [tree_eq, Tree.prune, if_pos h]

theorem prune_kept (h : e.form.isRefused tensor place = false) :
    e.tree.prune tensor place =
      .node e.form (e.operands.map fun f => f.tree.prune tensor e.operandPlace) e.span := by
  rw [tree_eq, Tree.prune, if_neg (by simp [h]), Tree.pruneAll_eq_map, List.map_map,
    operandPlace_form]
  rfl

end
end Expr

namespace Typed

mutual

def Arith.tree : Arith → Tree
  | .var _ name indices _ s => .node (.var name indices) [] s
  | .int lexeme value _ s => .node (.int lexeme value) [] s
  | .float lexeme value _ s => .node (.float lexeme value) [] s
  | .negate e _ s => .node .negate [e.tree] s
  | .aggregate op es _ s => .node (.aggregate op) (Arith.trees es) s
  | .minus h r _ s => .node .minus (h.tree :: Arith.trees r) s
  | .invalid _ s => .gap s

def Arith.trees : List Arith → List Tree
  | [] => []
  | e :: es => e.tree :: Arith.trees es

end

mutual

def Formula.tree : Formula → Tree
  | .compare op l r s => .node (.compare op) [l.tree, r.tree] s
  | .connective op fs s => .node (.connective op) (Formula.trees fs) s
  | .invalid _ s => .gap s

def Formula.trees : List Formula → List Tree
  | [] => []
  | f :: fs => f.tree :: Formula.trees fs

end

theorem Arith.trees_eq_map (es : List Arith) : Arith.trees es = es.map Arith.tree := by
  induction es with
  | nil => rfl
  | cons e es ih => rw [Arith.trees, ih, List.map_cons]

theorem Formula.trees_eq_map (fs : List Formula) : Formula.trees fs = fs.map Formula.tree := by
  induction fs with
  | nil => rfl
  | cons f fs ih => rw [Formula.trees, ih, List.map_cons]

/-- Pinning literals changes types only. -/
theorem Arith.tree_pin (t : ElementType) (a : Arith) : (a.pin t).tree = a.tree := by
  induction a using Arith.inductOn with
  | var symbol name indices type s => rfl
  | int lexeme value type s => rfl
  | float lexeme value type s => rfl
  | negate e type s ih =>
    by_cases h : type.isLiteral = true <;> simp [pin, tree, h, ih]
  | aggregate op es type s ih =>
    by_cases h : type.isLiteral = true
    · simpa [pin, tree, h, pinAll_eq_map, trees_eq_map] using ih
    · simp [pin, tree, h]
  | minus e es type s ihe ihes =>
    by_cases h : type.isLiteral = true
    · simpa [pin, tree, h, pinAll_eq_map, trees_eq_map, ihe] using ihes
    · simp [pin, tree, h]
  | invalid source s => rfl

end Typed

/-! ## Checked expressions -/

namespace Typing

open Checked

theorem settle_tree (operands : List Arith) :
    (settle operands).value.operands.map Arith.tree = operands.map Arith.tree := by
  rw [settle_value]
  split
  · rw [List.map_map]
    exact List.map_congr_left fun a _ => Arith.tree_pin _ a
  · rfl

theorem reconcile_tree (policy : LiteralPolicy) (l r : Arith) (p : Position) :
    (reconcile policy l r p).value.1.tree = l.tree ∧
      (reconcile policy l r p).value.2.tree = r.tree := by
  rcases reconcile_value policy l r p with h | ⟨t, h⟩
  · rw [h]
    exact ⟨rfl, rfl⟩
  · rw [h]
    exact ⟨Arith.tree_pin t l, Arith.tree_pin t r⟩

/-- The names that lead to tensors in a table. -/
def FindsTensors (table : SymbolTable) (tensor : String → Bool) : Prop :=
  ∀ name p, (∃ id, table.resolve name p = .ok id ∧ (table.get id).kind ≠ .network) ↔
    tensor name = true

section
variable {table : SymbolTable} {tensor : String → Bool} (h : FindsTensors table tensor)
include h

/-- A name that stands for no tensor is reported and leaves a gap. -/
theorem reference_refused {name : String} (hname : tensor name = false) (indices : List Int64)
    (s : Span) :
    (reference table name indices s).value = .invalid name s ∧
      (reference table name indices s).diagnostics ≠ [] := by
  have hnone : ¬ ∃ id, table.resolve name s.position = .ok id ∧ (table.get id).kind ≠ .network :=
    fun hfound => by simp [(h name s.position).mp hfound] at hname
  unfold reference
  cases hr : table.resolve name s.position with
  | error d => exact ⟨rfl, List.cons_ne_nil _ _⟩
  | ok id =>
    have hkind : (table.get id).kind = .network := by
      by_contra hkind
      exact hnone ⟨id, hr, hkind⟩
    simp only [hkind, if_true]
    exact ⟨rfl, List.cons_ne_nil _ _⟩

theorem reference_tensor {name : String} (hname : tensor name = true) (indices : List Int64)
    (s : Span) :
    ∃ id, (reference table name indices s).value =
      .var id name indices (table.get id).type s := by
  obtain ⟨id, hr, hkind⟩ := (h name s.position).mpr hname
  refine ⟨id, ?_⟩
  simp only [reference, hr, hkind, if_false]
  rfl

variable (policy : LiteralPolicy)

theorem arith_tree (e : Expr) :
    (arith table policy e).value.tree = e.tree.prune tensor .arith := by
  induction e using Expr.inductOn with
  | var name indices s =>
    rw [arith_var]
    cases hname : tensor name with
    | false =>
      rw [(reference_refused h hname indices s).1, Expr.prune_refused]
      · rfl
      · simp [Expr.form, Form.isRefused, hname]
    | true =>
      obtain ⟨id, hvalue⟩ := reference_tensor h hname indices s
      rw [hvalue, Expr.prune_kept]
      · rfl
      · simp [Expr.form, Form.isRefused, hname]
  | int lexeme value s =>
    rw [arith_int]
    rfl
  | float lexeme value s =>
    rw [arith_float]
    rfl
  | negate e s ih =>
    have htree := settle_tree [(arith table policy e).value]
    obtain ⟨b, hb, hvalue⟩ := negation_value (arith table policy e).value s
    rw [hb, List.map_singleton, List.map_singleton, ih] at htree
    rw [arith_negate, value_bind, hvalue, Expr.prune_kept rfl, Arith.tree, htree]
    rfl
  | aggregate op es s ih =>
    have htree := settle_tree (es.map fun e => (arith table policy e).value)
    rw [List.map_map, Function.comp_def, List.map_congr_left ih] at htree
    rw [arith_aggregate, value_bind, ariths_value, Expr.prune_kept rfl]
    simp only [aggregation, value_bind, value_pure, Arith.tree, Arith.trees_eq_map, htree]
    rfl
  | minus e es s ihe ihes =>
    have htree := settle_tree ((arith table policy e).value ::
      es.map fun e => (arith table policy e).value)
    obtain ⟨b, bs, hb, hvalue⟩ := difference_value (arith table policy e).value
      (es.map fun e => (arith table policy e).value) s
    rw [hb, List.map_cons, List.map_cons, List.map_map, Function.comp_def,
      List.map_congr_left ihes, ihe] at htree
    rw [arith_minus, value_bind, value_bind, ariths_value, hvalue, Expr.prune_kept rfl,
      Arith.tree, Arith.trees_eq_map, htree]
    rfl
  | compare op l r s _ _ =>
    rw [(arith_of_isBoolean table policy rfl).1]
    rfl
  | connective op es s _ =>
    rw [(arith_of_isBoolean table policy rfl).1]
    rfl

/-- The tree of a checked condition. -/
theorem formula_tree (e : Expr) :
    (formula table policy e).value.tree = e.tree.prune tensor .formula := by
  induction e using Expr.inductOn with
  | compare op l r s _ _ =>
    obtain ⟨hl, hr⟩ := reconcile_tree policy (arith table policy l).value
      (arith table policy r).value s.position
    rw [arith_tree h] at hl hr
    rw [formula_compare, Expr.prune_kept rfl]
    simp only [comparison, value_bind, value_pure, Formula.tree, hl, hr]
    rfl
  | connective op es s ih =>
    rw [formula_connective, value_bind, value_pure, formulas_value, Expr.prune_kept rfl,
      Formula.tree, Formula.trees_eq_map, List.map_map, Function.comp_def, List.map_congr_left ih]
    rfl
  | _ =>
    rw [(formula_of_not_isBoolean table policy rfl).1]
    rfl

/-- Whatever is refused is reported. -/
theorem isRefused_of_reports {place : Place} {e : Expr} (hclean : reports table policy place e = []) :
    e.form.isRefused tensor place = false := by
  cases place with
  | formula =>
    simp [Form.isRefused, Expr.isBoolean_form, isBoolean_of_reports hclean]
  | arith =>
    have hsort := not_isBoolean_of_reports hclean
    cases e with
    | var name indices s =>
      rw [reports, arith_var] at hclean
      cases hname : tensor name with
      | true => simp [Expr.form, Form.isRefused, hname]
      | false => exact absurd hclean (reference_refused h hname indices s).2
    | compare op l r s => cases hsort
    | connective op es s => cases hsort
    | _ => rfl

theorem prune_eq_self {place : Place} {e : Expr} (hclean : reports table policy place e = []) :
    e.tree.prune tensor place = e.tree := by
  induction e using Expr.operandsInduct generalizing place with
  | h e ih =>
    have hops : e.operands.map (fun f => f.tree.prune tensor e.operandPlace) =
        e.operands.map Expr.tree :=
      List.map_congr_left fun f hf => ih f hf (reports_operand hclean hf)
    rw [Expr.prune_kept (isRefused_of_reports h policy hclean), hops, e.tree_eq]

end
end Typing

/-! ## Queries -/

/-- The check of a query keeps the trees of its assertions, with gaps for what is refused and for
nothing else. Without a report it keeps them whole. -/
theorem Query.typing_keeps_trees (q : Query) (options : BuildOptions) :
    (Typing.query options.policy q).value.assertions.map (fun a => (a.condition.tree, a.span)) =
      q.assertions.map (fun a => (a.condition.tree.prune q.isTensor .formula, a.span)) ∧
    ((Typing.query options.policy q).diagnostics = [] →
      (Typing.query options.policy q).value.assertions.map (fun a => (a.condition.tree, a.span)) =
        q.assertions.map (fun a => (a.condition.tree, a.span))) := by
  have hfinds : Typing.FindsTensors (Typing.query options.policy q).value.symbols q.isTensor :=
    q.resolves_iff options.policy
  have hpruned : (Typing.query options.policy q).value.assertions.map
        (fun a => (a.condition.tree, a.span)) =
      q.assertions.map (fun a => (a.condition.tree.prune q.isTensor .formula, a.span)) := by
    rw [Typing.query_assertions, List.map_map]
    refine List.map_congr_left fun a _ => ?_
    exact congrArg (·, a.span) (Typing.formula_tree hfinds options.policy a.condition)
  refine ⟨hpruned, fun hclean => hpruned.trans (List.map_congr_left fun a ha => ?_)⟩
  have hreports : Typing.reports (Typing.query options.policy q).value.symbols options.policy
      .formula a.condition = [] := (Typing.query_diagnostics_iff.mp hclean).2.2 a ha
  exact congrArg (·, a.span) (Typing.prune_eq_self hfinds options.policy hreports)

end NeuralQuery
