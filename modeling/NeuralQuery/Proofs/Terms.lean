import NeuralQuery.Proofs.Derivation
import NeuralQuery.Typing.Expr

/-!
# NeuralQuery.Proofs.Terms

The checks of expressions in their places, form by form: each one as what it does with its operands
in theirs. Proofs about checked expressions start from these equations and not from `term`.

`Expr.Built` is what the grammar says of the shape of an expression, without its tokens.
-/

namespace NeuralQuery

/-- An expression whose forms all apply an operator to operands it takes. -/
inductive Expr.Built : Expr → Prop where
  | var (name : String) (indices : List Int64) (s : Span) : Built (.var name indices s)
  | int (lexeme : String) (value : Int64) (s : Span) : Built (.int lexeme value s)
  | float (lexeme : String) (value : Binary64) (s : Span) : Built (.float lexeme value s)
  | compound {s : Span} {k : Token.Kind} {es : List Expr} {e : Expr} :
      Applies s k es e → (∀ f ∈ es, Built f) → Built e

theorem DerivesExpr.built {ts : List Token} {e : Expr} (h : DerivesExpr ts e) : e.Built := by
  induction h with
  | name _ => exact .var ..
  | indexed _ _ _ _ => exact .var ..
  | integer _ _ => exact .int ..
  | fractional _ _ => exact .float ..
  | compound parts _ _ _ happ ih =>
    exact .compound happ (List.forall_mem_map.mpr ih)

namespace Typing

open Typed
open Checked

variable (table : SymbolTable) (policy : LiteralPolicy)

attribute [local simp] term

/-! ## Lists of operands -/

theorem ariths_cons (e : Expr) (es : List Expr) :
    ariths table policy (e :: es) = do
      let a ← arith table policy e
      let rest ← ariths table policy es
      return a :: rest := by
  rw [ariths, arith, bind_assoc]

theorem ariths_value (es : List Expr) :
    (ariths table policy es).value = es.map fun e => (arith table policy e).value := by
  induction es with
  | nil => simp [ariths]
  | cons e es ih => simp [ariths_cons, ih]

theorem ariths_diagnostics (es : List Expr) :
    (ariths table policy es).diagnostics =
      es.flatMap fun e => (arith table policy e).diagnostics := by
  induction es with
  | nil => simp [ariths]
  | cons e es ih => simp [ariths_cons, ih]

theorem formulas_cons (e : Expr) (es : List Expr) :
    formulas table policy (e :: es) = do
      let f ← formula table policy e
      let rest ← formulas table policy es
      return f :: rest := by
  rw [formulas, formula, bind_assoc]

theorem formulas_value (es : List Expr) :
    (formulas table policy es).value = es.map fun e => (formula table policy e).value := by
  induction es with
  | nil => simp [formulas]
  | cons e es ih => simp [formulas_cons, ih]

theorem formulas_diagnostics (es : List Expr) :
    (formulas table policy es).diagnostics =
      es.flatMap fun e => (formula table policy e).diagnostics := by
  induction es with
  | nil => simp [formulas]
  | cons e es ih => simp [formulas_cons, ih]

/-! ## Arithmetic in its place -/

theorem arith_var (name : String) (indices : List Int64) (s : Span) :
    arith table policy (.var name indices s) = reference table name indices s := by
  simp [arith, Term.asArith]

theorem arith_int (lexeme : String) (value : Int64) (s : Span) :
    arith table policy (.int lexeme value s) =
      pure (.int lexeme value (.literal (intKind lexeme)) s) := by
  simp [arith, Term.asArith]

theorem arith_float (lexeme : String) (value : Binary64) (s : Span) :
    arith table policy (.float lexeme value s) =
      pure (.float lexeme value (.literal .float) s) := by
  simp [arith, Term.asArith]

theorem arith_negate (e : Expr) (s : Span) :
    arith table policy (.negate e s) = (do
      let a ← arith table policy e
      negation a s) := by
  simp [arith, Term.asArith]

theorem arith_aggregate (op : Aggregate) (es : List Expr) (s : Span) :
    arith table policy (.aggregate op es s) = (do
      let operands ← ariths table policy es
      aggregation op operands s) := by
  simp [arith, Term.asArith]

theorem arith_minus (h : Expr) (r : List Expr) (s : Span) :
    arith table policy (.minus h r s) = (do
      let head ← arith table policy h
      let rest ← ariths table policy r
      difference head rest s) := by
  simp [arith, Term.asArith]

/-! ## Formulas in their place -/

theorem formula_compare (op : Comparison) (l r : Expr) (s : Span) :
    formula table policy (.compare op l r s) = (do
      let lhs ← arith table policy l
      let rhs ← arith table policy r
      comparison policy op lhs rhs s) := by
  simp [formula, arith, Term.asFormula]

theorem formula_connective (op : Connective) (es : List Expr) (s : Span) :
    formula table policy (.connective op es s) = do
      let fs ← formulas table policy es
      return .connective op fs s := by
  simp [formula, Term.asFormula]

/-! ## Expressions of the other sort -/

/-- The term for an expression is a formula exactly if its outermost form is boolean. -/
theorem term_sort (e : Expr) :
    (e.isBoolean = true ∧ ∃ f, (term table policy e).value = .formula f) ∨
      (e.isBoolean = false ∧ ∃ a, (term table policy e).value = .arith a) := by
  cases e <;> simp [Expr.isBoolean]

theorem arith_of_isBoolean {e : Expr} (h : e.isBoolean = true) :
    (arith table policy e).value = .invalid e.text e.span ∧
      (arith table policy e).diagnostics ≠ [] := by
  rcases term_sort table policy e with ⟨_, f, hf⟩ | ⟨hn, _⟩
  · simp [arith, hf, Term.asArith]
  · rw [hn] at h
    cases h

theorem formula_of_not_isBoolean {e : Expr} (h : e.isBoolean = false) :
    (formula table policy e).value = .invalid e.text e.span ∧
      (formula table policy e).diagnostics ≠ [] := by
  rcases term_sort table policy e with ⟨hn, _⟩ | ⟨_, a, ha⟩
  · rw [hn] at h
    cases h
  · simp [formula, ha, Term.asFormula]

end Typing
end NeuralQuery
