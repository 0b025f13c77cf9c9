import NeuralQuery.Proofs.Agreement
import NeuralQuery.Proofs.Terms

/-!
# NeuralQuery.Proofs.Reports

What the check of an expression reports, form by form: the reports of its operands from left to
right, behind them those of the form itself, and last that it stands in the wrong place
(`reports_eq`). A form reports at its own start or at the start of one of its operands
(`formReports_found`).
-/

namespace NeuralQuery

/-- The sort of expression that a place demands. -/
inductive Place where
  | arith
  | formula
  deriving DecidableEq, Repr

namespace Expr

/-- The place of the operands of a form. -/
def operandPlace : Expr → Place
  | connective .. => .formula
  | _ => .arith

/-- Induction with a hypothesis for every operand, whatever the form. -/
theorem operandsInduct {P : Expr → Prop} (h : ∀ e, (∀ f ∈ e.operands, P f) → P e) (e : Expr) :
    P e := by
  induction e using Expr.inductOn with
  | var name indices s => exact h _ (by simp [operands])
  | int lexeme value s => exact h _ (by simp [operands])
  | float lexeme value s => exact h _ (by simp [operands])
  | negate e s ih => exact h _ (by simpa [operands] using ih)
  | aggregate op es s ih => exact h _ (by simpa [operands] using ih)
  | minus e es s ihe ihes => exact h _ (by simpa [operands] using ⟨ihe, ihes⟩)
  | compare op l r s ihl ihr => exact h _ (by simpa [operands] using ⟨ihl, ihr⟩)
  | connective op es s ih => exact h _ (by simpa [operands] using ih)

/-- An expression or one of those below it. -/
inductive Within (f : Expr) : Expr → Prop where
  | refl : Within f f
  | operand {e g : Expr} : g ∈ e.operands → Within f g → Within f e

end Expr

/-- A fault in the meaning of a query, at one of these positions. -/
structure Diagnostic.FoundAt (positions : List Position) (d : Diagnostic) : Prop where
  position : d.position ∈ positions
  category : d.fault.category ∈ [.naming, .typing, .shape, .structural]

namespace Typing

open Typed
open Checked

variable (table : SymbolTable) (policy : LiteralPolicy)

/-! ## Operands first -/

/-- What the check of an expression in its place reports. -/
def reports : Place → Expr → List Diagnostic
  | .arith, e => (arith table policy e).diagnostics
  | .formula, e => (formula table policy e).diagnostics

theorem ariths_reports (es : List Expr) :
    (ariths table policy es).diagnostics = es.flatMap (reports table policy .arith) :=
  ariths_diagnostics table policy es

theorem formulas_reports (es : List Expr) :
    (formulas table policy es).diagnostics = es.flatMap (reports table policy .formula) :=
  formulas_diagnostics table policy es

/-- What a form reports when all its operands are checked. -/
def formReports : Expr → List Diagnostic
  | .var name indices s => (reference table name indices s).diagnostics
  | .int .. => []
  | .float .. => []
  | .compare _ l r s =>
    (reconcile policy (arith table policy l).value (arith table policy r).value
      s.position).diagnostics
  | .connective .. => []
  | e => (settle (e.operands.map fun f => (arith table policy f).value)).diagnostics

/-- The report of an expression that is not of the sort its place demands. -/
def misplaced : Place → Expr → List Diagnostic
  | .arith, e =>
    if e.isBoolean then [⟨.expectedArithmetic e.text, e.span.position⟩] else []
  | .formula, e =>
    if e.isBoolean then []
    else [⟨.expectedBoolean e.text (arith table policy e).value.type.name, e.span.position⟩]

theorem reports_arith_of_isBoolean {e : Expr} (h : e.isBoolean = true) :
    reports table policy .arith e =
      reports table policy .formula e ++ misplaced table policy .arith e := by
  rcases term_sort table policy e with ⟨_, f, hf⟩ | ⟨hn, _⟩
  · simp [reports, arith, formula, hf, Term.asArith, Term.asFormula, misplaced, h]
  · rw [hn] at h
    cases h

theorem reports_formula_of_not_isBoolean {e : Expr} (h : e.isBoolean = false) :
    reports table policy .formula e =
      reports table policy .arith e ++ misplaced table policy .formula e := by
  rcases term_sort table policy e with ⟨hn, _⟩ | ⟨_, a, ha⟩
  · rw [hn] at h
    cases h
  · simp [reports, arith, formula, ha, Term.asArith, Term.asFormula, misplaced, h]

/-- An expression in a place of its own sort. -/
theorem reports_placed (e : Expr) :
    reports table policy (if e.isBoolean then .formula else .arith) e =
      e.operands.flatMap (reports table policy e.operandPlace) ++ formReports table policy e := by
  cases e with
  | var name indices s => simp [reports, arith_var, formReports, Expr.operands, Expr.isBoolean]
  | int lexeme value s => simp [reports, arith_int, formReports, Expr.operands, Expr.isBoolean]
  | float lexeme value s => simp [reports, arith_float, formReports, Expr.operands, Expr.isBoolean]
  | negate e s =>
    simp [reports, arith_negate, negation, formReports, Expr.operands, Expr.isBoolean,
      Expr.operandPlace]
  | aggregate op es s =>
    simp [reports, arith_aggregate, aggregation, ariths_reports, ariths_value, formReports,
      Expr.operands, Expr.isBoolean, Expr.operandPlace]
  | minus e es s =>
    simp [reports, arith_minus, difference, ariths_reports, ariths_value, formReports,
      Expr.operands, Expr.isBoolean, Expr.operandPlace]
  | compare op l r s =>
    simp [reports, formula_compare, comparison, formReports, Expr.operands, Expr.isBoolean,
      Expr.operandPlace]
  | connective op es s =>
    simp [reports, formula_connective, formulas_reports, formReports, Expr.operands,
      Expr.isBoolean, Expr.operandPlace]

/-- Operands report before their form, from left to right. -/
theorem reports_eq (place : Place) (e : Expr) :
    reports table policy place e =
      e.operands.flatMap (reports table policy e.operandPlace) ++
        (formReports table policy e ++ misplaced table policy place e) := by
  have hplaced := reports_placed table policy e
  cases h : e.isBoolean with
  | true =>
    rw [h, if_pos rfl] at hplaced
    cases place with
    | arith => rw [reports_arith_of_isBoolean table policy h, hplaced, List.append_assoc]
    | formula => simp [hplaced, misplaced, h]
  | false =>
    rw [h, if_neg Bool.false_ne_true] at hplaced
    cases place with
    | arith => simp [hplaced, misplaced, h]
    | formula => rw [reports_formula_of_not_isBoolean table policy h, hplaced, List.append_assoc]

/-! ## Where a form reports -/

theorem arith_span (e : Expr) : (arith table policy e).value.span = e.span := by
  cases e with
  | var name indices s =>
    rw [arith_var]
    unfold reference
    split
    · rfl
    · simp only
      split <;> rfl
  | int lexeme value s =>
    rw [arith_int]
    rfl
  | float lexeme value s =>
    rw [arith_float]
    rfl
  | negate e s =>
    rw [arith_negate]
    rfl
  | aggregate op es s =>
    rw [arith_aggregate]
    rfl
  | minus e es s =>
    rw [arith_minus]
    rfl
  | compare op l r s =>
    rw [(arith_of_isBoolean table policy rfl).1]
    rfl
  | connective op es s =>
    rw [(arith_of_isBoolean table policy rfl).1]
    rfl

theorem checkBounds_found (name : String) (p : Position) (dimension : Nat)
    (indices shape : List Int64) :
    ∀ d ∈ (checkBounds name p dimension indices shape).diagnostics, d.FoundAt [p] := by
  induction indices generalizing dimension shape with
  | nil => simp [checkBounds]
  | cons i indices ih =>
    cases shape with
    | nil => simp [checkBounds]
    | cons bound shape =>
      intro d hd
      rw [checkBounds] at hd
      split at hd
      · exact ih _ _ d hd
      · rcases List.mem_cons.mp hd with rfl | hd
        · exact ⟨by simp, by simp [Fault.category]⟩
        · exact ih _ _ d hd

theorem checkIndices_found (name : String) (p : Position) (indices shape : List Int64) :
    ∀ d ∈ (checkIndices name p indices shape).diagnostics, d.FoundAt [p] := by
  intro d hd
  unfold checkIndices at hd
  split at hd
  · exact checkBounds_found name p 0 indices shape d hd
  · obtain rfl := List.mem_singleton.mp hd
    exact ⟨by simp, by simp [Fault.category]⟩

theorem resolve_found {name : String} {p : Position} {d : Diagnostic}
    (h : table.resolve name p = .error d) : d.FoundAt [p] := by
  unfold SymbolTable.resolve at h
  split at h
  · cases h
  · split at h
    · cases h
    · cases h
      exact ⟨by simp, by simp [Fault.category]⟩
  · cases h
    exact ⟨by simp, by simp [Fault.category]⟩

theorem reference_found (name : String) (indices : List Int64) (s : Span) :
    ∀ d ∈ (reference table name indices s).diagnostics, d.FoundAt [s.position] := by
  intro d hd
  unfold reference at hd
  split at hd
  · rename_i e he
    obtain rfl := List.mem_singleton.mp hd
    exact resolve_found table he
  · simp only at hd
    split at hd
    · obtain rfl := List.mem_singleton.mp hd
      exact ⟨by simp, by simp [Fault.category]⟩
    · rw [diagnostics_bind, diagnostics_pure, List.append_nil] at hd
      exact checkIndices_found _ _ _ _ d hd

theorem agree_found (running : Option ValueType) (operands : List Arith) :
    ∀ d ∈ (agree running operands).diagnostics,
      d.FoundAt (operands.map fun a => a.span.position) := by
  induction operands generalizing running with
  | nil => simp [agree]
  | cons a operands ih =>
    have hlater : ∀ running, ∀ d ∈ (agree running operands).diagnostics,
        d.FoundAt ((a :: operands).map fun a => a.span.position) := fun running d hd =>
      ⟨List.mem_cons_of_mem _ (ih running d hd).position, (ih running d hd).category⟩
    intro d hd
    simp only [agree] at hd
    split at hd
    · rcases List.mem_cons.mp hd with rfl | hd
      · exact ⟨by simp, by simp [Fault.category]⟩
      · exact hlater _ d hd
    · split at hd
      · exact hlater _ d hd
      · split at hd
        · exact hlater _ d hd
        · rcases List.mem_cons.mp hd with rfl | hd
          · exact ⟨by simp, by simp [Fault.category]⟩
          · exact hlater _ d hd

theorem reconcile_found (l r : Arith) (p : Position) :
    ∀ d ∈ (reconcile policy l r p).diagnostics, d.FoundAt [p] := by
  intro d hd
  unfold reconcile at hd
  split at hd
  · obtain rfl := List.mem_singleton.mp hd
    exact ⟨by simp, by simp [Fault.category]⟩
  · split at hd
    · unfold applyPolicy at hd
      split at hd
      · cases hd
      · split at hd
        · cases hd
        · obtain rfl := List.mem_singleton.mp hd
          exact ⟨by simp, by simp [Fault.category]⟩
      · obtain rfl := List.mem_singleton.mp hd
        exact ⟨by simp, by simp [Fault.category]⟩
    · cases hd
  · cases hd
  · cases hd

theorem formReports_found (e : Expr) :
    ∀ d ∈ formReports table policy e,
      d.FoundAt (e.span.position :: e.operands.map fun f => f.span.position) := by
  have hself : ∀ {d : Diagnostic}, d.FoundAt [e.span.position] →
      d.FoundAt (e.span.position :: e.operands.map fun f => f.span.position) := fun h =>
    ⟨by simp [List.mem_singleton.mp h.position], h.category⟩
  have hsettle : ∀ d ∈ (settle (e.operands.map fun f => (arith table policy f).value)).diagnostics,
      d.FoundAt (e.span.position :: e.operands.map fun f => f.span.position) := by
    intro d hd
    rw [settle_diagnostics] at hd
    obtain ⟨hp, hc⟩ := agree_found _ _ d hd
    rw [List.map_map] at hp
    simp only [Function.comp_def, arith_span] at hp
    exact ⟨List.mem_cons_of_mem _ hp, hc⟩
  intro d hd
  cases e with
  | var name indices s => exact hself (reference_found table name indices s d hd)
  | int lexeme value s => cases hd
  | float lexeme value s => cases hd
  | negate e s => exact hsettle d hd
  | aggregate op es s => exact hsettle d hd
  | minus e es s => exact hsettle d hd
  | compare op l r s => exact hself (reconcile_found policy _ _ _ d hd)
  | connective op es s => cases hd

theorem misplaced_found (place : Place) (e : Expr) :
    ∀ d ∈ misplaced table policy place e, d.FoundAt [e.span.position] := by
  intro d hd
  cases place with
  | arith =>
    rw [misplaced] at hd
    split at hd
    · obtain rfl := List.mem_singleton.mp hd
      exact ⟨by simp, by simp [Fault.category]⟩
    · cases hd
  | formula =>
    rw [misplaced] at hd
    split at hd
    · cases hd
    · obtain rfl := List.mem_singleton.mp hd
      exact ⟨by simp, by simp [Fault.category]⟩

/-- Every report of an expression is at the start of an expression within it. -/
theorem reports_found (place : Place) (e : Expr) :
    ∀ d ∈ reports table policy place e, ∃ f : Expr, f.Within e ∧ d.FoundAt [f.span.position] := by
  induction e using Expr.operandsInduct generalizing place with
  | h e ih =>
    intro d hd
    rw [reports_eq, List.mem_append, List.mem_append, List.mem_flatMap] at hd
    rcases hd with ⟨f, hf, hd⟩ | hd | hd
    · obtain ⟨g, hg, hfound⟩ := ih f hf _ d hd
      exact ⟨g, .operand hf hg, hfound⟩
    · obtain ⟨hp, hc⟩ := formReports_found table policy e d hd
      rcases List.mem_cons.mp hp with hp | hp
      · exact ⟨e, .refl, by simp [hp], hc⟩
      · obtain ⟨f, hf, hpf⟩ := List.mem_map.mp hp
        exact ⟨f, .operand hf .refl, by simp [hpf], hc⟩
    · exact ⟨e, .refl, misplaced_found table policy place e d hd⟩

end Typing
end NeuralQuery
