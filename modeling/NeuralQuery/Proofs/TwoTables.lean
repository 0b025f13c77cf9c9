import NeuralQuery.Proofs.Renumbering
import NeuralQuery.Proofs.Reports

/-!
# NeuralQuery.Proofs.TwoTables

One expression, checked with two tables of symbols.

A check looks at a table only to resolve names. So if names lead to the same records in both tables,
or to similar faults (`SymbolTable.Matches`), then the typed expressions are the same up to the
numbers of their symbols (`formula_renumber`), and the reports are similar, one by one
(`reports_matches`). What counts as similar is a parameter.
-/

namespace NeuralQuery

open Typed (Arith Formula)

/-! ## Other numbers -/

namespace Typed

section
variable (σ : SymbolId → SymbolId)

mutual

/-- The expression with other numbers for its symbols. -/
def Arith.renumber : Arith → Arith
  | .var symbol name indices type s => .var (σ symbol) name indices type s
  | .int lexeme value type s => .int lexeme value type s
  | .float lexeme value type s => .float lexeme value type s
  | .negate e type s => .negate e.renumber type s
  | .aggregate op es type s => .aggregate op (Arith.renumberAll es) type s
  | .minus h r type s => .minus h.renumber (Arith.renumberAll r) type s
  | .invalid source s => .invalid source s

def Arith.renumberAll : List Arith → List Arith
  | [] => []
  | e :: es => e.renumber :: Arith.renumberAll es

end

mutual

/-- The formula with other numbers for its symbols. -/
def Formula.renumber : Formula → Formula
  | .compare op l r s => .compare op (l.renumber σ) (r.renumber σ) s
  | .connective op fs s => .connective op (Formula.renumberAll fs) s
  | .invalid source s => .invalid source s

def Formula.renumberAll : List Formula → List Formula
  | [] => []
  | f :: fs => f.renumber :: Formula.renumberAll fs

end

def Definition.renumber (d : Definition) : Definition :=
  { d with symbol := σ d.symbol }

def Network.renumber (n : Network) : Network :=
  { n with
    symbol := n.symbol.map σ
    inputs := n.inputs.map (Definition.renumber σ)
    hidden := n.hidden.map (Definition.renumber σ)
    outputs := n.outputs.map (Definition.renumber σ) }

def Assertion.renumber (a : Assertion) : Assertion :=
  { a with condition := a.condition.renumber σ }

namespace Arith

theorem renumberAll_eq_map (es : List Arith) : renumberAll σ es = es.map (renumber σ) := by
  induction es with
  | nil => rfl
  | cons e es ih => rw [renumberAll, ih, List.map_cons]

@[simp] theorem type_renumber (a : Arith) : (a.renumber σ).type = a.type := by
  cases a <;> rfl

@[simp] theorem span_renumber (a : Arith) : (a.renumber σ).span = a.span := by
  cases a <;> rfl

theorem relabel_renumber (a : Arith) : (a.renumber σ).relabel id = a.relabel σ := by
  induction a using Arith.inductOn with
  | var symbol name indices type s => rfl
  | int lexeme value type s => rfl
  | float lexeme value type s => rfl
  | negate e type s ih => rw [renumber, relabel, relabel, ih]
  | aggregate op es type s ih =>
    simpa [renumber, relabel, renumberAll_eq_map, relabelAll_eq_map] using ih
  | minus e es type s ihe ihes =>
    simpa [renumber, relabel, renumberAll_eq_map, relabelAll_eq_map, ihe] using ihes
  | invalid source s => rfl

@[simp] theorem text_renumber (a : Arith) : (a.renumber σ).text = a.text := by
  rw [← text_relabel id, relabel_renumber, text_relabel]

/-- Pinning literals changes types only. -/
theorem renumber_pin (t : ElementType) (a : Arith) :
    (a.pin t).renumber σ = (a.renumber σ).pin t := by
  induction a using Arith.inductOn with
  | var symbol name indices type s => rfl
  | int lexeme value type s => rfl
  | float lexeme value type s => rfl
  | negate e type s ih =>
    by_cases h : type.isLiteral = true <;> simp [pin, renumber, h, ih]
  | aggregate op es type s ih =>
    by_cases h : type.isLiteral = true
    · simpa [pin, renumber, h, pinAll_eq_map, renumberAll_eq_map] using ih
    · simp [pin, renumber, h]
  | minus e es type s ihe ihes =>
    by_cases h : type.isLiteral = true
    · simpa [pin, renumber, h, pinAll_eq_map, renumberAll_eq_map, ihe] using ihes
    · simp [pin, renumber, h]
  | invalid source s => rfl

end Arith

theorem Formula.renumberAll_eq_map (fs : List Formula) :
    Formula.renumberAll σ fs = fs.map (Formula.renumber σ) := by
  induction fs with
  | nil => rfl
  | cons f fs ih => rw [Formula.renumberAll, ih, List.map_cons]

end
end Typed

/-! ## Names -/

/-- Every name leads to a symbol with the same record in both tables, whose number in the second
one `σ` tells, or to similar faults. -/
def SymbolTable.Matches (R : Diagnostic → Diagnostic → Prop) (σ : SymbolId → SymbolId)
    (t t' : SymbolTable) : Prop :=
  ∀ name p,
    (∃ id, t.resolve name p = .ok id ∧ t'.resolve name p = .ok (σ id) ∧
      t'.get (σ id) = t.get id) ∨
    ∃ d d', t.resolve name p = .error d ∧ t'.resolve name p = .error d' ∧ R d d'

namespace Typing

open Checked

/-! ## Forms -/

section
variable (σ : SymbolId → SymbolId)

theorem agree_renumber (running : Option ValueType) (operands : List Arith) :
    agree running (operands.map (Arith.renumber σ)) = agree running operands := by
  induction operands generalizing running with
  | nil => rfl
  | cons a operands ih =>
    simp only [List.map_cons, agree, Arith.type_renumber, Arith.text_renumber,
      Arith.span_renumber, ih]

theorem settle_renumber (operands : List Arith) :
    settle (operands.map (Arith.renumber σ)) =
      ⟨⟨(settle operands).value.type, (settle operands).value.operands.map (Arith.renumber σ)⟩,
        (settle operands).diagnostics⟩ := by
  have htype : commonType (operands.map (Arith.renumber σ)) (agree none operands) =
      commonType operands (agree none operands) := by
    simp [commonType, List.all_map, Function.comp_def]
  simp only [settle, agree_renumber, htype]
  split
  · simp [Function.comp_def, Arith.renumber_pin]
  · rfl

theorem negation_renumber (a : Arith) (s : Span) :
    (negation (a.renumber σ) s).value = (negation a s).value.renumber σ := by
  have hsettle := settle_renumber σ [a]
  obtain ⟨b, bs, hb, _⟩ := settle_cons a []
  rw [hb] at hsettle
  simp only [List.map_cons, List.map_nil] at hsettle
  simp [negation, hsettle, hb, Arith.renumber]

theorem aggregation_renumber (op : Aggregate) (operands : List Arith) (s : Span) :
    (aggregation op (operands.map (Arith.renumber σ)) s).value =
      (aggregation op operands s).value.renumber σ := by
  simp [aggregation, settle_renumber, Arith.renumber, Arith.renumberAll_eq_map]

theorem difference_renumber (head : Arith) (rest : List Arith) (s : Span) :
    (difference (head.renumber σ) (rest.map (Arith.renumber σ)) s).value =
      (difference head rest s).value.renumber σ := by
  have hsettle := settle_renumber σ (head :: rest)
  obtain ⟨b, bs, hb, _⟩ := settle_cons head rest
  rw [hb] at hsettle
  simp only [List.map_cons] at hsettle
  simp [difference, hsettle, hb, Arith.renumber, Arith.renumberAll_eq_map]

theorem reconcile_renumber (policy : LiteralPolicy) (l r : Arith) (p : Position) :
    reconcile policy (l.renumber σ) (r.renumber σ) p =
      ⟨((reconcile policy l r p).value.1.renumber σ, (reconcile policy l r p).value.2.renumber σ),
        (reconcile policy l r p).diagnostics⟩ := by
  simp only [reconcile, Arith.type_renumber, ← Arith.renumber_pin]
  split
  · rfl
  · split
    · cases policy with
      | keep => rfl
      | reject => rfl
      | adopt t =>
        simp only [applyPolicy, Arith.text_renumber, ← Arith.renumber_pin]
        split <;> rfl
    · rfl
  · rfl
  · rfl

end

/-! ## Expressions -/

section
variable {R : Diagnostic → Diagnostic → Prop} {σ : SymbolId → SymbolId} {t t' : SymbolTable}
  (hm : t.Matches R σ t')
include hm

theorem reference_renumber (name : String) (indices : List Int64) (s : Span) :
    (reference t' name indices s).value = (reference t name indices s).value.renumber σ := by
  unfold reference
  rcases hm name s.position with ⟨id, hr, hr', hget⟩ | ⟨d, d', hr, hr', _⟩
  · simp only [hr, hr', hget]
    split <;> rfl
  · simp only [hr, hr']
    rfl

theorem reference_matches (hR : ∀ d, R d d) (name : String) (indices : List Int64) (s : Span) :
    List.Forall₂ R (reference t name indices s).diagnostics
      (reference t' name indices s).diagnostics := by
  unfold reference
  rcases hm name s.position with ⟨id, hr, hr', hget⟩ | ⟨d, d', hr, hr', hd⟩
  · simp only [hr, hr', hget]
    split
    · exact List.forall₂_same.mpr fun d _ => hR d
    · exact List.forall₂_same.mpr fun d _ => hR d
  · simp only [hr, hr']
    exact .cons hd .nil

variable (policy : LiteralPolicy)

theorem arith_renumber (e : Expr) :
    (arith t' policy e).value = (arith t policy e).value.renumber σ := by
  induction e using Expr.inductOn with
  | var name indices s =>
    rw [arith_var, arith_var]
    exact reference_renumber hm name indices s
  | int lexeme value s => rw [arith_int, arith_int]; rfl
  | float lexeme value s => rw [arith_float, arith_float]; rfl
  | negate e s ih => rw [arith_negate, arith_negate, value_bind, value_bind, ih, negation_renumber]
  | aggregate op es s ih =>
    rw [arith_aggregate, arith_aggregate, value_bind, value_bind, ariths_value, ariths_value,
      List.map_congr_left ih, ← aggregation_renumber, List.map_map]
    rfl
  | minus e es s ihe ihes =>
    simp only [arith_minus, value_bind, ariths_value, ihe]
    rw [List.map_congr_left ihes, ← difference_renumber, List.map_map]
    rfl
  | compare op l r s _ _ =>
    rw [(arith_of_isBoolean t' policy rfl).1, (arith_of_isBoolean t policy rfl).1]
    rfl
  | connective op es s _ =>
    rw [(arith_of_isBoolean t' policy rfl).1, (arith_of_isBoolean t policy rfl).1]
    rfl

theorem formula_renumber (e : Expr) :
    (formula t' policy e).value = (formula t policy e).value.renumber σ := by
  induction e using Expr.inductOn with
  | compare op l r s _ _ =>
    simp only [formula_compare, comparison, value_bind, value_pure, arith_renumber hm,
      reconcile_renumber]
    rfl
  | connective op es s ih =>
    simp only [formula_connective, value_bind, value_pure, formulas_value]
    rw [List.map_congr_left ih, Formula.renumber, Formula.renumberAll_eq_map, List.map_map]
    rfl
  | _ =>
    rw [(formula_of_not_isBoolean t' policy rfl).1, (formula_of_not_isBoolean t policy rfl).1]
    rfl

variable (hR : ∀ d, R d d)
include hR

theorem formReports_matches (e : Expr) :
    List.Forall₂ R (formReports t policy e) (formReports t' policy e) := by
  have hsettle : (settle (e.operands.map fun f => (arith t' policy f).value)).diagnostics =
      (settle (e.operands.map fun f => (arith t policy f).value)).diagnostics := by
    have hvalues : e.operands.map (fun f => (arith t' policy f).value) =
        (e.operands.map fun f => (arith t policy f).value).map (Arith.renumber σ) := by
      rw [List.map_map]
      exact List.map_congr_left fun f _ => arith_renumber hm policy f
    rw [hvalues, settle_renumber]
  have hsame : ∀ ds : List Diagnostic, List.Forall₂ R ds ds := fun ds =>
    List.forall₂_same.mpr fun d _ => hR d
  cases e with
  | var name indices s => exact reference_matches hm hR name indices s
  | int lexeme value s => exact hsame []
  | float lexeme value s => exact hsame []
  | compare op l r s =>
    simp only [formReports, arith_renumber hm, reconcile_renumber]
    exact hsame _
  | connective op es s => exact hsame []
  | negate e s =>
    simp only [formReports, hsettle]
    exact hsame _
  | aggregate op es s =>
    simp only [formReports, hsettle]
    exact hsame _
  | minus e es s =>
    simp only [formReports, hsettle]
    exact hsame _

/-- An expression reports alike with tables that match. -/
theorem reports_matches (place : Place) (e : Expr) :
    List.Forall₂ R (reports t policy place e) (reports t' policy place e) := by
  induction e using Expr.operandsInduct generalizing place with
  | h e ih =>
    have hmisplaced : misplaced t' policy place e = misplaced t policy place e := by
      cases place
      · rfl
      · simp only [misplaced, arith_renumber hm, Arith.type_renumber]
    rw [reports_eq, reports_eq t', hmisplaced]
    refine List.rel_append ?_ (List.rel_append (formReports_matches hm policy hR e) ?_)
    · rw [List.flatMap_def, List.flatMap_def]
      refine List.rel_flatten ?_
      rw [List.forall₂_map_left_iff, List.forall₂_map_right_iff, List.forall₂_same]
      exact fun f hf => ih f hf _
    · exact List.forall₂_same.mpr fun d _ => hR d

end
end Typing
end NeuralQuery
