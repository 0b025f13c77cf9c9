import NeuralQuery.Proofs.Display
import NeuralQuery.Proofs.Reports

/-!
# NeuralQuery.Proofs.PolicyRuns

One query under every policy for literals.

A policy is asked only where a comparison has literals on both sides, so that runs under different
policies differ there and nowhere else (`Query.policy_decides_literals`):

* `literalComparisons` : these comparisons, in the order in which they are checked. They are the
  same for all policies, since what an expression is typed as in a place for arithmetic does not
  depend on the policy (`arith_value_keep`).
* `Woven`              : the reports are those of the run that keeps literals, with a report for
  each comparison that the policy refuses put in between.
* `Formula.adopted`    : the conditions are those of that run, with all nodes below the comparisons
  that adopt an element type retyped.
-/

namespace NeuralQuery

open Typed (Arith Formula Node)

/-! ## Lists in between -/

/-- The elements of two lists in one, each list in its order. -/
inductive Woven {α : Type} : List α → List α → List α → Prop where
  | nil : Woven [] [] []
  | left {a : α} {as bs cs : List α} : Woven as bs cs → Woven (a :: as) bs (a :: cs)
  | right {b : α} {as bs cs : List α} : Woven as bs cs → Woven as (b :: bs) (b :: cs)

namespace Woven

variable {α β : Type}

theorem left_alone (as : List α) : Woven as [] as := by
  induction as with
  | nil => exact .nil
  | cons a as ih => exact .left ih

theorem right_alone (bs : List α) : Woven [] bs bs := by
  induction bs with
  | nil => exact .nil
  | cons b bs ih => exact .right ih

theorem append {as bs cs as' bs' cs' : List α} (h : Woven as bs cs) (h' : Woven as' bs' cs') :
    Woven (as ++ as') (bs ++ bs') (cs ++ cs') := by
  induction h with
  | nil => exact h'
  | left _ ih => exact .left ih
  | right _ ih => exact .right ih

theorem flatMap {f g k : β → List α} {l : List β} (h : ∀ b ∈ l, Woven (f b) (g b) (k b)) :
    Woven (l.flatMap f) (l.flatMap g) (l.flatMap k) := by
  induction l with
  | nil => exact .nil
  | cons b l ih =>
    simp only [List.flatMap_cons]
    exact (h b (by simp)).append (ih fun c hc => h c (by simp [hc]))

theorem sublist {as bs cs : List α} (h : Woven as bs cs) : as.Sublist cs := by
  induction h with
  | nil => exact .slnil
  | left _ ih => exact .cons_cons _ ih
  | right _ ih => exact .cons _ ih

end Woven

/-! ## Comparisons of literals -/

namespace Expr

mutual

/-- An expression and all those below it, each behind its operands. -/
def postorder : Expr → List Expr
  | e@(var ..) => [e]
  | e@(int ..) => [e]
  | e@(float ..) => [e]
  | e@(negate f _) => f.postorder ++ [e]
  | e@(aggregate _ es _) => postorders es ++ [e]
  | e@(minus h r _) => h.postorder ++ postorders r ++ [e]
  | e@(compare _ l r _) => l.postorder ++ r.postorder ++ [e]
  | e@(connective _ es _) => postorders es ++ [e]

def postorders : List Expr → List Expr
  | [] => []
  | e :: es => e.postorder ++ postorders es

end

theorem postorders_eq_flatMap (es : List Expr) : postorders es = es.flatMap postorder := by
  induction es with
  | nil => rfl
  | cons e es ih => simp [postorders, ih]

theorem postorder_eq (e : Expr) : e.postorder = e.operands.flatMap postorder ++ [e] := by
  cases e <;> simp [postorder, operands, postorders_eq_flatMap]

end Expr

/-- The kind that two literals have together; none if one of the two is no literal. -/
def ValueType.literalKind? : ValueType → ValueType → Option LiteralKind
  | .literal j, .literal k => some (j.join k)
  | _, _ => none

/-- A comparison of literals only, with the kind that its sides have together. -/
structure LiteralComparison where
  lhs : Expr
  rhs : Expr
  kind : LiteralKind
  position : Position

namespace LiteralComparison

/-- The report of a comparison that has no element type. -/
def unpinned (c : LiteralComparison) : Diagnostic :=
  ⟨.unpinnedLiteral c.kind.name, c.position⟩

/-- The report of a comparison that cannot adopt a type. -/
def mismatch (t : ValueType) (c : LiteralComparison) : Diagnostic :=
  ⟨.typeMismatch t.name c.kind.name (c.lhs.text ++ " " ++ c.rhs.text), c.position⟩

end LiteralComparison

/-- What a policy has against a comparison of literals. -/
def LiteralPolicy.reports : LiteralPolicy → LiteralComparison → List Diagnostic
  | .keep, _ => []
  | .adopt t, c => if t.adopts (.literal c.kind) then [] else [c.mismatch t]
  | .reject, c => [c.unpinned]

namespace LiteralPolicy

theorem flatMap_reject (cs : List LiteralComparison) :
    cs.flatMap reject.reports = cs.map fun c => c.unpinned :=
  (List.map_eq_flatMap ..).symm

theorem flatMap_adopt (t : ValueType) (cs : List LiteralComparison) :
    cs.flatMap (adopt t).reports =
      (cs.filter fun c => !t.adopts (.literal c.kind)).map fun c => c.mismatch t := by
  induction cs with
  | nil => rfl
  | cons c cs ih =>
    rw [List.flatMap_cons, ih]
    by_cases ht : t.adopts (.literal c.kind) = true <;> simp [reports, ht]

end LiteralPolicy

namespace Typing

open Checked

section
variable (table : SymbolTable)

/-- An expression as a comparison of two sides that are typed with literal kinds. -/
def literalComparison? : Expr → Option LiteralComparison
  | .compare _ l r s =>
    ((arith table .keep l).value.type.literalKind? (arith table .keep r).value.type).map fun k =>
      ⟨l, r, k, s.position⟩
  | _ => none

/-- The comparisons of literals within an expression, also below forms in the wrong place. -/
def literalComparisons (e : Expr) : List LiteralComparison :=
  e.postorder.filterMap (literalComparison? table)

theorem literalComparisons_eq (e : Expr) :
    literalComparisons table e =
      e.operands.flatMap (literalComparisons table) ++ (literalComparison? table e).toList := by
  have hops : ∀ es : List Expr, (es.flatMap Expr.postorder).filterMap (literalComparison? table) =
      es.flatMap (literalComparisons table) := by
    intro es
    rw [List.filterMap_flatMap]
    rfl
  rw [literalComparisons, Expr.postorder_eq, List.filterMap_append, hops]
  cases hc : literalComparison? table e <;> simp [hc]

/-! ## Arithmetic -/

variable (policy : LiteralPolicy)

/-- What stands in a place for arithmetic is typed alike under all policies. -/
theorem arith_value_keep (e : Expr) :
    (arith table policy e).value = (arith table .keep e).value := by
  induction e using Expr.inductOn with
  | var name indices s => rw [arith_var, arith_var]
  | int lexeme value s => rw [arith_int, arith_int]
  | float lexeme value s => rw [arith_float, arith_float]
  | negate e s ih => simp only [arith_negate, value_bind, ih]
  | aggregate op es s ih =>
    have hes : (ariths table policy es).value = (ariths table .keep es).value := by
      rw [ariths_value, ariths_value]
      exact List.map_congr_left ih
    simp only [arith_aggregate, value_bind, hes]
  | minus e es s ihe ihes =>
    have hes : (ariths table policy es).value = (ariths table .keep es).value := by
      rw [ariths_value, ariths_value]
      exact List.map_congr_left ihes
    simp only [arith_minus, value_bind, ihe, hes]
  | compare op l r s _ _ =>
    rw [(arith_of_isBoolean table policy rfl).1, (arith_of_isBoolean table .keep rfl).1]
  | connective op es s _ =>
    rw [(arith_of_isBoolean table policy rfl).1, (arith_of_isBoolean table .keep rfl).1]

end

/-- A form with a literal kind reports nothing, and all its operands have literal kinds. -/
theorem settle_literal {operands : List Arith} {k : LiteralKind}
    (h : (settle operands).value.type = .literal k) :
    (settle operands).diagnostics = [] ∧ ∀ a ∈ operands, ∃ j, a.type = .literal j := by
  have hagrees : Agrees (operands.map Arith.type) (settle operands).value.type :=
    settle_agrees (by simp [h])
  refine ⟨(settle_iff.mpr hagrees).1, fun a ha => ?_⟩
  rw [h] at hagrees
  cases hagrees with
  | literal _ hall =>
    obtain ⟨j, hj, _⟩ := hall a.type (List.mem_map_of_mem ha)
    exact ⟨j, hj⟩

section
variable {table : SymbolTable} (hdecl : Declared table)
include hdecl

theorem reference_not_literal (name : String) (indices : List Int64) (s : Span) :
    (reference table name indices s).value.type.isLiteral = false := by
  unfold reference
  split
  · rfl
  · simp only
    split
    · rfl
    · exact hdecl.get _

/-- An expression that is typed with a literal kind has nothing wrong in it. -/
theorem arith_clean_of_literal {policy : LiteralPolicy} {e : Expr} {k : LiteralKind}
    (h : (arith table policy e).value.type = .literal k) :
    (arith table policy e).diagnostics = [] := by
  induction e using Expr.inductOn generalizing k with
  | var name indices s =>
    rw [arith_var] at h
    have hno := reference_not_literal hdecl name indices s
    rw [h] at hno
    cases hno
  | int lexeme value s => rw [arith_int, diagnostics_pure]
  | float lexeme value s => rw [arith_float, diagnostics_pure]
  | negate e s ih =>
    rw [arith_negate] at h ⊢
    obtain ⟨j, hj⟩ : ∃ j, (settle [(arith table policy e).value]).value.type = .literal j := by
      simp only [negation, value_bind, value_pure, Arith.type] at h
      generalize (settle [(arith table policy e).value]).value.type = u at h
      cases u <;> simp_all [ValueType.negate]
    obtain ⟨hclean, hops⟩ := settle_literal hj
    obtain ⟨i, hi⟩ := hops _ (List.mem_singleton_self _)
    simp [negation, hclean, ih hi]
  | aggregate op es s ih =>
    rw [arith_aggregate] at h ⊢
    simp only [aggregation, value_bind, value_pure, ariths_value, Arith.type] at h
    obtain ⟨hclean, hops⟩ := settle_literal h
    simp only [aggregation, diagnostics_bind, diagnostics_pure, ariths_value, hclean,
      ariths_diagnostics, List.append_nil, List.flatMap_eq_nil_iff]
    intro e he
    obtain ⟨i, hi⟩ := hops _ (List.mem_map_of_mem he)
    exact ih e he hi
  | minus e es s ihe ihes =>
    rw [arith_minus] at h ⊢
    simp only [difference, value_bind, value_pure, ariths_value, Arith.type] at h
    obtain ⟨hclean, hops⟩ := settle_literal h
    obtain ⟨i, hi⟩ := hops _ List.mem_cons_self
    simp only [difference, diagnostics_bind, diagnostics_pure, ariths_value, hclean,
      ariths_diagnostics, List.append_nil, ihe hi, List.nil_append, List.flatMap_eq_nil_iff]
    intro f hf
    obtain ⟨i, hi⟩ := hops _ (List.mem_cons_of_mem _ (List.mem_map_of_mem hf))
    exact ihes f hf hi
  | compare op l r s _ _ =>
    rw [(arith_of_isBoolean table policy rfl).1] at h
    cases h
  | connective op es s _ =>
    rw [(arith_of_isBoolean table policy rfl).1] at h
    cases h

end

/-! ## Comparisons -/

/-- The sides are both literals, with a kind together, or one of them is none. -/
theorem literalKind?_cases (a b : ValueType) :
    (∃ j k, a = .literal j ∧ b = .literal k ∧ a.literalKind? b = some (j.join k)) ∨
      (a.isLiteral = false ∨ b.isLiteral = false) ∧ a.literalKind? b = none := by
  cases a <;> cases b <;> simp [ValueType.literalKind?, ValueType.isLiteral]

/-- No policy is asked about a comparison that is not one of literals. -/
theorem reconcile_keep (policy : LiteralPolicy) {a b : Arith} (p : Position)
    (h : a.type.isLiteral = false ∨ b.type.isLiteral = false) :
    reconcile policy a b p = reconcile .keep a b p := by
  have hboth : (a.type.isLiteral && b.type.isLiteral) = false := Bool.and_eq_false_iff.mpr h
  unfold reconcile
  split
  · rfl
  · rw [hboth, if_neg (by simp), if_neg (by simp)]
  · rfl
  · rfl

theorem reconcile_literals (policy : LiteralPolicy) {a b : Arith} {j k : LiteralKind} (p : Position)
    (ha : a.type = .literal j) (hb : b.type = .literal k) :
    reconcile policy a b p = applyPolicy policy (j.join k) a b p := by
  simp [reconcile, ha, hb, ValueType.unify, ValueType.isLiteral]

section
variable {table : SymbolTable} (hdecl : Declared table) (policy : LiteralPolicy)
include hdecl

theorem compare_diagnostics (op : Comparison) (l r : Expr) (s : Span) :
    formReports table policy (.compare op l r s) =
      formReports table .keep (.compare op l r s) ++
        (literalComparison? table (.compare op l r s)).toList.flatMap policy.reports := by
  simp only [formReports, arith_value_keep table policy, literalComparison?]
  rcases literalKind?_cases (arith table .keep l).value.type (arith table .keep r).value.type with
    ⟨j, k, hj, hk, hkind⟩ | ⟨hno, hkind⟩
  · have hl := arith_text (arith_clean_of_literal hdecl hj)
    have hr := arith_text (arith_clean_of_literal hdecl hk)
    rw [hkind, reconcile_literals policy _ hj hk, reconcile_literals .keep _ hj hk]
    cases policy with
    | keep => rfl
    | reject => rfl
    | adopt t =>
      have hadopts := t.isSome_adopted? (j.join k)
      cases ht : t.adopted? (j.join k) <;> rw [ht] at hadopts <;>
        simp [applyPolicy, LiteralPolicy.reports, LiteralComparison.mismatch, hl, hr, ht, ← hadopts]
  · rw [hkind, reconcile_keep policy _ hno]
    simp

/-- A form reports under a policy what it always reports, and what the policy has against it. -/
theorem formReports_policy (e : Expr) :
    formReports table policy e =
      formReports table .keep e ++ (literalComparison? table e).toList.flatMap policy.reports := by
  cases e with
  | compare op l r s => exact compare_diagnostics hdecl policy op l r s
  | _ => simp [formReports, literalComparison?, arith_value_keep table policy]

/-- The reports of an expression are those without a policy, with one more for each comparison of
literals that the policy refuses. -/
theorem reports_woven (place : Place) (e : Expr) :
    Woven (reports table .keep place e) ((literalComparisons table e).flatMap policy.reports)
      (reports table policy place e) := by
  induction e using Expr.operandsInduct generalizing place with
  | h e ih =>
    have hmisplaced : misplaced table policy place e = misplaced table .keep place e := by
      cases place
      · rfl
      · simp only [misplaced, arith_value_keep table policy]
    rw [reports_eq, reports_eq table policy, formReports_policy hdecl policy, hmisplaced,
      literalComparisons_eq, List.flatMap_append, List.flatMap_assoc, List.append_assoc]
    refine (Woven.flatMap fun f hf => ih f hf _).append ((Woven.left_alone _).append ?_)
    have hlast := (Woven.right_alone ((literalComparison? table e).toList.flatMap
      policy.reports)).append (Woven.left_alone (misplaced table .keep place e))
    rwa [List.nil_append, List.append_nil] at hlast

end

end Typing

/-! ## Retyped comparisons -/

namespace Typed

namespace Arith

mutual

/-- An expression with this element type at every node. -/
def retyped (t : ElementType) : Arith → Arith
  | var symbol name indices _ s => var symbol name indices (.element t) s
  | int lexeme value _ s => int lexeme value (.element t) s
  | float lexeme value _ s => float lexeme value (.element t) s
  | negate e _ s => negate (e.retyped t) (.element t) s
  | aggregate op es _ s => aggregate op (retypedAll t es) (.element t) s
  | minus h r _ s => minus (h.retyped t) (retypedAll t r) (.element t) s
  | invalid source s => invalid source s

def retypedAll (t : ElementType) : List Arith → List Arith
  | [] => []
  | e :: es => e.retyped t :: retypedAll t es

end

theorem retypedAll_eq_map (t : ElementType) (es : List Arith) :
    retypedAll t es = es.map (retyped t) := by
  induction es with
  | nil => rfl
  | cons e es ih => rw [retypedAll, ih, List.map_cons]

/-- Pinning reaches every node of an expression of literals. -/
theorem pin_eq_retyped (t : ElementType) {a : Arith} (h : ∀ b : Arith, b.Within a → b.IsLiteral) :
    a.pin t = a.retyped t := by
  induction a using Arith.operandsInduct with
  | h a ih =>
    have hops : ∀ c ∈ a.operands, c.pin t = c.retyped t := fun c hc =>
      ih c hc fun b hb => h b (.operand hc hb)
    cases h a .refl with
    | int lexeme value k s => rfl
    | float lexeme value k s => rfl
    | negate e k s => simp [pin, retyped, ValueType.isLiteral, hops e (by simp [operands])]
    | aggregate op es k s =>
      simp only [pin, retyped, ValueType.isLiteral, if_true, pinAll_eq_map, retypedAll_eq_map]
      rw [show es.map (pin t) = es.map (retyped t) from List.map_congr_left hops]
    | minus e es k s =>
      simp only [pin, retyped, ValueType.isLiteral, if_true, pinAll_eq_map, retypedAll_eq_map]
      rw [hops e (by simp [operands]),
        List.map_congr_left fun c hc => hops c (by simp [operands, hc])]

/-- What was pinned is no literal. -/
theorem Pinned.pin_not_isLiteral {a : Arith} (h : a.Pinned) (t : ElementType) :
    (a.pin t).type.isLiteral = false := by
  cases ht : a.type with
  | literal k =>
    rw [(h.pin t).2 k ht]
    rfl
  | element u =>
    rw [pin_of_not_isLiteral (by rw [ht]; rfl), ht]
    rfl
  | unknown =>
    rw [pin_of_not_isLiteral (by rw [ht]; rfl), ht]
    rfl

end Arith

namespace Formula

mutual

/-- A formula in which the comparisons of literals have adopted a type, as far as they can. -/
def adopted (t : ValueType) : Formula → Formula
  | compare op l r s =>
    match (l.type.literalKind? r.type).bind t.adopted? with
    | some e => compare op (l.retyped e) (r.retyped e) s
    | none => compare op l r s
  | connective op fs s => connective op (adoptedAll t fs) s
  | invalid source s => invalid source s

def adoptedAll (t : ValueType) : List Formula → List Formula
  | [] => []
  | f :: fs => f.adopted t :: adoptedAll t fs

end

theorem adoptedAll_eq_map (t : ValueType) (fs : List Formula) :
    adoptedAll t fs = fs.map (adopted t) := by
  induction fs with
  | nil => rfl
  | cons f fs ih => rw [adoptedAll, ih, List.map_cons]

end Formula

/-- A query in which the comparisons of literals have adopted a type. -/
def Query.adopted (t : ValueType) (q : Typed.Query) : Typed.Query :=
  { q with assertions := q.assertions.map fun a => { a with condition := a.condition.adopted t } }

end Typed

namespace Typing

open Checked

theorem reconcile_reject (a b : Arith) (p : Position) :
    (reconcile .reject a b p).value = (reconcile .keep a b p).value := by
  rcases literalKind?_cases a.type b.type with ⟨j, k, hj, hk, _⟩ | ⟨hno, _⟩
  · rw [reconcile_literals _ p hj hk, reconcile_literals _ p hj hk]
    rfl
  · rw [reconcile_keep .reject p hno]

/-- The sides of a comparison end with literal kinds only if they start with them. -/
theorem reconcile_not_literals {a b : Arith} (ha : a.Pinned) (p : Position)
    (h : a.type.isLiteral = false ∨ b.type.isLiteral = false) :
    (reconcile .keep a b p).value.1.type.literalKind? (reconcile .keep a b p).value.2.type =
      none := by
  rcases reconcile_value .keep a b p with hval | ⟨t, hval⟩
  · rw [hval]
    rcases literalKind?_cases a.type b.type with ⟨j, k, hj, hk, _⟩ | ⟨_, hkind⟩
    · simp [hj, hk, ValueType.isLiteral] at h
    · exact hkind
  · rw [hval]
    rcases literalKind?_cases (a.pin t).type (b.pin t).type with ⟨j, k, hj, _⟩ | ⟨_, hkind⟩
    · have hno := ha.pin_not_isLiteral t
      rw [hj] at hno
      cases hno
    · exact hkind

/-- A comparison under a policy that adopts a type is the one that keeps its literals, retyped. -/
theorem reconcile_adopt {a b : Arith} (ha : a.Pinned) (hb : b.Pinned) (t : ValueType)
    (op : Comparison) (s : Span) (p : Position) :
    Formula.compare op (reconcile (.adopt t) a b p).value.1 (reconcile (.adopt t) a b p).value.2 s =
      (Formula.compare op (reconcile .keep a b p).value.1
        (reconcile .keep a b p).value.2 s).adopted t := by
  rcases literalKind?_cases a.type b.type with ⟨j, k, hj, hk, hkind⟩ | ⟨hno, _⟩
  · rw [reconcile_literals _ p hj hk, reconcile_literals _ p hj hk]
    cases ht : t.adopted? (j.join k) with
    | none => simp [applyPolicy, Formula.adopted, hkind, ht]
    | some e =>
      have hl := Arith.pin_eq_retyped e ((ha a .refl).literal j hj)
      have hr := Arith.pin_eq_retyped e ((hb b .refl).literal k hk)
      simp [applyPolicy, Formula.adopted, hkind, ht, hl, hr]
  · rw [reconcile_keep (.adopt t) p hno, Formula.adopted, reconcile_not_literals ha p hno]
    rfl

section
variable {table : SymbolTable}

theorem formula_reject (e : Expr) :
    (formula table .reject e).value = (formula table .keep e).value := by
  induction e using Expr.inductOn with
  | compare op l r s _ _ =>
    simp only [formula_compare, comparison, value_bind, value_pure, arith_value_keep table .reject,
      reconcile_reject]
  | connective op es s ih =>
    simp only [formula_connective, value_bind, value_pure, formulas_value]
    rw [List.map_congr_left ih]
  | _ =>
    rw [(formula_of_not_isBoolean table .reject rfl).1,
      (formula_of_not_isBoolean table .keep rfl).1]

theorem formula_adopt (hdecl : Declared table) (t : ValueType) (e : Expr) :
    (formula table (.adopt t) e).value = (formula table .keep e).value.adopted t := by
  induction e using Expr.inductOn with
  | compare op l r s _ _ =>
    simp only [formula_compare, comparison, value_bind, value_pure,
      arith_value_keep table (.adopt t)]
    exact reconcile_adopt (arith_pinned hdecl l) (arith_pinned hdecl r) t op s s.position
  | connective op es s ih =>
    simp only [formula_connective, value_bind, value_pure, formulas_value, Formula.adopted,
      Formula.adoptedAll_eq_map, List.map_map]
    rw [List.map_congr_left ih]
    rfl
  | _ =>
    rw [(formula_of_not_isBoolean table (.adopt t) rfl).1,
      (formula_of_not_isBoolean table .keep rfl).1]
    rfl

end
end Typing

/-! ## Queries -/

/-- The comparisons of literals in the assertions of a query. -/
def Query.literalComparisons (q : Query) : List LiteralComparison :=
  q.assertions.flatMap fun a =>
    Typing.literalComparisons (Typing.query .keep q).value.symbols a.condition

namespace Query.Proper

variable {q : Query} (hq : q.Proper)
include hq

theorem reports_woven (policy : LiteralPolicy) :
    Woven (Typing.query .keep q).diagnostics (q.literalComparisons.flatMap policy.reports)
      (Typing.query policy q).diagnostics := by
  rw [Typing.query_diagnostics, Typing.query_diagnostics policy]
  have hconditions : ∀ a ∈ q.assertions, Woven _ _ _ := fun a _ =>
    Typing.reports_woven hq.declared policy .formula a.condition
  have hall := (Woven.left_alone (Typing.version q.version).diagnostics).append
    ((Woven.left_alone (Typing.networksFrom q.networks .empty q.networks).diagnostics).append
      (Woven.flatMap hconditions))
  rw [List.nil_append, List.nil_append] at hall
  rw [Query.literalComparisons, List.flatMap_assoc]
  exact hall

/-- A declared tensor has an element type. -/
theorem definition_type {policy : LiteralPolicy} (hclean : (Typing.query policy q).diagnostics = [])
    {n : Typed.Network} (hn : n ∈ (Typing.query policy q).value.networks) {d : Typed.Definition}
    (hd : d ∈ n.definitions) : ∃ t, d.type = .element t := by
  have hnetworks : (Typing.query policy q).value.networks =
      (Typing.networksFrom q.networks .empty q.networks).value.1 := rfl
  rw [hnetworks, (Typing.query_clean hclean).1] at hn
  obtain ⟨m, hm, start, rfl⟩ := Network.mem_typedFrom hn
  obtain ⟨p, hp, id, rfl⟩ := Network.mem_definitions_typed hd
  exact hq.types m hm p.2 (m.tensors_perm.mem_iff.mp (List.mem_map_of_mem hp))

/-- Where a type is adopted and nothing was reported, no literal is left. -/
theorem no_literal {t : ValueType} (hclean : (Typing.query (.adopt t) q).diagnostics = [])
    {x : Node} (h : x ∈ Node.descendants (.query (Typing.query (.adopt t) q).value))
    (k : LiteralKind) : x.type? ≠ some (.literal k) := by
  intro ht
  cases x with
  | arith a =>
    obtain ⟨c, hc, op, l, r, s, hw, ha⟩ := Typed.Query.arith_mem_descendants h
    have htype : a.type = .literal k := Option.some.inj ht
    rcases hq.uniform hclean hc hw with ⟨u, hall⟩ | ⟨hp, _⟩
    · rw [hall a ha] at htype
      cases htype
    · cases hp
  | formula f => cases f <;> cases ht
  | definition d =>
    rcases Typed.Query.mem_descendants h ht with ⟨n, hn, d', hd, hx⟩ | ⟨a, _, i, hi⟩
    · cases hx
      obtain ⟨u, hu⟩ := hq.definition_type hclean hn hd
      have htype : d.type = .literal k := Option.some.inj ht
      rw [hu] at htype
      cases htype
    · rcases Formula.within_of_mem_outline hi with ⟨_, hg, _⟩ | ⟨_, _, _, _, _, _, hb, _⟩
      · cases hg
      · cases hb
  | query _ => cases ht
  | version _ => cases ht
  | network _ => cases ht
  | assertion _ => cases ht

end Query.Proper

/-- Runs under different policies differ in the comparisons of literals only. -/
theorem Query.policy_decides_literals {tokens : List Token} {file : String} {q : Query}
    (h : Query.ofTokens tokens file = .ok q) :
    ((Typing.query .reject q).value = (Typing.query .keep q).value ∧
      Woven (Typing.query .keep q).diagnostics (q.literalComparisons.map fun c => c.unpinned)
        (Typing.query .reject q).diagnostics) ∧
    (∀ t, (Typing.query (.adopt t) q).value = (Typing.query .keep q).value.adopted t ∧
      Woven (Typing.query .keep q).diagnostics
        ((q.literalComparisons.filter fun c => !t.adopts (.literal c.kind)).map
          fun c => c.mismatch t)
        (Typing.query (.adopt t) q).diagnostics ∧
      ((Typing.query (.adopt t) q).diagnostics = [] →
        ∀ x ∈ Node.descendants (.query (Typing.query (.adopt t) q).value),
          ∀ k, x.type? ≠ some (.literal k))) ∧
    ∀ options : BuildOptions, (Typing.query .keep q).diagnostics.Sublist
      (Typing.query options.policy q).diagnostics := by
  obtain ⟨_, _, _, hderives, _⟩ := Query.ofTokens_derives h
  have hq := hderives.proper
  refine ⟨⟨?_, ?_⟩, fun t => ⟨?_, ?_, fun hclean x hx => hq.no_literal hclean hx⟩,
    fun options => (hq.reports_woven options.policy).sublist⟩
  · simp only [Typing.query, Checked.value_bind, Checked.value_pure, Typing.assertions_value,
      Typing.formula_reject]
  · rw [← LiteralPolicy.flatMap_reject]
    exact hq.reports_woven .reject
  · simp only [Typing.query, Checked.value_bind, Checked.value_pure, Typing.assertions_value,
      Typing.formula_adopt hq.declared t, Typed.Query.adopted, List.map_map, Function.comp_def]
  · rw [← LiteralPolicy.flatMap_adopt]
    exact hq.reports_woven (.adopt t)

/-- A condition with two comparisons of literals, one of them in a place for arithmetic. -/
def Token.literalsOnly : List Token :=
  [(.openParen, "("), (.version, "vnnlib-version"), (.less, "<"), (.number, "2.0"), (.greater, ">"),
   (.closeParen, ")"),
   (.openParen, "("), (.assert, "assert"), (.openParen, "("), (.and, "and"),
   (.openParen, "("), (.less, "<"), (.number, "1"), (.number, "2.5"), (.closeParen, ")"),
   (.openParen, "("), (.less, "<"), (.openParen, "("), (.less, "<"), (.number, "1"), (.number, "2"),
   (.closeParen, ")"), (.number, "3"), (.closeParen, ")"),
   (.closeParen, ")"), (.closeParen, ")")].map fun t => ⟨t.1, t.2, .nowhere⟩

theorem Query.literalsOnly_decided :
    ∃ q, Query.ofTokens (Token.literalsOnly ++ [Token.ending .nowhere]) "q" = .ok q ∧
      q.literalComparisons.map (·.kind) = [.float, .positiveInt] ∧
      Woven (Typing.query .keep q).diagnostics (q.literalComparisons.map fun c => c.unpinned)
        (Typing.query .reject q).diagnostics := by
  have hkinds : (Query.ofTokens (Token.literalsOnly ++ [Token.ending .nowhere])
      "q").toOption.any (fun q => q.literalComparisons.map (·.kind) == [.float, .positiveInt]) =
        true := by
    decide +kernel
  cases h : Query.ofTokens (Token.literalsOnly ++ [Token.ending .nowhere]) "q" with
  | error d =>
    rw [h] at hkinds
    cases hkinds
  | ok q =>
    rw [h, Except.toOption, Option.any_some, beq_iff_eq] at hkinds
    exact ⟨q, rfl, hkinds, (Query.policy_decides_literals h).1.2⟩

end NeuralQuery
