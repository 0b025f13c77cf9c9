import NeuralQuery.Proofs.Recovery

/-!
# NeuralQuery.Proofs.Rendering

The text of a checked condition, whatever was reported.

A node that stands in for an expression of the wrong sort keeps the whole text of it, but one that
stands in for a name that leads to no tensor keeps the name only, without its indices. So the text
of a checked condition is that of the condition in which such names are bare (`Expr.bared`), and it
is the text of the condition itself exactly if none of them had indices
(`Query.typing_renders_bared`).
-/

namespace NeuralQuery

open Typed (Arith Formula)

namespace Expr

/-- The expression is of the sort that its place demands. -/
def fits : Place → Expr → Bool
  | .arith, e => !e.isBoolean
  | .formula, e => e.isBoolean

/-- The expressions of a condition with their places, without those below one that does not fit. -/
inductive Shown (condition : Expr) : Place → Expr → Prop where
  | root : Shown condition .formula condition
  | operand {place : Place} {e f : Expr} :
      Shown condition place e → e.fits place = true → f ∈ e.operands →
      Shown condition e.operandPlace f

section
variable (tensor : String → Bool)

mutual

/-- The expression without the indices of names that stand for no tensor, as far as it fits. -/
def bared : Place → Expr → Expr
  | .arith, var name indices s => var name (if tensor name then indices else []) s
  | .arith, negate e s => negate (bared .arith e) s
  | .arith, aggregate op es s => aggregate op (baredAll .arith es) s
  | .arith, minus h r s => minus (bared .arith h) (baredAll .arith r) s
  | .formula, compare op l r s => compare op (bared .arith l) (bared .arith r) s
  | .formula, connective op es s => connective op (baredAll .formula es) s
  | _, e => e

def baredAll : Place → List Expr → List Expr
  | _, [] => []
  | place, e :: es => bared place e :: baredAll place es

end

attribute [local simp] bared

theorem baredAll_eq_map (place : Place) (es : List Expr) :
    baredAll tensor place es = es.map (bared tensor place) := by
  induction es with
  | nil => rfl
  | cons e es ih => rw [baredAll, ih, List.map_cons]

theorem texts_baredAll (place : Place) (es : List Expr) :
    texts (baredAll tensor place es) = es.map fun e => (bared tensor place e).text := by
  rw [texts_eq_map, baredAll_eq_map, List.map_map]
  rfl

end

/-! ## Expressions that lose nothing -/

section
variable {tensor : String → Bool}

theorem bared_of_misfit {place : Place} {e : Expr} (h : e.fits place = false) :
    bared tensor place e = e := by
  cases place <;> cases e <;> simp_all [fits, isBoolean, bared]

variable (tensor) in
theorem operands_bared {place : Place} {e : Expr} (h : e.fits place = true) :
    (bared tensor place e).operands = e.operands.map (bared tensor e.operandPlace) := by
  cases place <;> cases e <;>
    simp_all [fits, isBoolean, bared, operands, operandPlace, baredAll_eq_map]

/-- A name that stands for a tensor, or has no indices, has none to lose, and so has a form whose
operands lose none. -/
theorem bared_eq_self {place : Place} {e : Expr} (h : e.fits place = true)
    (hvar : ∀ name indices s, e = var name indices s → tensor name = true ∨ indices = [])
    (hops : e.operands.map (bared tensor e.operandPlace) = e.operands) :
    bared tensor place e = e := by
  cases e with
  | var name indices s =>
    cases place with
    | formula => cases h
    | arith =>
      rcases hvar name indices s rfl with htensor | rfl
      · simp [bared, htensor]
      · simp [bared]
  | _ =>
    cases place <;>
      simp_all [fits, isBoolean, bared, operands, operandPlace, baredAll_eq_map]

variable (tensor) in
/-- A condition loses nothing exactly if every name in it that stands for no tensor is bare. -/
theorem bared_eq_self_iff (condition : Expr) :
    bared tensor .formula condition = condition ↔
      ∀ name indices s, condition.Shown .arith (var name indices s) →
        tensor name = true ∨ indices = [] := by
  constructor
  · intro hself name indices s hshown
    have hkept : ∀ place e, condition.Shown place e → bared tensor place e = e := by
      intro place e h
      induction h with
      | root => exact hself
      | @operand place e f _ hfits hf ih =>
        have hops := operands_bared tensor hfits
        rw [ih] at hops
        exact List.map_inj_left.mp (hops.symm.trans (List.map_id _).symm) f hf
    have hvar := hkept .arith _ hshown
    rw [bared, var.injEq] at hvar
    by_cases htensor : tensor name = true
    · exact .inl htensor
    · rw [if_neg htensor] at hvar
      exact .inr hvar.2.1.symm
  · intro hall
    have hkept : ∀ e place, condition.Shown place e → bared tensor place e = e := by
      intro e
      induction e using operandsInduct with
      | h e ih =>
        intro place hshown
        cases hfits : e.fits place with
        | false => exact bared_of_misfit hfits
        | true =>
          refine bared_eq_self hfits ?_ ?_
          · rintro name indices s rfl
            cases place with
            | arith => exact hall name indices s hshown
            | formula => cases hfits
          · exact (List.map_congr_left fun f hf => ih f hf _ (.operand hshown hfits hf)).trans
              (List.map_id _)
    exact hkept condition .formula .root

/-! ## Texts get shorter -/

theorem length_form (head : String) (parts : List String) :
    (Text.form head parts).length = head.length + (Text.led " " parts).length + 2 := by
  simp only [Text.form, String.length_append]
  have hbrackets : "(".length = 1 ∧ ")".length = 1 := by decide
  omega

theorem led_eq_or_shorter {g : Expr → Expr} {es : List Expr}
    (h : ∀ e ∈ es, g e = e ∨ (g e).text.length < e.text.length) :
    es.map g = es ∨
      (Text.led " " ((es.map g).map text)).length < (Text.led " " (es.map text)).length := by
  induction es with
  | nil => exact .inl rfl
  | cons e es ih =>
    obtain ⟨he, hes⟩ := List.forall_mem_cons.mp h
    simp only [List.map_cons, Token.led_cons, String.length_append]
    rcases he with he | he <;> rcases ih hes with hrest | hrest
    · exact .inl (by rw [he, hrest])
    · rw [he]
      omega
    · rw [hrest]
      omega
    · omega

variable (tensor) in
/-- A form with operands has a text of its operands' texts, and so it has without indices. -/
theorem exists_head {place : Place} {e : Expr} (h : e.fits place = true) (hops : e.operands ≠ []) :
    ∃ head, e.text = Text.form head (e.operands.map text) ∧
      (bared tensor place e).text =
        Text.form head ((e.operands.map (bared tensor e.operandPlace)).map text) := by
  cases e with
  | var name indices s => exact absurd rfl hops
  | int lexeme value s => exact absurd rfl hops
  | float lexeme value s => exact absurd rfl hops
  | negate e s =>
    cases place with
    | formula => cases h
    | arith => exact ⟨"-", rfl, rfl⟩
  | aggregate op es s =>
    cases place with
    | formula => cases h
    | arith =>
      refine ⟨op.symbol, ?_, ?_⟩ <;>
        simp [text, bared, texts_eq_map, baredAll_eq_map, operands, operandPlace]
  | minus e es s =>
    cases place with
    | formula => cases h
    | arith =>
      refine ⟨"-", ?_, ?_⟩ <;>
        simp [text, bared, texts_eq_map, baredAll_eq_map, operands, operandPlace]
  | compare op l r s =>
    cases place with
    | formula => exact ⟨op.symbol, rfl, rfl⟩
    | arith => cases h
  | connective op es s =>
    cases place with
    | formula =>
      refine ⟨op.symbol, ?_, ?_⟩ <;>
        simp [text, bared, texts_eq_map, baredAll_eq_map, operands, operandPlace]
    | arith => cases h

theorem subscript_length {indices : List Int64} (h : indices ≠ []) :
    0 < (Text.subscript indices).length := by
  have hopen : "[".length = 1 := by decide
  rw [Text.subscript, if_neg (by simpa using h), Text.bracketed, String.length_append,
    String.length_append]
  omega

variable (tensor) in
/-- An expression loses nothing, or its text gets shorter. -/
theorem bared_eq_or_shorter (place : Place) (e : Expr) :
    bared tensor place e = e ∨ (bared tensor place e).text.length < e.text.length := by
  induction e using operandsInduct generalizing place with
  | h e ih =>
    cases hfits : e.fits place with
    | false => exact .inl (bared_of_misfit hfits)
    | true =>
      by_cases hvar : ∀ name indices s, e = var name indices s → tensor name = true ∨ indices = []
      · rcases led_eq_or_shorter fun f hf => ih f hf e.operandPlace with hsame | hshorter
        · exact .inl (bared_eq_self hfits hvar hsame)
        · have hops : e.operands ≠ [] := by
            intro hnone
            simp [hnone] at hshorter
          obtain ⟨head, htext, hbared⟩ := exists_head tensor hfits hops
          rw [htext, hbared, length_form, length_form]
          exact .inr (by omega)
      · push Not at hvar
        obtain ⟨name, indices, s, rfl, htensor, hindices⟩ := hvar
        have hlost := subscript_length hindices
        cases place with
        | formula => cases hfits
        | arith =>
          refine .inr ?_
          rw [bared, if_neg (by simpa using htensor), text, text, String.length_append,
            String.length_append]
          simpa [Text.subscript] using hlost

variable (tensor) in
theorem text_bared_iff (place : Place) (e : Expr) :
    (bared tensor place e).text = e.text ↔ bared tensor place e = e := by
  constructor
  · intro htext
    refine (bared_eq_or_shorter tensor place e).resolve_right ?_
    rw [htext]
    exact Nat.lt_irrefl _
  · intro hself
    rw [hself]

end
end Expr

/-! ## Checked expressions -/

namespace Typing

open Checked

section
variable {table : SymbolTable} {tensor : String → Bool} (h : FindsTensors table tensor)
  (policy : LiteralPolicy)
include h

theorem arith_rendered (e : Expr) :
    (arith table policy e).value.text = (e.bared tensor .arith).text := by
  induction e using Expr.inductOn with
  | var name indices s =>
    rw [arith_var, Expr.bared]
    cases hname : tensor name with
    | false =>
      rw [(reference_refused h hname indices s).1]
      simp [Arith.text, Expr.text, Text.subscript]
    | true =>
      obtain ⟨id, hvalue⟩ := reference_tensor h hname indices s
      rw [hvalue]
      rfl
  | int lexeme value s =>
    rw [arith_int]
    rfl
  | float lexeme value s =>
    rw [arith_float]
    rfl
  | negate e s ih =>
    have htext := settle_text [(arith table policy e).value]
    obtain ⟨b, hb, hvalue⟩ := negation_value (arith table policy e).value s
    rw [hb, List.map_singleton, List.map_singleton, ih] at htext
    rw [arith_negate, value_bind, hvalue, Arith.text, htext]
    rfl
  | aggregate op es s ih =>
    have htext := settle_text (es.map fun e => (arith table policy e).value)
    rw [List.map_map, Function.comp_def, List.map_congr_left ih] at htext
    rw [arith_aggregate, value_bind, ariths_value, Expr.bared, Expr.text, Expr.texts_baredAll,
      ← htext, ← Arith.texts_eq_map]
    rfl
  | minus e es s ihe ihes =>
    have htext := settle_text ((arith table policy e).value ::
      es.map fun e => (arith table policy e).value)
    obtain ⟨b, bs, hb, hvalue⟩ := difference_value (arith table policy e).value
      (es.map fun e => (arith table policy e).value) s
    rw [hb, List.map_cons, List.map_cons, List.map_map, Function.comp_def,
      List.map_congr_left ihes, ihe] at htext
    rw [arith_minus, value_bind, value_bind, ariths_value, hvalue, Arith.text,
      Arith.texts_eq_map, htext, Expr.bared, Expr.text, Expr.texts_baredAll]
  | compare op l r s _ _ =>
    rw [(arith_of_isBoolean table policy rfl).1]
    rfl
  | connective op es s _ =>
    rw [(arith_of_isBoolean table policy rfl).1]
    rfl

theorem formula_rendered (e : Expr) :
    (formula table policy e).value.text = (e.bared tensor .formula).text := by
  induction e using Expr.inductOn with
  | compare op l r s _ _ =>
    rw [formula_compare]
    simp only [comparison, value_bind, value_pure, Formula.text]
    rcases reconcile_value policy (arith table policy l).value (arith table policy r).value
      s.position with hv | ⟨t, hv⟩
    · rw [hv, arith_rendered h, arith_rendered h]
      rfl
    · rw [hv, pin_text, pin_text, arith_rendered h, arith_rendered h]
      rfl
  | connective op es s ih =>
    rw [formula_connective, value_bind, value_pure, formulas_value, Expr.bared, Expr.text,
      Formula.text, Formula.texts_eq_map, List.map_map, Function.comp_def, List.map_congr_left ih,
      Expr.texts_baredAll]
  | _ =>
    rw [(formula_of_not_isBoolean table policy rfl).1]
    rfl

end
end Typing

/-! ## Queries -/

theorem Text.form_singleton_inj {head a b : String} : form head [a] = form head [b] ↔ a = b := by
  constructor
  · intro h
    have hlists := congrArg String.toList h
    simpa [form, led, String.toList_inj] using hlists
  · rintro rfl
    rfl

/-- Every assertion is written out with the names that stand for no tensor bare. That is the text of
the assertion itself exactly if none of these names has indices, other than below an expression of
the wrong sort. -/
theorem Query.typing_renders_bared (q : Query) (options : BuildOptions) :
    List.Forall₂
      (fun (a : Assertion) (typed : Typed.Assertion) =>
        typed.text = Text.form "assert" [(a.condition.bared q.isTensor .formula).text] ∧
        (typed.text = Text.form "assert" [a.condition.text] ↔
          ∀ name indices s, a.condition.Shown .arith (.var name indices s) →
            q.isTensor name = true ∨ indices = []))
      q.assertions (Typing.query options.policy q).value.assertions := by
  have hfinds : Typing.FindsTensors (Typing.query options.policy q).value.symbols q.isTensor :=
    q.resolves_iff options.policy
  rw [Typing.query_assertions, List.forall₂_map_right_iff, List.forall₂_same]
  intro a _
  have hrendered := Typing.formula_rendered hfinds options.policy a.condition
  refine ⟨congrArg (fun part => Text.form "assert" [part]) hrendered, ?_⟩
  rw [Typed.Assertion.text, hrendered, Text.form_singleton_inj, Expr.text_bared_iff,
    Expr.bared_eq_self_iff]

/-- An element of a tensor that nothing declares. -/
def Build.undeclaredElement : String :=
  "(vnnlib-version <2.0>)(assert (<= x[0] 1))"

/-- A checked assertion need not have the text of the assertion. -/
theorem Build.undeclaredElement_loses_index :
    ∃ tokens q, Token.tokenize Build.undeclaredElement "q" = .ok tokens ∧
      Query.ofTokens tokens "q" = .ok q ∧
      (Typing.query .keep q).value.assertions.map Typed.Assertion.text = ["(assert (<= x 1))"] ∧
      q.assertions.map (fun a => Text.form "assert" [a.condition.text]) =
        ["(assert (<= x[0] 1))"] := by
  have hfacts : (Token.tokenize Build.undeclaredElement "q").toOption.any (fun tokens =>
      (Query.ofTokens tokens "q").toOption.any fun q =>
        (Typing.query .keep q).value.assertions.map Typed.Assertion.text == ["(assert (<= x 1))"] &&
        q.assertions.map (fun a => Text.form "assert" [a.condition.text]) ==
          ["(assert (<= x[0] 1))"]) = true := by
    decide +kernel
  cases htok : Token.tokenize Build.undeclaredElement "q" with
  | error d =>
    rw [htok] at hfacts
    cases hfacts
  | ok tokens =>
    rw [htok, Except.toOption, Option.any_some] at hfacts
    cases hq : Query.ofTokens tokens "q" with
    | error d =>
      rw [hq] at hfacts
      cases hfacts
    | ok q =>
      rw [hq, Except.toOption, Option.any_some, Bool.and_eq_true, beq_iff_eq, beq_iff_eq] at hfacts
      exact ⟨tokens, q, rfl, hq, hfacts.1, hfacts.2⟩

end NeuralQuery
