import NeuralQuery.Proofs.Acceptance
import NeuralQuery.Typed.Node

/-!
# NeuralQuery.Proofs.Pinning

Types inside checked expressions.

* `Arith.Within b a` : `b` is `a` or below it. The nodes that a walk lists are these.
* `Arith.Pinned`     : below a node with an element type all nodes have that type, and below a node
  with a literal kind there are literals only.

`pin` stops at the first node that is no literal. That it reaches every literal all the same is
the invariant: a form has a literal kind only if all its operands have one (`Pinned.of_operands`).
Every check of an expression keeps it, whatever was reported (`arith_pinned`).
-/

namespace NeuralQuery
namespace Typed

/-! ## Nodes below a node -/

inductive Arith.Within (b : Arith) : Arith → Prop where
  | refl : Within b b
  | operand {a c : Arith} : c ∈ a.operands → Within b c → Within b a

inductive Formula.Within (g : Formula) : Formula → Prop where
  | refl : Within g g
  | operand {op : Connective} {fs : List Formula} {s : Span} {f : Formula} :
      f ∈ fs → Within g f → Within g (.connective op fs s)

theorem Arith.outlines_eq_flatMap (depth : Nat) (es : List Arith) :
    Arith.outlines depth es = es.flatMap (Arith.outline depth) := by
  induction es with
  | nil => rfl
  | cons e es ih => simp [Arith.outlines, ih]

theorem Formula.outlines_eq_flatMap (depth : Nat) (fs : List Formula) :
    Formula.outlines depth fs = fs.flatMap (Formula.outline depth) := by
  induction fs with
  | nil => rfl
  | cons f fs ih => simp [Formula.outlines, ih]

theorem Arith.outline_eq (depth : Nat) (a : Arith) :
    a.outline depth = (depth, .arith a) :: a.operands.flatMap (Arith.outline (depth + 1)) := by
  cases a <;> simp [Arith.outline, Arith.operands, Arith.outlines_eq_flatMap]

/-- Induction with a hypothesis for every operand, whatever the form. -/
theorem Arith.operandsInduct {P : Arith → Prop} (h : ∀ a, (∀ c ∈ a.operands, P c) → P a)
    (a : Arith) : P a := by
  induction a using Arith.inductOn with
  | var symbol name indices t s => exact h _ (by simp [Arith.operands])
  | int lexeme value t s => exact h _ (by simp [Arith.operands])
  | float lexeme value t s => exact h _ (by simp [Arith.operands])
  | negate e t s ih => exact h _ (by simpa [Arith.operands] using ih)
  | aggregate op es t s ih => exact h _ (by simpa [Arith.operands] using ih)
  | minus e es t s ihe ihes => exact h _ (by simpa [Arith.operands] using ⟨ihe, ihes⟩)
  | invalid source s => exact h _ (by simp [Arith.operands])

theorem Arith.Within.trans {a b c : Arith} (hbc : b.Within c) (hca : c.Within a) : b.Within a := by
  induction hca with
  | refl => exact hbc
  | operand hmem _ ih => exact .operand hmem ih

/-- The walk over an expression lists nodes within it only. -/
theorem Arith.within_of_mem_outline {a : Arith} {x : Node} :
    ∀ {depth d : Nat}, (d, x) ∈ a.outline depth → ∃ b, x = .arith b ∧ b.Within a := by
  induction a using Arith.operandsInduct with
  | h a ih =>
    intro depth d hmem
    rw [Arith.outline_eq] at hmem
    rcases List.mem_cons.mp hmem with heq | hmem
    · cases heq
      exact ⟨a, rfl, .refl⟩
    · obtain ⟨c, hc, hmem⟩ := List.mem_flatMap.mp hmem
      obtain ⟨b, rfl, hb⟩ := ih c hc hmem
      exact ⟨b, rfl, .operand hc hb⟩

theorem Formula.within_of_mem_outline {f : Formula} {x : Node} :
    ∀ {depth d : Nat}, (d, x) ∈ f.outline depth →
      (∃ g, x = .formula g ∧ g.Within f) ∨
      ∃ op l r s b, (Formula.compare op l r s).Within f ∧ x = .arith b ∧
        (b.Within l ∨ b.Within r) := by
  induction f using Formula.inductOn with
  | compare op l r s =>
    intro depth d hmem
    simp only [Formula.outline, List.mem_cons, List.mem_append] at hmem
    rcases hmem with heq | hmem | hmem
    · cases heq
      exact .inl ⟨_, rfl, .refl⟩
    · obtain ⟨b, rfl, hb⟩ := Arith.within_of_mem_outline hmem
      exact .inr ⟨op, l, r, s, b, .refl, rfl, .inl hb⟩
    · obtain ⟨b, rfl, hb⟩ := Arith.within_of_mem_outline hmem
      exact .inr ⟨op, l, r, s, b, .refl, rfl, .inr hb⟩
  | connective op fs s ih =>
    intro depth d hmem
    simp only [Formula.outline, Formula.outlines_eq_flatMap, List.mem_cons, List.mem_flatMap]
      at hmem
    rcases hmem with heq | ⟨f, hf, hmem⟩
    · cases heq
      exact .inl ⟨_, rfl, .refl⟩
    · rcases ih f hf hmem with ⟨g, rfl, hg⟩ | ⟨op', l, r, s', b, hw, rfl, hb⟩
      · exact .inl ⟨g, rfl, .operand hf hg⟩
      · exact .inr ⟨op', l, r, s', b, .operand hf hw, rfl, hb⟩
  | invalid source s =>
    intro depth d hmem
    simp only [Formula.outline, List.mem_singleton] at hmem
    cases hmem
    exact .inl ⟨_, rfl, .refl⟩

/-! ## The invariant -/

namespace Arith

/-- A literal, or a form of literals. -/
inductive IsLiteral : Arith → Prop where
  | int (lexeme : String) (value : Int64) (k : LiteralKind) (s : Span) :
      IsLiteral (.int lexeme value (.literal k) s)
  | float (lexeme : String) (value : Binary64) (k : LiteralKind) (s : Span) :
      IsLiteral (.float lexeme value (.literal k) s)
  | negate (e : Arith) (k : LiteralKind) (s : Span) : IsLiteral (.negate e (.literal k) s)
  | aggregate (op : Aggregate) (es : List Arith) (k : LiteralKind) (s : Span) :
      IsLiteral (.aggregate op es (.literal k) s)
  | minus (h : Arith) (r : List Arith) (k : LiteralKind) (s : Span) :
      IsLiteral (.minus h r (.literal k) s)

/-- What the type of a node says about all nodes within it. -/
structure Decides (a : Arith) : Prop where
  element : ∀ t, a.type = .element t → ∀ b : Arith, b.Within a → b.type = .element t
  literal : ∀ k, a.type = .literal k → ∀ b : Arith, b.Within a → b.IsLiteral

def Pinned (a : Arith) : Prop :=
  ∀ c : Arith, c.Within a → c.Decides

theorem IsLiteral.type {a : Arith} (h : a.IsLiteral) : ∃ k, a.type = .literal k := by
  cases h <;> exact ⟨_, rfl⟩

theorem Pinned.within {a b : Arith} (h : a.Pinned) (hb : b.Within a) : b.Pinned :=
  fun c hc => h c (hc.trans hb)

/-- A form keeps the invariant if its own type says the same as the types of its operands. -/
theorem Pinned.of_operands {a : Arith} (hops : ∀ c ∈ a.operands, c.Pinned)
    (hel : ∀ t, a.type = .element t → ∀ c ∈ a.operands, c.type = .element t)
    (hlit : ∀ k, a.type = .literal k → a.IsLiteral ∧ ∀ c ∈ a.operands, ∃ j, c.type = .literal j) :
    a.Pinned := by
  intro c hc
  cases hc with
  | operand hmem hw => exact hops _ hmem c hw
  | refl =>
    constructor
    · intro t ht b hb
      cases hb with
      | refl => exact ht
      | @operand _ c hmem hw => exact (hops c hmem c .refl).element t (hel t ht c hmem) b hw
    · intro k hk b hb
      cases hb with
      | refl => exact (hlit k hk).1
      | @operand _ c hmem hw =>
        obtain ⟨j, hj⟩ := (hlit k hk).2 c hmem
        exact (hops c hmem c .refl).literal j hj b hw

/-! ## Pinning -/

theorem pin_of_not_isLiteral {a : Arith} (h : a.type.isLiteral = false) (t : ElementType) :
    a.pin t = a := by
  cases a <;> simp_all [pin, type]

theorem IsLiteral.pin {a : Arith} (h : a.IsLiteral) (t : ElementType) :
    (a.pin t).type = .element t ∧ (a.pin t).operands = a.operands.map (Arith.pin t) := by
  cases h <;>
    simp [Arith.pin, Arith.type, Arith.operands, ValueType.isLiteral, Arith.pinAll_eq_map]

/-- Pinning keeps the invariant, and a literal is pinned. -/
theorem Pinned.pin {a : Arith} (t : ElementType) (h : a.Pinned) :
    (a.pin t).Pinned ∧ (∀ k, a.type = .literal k → (a.pin t).type = .element t) := by
  induction a using Arith.operandsInduct with
  | h a ih =>
    by_cases hl : a.type.isLiteral = true
    · obtain ⟨k, hk⟩ : ∃ k, a.type = .literal k := by
        cases ht : a.type <;> simp_all [ValueType.isLiteral]
      have hlit : ∀ b : Arith, b.Within a → b.IsLiteral := (h a .refl).literal k hk
      obtain ⟨htype, hops⟩ := (hlit a .refl).pin t
      refine ⟨Pinned.of_operands ?_ ?_ ?_, fun _ _ => htype⟩
      · rw [hops]
        intro c hc
        obtain ⟨b, hb, rfl⟩ := List.mem_map.mp hc
        exact (ih b hb (h.within (.operand hb .refl))).1
      · rw [hops, htype]
        intro u hu c hc
        cases hu
        obtain ⟨b, hb, rfl⟩ := List.mem_map.mp hc
        -- the operand is a literal too, so that it was pinned and not left alone
        obtain ⟨j, hj⟩ := (hlit b (.operand hb .refl)).type
        exact (ih b hb (h.within (.operand hb .refl))).2 j hj
      · rw [htype]
        intro k hk
        cases hk
    · have hl : a.type.isLiteral = false := by simpa using hl
      rw [pin_of_not_isLiteral hl]
      refine ⟨h, fun k hk => ?_⟩
      rw [hk] at hl
      cases hl

end Arith
end Typed

namespace Typing

open Typed
open Checked

/-- A form has a known type only if its operands agree on it. -/
theorem settle_agrees {operands : List Arith}
    (h : (settle operands).value.type ≠ .unknown) :
    Agrees (operands.map Arith.type) (settle operands).value.type := by
  refine settle_iff.mp ⟨?_, rfl, h⟩
  rw [settle_type, commonType] at h
  rw [settle_diagnostics]
  split at h
  · rename_i hclean
    simp only [Bool.and_eq_true, List.isEmpty_iff] at hclean
    exact hclean.1
  · exact absurd rfl h

theorem settle_value (operands : List Arith) :
    (settle operands).value.operands =
      match (settle operands).value.type with
      | .element t => operands.map (Arith.pin t)
      | _ => operands := by
  simp only [settle]
  split <;> simp_all

/-- Operands that keep the invariant have it after they settled, with types that fit their form. -/
theorem settle_pinned {operands : List Arith} (h : ∀ a ∈ operands, a.Pinned) :
    (∀ a ∈ (settle operands).value.operands, a.Pinned) ∧
    (∀ t, (settle operands).value.type = .element t →
      ∀ a ∈ (settle operands).value.operands, a.type = .element t) ∧
    (∀ k, (settle operands).value.type = .literal k →
      ∀ a ∈ (settle operands).value.operands, ∃ j, a.type = .literal j) := by
  have hagrees : (settle operands).value.type ≠ .unknown → _ := settle_agrees
  rw [settle_value]
  generalize (settle operands).value.type = u at hagrees ⊢
  cases u with
  | unknown => exact ⟨h, by simp, by simp⟩
  | literal k =>
    cases hagrees (by simp) with
    | literal _ hall =>
      refine ⟨h, by simp, fun _ _ a ha => ?_⟩
      obtain ⟨j, hj, _⟩ := hall a.type (List.mem_map_of_mem ha)
      exact ⟨j, hj⟩
  | element t =>
    cases hagrees (by simp) with
    | element _ _ hall =>
      refine ⟨?_, ?_, by simp⟩
      · intro a ha
        obtain ⟨b, hb, rfl⟩ := List.mem_map.mp ha
        exact ((h b hb).pin t).1
      · intro u hu a ha
        cases hu
        obtain ⟨b, hb, rfl⟩ := List.mem_map.mp ha
        rcases hall b.type (List.mem_map_of_mem hb) with hbt | ⟨k, hk, _⟩
        · rwa [Arith.pin_of_not_isLiteral (by rw [hbt]; rfl)]
        · exact ((h b hb).pin t).2 k hk

/-! ## Checked expressions -/

/-- No symbol of the table has the type of a literal. -/
def Declared (table : SymbolTable) : Prop :=
  ∀ s ∈ table.symbols, s.type.isLiteral = false

theorem Declared.get {table : SymbolTable} (h : Declared table) (id : SymbolId) :
    (table.get id).type.isLiteral = false := by
  unfold SymbolTable.get
  rw [List.getD_eq_getElem?_getD]
  cases hs : table.symbols[id.index]? with
  | none => rfl
  | some s => exact h s (List.mem_of_getElem? hs)

theorem pinned_invalid (source : String) (s : Span) : (Arith.invalid source s).Pinned :=
  .of_operands (by simp [Arith.operands]) (by simp [Arith.type]) (by simp [Arith.type])

theorem reference_pinned {table : SymbolTable} (h : Declared table) (name : String)
    (indices : List Int64) (s : Span) : (reference table name indices s).value.Pinned := by
  unfold reference
  split
  · exact pinned_invalid name s
  · rename_i id _
    simp only
    split
    · exact pinned_invalid name s
    · refine .of_operands (by simp [Arith.operands]) (by simp [Arith.operands]) ?_
      intro k hk
      have hno := h.get id
      simp only [value_bind, value_pure, Arith.type] at hk
      rw [hk] at hno
      cases hno

/-- Settling keeps the number of operands. -/
theorem settle_cons (a : Arith) (rest : List Arith) :
    ∃ b bs, (settle (a :: rest)).value.operands = b :: bs ∧ bs.length = rest.length := by
  rw [settle_value]
  split
  · exact ⟨_, _, rfl, by simp⟩
  · exact ⟨_, _, rfl, rfl⟩

/-- A negation with the operand on which it settled. -/
theorem negation_value (a : Arith) (s : Span) :
    ∃ b, (settle [a]).value.operands = [b] ∧
      (negation a s).value = .negate b (settle [a]).value.type.negate s := by
  obtain ⟨b, bs, hb, hlen⟩ := settle_cons a []
  obtain rfl := List.length_eq_zero_iff.mp hlen
  exact ⟨b, hb, by simp [negation, hb]⟩

/-- A difference with the operands on which it settled. -/
theorem difference_value (head : Arith) (rest : List Arith) (s : Span) :
    ∃ b bs, (settle (head :: rest)).value.operands = b :: bs ∧
      (difference head rest s).value = .minus b bs (settle (head :: rest)).value.type s := by
  obtain ⟨b, bs, hb, _⟩ := settle_cons head rest
  exact ⟨b, bs, hb, by simp [difference, hb]⟩

theorem negation_pinned {a : Arith} (h : a.Pinned) (s : Span) : (negation a s).value.Pinned := by
  have hone : ∀ b ∈ [a], b.Pinned := by simpa using h
  obtain ⟨hops, hel, hlit⟩ := settle_pinned hone
  obtain ⟨b, hb, hvalue⟩ := negation_value a s
  rw [hb] at hops hel hlit
  rw [hvalue]
  generalize (settle [a]).value.type = u at hel hlit ⊢
  refine .of_operands hops ?_ ?_
  · intro t ht
    cases u <;> simp_all [Arith.type, Arith.operands, ValueType.negate]
  · intro k hk
    cases u with
    | element t => cases hk
    | unknown => cases hk
    | literal j => exact ⟨.negate .., hlit j rfl⟩

theorem aggregation_pinned {operands : List Arith} (h : ∀ a ∈ operands, a.Pinned) (op : Aggregate)
    (s : Span) : (aggregation op operands s).value.Pinned := by
  obtain ⟨hops, hel, hlit⟩ := settle_pinned h
  refine .of_operands hops hel fun k hk => ⟨?_, hlit k hk⟩
  simp only [aggregation, value_bind, value_pure, Arith.type] at hk ⊢
  rw [hk]
  exact .aggregate ..

theorem difference_pinned {head : Arith} {rest : List Arith} (hh : head.Pinned)
    (hr : ∀ a ∈ rest, a.Pinned) (s : Span) : (difference head rest s).value.Pinned := by
  obtain ⟨hops, hel, hlit⟩ := settle_pinned (List.forall_mem_cons.mpr ⟨hh, hr⟩)
  obtain ⟨b, bs, hb, hvalue⟩ := difference_value head rest s
  rw [hb] at hops hel hlit
  rw [hvalue]
  refine .of_operands hops hel fun k hk => ⟨?_, hlit k hk⟩
  simp only [Arith.type] at hk
  rw [hk]
  exact .minus ..

variable {table : SymbolTable} {policy : LiteralPolicy}

theorem arith_pinned (h : Declared table) (e : Expr) : (arith table policy e).value.Pinned := by
  induction e using Expr.inductOn with
  | var name indices s =>
    rw [arith_var]
    exact reference_pinned h name indices s
  | int lexeme value s =>
    rw [arith_int]
    exact .of_operands (by simp [Arith.operands]) (by simp [Arith.operands])
      fun k _ => ⟨.int .., by simp [Arith.operands]⟩
  | float lexeme value s =>
    rw [arith_float]
    exact .of_operands (by simp [Arith.operands]) (by simp [Arith.operands])
      fun k _ => ⟨.float .., by simp [Arith.operands]⟩
  | negate e s ih =>
    rw [arith_negate]
    exact negation_pinned ih s
  | aggregate op es s ih =>
    rw [arith_aggregate, value_bind, ariths_value]
    exact aggregation_pinned (List.forall_mem_map.mpr ih) op s
  | minus e es s ihe ihes =>
    rw [arith_minus, value_bind, value_bind, ariths_value]
    exact difference_pinned ihe (List.forall_mem_map.mpr ihes) s
  | compare op l r s _ _ =>
    rw [(arith_of_isBoolean table policy rfl).1]
    exact pinned_invalid _ _
  | connective op es s _ =>
    rw [(arith_of_isBoolean table policy rfl).1]
    exact pinned_invalid _ _

variable (policy) in
/-- The sides of a comparison are left alone, or pinned to one element type. -/
theorem reconcile_value (l r : Arith) (p : Position) :
    (reconcile policy l r p).value = (l, r) ∨
      ∃ t, (reconcile policy l r p).value = (l.pin t, r.pin t) := by
  unfold reconcile
  split
  · exact .inl rfl
  · split
    · unfold applyPolicy
      split
      · exact .inl rfl
      · split
        · exact .inr ⟨_, rfl⟩
        · exact .inl rfl
      · exact .inl rfl
    · exact .inl rfl
  · exact .inr ⟨_, rfl⟩
  · exact .inl rfl

/-- A formula within a checked one is itself a checked one. Its expression has whatever connectives
pass on to their operands. -/
theorem exists_formula_within {P : Expr → Prop}
    (step : ∀ op es s, P (.connective op es s) → ∀ f ∈ es, P f) {e : Expr} (root : P e)
    {g : Formula} (hw : g.Within (formula table policy e).value) :
    ∃ e', P e' ∧ g = (formula table policy e').value := by
  induction e using Expr.inductOn with
  | connective op es s ih =>
    have hval : (formula table policy (.connective op es s)).value =
        .connective op (es.map fun e => (formula table policy e).value) s := by
      simp [formula_connective, formulas_value]
    cases hc : (formula table policy (.connective op es s)).value with
    | compare op' l r s' => simp [hval] at hc
    | invalid source s' => simp [hval] at hc
    | connective op' fs s' =>
      rw [hc] at hw
      cases hw with
      | refl => exact ⟨_, root, hc.symm⟩
      | @operand _ _ _ f hf hw =>
        rw [hval] at hc
        cases hc
        obtain ⟨e, he, rfl⟩ := List.mem_map.mp hf
        exact ih e he (step op es s root e he) hw
  | compare op l r s _ _ =>
    refine ⟨.compare op l r s, root, ?_⟩
    simp only [formula_compare, comparison, value_bind, value_pure] at hw ⊢
    cases hw
    rfl
  | _ =>
    refine ⟨_, root, ?_⟩
    rw [(formula_of_not_isBoolean table policy rfl).1] at hw ⊢
    cases hw
    rfl

/-- A formula within a checked one is itself a checked one, and reports no more. -/
theorem formula_within (e : Expr) {g : Formula} (hw : g.Within (formula table policy e).value) :
    ∃ e', g = (formula table policy e').value ∧ (e.Built → e'.Built) ∧
      ((formula table policy e).diagnostics = [] → (formula table policy e').diagnostics = []) := by
  let Kept (e' : Expr) : Prop := (e.Built → e'.Built) ∧
    ((formula table policy e).diagnostics = [] → (formula table policy e').diagnostics = [])
  have step : ∀ op es s, Kept (.connective op es s) → ∀ f ∈ es, Kept f := by
    rintro op es s ⟨hbuilt, hclean⟩ f hf
    refine ⟨fun he => ?_, fun hnil => ?_⟩
    · cases hbuilt he with
      | compound happ hes =>
        cases happ
        exact hes f hf
    · have hconnective := hclean hnil
      simp only [formula_connective, diagnostics_bind, formulas_diagnostics, diagnostics_pure,
        List.append_nil, List.flatMap_eq_nil_iff] at hconnective
      exact hconnective f hf
  obtain ⟨e', ⟨hbuilt, hclean⟩, hg⟩ := exists_formula_within step ⟨id, id⟩ hw
  exact ⟨e', hg, hbuilt, hclean⟩

/-- A comparison comes from a comparison. -/
theorem formula_eq_compare {e : Expr} {op : Comparison} {l r : Arith} {s : Span}
    (h : .compare op l r s = (formula table policy e).value) :
    ∃ l' r', e = .compare op l' r' s ∧ (l, r) = (reconcile policy (arith table policy l').value
      (arith table policy r').value s.position).value := by
  cases e with
  | compare op' l' r' s' =>
    simp only [formula_compare, comparison, value_bind, value_pure] at h
    cases h
    exact ⟨l', r', rfl, rfl⟩
  | connective op' es s' => simp [formula_connective] at h
  | _ =>
    rw [(formula_of_not_isBoolean table policy rfl).1] at h
    cases h

/-- Every comparison of a checked formula compares sides that keep the invariant. -/
theorem formula_pinned (h : Declared table) (e : Expr) {op : Comparison} {l r : Arith} {s : Span}
    (hw : (Formula.compare op l r s).Within (formula table policy e).value) :
    l.Pinned ∧ r.Pinned := by
  obtain ⟨e', hg, _, _⟩ := formula_within e hw
  obtain ⟨l', r', rfl, heq⟩ := formula_eq_compare hg
  have hl : (arith table policy l').value.Pinned := arith_pinned h l'
  have hr : (arith table policy r').value.Pinned := arith_pinned h r'
  rcases reconcile_value policy (arith table policy l').value (arith table policy r').value
    s.position with hval | ⟨t, hval⟩
  · rw [hval] at heq
    cases heq
    exact ⟨hl, hr⟩
  · rw [hval] at heq
    cases heq
    exact ⟨(hl.pin t).1, (hr.pin t).1⟩

/-! ## Checks without a report -/

/-- Sides that go together are pinned to an element type that they have or may adopt, or are
literals that the policy keeps. -/
theorem reconcile_pins {a b : Arith} {p : Position} (hc : Comparable policy a.type b.type) :
    (∃ t, (reconcile policy a b p).value = (a.pin t, b.pin t) ∧
      (a.type = .element t ∨ ∃ k, a.type = .literal k ∧ k.admits t = true) ∧
      (b.type = .element t ∨ ∃ k, b.type = .literal k ∧ k.admits t = true)) ∨
    (policy = .keep ∧ (reconcile policy a b p).value = (a, b) ∧
      (∃ j, a.type = .literal j) ∧ ∃ k, b.type = .literal k) := by
  generalize hat : a.type = u at hc
  generalize hbt : b.type = v at hc
  cases hc with
  | same t =>
    exact .inl ⟨t, by simp [reconcile, hat, hbt, ValueType.unify], .inl rfl, .inl rfl⟩
  | @left t k hk =>
    exact .inl ⟨t, by simp [reconcile, hat, hbt, ValueType.unify, hk], .inr ⟨k, rfl, hk⟩, .inl rfl⟩
  | @right t k hk =>
    exact .inl ⟨t, by simp [reconcile, hat, hbt, ValueType.unify, hk], .inl rfl, .inr ⟨k, rfl, hk⟩⟩
  | kept j k hp =>
    subst hp
    refine .inr ⟨rfl, ?_, ⟨j, rfl⟩, ⟨k, rfl⟩⟩
    simp [reconcile, hat, hbt, ValueType.unify, ValueType.isLiteral, applyPolicy]
  | @adopted j k m t hp hm hj hk ht =>
    subst hp
    have hjoin : (j.join k).admits t = true := by
      refine LiteralKind.admits_of_rank_le ?_ ht
      rcases LiteralKind.join_eq_or j k with h | h <;> rw [h] <;> assumption
    refine .inl ⟨t, ?_, .inr ⟨j, rfl, LiteralKind.admits_of_rank_le hj ht⟩,
      .inr ⟨k, rfl, LiteralKind.admits_of_rank_le hk ht⟩⟩
    have hadopted : (ValueType.element t).adopted? (j.join k) = some t :=
      ValueType.adopted?_eq_some_iff.mpr ⟨rfl, hjoin⟩
    simp [reconcile, hat, hbt, ValueType.unify, ValueType.isLiteral, applyPolicy, hadopted]

theorem pin_type {a : Arith} {t : ElementType} (h : a.Pinned)
    (ht : a.type = .element t ∨ ∃ k, a.type = .literal k ∧ k.admits t = true) :
    (a.pin t).type = .element t := by
  rcases ht with ht | ⟨k, hk, _⟩
  · rwa [Arith.pin_of_not_isLiteral (by rw [ht]; rfl)]
  · exact (h.pin t).2 k hk

/-- Sides that go together end with one element type, or are literals that the policy keeps. -/
theorem reconcile_settled {a b : Arith} {p : Position} (ha : a.Pinned) (hb : b.Pinned)
    (hc : Comparable policy a.type b.type) :
    (∃ t, (reconcile policy a b p).value.1.type = .element t ∧
      (reconcile policy a b p).value.2.type = .element t) ∨
    (policy = .keep ∧ ∃ j k, (reconcile policy a b p).value.1.type = .literal j ∧
      (reconcile policy a b p).value.2.type = .literal k) := by
  rcases reconcile_pins (p := p) hc with ⟨t, hval, hat, hbt⟩ | ⟨hp, hval, ⟨j, hj⟩, ⟨k, hk⟩⟩
  · rw [hval]
    exact .inl ⟨t, pin_type ha hat, pin_type hb hbt⟩
  · rw [hval]
    exact .inr ⟨hp, j, k, hj, hk⟩

section
variable {networks : List Network} (hdesc : Describes table networks)
  (hknown : ∀ n ∈ networks, ∀ d ∈ n.declarations, d.type ≠ .unknown) {e : Expr} (he : e.Built)
  (hclean : (formula table policy e).diagnostics = [])
include hdesc hknown he hclean

/-- All nodes below a comparison share one element type, or are literals that the policy keeps. -/
theorem formula_uniform (hdecl : Declared table) {op : Comparison} {l r : Arith} {s : Span}
    (hw : (Formula.compare op l r s).Within (formula table policy e).value) :
    (∃ t, ∀ b : Arith, b.Within l ∨ b.Within r → b.type = .element t) ∨
    (policy = .keep ∧ ∀ b : Arith, b.Within l ∨ b.Within r → b.IsLiteral) := by
  obtain ⟨hl, hr⟩ := formula_pinned hdecl e hw
  obtain ⟨e', hg, hbuilt, hsub⟩ := formula_within e hw
  obtain ⟨l', r', rfl, heq⟩ := formula_eq_compare hg
  have hwf := (formula_iff hdesc hknown (hbuilt he)).mp (hsub hclean)
  have hc : Comparable policy (arith table policy l').value.type
      (arith table policy r').value.type := by
    cases hbuilt he with
    | compound happ hes =>
      cases happ
      cases hwf with
      | compare htl htr hc =>
        rwa [((arith_iff policy hdesc hknown (hes l' (by simp)) _).mpr htl).2,
          ((arith_iff policy hdesc hknown (hes r' (by simp)) _).mpr htr).2]
  have hset := reconcile_settled (p := s.position) (arith_pinned hdecl l')
    (arith_pinned hdecl r') hc
  rw [← heq] at hset
  rcases hset with ⟨t, htl, htr⟩ | ⟨hp, j, k, hj, hk⟩
  · refine .inl ⟨t, fun b hb => ?_⟩
    rcases hb with hb | hb
    · exact (hl l .refl).element t htl b hb
    · exact (hr r .refl).element t htr b hb
  · refine .inr ⟨hp, fun b hb => ?_⟩
    rcases hb with hb | hb
    · exact (hl l .refl).literal j hj b hb
    · exact (hr r .refl).literal k hk b hb

end

theorem formula_no_invalid {e : Expr} (hclean : (formula table policy e).diagnostics = [])
    {source : String} {s : Span} :
    ¬ (Formula.invalid source s).Within (formula table policy e).value := by
  intro hw
  obtain ⟨e', hg, _, hsub⟩ := formula_within e hw
  cases e' with
  | compare op l r s => simp [formula_compare, comparison] at hg
  | connective op es s => simp [formula_connective] at hg
  | _ => exact absurd (hsub hclean) (formula_of_not_isBoolean table policy rfl).2

end Typing

/-! ## Queries -/

open Typed

theorem Typing.assertions_value (table : SymbolTable) (policy : LiteralPolicy)
    (as : List Assertion) :
    (Typing.assertions table policy as).value =
      as.map fun a => ⟨(Typing.formula table policy a.condition).value, a.span⟩ := by
  induction as with
  | nil => rfl
  | cons a as ih => simp [Typing.assertions, Typing.assertion, ih]

/-- The nodes with a type that a walk over a query meets. -/
theorem Typed.Query.mem_descendants {q : Typed.Query} {x : Node} {t : ValueType}
    (h : x ∈ Node.descendants (.query q)) (ht : x.type? = some t) :
    (∃ n ∈ q.networks, ∃ d ∈ n.definitions, x = .definition d) ∨
      ∃ a ∈ q.assertions, ∃ d, (d, x) ∈ a.condition.outline 2 := by
  simp only [Node.descendants, Node.outline, Typed.Query.outline, List.mem_map, List.mem_cons,
    List.mem_append, List.mem_flatMap, Typed.Network.outline, Typed.Assertion.outline] at h
  obtain ⟨⟨d, y⟩, hy, rfl⟩ := h
  rcases hy with hy | hy | ⟨n, hn, hy | ⟨d', hd', hy⟩⟩ | ⟨a, ha, hy | hy⟩
  · cases hy
    cases ht
  · cases hy
    cases ht
  · cases hy
    cases ht
  · cases hy
    exact .inl ⟨n, hn, d', hd', rfl⟩
  · cases hy
    cases ht
  · exact .inr ⟨a, ha, d, hy⟩

theorem Typed.Arith.within_of_mem_descendants {a b : Arith} {depth : Nat}
    (h : .arith b ∈ (a.outline depth).map Prod.snd) : b.Within a := by
  obtain ⟨⟨d, y⟩, hy, heq⟩ := List.mem_map.mp h
  obtain ⟨c, hc, hw⟩ := Arith.within_of_mem_outline hy
  simp only [hc, Node.arith.injEq] at heq
  rwa [← heq]

theorem Typed.Formula.compare_mem_descendants {b : Arith} (op : Comparison) (l r : Arith) (s : Span)
    (h : .arith b ∈ Node.descendants (.formula (.compare op l r s))) :
    b.Within l ∨ b.Within r := by
  simp only [Node.descendants, Node.outline, Formula.outline, List.map_cons, List.map_append,
    List.mem_cons, List.mem_append, reduceCtorEq, false_or] at h
  exact h.imp Arith.within_of_mem_descendants Arith.within_of_mem_descendants

/-- An expression in a query stands on one side of a comparison of a condition. -/
theorem Typed.Query.arith_mem_descendants {q : Typed.Query} {b : Arith}
    (h : .arith b ∈ Node.descendants (.query q)) :
    ∃ a ∈ q.assertions, ∃ op l r s, (Formula.compare op l r s).Within a.condition ∧
      (b.Within l ∨ b.Within r) := by
  rcases Typed.Query.mem_descendants h rfl with ⟨_, _, _, _, hx⟩ | ⟨a, ha, d, hd⟩
  · cases hx
  · rcases Formula.within_of_mem_outline hd with ⟨g, hg, _⟩ | ⟨op, l, r, s, c, hw, hc, hb⟩
    · cases hg
    · cases hc
      exact ⟨a, ha, op, l, r, s, hw, hb⟩

theorem Typed.Query.formula_mem_descendants {q : Typed.Query} {f : Formula}
    (h : .formula f ∈ Node.descendants (.query q)) : ∃ a ∈ q.assertions, f.Within a.condition := by
  rcases Typed.Query.mem_descendants h rfl with ⟨_, _, _, _, hx⟩ | ⟨a, ha, d, hd⟩
  · cases hx
  · rcases Formula.within_of_mem_outline hd with ⟨g, hg, hw⟩ | ⟨_, _, _, _, _, _, hc, _⟩
    · cases hg
      exact ⟨a, ha, hw⟩
    · cases hc

/-- The table of a query has no symbol with the type of a literal. -/
theorem Query.Proper.declared {q : Query} (hq : q.Proper) :
    Typing.Declared (Typing.networksFrom q.networks .empty q.networks).value.2 := by
  intro s hs
  rcases Typing.networksFrom_symbols hs with hs | ⟨n, hn, rfl | ⟨p, hp, rfl⟩⟩
  · cases hs
  · rfl
  · have hmem := n.tensors_perm.mem_iff.mp (List.mem_map_of_mem hp)
    obtain ⟨t, ht⟩ := hq.types n hn p.2 hmem
    simp [Network.symbolOf, Symbol.ofDeclaration, ht, ValueType.isLiteral]

/-- The conditions of a checked query are checked formulas. -/
theorem Typing.mem_query_assertions {policy : LiteralPolicy} {q : Query} {a : Typed.Assertion}
    (h : a ∈ (Typing.query policy q).value.assertions) :
    ∃ b ∈ q.assertions, a.condition = (Typing.formula
      (Typing.networksFrom q.networks .empty q.networks).value.2 policy b.condition).value := by
  simp only [Typing.query, Checked.value_bind, Checked.value_pure, Typing.assertions_value,
    List.mem_map] at h
  obtain ⟨b, hb, rfl⟩ := h
  exact ⟨b, hb, rfl⟩

/-- Every expression of a checked query keeps the invariant. -/
theorem Query.Proper.pinned {policy : LiteralPolicy} {q : Query} (hq : q.Proper) {a : Arith}
    (h : .arith a ∈ Node.descendants (.query (Typing.query policy q).value)) : a.Pinned := by
  obtain ⟨c, hc, op, l, r, s, hw, ha⟩ := Typed.Query.arith_mem_descendants h
  obtain ⟨b, _, hcond⟩ := Typing.mem_query_assertions hc
  rw [hcond] at hw
  obtain ⟨hl, hr⟩ := Typing.formula_pinned hq.declared b.condition hw
  rcases ha with ha | ha
  · exact hl.within ha
  · exact hr.within ha

/-- The comparisons of a query that is checked without a report. -/
theorem Query.Proper.uniform {policy : LiteralPolicy} {q : Query} (hq : q.Proper)
    (hclean : (Typing.query policy q).diagnostics = []) {c : Typed.Assertion}
    (hc : c ∈ (Typing.query policy q).value.assertions) {op : Comparison} {l r : Arith} {s : Span}
    (hw : (Formula.compare op l r s).Within c.condition) :
    (∃ t, ∀ b : Arith, b.Within l ∨ b.Within r → b.type = .element t) ∨
    (policy = .keep ∧ ∀ b : Arith, b.Within l ∨ b.Within r → b.IsLiteral) := by
  obtain ⟨b, hb, hcond⟩ := Typing.mem_query_assertions hc
  obtain ⟨hvalue, hdesc, hconditions⟩ := Typing.query_clean hclean
  have hdecl := hq.declared
  rw [hvalue] at hcond hdecl
  rw [hcond] at hw
  exact Typing.formula_uniform hdesc hq.known (hq.conditions b hb) (hconditions b hb) hdecl hw

theorem Query.Proper.type_ne_unknown {policy : LiteralPolicy} {q : Query} (hq : q.Proper)
    (hclean : (Typing.query policy q).diagnostics = []) {x : Node}
    (h : x ∈ Node.descendants (.query (Typing.query policy q).value)) :
    x.type? ≠ some .unknown := by
  intro ht
  cases x with
  | arith a =>
    obtain ⟨c, hc, op, l, r, s, hw, ha⟩ := Typed.Query.arith_mem_descendants h
    have htype : a.type = .unknown := Option.some.inj ht
    rcases hq.uniform hclean hc hw with ⟨t, hall⟩ | ⟨_, hall⟩
    · rw [hall a ha] at htype
      cases htype
    · obtain ⟨k, hk⟩ := (hall a ha).type
      rw [hk] at htype
      cases htype
  | formula f =>
    obtain ⟨c, hc, hw⟩ := Typed.Query.formula_mem_descendants h
    obtain ⟨b, hb, hcond⟩ := Typing.mem_query_assertions hc
    obtain ⟨hvalue, _, hconditions⟩ := Typing.query_clean hclean
    rw [hcond, hvalue] at hw
    cases f with
    | compare op l r s => cases ht
    | connective op fs s => cases ht
    | invalid source s => exact Typing.formula_no_invalid (hconditions b hb) hw
  | definition d =>
    obtain ⟨m, hm, d', hd, hx⟩ | ⟨a, _, i, hi⟩ := Typed.Query.mem_descendants h ht
    · cases hx
      have hnetworks : (Typing.query policy q).value.networks =
          (Typing.networksFrom q.networks .empty q.networks).value.1 := rfl
      rw [hnetworks, (Typing.query_clean hclean).1] at hm
      obtain ⟨n, hn, start, rfl⟩ := Network.mem_typedFrom hm
      obtain ⟨p, hp, id, rfl⟩ := Network.mem_definitions_typed hd
      have hmem := n.tensors_perm.mem_iff.mp (List.mem_map_of_mem hp)
      exact hq.known n hn p.2 hmem (Option.some.inj ht)
    · rcases Formula.within_of_mem_outline hi with ⟨_, hg, _⟩ | ⟨_, _, _, _, _, _, hb, _⟩
      · cases hg
      · cases hb
  | query _ => cases ht
  | version _ => cases ht
  | network _ => cases ht
  | assertion _ => cases ht

/-- Literal pinning is complete and uniform, whatever was reported; and where nothing was, each
comparison has one element type, or literals only under the policy that keeps them. -/
theorem Query.literals_pinned {tokens : List Token} {file : String} {q : Query}
    (h : Query.ofTokens tokens file = .ok q) (options : BuildOptions) :
    (∀ a : Arith, .arith a ∈ Node.descendants (.query (Typing.query options.policy q).value) →
      ∀ b : Arith, .arith b ∈ Node.descendants (.arith a) →
        (∀ t, a.type = .element t → b.type = .element t) ∧
        (∀ k, a.type = .literal k → b.IsLiteral)) ∧
    ((Typing.query options.policy q).diagnostics = [] →
      (∀ op l r s, .formula (.compare op l r s) ∈
          Node.descendants (.query (Typing.query options.policy q).value) →
        (∃ t, ∀ b : Arith, .arith b ∈ Node.descendants (.formula (.compare op l r s)) →
          b.type = .element t) ∨
        (options.policy = .keep ∧
          ∀ b : Arith, .arith b ∈ Node.descendants (.formula (.compare op l r s)) →
            b.IsLiteral)) ∧
      ∀ x ∈ Node.descendants (.query (Typing.query options.policy q).value),
        x.type? ≠ some .unknown) := by
  obtain ⟨_, _, _, hderives, _⟩ := Query.ofTokens_derives h
  have hq := hderives.proper
  refine ⟨?_, fun hclean => ⟨?_, fun x hx => hq.type_ne_unknown hclean hx⟩⟩
  · intro a ha b hb
    have hdecides := hq.pinned ha a .refl
    have hw := Typed.Arith.within_of_mem_descendants hb
    exact ⟨fun t ht => hdecides.element t ht b hw, fun k hk => hdecides.literal k hk b hw⟩
  · intro op l r s hmem
    obtain ⟨c, hc, hw⟩ := Typed.Query.formula_mem_descendants hmem
    have hside := fun b => Typed.Formula.compare_mem_descendants (b := b) op l r s
    rcases hq.uniform hclean hc hw with ⟨t, hall⟩ | ⟨hp, hall⟩
    · exact .inl ⟨t, fun b hb => hall b (hside b hb)⟩
    · exact .inr ⟨hp, fun b hb => hall b (hside b hb)⟩

theorem Query.lowerBound_pinned :
    ∃ q, Query.ofTokens (Token.lowerBound ++ [Token.ending .nowhere]) "q" = .ok q ∧
      (Typing.query .keep q).diagnostics = [] ∧
      ∀ x ∈ Node.descendants (.query (Typing.query .keep q).value), x.type? ≠ some .unknown := by
  obtain ⟨q, hq, hclean⟩ := Query.lowerBound_clean
  exact ⟨q, hq, hclean, ((Query.literals_pinned hq {}).2 hclean).2⟩

end NeuralQuery
