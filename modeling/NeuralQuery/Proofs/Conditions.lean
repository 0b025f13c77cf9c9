import NeuralQuery.Proofs.Agreement
import NeuralQuery.Proofs.Terms

/-!
# NeuralQuery.Proofs.Conditions

The checks of expressions against `HasType` and `WellFormed`, over any table that finds exactly the
tensors the networks give a name to (`Describes`).

An expression is checked as arithmetic without a report, and ends with the type `t`, exactly if it
has the type `t` (`arith_iff`). A condition is checked without a report exactly if it is well formed
(`formula_iff`). Both hold of expressions whose forms have operands: only then can a type that
stays `unknown` come from nothing but an operand reported before.
-/

namespace NeuralQuery

theorem HasType.ne_unknown {networks : List Network}
    (hknown : ∀ n ∈ networks, ∀ d ∈ n.declarations, d.type ≠ .unknown) {e : Expr} {t : ValueType}
    (h : HasType networks e t) : t ≠ .unknown := by
  induction h with
  | var href _ =>
    obtain ⟨n, hn, hd, _⟩ := href
    exact hknown n hn _ hd
  | int _ => simp
  | float _ _ _ => simp
  | @negate _ _ t _ _ ih => cases t <;> simp_all [ValueType.negate]
  | aggregate _ _ hagree _ => exact hagree.ne_unknown
  | minus _ _ hagree _ => exact hagree.ne_unknown

namespace Comparable

variable {policy : LiteralPolicy}

theorem elements_iff {e f : ElementType} :
    Comparable policy (.element e) (.element f) ↔ e = f := by
  constructor
  · intro h
    cases h
    rfl
  · rintro rfl
    exact .same e

theorem element_literal_iff {e : ElementType} {k : LiteralKind} :
    Comparable policy (.element e) (.literal k) ↔ k.admits e = true := by
  constructor
  · intro h
    cases h
    assumption
  · exact .right

theorem literal_element_iff {e : ElementType} {k : LiteralKind} :
    Comparable policy (.literal k) (.element e) ↔ k.admits e = true := by
  constructor
  · intro h
    cases h
    assumption
  · exact .left

/-- What the policy says of two literal kinds, it says of the more demanding one. -/
theorem literals_iff {j k : LiteralKind} :
    Comparable policy (.literal j) (.literal k) ↔
      policy = .keep ∨ ∃ t, policy = .adopt (.element t) ∧ (j.join k).admits t = true := by
  have hl := LiteralKind.rank_join_left j k
  have hr := LiteralKind.rank_join_right j k
  constructor
  · intro h
    cases h with
    | kept _ _ hp => exact .inl hp
    | @adopted _ _ m t hp hm hj hk ht =>
      have hle : (j.join k).rank ≤ m.rank := by
        rcases LiteralKind.join_eq_or j k with h | h <;> rw [h] <;> assumption
      exact .inr ⟨t, hp, LiteralKind.admits_of_rank_le hle ht⟩
  · rintro (hp | ⟨t, hp, ht⟩)
    · exact .kept j k hp
    · exact .adopted hp (LiteralKind.join_eq_or j k) hl hr ht

end Comparable

namespace Typing

open Typed
open Checked

/-! ## Tensors -/

theorem checkBounds_iff {name : String} {p : Position} {indices shape : List Int64}
    (hlen : indices.length = shape.length) (dimension : Nat) :
    (checkBounds name p dimension indices shape).diagnostics = [] ↔ FitsShape indices shape := by
  induction indices generalizing shape dimension with
  | nil =>
    obtain rfl : shape = [] := List.eq_nil_of_length_eq_zero hlen.symm
    simp [checkBounds, FitsShape]
  | cons i indices ih =>
    cases shape with
    | nil => simp at hlen
    | cons bound shape =>
      have hlen : indices.length = shape.length := by simpa using hlen
      have hrest := ih hlen (dimension + 1)
      by_cases hi : admitsIndex bound i = true
      · have hfit : 0 ≤ i ∧ (bound < 0 ∨ i < bound) := by simpa [admitsIndex] using hi
        simp [checkBounds, hi, hrest, FitsShape, hfit]
      · have hfit : ¬(0 ≤ i ∧ (bound < 0 ∨ i < bound)) := by simpa [admitsIndex] using hi
        simp [checkBounds, hi, FitsShape, hfit]

theorem checkIndices_iff {name : String} {p : Position} {indices shape : List Int64} :
    (checkIndices name p indices shape).diagnostics = [] ↔ FitsShape indices shape := by
  unfold checkIndices
  split
  · rename_i hlen
    exact checkBounds_iff hlen 0
  · rename_i hlen
    simp only [diagnostics_note, List.cons_ne_nil, false_iff]
    exact fun h => hlen h.length_eq

/-- A name leads to a tensor of the table exactly if the networks declare one under it, and both are
of the same type and shape. -/
structure Describes (table : SymbolTable) (networks : List Network) : Prop where
  declared : ∀ {name : String} {p : Position} {id : SymbolId},
    table.resolve name p = .ok id → (table.get id).kind ≠ .network →
    ∃ d, Refers networks name d ∧ (table.get id).type = d.type ∧ (table.get id).shape = d.shape
  found : ∀ {name : String} {d : Declaration} (p : Position), Refers networks name d →
    ∃ id, table.resolve name p = .ok id ∧ (table.get id).kind ≠ .network ∧
      (table.get id).type = d.type ∧ (table.get id).shape = d.shape

variable {table : SymbolTable} {networks : List Network} {policy : LiteralPolicy}

theorem reference_iff (hd : Describes table networks) {name : String} {indices : List Int64}
    {s : Span} {t : ValueType} :
    (reference table name indices s).diagnostics = [] ∧
        (reference table name indices s).value.type = t ↔
      ∃ d, Refers networks name d ∧ FitsShape indices d.shape ∧ d.type = t := by
  constructor
  · rintro ⟨hclean, htype⟩
    unfold reference at hclean htype
    cases hr : table.resolve name s.position with
    | error d => simp [hr] at hclean
    | ok id =>
      by_cases hk : (table.get id).kind = .network
      · simp [hr, hk] at hclean
      · simp only [hr, hk, if_false, diagnostics_bind, diagnostics_pure, List.append_nil,
          value_bind, value_pure, Arith.type] at hclean htype
        obtain ⟨d, href, hdt, hds⟩ := hd.declared hr hk
        rw [hds] at hclean
        exact ⟨d, href, checkIndices_iff.mp hclean, hdt.symm.trans htype⟩
  · rintro ⟨d, href, hfit, rfl⟩
    obtain ⟨id, hr, hk, hdt, hds⟩ := hd.found s.position href
    unfold reference
    simp only [hr, hk, if_false, diagnostics_bind, diagnostics_pure, List.append_nil, value_bind,
      value_pure, Arith.type, hds, hdt, and_true]
    exact checkIndices_iff.mpr hfit

/-! ## Arithmetic -/

theorem intKind_iff {lexeme : String} {k : LiteralKind} :
    intKind lexeme = k ↔ IntKind lexeme.toList k := by
  unfold intKind
  split
  · rename_i h
    obtain ⟨cs, hcs⟩ : ∃ cs, lexeme.toList = '-' :: cs := by
      cases hl : lexeme.toList with
      | nil => simp [hl] at h
      | cons c cs =>
        obtain rfl : c = '-' := by simpa [hl] using h
        exact ⟨cs, rfl⟩
    rw [hcs]
    constructor
    · rintro rfl
      exact .negative cs
    · intro hk
      cases hk with
      | negative => rfl
      | positive hne => exact absurd rfl hne
  · rename_i h
    constructor
    · rintro rfl
      exact .positive h
    · intro hk
      generalize lexeme.toList = cs at h hk
      cases hk with
      | negative cs => exact absurd rfl h
      | positive => rfl

/-- Checked operands settle on a type exactly if the types they have agree on it. -/
theorem settle_operands (hknown : ∀ n ∈ networks, ∀ d ∈ n.declarations, d.type ≠ .unknown)
    {es : List Expr} {t : ValueType} (hne : es ≠ [])
    (hes : ∀ e ∈ es, ∀ t, (arith table policy e).diagnostics = [] ∧
      (arith table policy e).value.type = t ↔ HasType networks e t) :
    ((∀ e ∈ es, (arith table policy e).diagnostics = []) ∧
        (settle (es.map fun e => (arith table policy e).value)).diagnostics = [] ∧
        (settle (es.map fun e => (arith table policy e).value)).value.type = t) ↔
      ∃ type : Expr → ValueType,
        (∀ e ∈ es, HasType networks e (type e)) ∧ Agrees (es.map type) t := by
  constructor
  · rintro ⟨hclean, hset, htype⟩
    have htypes : ∀ e ∈ es, HasType networks e (arith table policy e).value.type := fun e he =>
      (hes e he _).mp ⟨hclean e he, rfl⟩
    have hsettled := settle_known (by simpa using hne)
      (List.forall_mem_map.mpr fun e he => (htypes e he).ne_unknown hknown) hset
    have hagree := settle_iff.mp ⟨hset, htype, htype ▸ hsettled⟩
    rw [List.map_map] at hagree
    exact ⟨_, htypes, hagree⟩
  · rintro ⟨type, htypes, hagree⟩
    have hparts := fun e he => (hes e he (type e)).mpr (htypes e he)
    have hmap : (es.map fun e => (arith table policy e).value).map Arith.type = es.map type := by
      rw [List.map_map]
      exact List.map_congr_left fun e he => (hparts e he).2
    have hset := settle_iff.mpr (hmap ▸ hagree)
    exact ⟨fun e he => (hparts e he).1, hset.1, hset.2.1⟩

variable (policy) in
theorem arith_iff (hd : Describes table networks)
    (hknown : ∀ n ∈ networks, ∀ d ∈ n.declarations, d.type ≠ .unknown) {e : Expr} (he : e.Built) :
    ∀ t, (arith table policy e).diagnostics = [] ∧ (arith table policy e).value.type = t ↔
      HasType networks e t := by
  induction he with
  | var name indices s =>
    intro t
    rw [arith_var, reference_iff hd]
    constructor
    · rintro ⟨d, href, hfit, rfl⟩
      exact .var href hfit
    · intro h
      cases h with
      | var href hfit => exact ⟨_, href, hfit, rfl⟩
  | int lexeme value s =>
    intro t
    simp only [arith_int, diagnostics_pure, value_pure, Arith.type, true_and]
    constructor
    · rintro rfl
      exact .int (intKind_iff.mp rfl)
    · intro h
      cases h with
      | int hk => rw [intKind_iff.mpr hk]
  | float lexeme value s =>
    intro t
    simp only [arith_float, diagnostics_pure, value_pure, Arith.type, true_and]
    constructor
    · rintro rfl
      exact .float ..
    · intro h
      cases h
      rfl
  | @compound s k es e happ _ ih =>
    intro t
    have hset := fun u => settle_operands (t := u) hknown happ.ne_nil ih
    cases happ with
    | aggregate op _ =>
      simp only [arith_aggregate, aggregation, diagnostics_bind, ariths_diagnostics, ariths_value,
        diagnostics_pure, List.append_nil, List.append_eq_nil_iff, List.flatMap_eq_nil_iff,
        value_bind, value_pure, Arith.type, and_assoc]
      rw [hset]
      constructor
      · rintro ⟨type, htypes, hagree⟩
        exact .aggregate type htypes hagree
      · intro h
        cases h with
        | aggregate type htypes hagree => exact ⟨type, htypes, hagree⟩
    | negate e =>
      have hone := hset
      simp only [List.map_cons, List.map_nil, List.mem_singleton, forall_eq,
        Agrees.singleton_iff] at hone
      simp only [arith_negate, negation, diagnostics_bind, diagnostics_pure, List.append_nil,
        List.append_eq_nil_iff, value_bind, value_pure, Arith.type, and_assoc]
      constructor
      · rintro ⟨hclean, hsettled, rfl⟩
        obtain ⟨type, htype, hn, heq⟩ := (hone _).mp ⟨hclean, hsettled, rfl⟩
        rw [← heq]
        exact .negate htype hn
      · intro h
        cases h with
        | @negate _ _ u htype hn =>
          obtain ⟨hclean, hsettled, heq⟩ := (hone u).mpr ⟨fun _ => u, htype, hn, rfl⟩
          rw [heq]
          exact ⟨hclean, hsettled, rfl⟩
    | @minus r h hr =>
      have hall := hset t
      rw [List.map_cons, List.forall_mem_cons, and_assoc] at hall
      simp only [arith_minus, difference, diagnostics_bind, ariths_diagnostics, ariths_value,
        diagnostics_pure, List.append_nil, List.append_eq_nil_iff, List.flatMap_eq_nil_iff,
        value_bind, value_pure, Arith.type, and_assoc]
      rw [hall]
      constructor
      · rintro ⟨type, htypes, hagree⟩
        exact .minus type htypes hagree
      · intro h
        cases h with
        | minus type htypes hagree => exact ⟨type, htypes, hagree⟩
    | compare op l r =>
      have hbool := (arith_of_isBoolean table policy (e := .compare op l r s) rfl).2
      exact ⟨fun h => absurd h.1 hbool, fun h => by cases h⟩
    | connective op _ =>
      have hbool := (arith_of_isBoolean table policy (e := .connective op es s) rfl).2
      exact ⟨fun h => absurd h.1 hbool, fun h => by cases h⟩

/-! ## Formulas -/

theorem applyPolicy_iff {k : LiteralKind} {a b : Arith} {p : Position} :
    (applyPolicy policy k a b p).diagnostics = [] ↔
      policy = .keep ∨ ∃ t, policy = .adopt (.element t) ∧ k.admits t = true := by
  cases policy with
  | keep => simp [applyPolicy]
  | reject => simp [applyPolicy]
  | adopt t =>
    cases ht : t.adopted? k with
    | none =>
      have hnot : ∀ u, t = .element u → ¬k.admits u = true := fun u hu hk =>
        Option.some_ne_none u ((ValueType.adopted?_eq_some_iff.mpr ⟨hu, hk⟩).symm.trans ht)
      simpa [applyPolicy, ht] using hnot
    | some u =>
      obtain ⟨rfl, hk⟩ := ValueType.adopted?_eq_some_iff.mp ht
      simp [applyPolicy, ht, hk]

theorem reconcile_iff {a b : Arith} {p : Position} (ha : a.type ≠ .unknown)
    (hb : b.type ≠ .unknown) :
    (reconcile policy a b p).diagnostics = [] ↔ Comparable policy a.type b.type := by
  unfold reconcile
  generalize a.type = t at ha ⊢
  generalize b.type = u at hb ⊢
  cases t with
  | unknown => exact absurd rfl ha
  | element e =>
    cases u with
    | unknown => exact absurd rfl hb
    | element f =>
      rw [Comparable.elements_iff]
      by_cases hef : e = f <;> simp [ValueType.unify, hef]
    | literal k =>
      rw [Comparable.element_literal_iff]
      by_cases hk : k.admits e = true <;> simp [ValueType.unify, hk]
  | literal j =>
    cases u with
    | unknown => exact absurd rfl hb
    | element f =>
      rw [Comparable.literal_element_iff]
      by_cases hj : j.admits f = true <;> simp [ValueType.unify, hj]
    | literal k =>
      rw [Comparable.literals_iff, ← applyPolicy_iff]
      rfl

theorem formula_iff_of_sort {e : Expr} (h : e.isBoolean = false) :
    (formula table policy e).diagnostics = [] ↔ WellFormed networks policy e := by
  constructor
  · intro hclean
    exact absurd hclean (formula_of_not_isBoolean table policy h).2
  · intro hwf
    cases hwf <;> cases h

theorem formula_iff (hd : Describes table networks)
    (hknown : ∀ n ∈ networks, ∀ d ∈ n.declarations, d.type ≠ .unknown) {e : Expr} (he : e.Built) :
    (formula table policy e).diagnostics = [] ↔ WellFormed networks policy e := by
  induction he with
  | var _ _ _ => exact formula_iff_of_sort rfl
  | int _ _ _ => exact formula_iff_of_sort rfl
  | float _ _ _ => exact formula_iff_of_sort rfl
  | @compound s k es e happ hes ih =>
    cases happ with
    | compare op l r =>
      have hl := arith_iff policy hd hknown (hes l (by simp))
      have hr := arith_iff policy hd hknown (hes r (by simp))
      simp only [formula_compare, comparison, diagnostics_bind, diagnostics_pure, List.append_nil,
        List.append_eq_nil_iff]
      constructor
      · rintro ⟨hcl, hcr, hrec⟩
        have htl := (hl _).mp ⟨hcl, rfl⟩
        have htr := (hr _).mp ⟨hcr, rfl⟩
        exact .compare htl htr
          ((reconcile_iff (htl.ne_unknown hknown) (htr.ne_unknown hknown)).mp hrec)
      · intro h
        cases h with
        | compare htl htr hc =>
          obtain ⟨hcl, hel⟩ := (hl _).mpr htl
          obtain ⟨hcr, her⟩ := (hr _).mpr htr
          refine ⟨hcl, hcr, (reconcile_iff ?_ ?_).mpr ?_⟩
          · rw [hel]
            exact htl.ne_unknown hknown
          · rw [her]
            exact htr.ne_unknown hknown
          · rwa [hel, her]
    | connective op _ =>
      simp only [formula_connective, diagnostics_bind, diagnostics_pure, List.append_nil,
        formulas_diagnostics, List.flatMap_eq_nil_iff]
      constructor
      · intro h
        exact .connective fun f hf => (ih f hf).mp (h f hf)
      · intro h
        cases h with
        | connective hall => exact fun f hf => (ih f hf).mpr (hall f hf)
    | aggregate _ _ => exact formula_iff_of_sort rfl
    | negate _ => exact formula_iff_of_sort rfl
    | minus _ _ => exact formula_iff_of_sort rfl

end Typing
end NeuralQuery
