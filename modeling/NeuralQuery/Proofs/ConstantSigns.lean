import NeuralQuery.Proofs.Reports

/-!
# NeuralQuery.Proofs.ConstantSigns

Integer literals under negations, sums, products and differences, their values and their kinds.

The kind of such an expression is found from the kinds of its operands alone: a negation swaps the
two, and any other form is negative as soon as one of its operands is (`Expr.kind`). That is no rule
of signs: a difference of two positive literals counts as positive, and a product of two negative
ones as negative. `Expr.KeepsSign` leaves such forms out. It does not leave out too much: the kinds
in an expression tell the signs whatever the digits of its literals are, exactly if it holds
(`Expr.keepsSign_iff`).
-/

namespace NeuralQuery

open Typing (intKind)

def Aggregate.total : Aggregate → List Int → Int
  | sum, vs => vs.foldr (· + ·) 0
  | product, vs => vs.foldr (· * ·) 1

/-- What the kind of an integer says about its sign. -/
def LiteralKind.Tells : LiteralKind → Int → Prop
  | positiveInt, v => 0 ≤ v
  | negativeInt, v => v ≤ 0
  | float, _ => False

namespace Expr

/-! ## Constants -/

/-- Integer literals, each with the value that it spells, under arithmetic forms. -/
inductive IsConstant : Expr → Prop where
  | int {lexeme : String} {value : Int64} {s : Span} :
      SpellsInt lexeme.toList value.toInt → IsConstant (.int lexeme value s)
  | negate {e : Expr} {s : Span} : IsConstant e → IsConstant (.negate e s)
  | aggregate {op : Aggregate} {es : List Expr} {s : Span} :
      es ≠ [] → (∀ e ∈ es, IsConstant e) → IsConstant (.aggregate op es s)
  | minus {h : Expr} {r : List Expr} {s : Span} :
      r ≠ [] → (∀ e ∈ h :: r, IsConstant e) → IsConstant (.minus h r s)

mutual

/-- The value of a constant over the integers. -/
def integer : Expr → Int
  | int _ value _ => value.toInt
  | negate e _ => -e.integer
  | aggregate op es _ => op.total (integers es)
  | minus h r _ => h.integer - Aggregate.sum.total (integers r)
  | var .. => 0
  | float .. => 0
  | compare .. => 0
  | connective .. => 0

def integers : List Expr → List Int
  | [] => []
  | e :: es => e.integer :: integers es

end

mutual

/-- The kind of a constant. -/
def kind : Expr → LiteralKind
  | int lexeme _ _ => intKind lexeme
  | negate e _ => e.kind.negate
  | aggregate _ es _ => kinds es
  | minus h r _ => h.kind.join (kinds r)
  | var .. => .float
  | float .. => .float
  | compare .. => .float
  | connective .. => .float

/-- The most demanding of the kinds of operands. -/
def kinds : List Expr → LiteralKind
  | [] => .positiveInt
  | e :: es => e.kind.join (kinds es)

end

theorem integers_eq_map (es : List Expr) : integers es = es.map integer := by
  induction es with
  | nil => rfl
  | cons e es ih => rw [integers, ih, List.map_cons]

/-! ## Kinds -/

theorem kinds_positive {es : List Expr} (h : ∀ e ∈ es, e.kind = .positiveInt) :
    kinds es = .positiveInt := by
  induction es with
  | nil => rfl
  | cons e es ih =>
    obtain ⟨he, hes⟩ := List.forall_mem_cons.mp h
    rw [kinds, he, ih hes]
    rfl

theorem kinds_ne_float {es : List Expr} (h : ∀ e ∈ es, e.kind ≠ .float) : kinds es ≠ .float := by
  induction es with
  | nil => simp [kinds]
  | cons e es ih =>
    obtain ⟨he, hes⟩ := List.forall_mem_cons.mp h
    rw [kinds]
    rcases LiteralKind.join_eq_or e.kind (kinds es) with hjoin | hjoin
    · rwa [hjoin]
    · rw [hjoin]
      exact ih hes

theorem rank_le_kinds {es : List Expr} {e : Expr} (he : e ∈ es) :
    e.kind.rank ≤ (kinds es).rank := by
  induction es with
  | nil => cases he
  | cons f es ih =>
    rw [kinds]
    rcases List.mem_cons.mp he with rfl | he
    · exact LiteralKind.rank_join_left _ _
    · exact Nat.le_trans (ih he) (LiteralKind.rank_join_right _ _)

theorem kinds_negative {es : List Expr} (h : ∀ e ∈ es, e.kind ≠ .float) {e : Expr} (he : e ∈ es)
    (hneg : e.kind = .negativeInt) : kinds es = .negativeInt := by
  have hfloat := kinds_ne_float h
  have hrank := rank_le_kinds he
  rw [hneg] at hrank
  cases hk : kinds es with
  | float => exact absurd hk hfloat
  | negativeInt => rfl
  | positiveInt =>
    rw [hk] at hrank
    simp [LiteralKind.rank] at hrank

theorem kinds_singleton (e : Expr) : kinds [e] = e.kind := by
  rw [kinds, kinds]
  cases e.kind <;> rfl

theorem exists_mem_kinds {es : List Expr} (hne : es ≠ []) : ∃ e ∈ es, e.kind = kinds es := by
  induction es with
  | nil => exact absurd rfl hne
  | cons e es ih =>
    by_cases hes : es = []
    · subst hes
      exact ⟨e, List.mem_singleton_self e, (kinds_singleton e).symm⟩
    · obtain ⟨f, hf, hkind⟩ := ih hes
      rw [kinds]
      rcases LiteralKind.join_eq_or e.kind (kinds es) with hjoin | hjoin
      · exact ⟨e, List.mem_cons_self, hjoin.symm⟩
      · exact ⟨f, List.mem_cons_of_mem _ hf, hkind.trans hjoin.symm⟩

/-- Operands of literal kinds agree on the most demanding one. -/
theorem kinds_agrees {es : List Expr} (hne : es ≠ []) :
    Agrees (es.map fun e => .literal e.kind) (.literal (kinds es)) := by
  obtain ⟨e, he, hkind⟩ := exists_mem_kinds hne
  refine .literal (List.mem_map.mpr ⟨e, he, by rw [hkind]⟩) fun u hu => ?_
  obtain ⟨f, hf, rfl⟩ := List.mem_map.mp hu
  exact ⟨f.kind, rfl, rank_le_kinds hf⟩

theorem IsConstant.kind_ne_float {e : Expr} (h : e.IsConstant) : e.kind ≠ .float := by
  induction h with
  | int _ =>
    rw [kind, intKind]
    split <;> simp
  | @negate e _ _ ih =>
    rw [kind]
    cases hk : e.kind with
    | float => exact absurd hk ih
    | negativeInt => simp [LiteralKind.negate]
    | positiveInt => simp [LiteralKind.negate]
  | aggregate _ _ ih =>
    rw [kind]
    exact kinds_ne_float ih
  | @minus h r _ _ _ ih =>
    rw [kind, ← kinds]
    exact kinds_ne_float ih

end Expr

/-! ## The types of constants -/

namespace Typing

open Typed
open Checked

variable {table : SymbolTable} {policy : LiteralPolicy}

theorem settle_constants {es : List Expr} (hne : es ≠ [])
    (h : ∀ e ∈ es, (arith table policy e).value.type = .literal e.kind) :
    (settle (es.map fun e => (arith table policy e).value)).diagnostics = [] ∧
      (settle (es.map fun e => (arith table policy e).value)).value.type =
        .literal (Expr.kinds es) := by
  have htypes : (es.map fun e => (arith table policy e).value).map Arith.type =
      es.map fun e => .literal e.kind := by
    rw [List.map_map]
    exact List.map_congr_left h
  have hset := settle_iff.mpr (htypes ▸ Expr.kinds_agrees hne)
  exact ⟨hset.1, hset.2.1⟩

variable (table policy) in
/-- Nothing is reported of a constant, and its type is its kind. -/
theorem arith_constant {e : Expr} (h : e.IsConstant) :
    (arith table policy e).diagnostics = [] ∧
      (arith table policy e).value.type = .literal e.kind := by
  induction h with
  | int _ => simp [arith_int, Arith.type, Expr.kind]
  | @negate e s _ ih =>
    obtain ⟨hclean, htype⟩ := settle_constants (List.cons_ne_nil e []) (by simpa using ih.2)
    rw [List.map_singleton] at hclean htype
    simp only [arith_negate, negation, diagnostics_bind, diagnostics_pure, value_bind, value_pure,
      Arith.type, ih.1, hclean, htype, Expr.kinds_singleton, Expr.kind, ValueType.negate,
      List.append_nil, and_self]
  | @aggregate op es s hne _ ih =>
    obtain ⟨hclean, htype⟩ := settle_constants hne fun e he => (ih e he).2
    have hes : es.flatMap (fun e => (arith table policy e).diagnostics) = [] :=
      List.flatMap_eq_nil_iff.mpr fun e he => (ih e he).1
    simp only [arith_aggregate, aggregation, diagnostics_bind, diagnostics_pure, value_bind,
      value_pure, ariths_value, ariths_diagnostics, Arith.type, hes, hclean, htype, Expr.kind,
      List.append_nil, and_self]
  | @minus h r s hne _ ih =>
    obtain ⟨hclean, htype⟩ := settle_constants (List.cons_ne_nil h r) fun e he => (ih e he).2
    obtain ⟨hhead, hrest⟩ := List.forall_mem_cons.mp ih
    have hes : r.flatMap (fun e => (arith table policy e).diagnostics) = [] :=
      List.flatMap_eq_nil_iff.mpr fun e he => (hrest e he).1
    rw [List.map_cons] at hclean htype
    simp only [arith_minus, difference, diagnostics_bind, diagnostics_pure, value_bind,
      value_pure, ariths_value, ariths_diagnostics, Arith.type, hes, hhead.1, hclean, htype,
      Expr.kind, Expr.kinds, List.append_nil, and_self]

end Typing

/-! ## Signs of sums and products -/

namespace LiteralKind.Tells

variable {k : LiteralKind}

theorem negate {v : Int} (h : k.Tells v) : k.negate.Tells (-v) := by
  cases k with
  | float => exact h
  | negativeInt => exact Int.neg_nonneg_of_nonpos h
  | positiveInt => exact Int.neg_nonpos_of_nonneg h

theorem sum (hk : k ≠ .float) {vs : List Int} (h : ∀ v ∈ vs, k.Tells v) :
    k.Tells (Aggregate.sum.total vs) := by
  induction vs with
  | nil =>
    cases k with
    | float => exact absurd rfl hk
    | negativeInt => exact Int.le_refl 0
    | positiveInt => exact Int.le_refl 0
  | cons v vs ih =>
    obtain ⟨hv, hvs⟩ := List.forall_mem_cons.mp h
    have hrest := ih hvs
    rw [Aggregate.total, List.foldr_cons, ← Aggregate.total]
    cases k with
    | float => exact absurd rfl hk
    | negativeInt =>
      simp only [Tells] at hv hrest ⊢
      omega
    | positiveInt =>
      simp only [Tells] at hv hrest ⊢
      omega

/-- A sum of numbers with one sign vanishes only if all of them do. -/
theorem sum_ne_zero {vs : List Int} (h : ∀ v ∈ vs, k.Tells v) (hne : vs ≠ [])
    (hzero : ∀ v ∈ vs, v ≠ 0) : Aggregate.sum.total vs ≠ 0 := by
  cases vs with
  | nil => exact absurd rfl hne
  | cons v vs =>
    obtain ⟨hv, hvs⟩ := List.forall_mem_cons.mp h
    have hv' := hzero v List.mem_cons_self
    have hk : k ≠ .float := by
      rintro rfl
      exact hv
    have hrest := sum hk hvs
    rw [Aggregate.total, List.foldr_cons, ← Aggregate.total]
    cases k with
    | float => exact absurd rfl hk
    | negativeInt =>
      simp only [Tells] at hv hrest
      omega
    | positiveInt =>
      simp only [Tells] at hv hrest
      omega

end LiteralKind.Tells

theorem Aggregate.sum_append (vs ws : List Int) :
    sum.total (vs ++ ws) = sum.total vs + sum.total ws := by
  induction vs with
  | nil => simp [total]
  | cons v vs ih =>
    simp only [total, List.cons_append, List.foldr_cons] at ih ⊢
    omega

theorem Aggregate.sum_zeros {vs : List Int} (h : ∀ v ∈ vs, v = 0) : sum.total vs = 0 := by
  induction vs with
  | nil => rfl
  | cons v vs ih =>
    obtain ⟨hv, hvs⟩ := List.forall_mem_cons.mp h
    rw [total, List.foldr_cons, ← total, ih hvs, hv]
    rfl

theorem Aggregate.product_ne_zero {vs : List Int} (h : ∀ v ∈ vs, v ≠ 0) : product.total vs ≠ 0 := by
  induction vs with
  | nil => decide
  | cons v vs ih =>
    obtain ⟨hv, hvs⟩ := List.forall_mem_cons.mp h
    exact Int.mul_ne_zero hv (ih hvs)

namespace Expr

/-- The number of operands that count as negative. -/
def negatives (es : List Expr) : Nat :=
  es.countP fun e => e.kind == .negativeInt

/-- The sign of a product of operands whose kinds tell their signs. -/
theorem product_sign {es : List Expr} (h : ∀ e ∈ es, e.kind.Tells e.integer) :
    (negatives es % 2 = 0 → 0 ≤ Aggregate.product.total (es.map integer)) ∧
      (negatives es % 2 = 1 → Aggregate.product.total (es.map integer) ≤ 0) := by
  induction es with
  | nil => exact ⟨fun _ => by decide, fun hodd => by cases hodd⟩
  | cons e es ih =>
    obtain ⟨he, hes⟩ := List.forall_mem_cons.mp h
    obtain ⟨heven, hodd⟩ := ih hes
    rw [List.map_cons, Aggregate.total, List.foldr_cons, ← Aggregate.total]
    cases hk : e.kind with
    | float =>
      rw [hk] at he
      exact he.elim
    | positiveInt =>
      rw [hk] at he
      have hcount : negatives (e :: es) = negatives es := by simp [negatives, hk]
      rw [hcount]
      exact ⟨fun hn => Int.mul_nonneg he (heven hn),
        fun hn => Int.mul_nonpos_of_nonneg_of_nonpos he (hodd hn)⟩
    | negativeInt =>
      rw [hk] at he
      have hcount : negatives (e :: es) = negatives es + 1 := by simp [negatives, hk]
      rw [hcount]
      exact ⟨fun hn => Int.mul_nonneg_of_nonpos_of_nonpos he (hodd (by omega)),
        fun hn => Int.mul_nonpos_of_nonpos_of_nonneg he (heven (by omega))⟩

/-! ## Forms that keep the sign -/

/-- The kinds in an expression follow the rule of signs. Of the operands of a sum none or all count
as negative, of those of a product none or an odd number, and of those of a difference the first. -/
inductive KeepsSign : Expr → Prop where
  | int (lexeme : String) (value : Int64) (s : Span) : KeepsSign (.int lexeme value s)
  | negate {e : Expr} {s : Span} : KeepsSign e → KeepsSign (.negate e s)
  | sum {es : List Expr} {s : Span} :
      (∀ e ∈ es, KeepsSign e) → negatives es = 0 ∨ negatives es = es.length →
      KeepsSign (.aggregate .sum es s)
  | product {es : List Expr} {s : Span} :
      (∀ e ∈ es, KeepsSign e) → negatives es = 0 ∨ negatives es % 2 = 1 →
      KeepsSign (.aggregate .product es s)
  | minus {h : Expr} {r : List Expr} {s : Span} :
      (∀ e ∈ h :: r, KeepsSign e) → h.kind = .negativeInt → negatives r = 0 →
      KeepsSign (.minus h r s)

/-- Operands without a negative one are all positive. -/
theorem kind_of_negatives {es : List Expr} (hes : ∀ e ∈ es, e.IsConstant) (h : negatives es = 0) :
    ∀ e ∈ es, e.kind = .positiveInt := by
  intro e he
  have hnot := List.countP_eq_zero.mp h e he
  cases hk : e.kind with
  | float => exact absurd hk (hes e he).kind_ne_float
  | negativeInt => simp [hk] at hnot
  | positiveInt => rfl

/-- Operands none or all of which count as negative have one kind. -/
theorem kind_of_uniform {es : List Expr} (hes : ∀ e ∈ es, e.IsConstant)
    (h : negatives es = 0 ∨ negatives es = es.length) {f : Expr} (hf : f ∈ es) :
    ∀ e ∈ es, e.kind = f.kind := by
  intro e he
  rcases h with h | h
  · rw [kind_of_negatives hes h e he, kind_of_negatives hes h f hf]
  · have hall := List.countP_eq_length.mp h
    rw [beq_iff_eq.mp (hall e he), beq_iff_eq.mp (hall f hf)]

theorem exists_negative {es : List Expr} (h : negatives es ≠ 0) :
    ∃ e ∈ es, e.kind = .negativeInt := by
  obtain ⟨e, he, hk⟩ := List.countP_pos_iff.mp (Nat.pos_of_ne_zero h)
  exact ⟨e, he, beq_iff_eq.mp hk⟩

theorem kinds_of_negatives {es : List Expr} (hes : ∀ e ∈ es, e.IsConstant) :
    kinds es = if negatives es = 0 then .positiveInt else .negativeInt := by
  split
  · rename_i h
    exact kinds_positive (kind_of_negatives hes h)
  · rename_i h
    obtain ⟨e, he, hk⟩ := exists_negative h
    exact kinds_negative (fun f hf => (hes f hf).kind_ne_float) he hk

/-- Positive operands whose kinds tell their signs have no negative sum. -/
theorem sum_nonneg {es : List Expr} (hpos : ∀ e ∈ es, e.kind = .positiveInt)
    (h : ∀ e ∈ es, e.kind.Tells e.integer) : 0 ≤ Aggregate.sum.total (es.map integer) := by
  have htells : LiteralKind.positiveInt.Tells (Aggregate.sum.total (es.map integer)) :=
    LiteralKind.Tells.sum (by simp) (List.forall_mem_map.mpr fun e he => hpos e he ▸ h e he)
  exact htells

/-- A literal is written with a minus sign exactly if its value may be negative. -/
theorem intKind_tells {lexeme : String} {v : Int} (h : SpellsInt lexeme.toList v) :
    (intKind lexeme).Tells v := by
  unfold intKind
  generalize lexeme.toList = cs at h
  cases h with
  | @plain ds hd =>
    rw [if_neg]
    · exact Int.natCast_nonneg _
    · intro hhead
      obtain ⟨d, es, rfl⟩ := List.exists_cons_of_ne_nil hd.1
      obtain rfl := Option.some.inj hhead
      cases hd.2 '-' List.mem_cons_self
  | plus _ =>
    rw [if_neg (by simp)]
    exact Int.natCast_nonneg _
  | @minus ds _ =>
    have hhead : ('-' :: ds).head? = some '-' := rfl
    rw [if_pos hhead]
    exact Int.neg_nonpos_of_nonneg (Int.natCast_nonneg _)

/-- The kind of a constant that keeps the sign tells the sign of its value. -/
theorem KeepsSign.tells {e : Expr} (h : e.KeepsSign) (hc : e.IsConstant) :
    e.kind.Tells e.integer := by
  induction h with
  | int _ _ _ =>
    cases hc with
    | int hspells =>
      rw [kind, integer]
      exact intKind_tells hspells
  | negate _ ih =>
    cases hc with
    | negate hc =>
      rw [kind, integer]
      exact (ih hc).negate
  | @sum es s _ hcount ih =>
    cases hc with
    | aggregate hne hes =>
      obtain ⟨f, hf, hkinds⟩ := exists_mem_kinds hne
      have hk := kind_of_uniform hes hcount hf
      rw [kind, integer, integers_eq_map, ← hkinds]
      refine LiteralKind.Tells.sum (hes f hf).kind_ne_float (List.forall_mem_map.mpr fun e he => ?_)
      rw [← hk e he]
      exact ih e he (hes e he)
  | @product es s _ hcount ih =>
    cases hc with
    | aggregate hne hes =>
      obtain ⟨heven, hodd⟩ := product_sign fun e he => ih e he (hes e he)
      rw [kind, integer, integers_eq_map, kinds_of_negatives hes]
      rcases hcount with hcount | hcount
      · rw [if_pos hcount]
        exact heven (by rw [hcount])
      · rw [if_neg (by omega)]
        exact hodd hcount
  | @minus h r s _ hneg hcount ih =>
    cases hc with
    | minus hne hes =>
      obtain ⟨hh, hr⟩ := List.forall_mem_cons.mp hes
      have hpos := kind_of_negatives hr hcount
      have hhead : h.integer ≤ 0 := by
        have htells := ih h List.mem_cons_self hh
        rwa [hneg] at htells
      have hrest := sum_nonneg hpos fun e he => ih e (List.mem_cons_of_mem h he) (hr e he)
      rw [kind, integer, integers_eq_map, kinds_positive hpos, hneg]
      show h.integer - _ ≤ 0
      omega

theorem keepsSign_negate {e : Expr} {s : Span} : (negate e s).KeepsSign ↔ e.KeepsSign := by
  constructor
  · intro h
    cases h with
    | negate h => exact h
  · exact .negate

theorem keepsSign_sum {es : List Expr} {s : Span} : (aggregate .sum es s).KeepsSign ↔
    (∀ e ∈ es, e.KeepsSign) ∧ (negatives es = 0 ∨ negatives es = es.length) := by
  constructor
  · intro h
    cases h with
    | sum hes hcount => exact ⟨hes, hcount⟩
  · exact fun h => .sum h.1 h.2

theorem keepsSign_product {es : List Expr} {s : Span} : (aggregate .product es s).KeepsSign ↔
    (∀ e ∈ es, e.KeepsSign) ∧ (negatives es = 0 ∨ negatives es % 2 = 1) := by
  constructor
  · intro h
    cases h with
    | product hes hcount => exact ⟨hes, hcount⟩
  · exact fun h => .product h.1 h.2

theorem keepsSign_minus {h : Expr} {r : List Expr} {s : Span} : (minus h r s).KeepsSign ↔
    (∀ e ∈ h :: r, e.KeepsSign) ∧ h.kind = .negativeInt ∧ negatives r = 0 := by
  constructor
  · intro h
    cases h with
    | minus hes hneg hcount => exact ⟨hes, hneg, hcount⟩
  · exact fun h => .minus h.1 h.2.1 h.2.2

theorem KeepsSign.operand {e f : Expr} (h : e.KeepsSign) (hf : f ∈ e.operands) : f.KeepsSign := by
  cases h with
  | int _ _ _ => cases hf
  | negate h => rwa [List.mem_singleton.mp hf]
  | sum hes _ => exact hes f hf
  | product hes _ => exact hes f hf
  | minus hes _ _ => exact hes f hf

theorem KeepsSign.within {e f : Expr} (h : e.KeepsSign) (hf : f.Within e) : f.KeepsSign := by
  induction hf with
  | refl => exact h
  | operand hg _ ih => exact ih (h.operand hg)

/-! ## Other digits -/

/-- A literal of this kind with the value zero or one, up to its sign. -/
def digit (one : Bool) : LiteralKind → String × Int64
  | .negativeInt => if one then ("-1", -1) else ("-0", 0)
  | _ => if one then ("1", 1) else ("0", 0)

mutual

/-- The expression with zeros or ones for its integer literals, which keep their signs. -/
def refill (one : Bool) : Expr → Expr
  | int lexeme _ s => int (digit one (intKind lexeme)).1 (digit one (intKind lexeme)).2 s
  | negate e s => negate (e.refill one) s
  | aggregate op es s => aggregate op (refills one es) s
  | minus h r s => minus (h.refill one) (refills one r) s
  | var name indices s => var name indices s
  | float lexeme value s => float lexeme value s
  | compare op l r s => compare op l r s
  | connective op es s => connective op es s

def refills (one : Bool) : List Expr → List Expr
  | [] => []
  | e :: es => e.refill one :: refills one es

end

/-- Two expressions differ only in the digits of integer literals. -/
def Alike (e f : Expr) : Prop :=
  e.refill false = f.refill false

theorem refills_eq_map (one : Bool) (es : List Expr) : refills one es = es.map (refill one) := by
  induction es with
  | nil => rfl
  | cons e es ih => rw [refills, ih, List.map_cons]

theorem intKind_digit (one : Bool) (lexeme : String) :
    intKind (digit one (intKind lexeme)).1 = intKind lexeme := by
  generalize hk : intKind lexeme = k
  unfold intKind at hk
  split at hk <;> subst hk <;> cases one <;> decide

theorem digit_spells (one : Bool) (k : LiteralKind) :
    SpellsInt (digit one k).1.toList (digit one k).2.toInt := by
  refine Number.int64?_eq_some_iff.mp ?_
  cases one <;> cases k <;> decide

theorem kinds_congr {es fs : List Expr} (h : es.map kind = fs.map kind) : kinds es = kinds fs := by
  induction es generalizing fs with
  | nil =>
    rw [List.map_nil] at h
    rw [List.map_eq_nil_iff.mp h.symm]
  | cons e es ih =>
    obtain ⟨f, gs, rfl, hf, hgs⟩ := List.map_eq_cons_iff.mp h.symm
    rw [kinds, kinds, ih hgs.symm, hf]

theorem kind_refill (one : Bool) (e : Expr) : (e.refill one).kind = e.kind := by
  induction e using Expr.inductOn with
  | int lexeme value s => exact intKind_digit one lexeme
  | negate e s ih => rw [refill, kind, kind, ih]
  | aggregate op es s ih =>
    rw [refill, kind, kind, refills_eq_map]
    exact kinds_congr (by simpa using ih)
  | minus h r s ihh ihr =>
    rw [refill, kind, kind, refills_eq_map, ihh]
    exact congrArg _ (kinds_congr (by simpa using ihr))
  | _ => rfl

theorem Alike.kind {e f : Expr} (h : e.Alike f) : e.kind = f.kind := by
  rw [← kind_refill false e, h, kind_refill]

theorem refill_refill (one other : Bool) (e : Expr) :
    (e.refill one).refill other = e.refill other := by
  induction e using Expr.inductOn with
  | int lexeme value s => simp only [refill, intKind_digit]
  | negate e s ih => rw [refill, refill, refill, ih]
  | aggregate op es s ih =>
    simp only [refill, refills_eq_map, List.map_map]
    exact congrArg (aggregate op · s) (List.map_congr_left ih)
  | minus h r s ihh ihr =>
    simp only [refill, refills_eq_map, List.map_map, ihh]
    exact congrArg (minus _ · s) (List.map_congr_left ihr)
  | _ => rfl

theorem IsConstant.refill {e : Expr} (h : e.IsConstant) (one : Bool) :
    (e.refill one).IsConstant := by
  induction h with
  | int _ => exact .int (digit_spells one _)
  | negate _ ih => exact .negate ih
  | aggregate hne _ ih =>
    rw [Expr.refill, refills_eq_map]
    exact .aggregate (by simpa using hne) (List.forall_mem_map.mpr ih)
  | minus hne _ ih =>
    rw [Expr.refill, refills_eq_map]
    exact .minus (by simpa using hne) (by rw [← List.map_cons]; exact List.forall_mem_map.mpr ih)

theorem negatives_refill (one : Bool) (es : List Expr) :
    negatives (es.map (refill one)) = negatives es := by
  simp [negatives, List.countP_map, Function.comp_def, kind_refill]

theorem keepsSign_refill (one : Bool) {e : Expr} : (e.refill one).KeepsSign ↔ e.KeepsSign := by
  induction e using Expr.inductOn with
  | int lexeme value s => exact ⟨fun _ => .int .., fun _ => .int ..⟩
  | negate e s ih => rw [refill, keepsSign_negate, keepsSign_negate, ih]
  | aggregate op es s ih =>
    have hes : (∀ e ∈ es.map (refill one), e.KeepsSign) ↔ ∀ e ∈ es, e.KeepsSign := by
      rw [List.forall_mem_map]
      exact forall₂_congr ih
    rw [refill, refills_eq_map]
    cases op with
    | sum => rw [keepsSign_sum, keepsSign_sum, hes, negatives_refill, List.length_map]
    | product => rw [keepsSign_product, keepsSign_product, hes, negatives_refill]
  | minus h r s ihh ihr =>
    have hes : (∀ e ∈ h.refill one :: r.map (refill one), e.KeepsSign) ↔
        ∀ e ∈ h :: r, e.KeepsSign := by
      rw [List.forall_mem_cons, List.forall_mem_cons, List.forall_mem_map, ihh]
      exact and_congr_right fun _ => forall₂_congr ihr
    rw [refill, refills_eq_map, keepsSign_minus, keepsSign_minus, hes, kind_refill,
      negatives_refill]
  | _ => rfl

theorem KeepsSign.alike {e f : Expr} (h : f.KeepsSign) (he : e.Alike f) : e.KeepsSign := by
  rw [← keepsSign_refill false, he]
  exact (keepsSign_refill false).mpr h

theorem refill_alike (one : Bool) (e : Expr) : (e.refill one).Alike e :=
  refill_refill one false e

theorem aggregate_alike {es gs : List Expr} (h : gs.map (refill false) = es.map (refill false))
    (op : Aggregate) (s : Span) : (aggregate op gs s).Alike (aggregate op es s) := by
  rw [Alike, refill, refill, refills_eq_map, refills_eq_map, h]

theorem minus_alike {h g : Expr} (hhead : g.Alike h) {r gs : List Expr}
    (hrest : gs.map (refill false) = r.map (refill false)) (s : Span) :
    (minus g gs s).Alike (minus h r s) := by
  rw [Alike, refill, refill, refills_eq_map, refills_eq_map, hrest, hhead]

/-! ## Digits that show the sign -/

/-- With zeros for all literals the value is zero. -/
theorem IsConstant.integer_zeros {e : Expr} (h : e.IsConstant) : (e.refill false).integer = 0 := by
  induction h with
  | @int lexeme _ _ _ =>
    rw [Expr.refill, integer]
    cases intKind lexeme <;> rfl
  | negate _ ih => rw [Expr.refill, integer, ih, Int.neg_zero]
  | @aggregate op es s hne _ ih =>
    have hzeros : ∀ v ∈ (es.map (Expr.refill false)).map integer, v = 0 := by
      simpa using ih
    rw [Expr.refill, integer, integers_eq_map, refills_eq_map]
    cases op with
    | sum => exact Aggregate.sum_zeros hzeros
    | product =>
      obtain ⟨e, es, rfl⟩ := List.exists_cons_of_ne_nil hne
      rw [List.map_cons, List.map_cons, ih e List.mem_cons_self]
      exact Int.zero_mul _
  | @minus h r s _ _ ih =>
    obtain ⟨hh, hr⟩ := List.forall_mem_cons.mp ih
    have hzeros : ∀ v ∈ (r.map (Expr.refill false)).map integer, v = 0 := by
      simpa using hr
    rw [Expr.refill, integer, integers_eq_map, refills_eq_map, hh, Aggregate.sum_zeros hzeros]
    rfl

theorem KeepsSign.tells_refill {e : Expr} (h : e.KeepsSign) (hc : e.IsConstant) (one : Bool) :
    e.kind.Tells (e.refill one).integer := by
  rw [← kind_refill one]
  exact ((keepsSign_refill one).mpr h).tells (hc.refill one)

/-- With ones for all literals the value is not zero. -/
theorem KeepsSign.integer_ones {e : Expr} (h : e.KeepsSign) (hc : e.IsConstant) :
    (e.refill true).integer ≠ 0 := by
  induction h with
  | int lexeme _ _ =>
    rw [Expr.refill, integer]
    cases intKind lexeme <;> decide
  | negate _ ih =>
    cases hc with
    | negate hc =>
      rw [Expr.refill, integer]
      exact Int.neg_ne_zero.mpr (ih hc)
  | @sum es s hes hcount ih =>
    cases hc with
    | aggregate hne hconst =>
      obtain ⟨f, hf⟩ := List.exists_mem_of_ne_nil es hne
      have hk := kind_of_uniform hconst hcount hf
      rw [Expr.refill, integer, integers_eq_map, refills_eq_map, List.map_map]
      refine LiteralKind.Tells.sum_ne_zero (k := f.kind) ?_ (by simpa using hne) ?_
      · refine List.forall_mem_map.mpr fun e he => ?_
        rw [← hk e he]
        exact (hes e he).tells_refill (hconst e he) true
      · exact List.forall_mem_map.mpr fun e he => ih e he (hconst e he)
  | @product es s hes _ ih =>
    cases hc with
    | aggregate _ hconst =>
      rw [Expr.refill, integer, integers_eq_map, refills_eq_map, List.map_map]
      exact Aggregate.product_ne_zero (List.forall_mem_map.mpr fun e he => ih e he (hconst e he))
  | @minus h r s hes hneg hcount ih =>
    cases hc with
    | minus _ hconst =>
      obtain ⟨hh, hr⟩ := List.forall_mem_cons.mp hconst
      obtain ⟨hhk, hrk⟩ := List.forall_mem_cons.mp hes
      have hhead : (h.refill true).integer ≤ 0 := by
        have htells := hhk.tells_refill hh true
        rwa [hneg] at htells
      have hnonzero := ih h List.mem_cons_self hh
      have hrest : 0 ≤ Aggregate.sum.total ((r.map (Expr.refill true)).map integer) := by
        refine sum_nonneg (List.forall_mem_map.mpr fun e he => ?_)
          (List.forall_mem_map.mpr fun e he => ?_)
        · rw [kind_refill]
          exact kind_of_negatives hr hcount e he
        · rw [kind_refill]
          exact (hrk e he).tells_refill (hr e he) true
      rw [Expr.refill, integer, integers_eq_map, refills_eq_map]
      omega

theorem KeepsSign.ones_pos {e : Expr} (h : e.KeepsSign) (hc : e.IsConstant)
    (hk : e.kind = .positiveInt) : 0 < (e.refill true).integer := by
  have htells := h.tells_refill hc true
  have hnonzero := h.integer_ones hc
  rw [hk] at htells
  simp only [LiteralKind.Tells] at htells
  omega

theorem KeepsSign.ones_neg {e : Expr} (h : e.KeepsSign) (hc : e.IsConstant)
    (hk : e.kind = .negativeInt) : (e.refill true).integer < 0 := by
  have htells := h.tells_refill hc true
  have hnonzero := h.integer_ones hc
  rw [hk] at htells
  simp only [LiteralKind.Tells] at htells
  omega

/-- Ones in one operand and zeros in all others leave the value of that operand. -/
theorem exists_alone {es : List Expr} (hes : ∀ e ∈ es, e.IsConstant) {e : Expr} (he : e ∈ es) :
    ∃ gs : List Expr, gs ≠ [] ∧ (∀ g ∈ gs, g.IsConstant) ∧
      gs.map (refill false) = es.map (refill false) ∧
      Aggregate.sum.total (gs.map integer) = (e.refill true).integer := by
  obtain ⟨front, back, rfl⟩ := List.append_of_mem he
  have hzeros : ∀ fs : List Expr, fs ⊆ front ++ e :: back →
      ∀ v ∈ (fs.map (refill false)).map integer, v = 0 := by
    intro fs hsub
    simpa using fun f hf => (hes f (hsub hf)).integer_zeros
  refine ⟨front.map (refill false) ++ e.refill true :: back.map (refill false), by simp, ?_, ?_, ?_⟩
  · intro g hg
    rcases List.mem_append.mp hg with hg | hg
    · obtain ⟨f, hf, rfl⟩ := List.mem_map.mp hg
      exact (hes f (List.mem_append_left _ hf)).refill false
    · rcases List.mem_cons.mp hg with rfl | hg
      · exact (hes e he).refill true
      · obtain ⟨f, hf, rfl⟩ := List.mem_map.mp hg
        exact (hes f (List.mem_append_right _ (List.mem_cons_of_mem e hf))).refill false
  · simp [refill_refill, Function.comp_def]
  · have hfront := Aggregate.sum_zeros (hzeros front (List.subset_append_left _ _))
    have hback := Aggregate.sum_zeros (hzeros back fun f hf =>
      List.mem_append_right _ (List.mem_cons_of_mem e hf))
    rw [List.map_append, List.map_cons, Aggregate.sum_append, hfront, Aggregate.total,
      List.foldr_cons, ← Aggregate.total, hback]
    omega

/-! ## Forms whose kind tells the sign -/

/-- Whatever the digits of its literals are, the kind tells the sign. -/
def TellsSign (e : Expr) : Prop :=
  ∀ g : Expr, g.IsConstant → g.Alike e → g.kind.Tells g.integer

theorem sum_uniform {es : List Expr} {s : Span} (h : (aggregate .sum es s).TellsSign)
    (hconst : ∀ e ∈ es, e.IsConstant) (hes : ∀ e ∈ es, e.KeepsSign) :
    negatives es = 0 ∨ negatives es = es.length := by
  by_contra hmixed
  obtain ⟨hsome, hnot⟩ := not_or.mp hmixed
  obtain ⟨e, he, hk⟩ : ∃ e ∈ es, e.kind = .positiveInt := by
    by_contra hnone
    refine hnot (List.countP_eq_length.mpr fun e he => ?_)
    cases hk : e.kind with
    | float => exact absurd hk (hconst e he).kind_ne_float
    | negativeInt => rfl
    | positiveInt => exact absurd ⟨e, he, hk⟩ hnone
  -- the sum counts as negative, but its positive operand alone makes it positive
  obtain ⟨gs, hgne, hgconst, hgs, hvalue⟩ := exists_alone hconst he
  have halike := aggregate_alike hgs .sum s
  have htells := h _ (.aggregate hgne hgconst) halike
  have hpos := (hes e he).ones_pos (hconst e he) hk
  rw [halike.kind, kind, kinds_of_negatives hconst, if_neg hsome, integer, integers_eq_map,
    hvalue] at htells
  simp only [LiteralKind.Tells] at htells
  omega

theorem product_odd {es : List Expr} {s : Span} (h : (aggregate .product es s).TellsSign)
    (hne : es ≠ []) (hconst : ∀ e ∈ es, e.IsConstant) (hes : ∀ e ∈ es, e.KeepsSign) :
    negatives es = 0 ∨ negatives es % 2 = 1 := by
  by_contra hmixed
  obtain ⟨hsome, hnot⟩ := not_or.mp hmixed
  have hproduct : (aggregate .product es s).IsConstant := .aggregate hne hconst
  have htells := h _ (hproduct.refill true) (refill_alike true _)
  have hones : ∀ e ∈ es.map (refill true), e.kind.Tells e.integer := by
    refine List.forall_mem_map.mpr fun e he => ?_
    rw [kind_refill]
    exact (hes e he).tells_refill (hconst e he) true
  have hsome' : ∀ v ∈ (es.map (refill true)).map integer, v ≠ 0 := by
    rw [List.map_map]
    exact List.forall_mem_map.mpr fun e he => (hes e he).integer_ones (hconst e he)
  have hnonzero := Aggregate.product_ne_zero hsome'
  have hsign := (product_sign hones).1
  rw [negatives_refill] at hsign
  rw [kind_refill, kind, kinds_of_negatives hconst, if_neg hsome, refill, integer, integers_eq_map,
    refills_eq_map] at htells
  have hpos := hsign (by omega)
  simp only [LiteralKind.Tells] at htells
  omega

/-- Zeros for all other operands leave the opposite of one that is subtracted. -/
theorem TellsSign.minus_rest {h : Expr} {r : List Expr} {s : Span}
    (htells : (Expr.minus h r s).TellsSign) (hconst : ∀ e ∈ h :: r, e.IsConstant) {e : Expr}
    (he : e ∈ r) : (h.kind.join (kinds r)).Tells (-(e.refill true).integer) := by
  obtain ⟨hh, hr⟩ := List.forall_mem_cons.mp hconst
  obtain ⟨gs, hgne, hgconst, hgs, hvalue⟩ := exists_alone hr he
  have halike := minus_alike (refill_alike false h) hgs s
  have hfilled := htells _
    (.minus hgne (List.forall_mem_cons.mpr ⟨hh.refill false, hgconst⟩)) halike
  rwa [halike.kind, kind, integer, integers_eq_map, hh.integer_zeros, hvalue, Int.zero_sub]
    at hfilled

theorem minus_signs {h : Expr} {r : List Expr} {s : Span} (htells : (minus h r s).TellsSign)
    (hne : r ≠ []) (hconst : ∀ e ∈ h :: r, e.IsConstant) (hes : ∀ e ∈ h :: r, e.KeepsSign) :
    h.kind = .negativeInt ∧ negatives r = 0 := by
  obtain ⟨hh, hr⟩ := List.forall_mem_cons.mp hconst
  have hrk := (List.forall_mem_cons.mp hes).2
  have hrest : ∀ e ∈ r, (h.kind.join (kinds r)).Tells (-(e.refill true).integer) :=
    fun e he => htells.minus_rest hconst he
  rw [kinds_of_negatives hr] at hrest
  by_cases hcount : negatives r = 0
  · rw [if_pos hcount] at hrest
    refine ⟨?_, hcount⟩
    cases hk : h.kind with
    | float => exact absurd hk hh.kind_ne_float
    | negativeInt => rfl
    | positiveInt =>
      -- the difference counts as positive, but any operand that is subtracted makes it negative
      rw [hk] at hrest
      obtain ⟨e, he⟩ := List.exists_mem_of_ne_nil r hne
      have hpos := (hrk e he).ones_pos (hr e he) (kind_of_negatives hr hcount e he)
      have hfilled : 0 ≤ -(e.refill true).integer := hrest e he
      omega
  · -- it counts as negative, but a negative operand that is subtracted makes it positive
    rw [if_neg hcount] at hrest
    obtain ⟨e, he, hk⟩ := exists_negative hcount
    have hneg := (hrk e he).ones_neg (hr e he) hk
    have hjoin : h.kind.join .negativeInt = .negativeInt := by
      cases hk : h.kind with
      | float => exact absurd hk hh.kind_ne_float
      | negativeInt => rfl
      | positiveInt => rfl
    have hfilled : -(e.refill true).integer ≤ 0 := by
      have hfilled := hrest e he
      rwa [hjoin] at hfilled
    omega

theorem keepsSign_iff {e : Expr} (hc : e.IsConstant) :
    e.KeepsSign ↔ ∀ f : Expr, f.Within e → f.TellsSign := by
  constructor
  · intro h f hf g hg halike
    exact ((h.within hf).alike halike).tells hg
  · intro h
    induction hc with
    | int _ => exact .int ..
    | negate _ ih => exact .negate (ih fun f hf => h f (.operand (List.mem_singleton_self _) hf))
    | @aggregate op es s hne hconst ih =>
      have hes : ∀ e ∈ es, e.KeepsSign := fun e he => ih e he fun f hf => h f (.operand he hf)
      cases op with
      | sum => exact .sum hes (sum_uniform (h _ .refl) hconst hes)
      | product => exact .product hes (product_odd (h _ .refl) hne hconst hes)
    | @minus head r s hne hconst ih =>
      have hes : ∀ e ∈ head :: r, e.KeepsSign := fun e he =>
        ih e he fun f hf => h f (.operand he hf)
      obtain ⟨hneg, hcount⟩ := minus_signs (h _ .refl) hne hconst hes
      exact .minus hes hneg hcount

end Expr
end NeuralQuery
