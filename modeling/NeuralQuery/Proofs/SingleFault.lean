import NeuralQuery.Proofs.Pinning
import NeuralQuery.Proofs.Reports

/-!
# NeuralQuery.Proofs.SingleFault

One fault in a condition is reported once.

A path is a row of operand numbers that leads from an expression to one below it. Where a condition
was checked without a report, and the arithmetic at the end of a path is replaced by something that
is reported once and has no type, then nothing around it reports anything, and all arithmetic on
the path has the type `unknown`. Two facts carry this over the forms: operands that agreed still do
so without one of them (`settle_of_unknown`), and a side of type `unknown` shares the type of the
other one (`reconcile_of_unknown`).
-/

namespace NeuralQuery

/-! ## Paths -/

namespace Expr

/-- The form with one of its operands changed. -/
def modifyOperand (f : Expr → Expr) (i : Nat) : Expr → Expr
  | negate e s => if i = 0 then negate (f e) s else negate e s
  | aggregate op es s => aggregate op (es.modify i f) s
  | minus h r s => if i = 0 then minus (f h) r s else minus h (r.modify (i - 1) f) s
  | compare op l r s =>
    if i = 0 then compare op (f l) r s
    else if i = 1 then compare op l (f r) s
    else compare op l r s
  | connective op es s => connective op (es.modify i f) s
  | e => e

/-- The expression to which a path leads. -/
def at? : Expr → List Nat → Option Expr
  | e, [] => some e
  | e, i :: path => e.operands[i]?.bind fun f => f.at? path

/-- The expression with another one at the end of the path. -/
def replaceAt : Expr → List Nat → Expr → Expr
  | _, [], new => new
  | e, i :: path, new => e.modifyOperand (fun f => f.replaceAt path new) i

theorem operands_modifyOperand (f : Expr → Expr) (i : Nat) (e : Expr) :
    (e.modifyOperand f i).operands = e.operands.modify i f := by
  cases e with
  | var name indices s => simp [modifyOperand, operands]
  | int lexeme value s => simp [modifyOperand, operands]
  | float lexeme value s => simp [modifyOperand, operands]
  | negate e s => cases i <;> simp [modifyOperand, operands]
  | aggregate op es s => rfl
  | minus h r s => cases i <;> simp [modifyOperand, operands]
  | compare op l r s =>
    rcases i with _ | _ | i
    · rfl
    · rfl
    · simp [modifyOperand, operands]
  | connective op es s => rfl

theorem isBoolean_modifyOperand (f : Expr → Expr) (i : Nat) (e : Expr) :
    (e.modifyOperand f i).isBoolean = e.isBoolean := by
  cases e <;> simp only [modifyOperand] <;> repeat' (first | rfl | split)

theorem operandPlace_modifyOperand (f : Expr → Expr) (i : Nat) (e : Expr) :
    (e.modifyOperand f i).operandPlace = e.operandPlace := by
  cases e <;> simp only [modifyOperand] <;> repeat' (first | rfl | split)

theorem at?_cons_eq_some_iff {e f : Expr} {i : Nat} {path : List Nat} :
    e.at? (i :: path) = some f ↔ ∃ g, e.operands[i]? = some g ∧ g.at? path = some f :=
  Option.bind_eq_some_iff

theorem Built.operand {e f : Expr} (h : e.Built) (hf : f ∈ e.operands) : f.Built := by
  cases h with
  | var name indices s => simp [operands] at hf
  | int lexeme value s => simp [operands] at hf
  | float lexeme value s => simp [operands] at hf
  | compound happ hes =>
    cases happ <;> exact hes f (by simpa [operands] using hf)

/-- The operands of arithmetic forms and of comparisons are arithmetic. -/
theorem operandPlace_of_not_isBoolean {e : Expr} (h : e.isBoolean = false) :
    e.operandPlace = .arith := by
  cases e <;> first | rfl | cases h

end Expr

/-- The query with another expression at the end of a path into one of its conditions. -/
def Query.replaceAt (q : Query) (i : Nat) (path : List Nat) (new : Expr) : Query :=
  { q with assertions := q.assertions.modify i fun a =>
      { a with condition := a.condition.replaceAt path new } }

/-- The node to which a path leads. -/
def Typed.Node.at? : Typed.Node → List Nat → Option Typed.Node
  | x, [] => some x
  | x, i :: path => x.children[i]?.bind fun y => y.at? path

/-- Where all others have nothing, one changed element has all there is. -/
theorem flatMap_modify {α β : Type} {g : α → List β} {f : α → α} {l : List α} {i : Nat} {a : α}
    (hl : ∀ x ∈ l, g x = []) (ha : l[i]? = some a) : (l.modify i f).flatMap g = g (f a) := by
  induction l generalizing i with
  | nil => simp at ha
  | cons x l ih =>
    have hrest : ∀ y ∈ l, g y = [] := fun y hy => hl y (by simp [hy])
    cases i with
    | zero =>
      obtain rfl : x = a := by simpa using ha
      simpa using hrest
    | succ i =>
      rw [List.modify_succ_cons, List.flatMap_cons, hl x (by simp), List.nil_append]
      exact ih hrest (by simpa using ha)

theorem mem_modify {α : Type} {f : α → α} {l : List α} {i : Nat} {a x : α} (ha : l[i]? = some a)
    (hx : x ∈ l.modify i f) : x = f a ∨ x ∈ l := by
  obtain ⟨j, hj⟩ := List.mem_iff_getElem?.mp hx
  rw [List.getElem?_modify] at hj
  split at hj
  · rename_i hij
    subst hij
    left
    simpa [ha] using hj.symm
  · exact .inr (List.mem_of_getElem? (by simpa using hj))

namespace Typing

open Typed
open Checked

/-! ## Operands and sides without a type -/

/-- Types of some operands of a row that agrees on a type. -/
def IsRunning (types : List ValueType) (running : Option ValueType) : Prop :=
  ∀ t, running = some t → t = .unknown ∨ ∃ seen, seen ⊆ types ∧ Agrees seen t

theorem agree_of_unknown {types : List ValueType} {t : ValueType} (hagree : Agrees types t)
    {operands : List Arith} (hops : ∀ a ∈ operands, a.type = .unknown ∨ a.type ∈ types) :
    ∀ running : Option ValueType, IsRunning types running →
      (agree running operands).diagnostics = [] := by
  induction operands with
  | nil => simp [agree]
  | cons a operands ih =>
    intro running hrun
    have hrest := ih fun b hb => hops b (by simp [hb])
    rcases hops a (by simp) with ha | ha
    · -- an operand without a type is passed over
      cases running with
      | none =>
        simp only [agree, ha, ne_eq, not_true_eq_false, false_and, if_false]
        exact hrest _ fun t ht => .inl (by simpa using ht.symm)
      | some r =>
        have hr : r.unify .unknown = some r := by cases r <;> rfl
        simp only [agree, ha, ne_eq, not_true_eq_false, false_and, if_false, hr]
        exact hrest _ hrun
    · have hn := hagree.isNumeric ha
      have hknown := hagree.mem_ne_unknown ha
      have hone : IsRunning types (some a.type) := by
        intro t ht
        cases ht
        exact .inr ⟨[a.type], by simpa using ha, Agrees.singleton_iff.mpr ⟨hn, rfl⟩⟩
      cases running with
      | none =>
        simp only [agree, hn, Bool.not_true, Bool.false_eq_true, and_false, if_false]
        exact hrest _ hone
      | some r =>
        rcases hrun r rfl with rfl | ⟨seen, hseen, hr⟩
        · simp only [agree, hn, Bool.not_true, Bool.false_eq_true, and_false, if_false,
            ValueType.unify]
          exact hrest _ hone
        · -- the types seen so far and this one are all of the row, so that they agree
          have hsub : seen ++ [a.type] ⊆ types :=
            List.append_subset.mpr ⟨hseen, by simpa using ha⟩
          obtain ⟨u, hu⟩ := Agrees.of_subset (by simp) hsub hagree
          simp only [agree, hn, Bool.not_true, Bool.false_eq_true, and_false, if_false,
            ((hr.snoc hknown).mp hu).2]
          refine hrest _ fun t ht => .inr ⟨_, hsub, ?_⟩
          cases ht
          exact hu

/-- Operands of a row that agrees settle silently where one of them has no type. -/
theorem settle_of_unknown {types : List ValueType} {t : ValueType} (hagree : Agrees types t)
    {operands : List Arith} (hops : ∀ a ∈ operands, a.type = .unknown ∨ a.type ∈ types)
    (hu : ∃ a ∈ operands, a.type = .unknown) :
    (settle operands).diagnostics = [] ∧ (settle operands).value.type = .unknown ∧
      (settle operands).value.operands = operands := by
  have htype : (settle operands).value.type = .unknown := by
    obtain ⟨a, ha, hau⟩ := hu
    have hall : operands.all (fun a => a.type != .unknown) = false :=
      List.all_eq_false.mpr ⟨a, ha, by simp [hau]⟩
    rw [settle_type, commonType, hall, Bool.and_false, if_neg Bool.false_ne_true]
  refine ⟨?_, htype, by rw [settle_value, htype]⟩
  rw [settle_diagnostics]
  exact agree_of_unknown hagree hops _ fun t ht => by cases ht

/-- A side without a type stays as it is, and the other one is not reported either. -/
theorem reconcile_of_unknown (policy : LiteralPolicy) {l r : Arith} (p : Position)
    (h : l.type = .unknown ∨ r.type = .unknown) :
    (reconcile policy l r p).diagnostics = [] ∧
      (l.type = .unknown → (reconcile policy l r p).value.1 = l) ∧
      (r.type = .unknown → (reconcile policy l r p).value.2 = r) := by
  have hpin : ∀ {a : Arith} (t : ElementType), a.type = .unknown → a.pin t = a := fun t ha =>
    Arith.pin_of_not_isLiteral (by rw [ha]; rfl) t
  rcases h with h | h
  · cases hr : r.type <;>
      simp [reconcile, h, hr, ValueType.unify, ValueType.isLiteral, hpin _ h]
  · cases hl : l.type <;>
      simp [reconcile, h, hl, ValueType.unify, ValueType.isLiteral, hpin _ h]

/-! ## Forms -/

variable {table : SymbolTable} {policy : LiteralPolicy}

variable (table policy) in
/-- A form has the operands on which it settled, and no type just where they have none. -/
theorem arith_form {e : Expr} (he : e.isBoolean = false) (hne : e.operands ≠ []) :
    let settled := settle (e.operands.map fun f => (arith table policy f).value)
    formReports table policy e = settled.diagnostics ∧
      (arith table policy e).value.operands = settled.value.operands ∧
      (settled.value.type = .unknown ↔ (arith table policy e).value.type = .unknown) := by
  cases e with
  | var name indices s => exact absurd rfl hne
  | int lexeme value s => exact absurd rfl hne
  | float lexeme value s => exact absurd rfl hne
  | negate e s =>
    obtain ⟨a, rest, hset, hlen⟩ := settle_cons (arith table policy e).value []
    obtain rfl := List.length_eq_zero_iff.mp hlen
    refine ⟨rfl, ?_, ?_⟩
    · simp [arith_negate, negation, Arith.operands, Expr.operands, hset]
    · simp only [Expr.operands, List.map_cons, List.map_nil, arith_negate, negation, value_bind,
        value_pure, Arith.type]
      cases (settle [(arith table policy e).value]).value.type <;> simp [ValueType.negate]
  | aggregate op es s =>
    refine ⟨rfl, ?_, ?_⟩ <;>
      simp [arith_aggregate, aggregation, ariths_value, Arith.operands, Arith.type, Expr.operands]
  | minus h r s =>
    obtain ⟨a, rest, hset, _⟩ := settle_cons (arith table policy h).value
      (r.map fun f => (arith table policy f).value)
    refine ⟨rfl, ?_, ?_⟩
    · simp [arith_minus, difference, ariths_value, Arith.operands, Expr.operands, hset]
    · simp [arith_minus, difference, ariths_value, Arith.type, Expr.operands]
  | compare op l r s => cases he
  | connective op es s => cases he

theorem not_isBoolean_of_reports {e : Expr} (h : reports table policy .arith e = []) :
    e.isBoolean = false := by
  cases hsort : e.isBoolean with
  | false => rfl
  | true => exact absurd h (arith_of_isBoolean table policy hsort).2

theorem isBoolean_of_reports {e : Expr} (h : reports table policy .formula e = []) :
    e.isBoolean = true := by
  cases hsort : e.isBoolean with
  | true => rfl
  | false => exact absurd h (formula_of_not_isBoolean table policy hsort).2

theorem reports_operand {place : Place} {e f : Expr} (h : reports table policy place e = [])
    (hf : f ∈ e.operands) : reports table policy e.operandPlace f = [] := by
  rw [reports_eq, List.append_eq_nil_iff, List.flatMap_eq_nil_iff] at h
  exact h.1 f hf

variable (table policy) in
/-- The reports of a form whose operands had nothing to report before one of them was changed. -/
theorem reports_modifyOperand (place : Place) {e g : Expr} {i : Nat} {f : Expr → Expr}
    (hclean : ∀ h ∈ e.operands, reports table policy e.operandPlace h = [])
    (hg : e.operands[i]? = some g) :
    reports table policy place (e.modifyOperand f i) =
      reports table policy e.operandPlace (f g) ++
        (formReports table policy (e.modifyOperand f i) ++
          misplaced table policy place (e.modifyOperand f i)) := by
  rw [reports_eq, Expr.operands_modifyOperand, Expr.operandPlace_modifyOperand,
    flatMap_modify hclean hg]

/-- What stands along a path to something without a type: nothing is reported but the fault at its
end, and the arithmetic on it has no type. -/
structure Poisoned (d : Diagnostic) (e : Expr) (path : List Nat) (reported : List Diagnostic)
    (typed : Node) : Prop where
  once : reported = [d]
  unknown : ∀ p f, p <+: path → e.at? p = some f → f.isBoolean = false →
    ∃ b, typed.at? p = some (.arith b) ∧ b.type = .unknown

theorem Poisoned.cons {d : Diagnostic} {e g : Expr} {i : Nat} {path : List Nat}
    {below : List Diagnostic} {typed child : Node} (h : Poisoned d g path below child)
    (hg : e.operands[i]? = some g) (hchild : typed.children[i]? = some child)
    (hroot : e.isBoolean = false → ∃ b, typed = .arith b ∧ b.type = .unknown) :
    Poisoned d e (i :: path) below typed := by
  refine ⟨h.once, fun p f hp hf hsort => ?_⟩
  cases p with
  | nil =>
    cases hf
    obtain ⟨b, rfl, hb⟩ := hroot hsort
    exact ⟨b, rfl, hb⟩
  | cons j p =>
    obtain ⟨rfl, hbelow⟩ := List.cons_prefix_cons.mp hp
    obtain ⟨g', hg', hf⟩ := Expr.at?_cons_eq_some_iff.mp hf
    obtain rfl : g = g' := by simpa [hg] using hg'
    obtain ⟨b, hb, hu⟩ := h.unknown p f hbelow hf hsort
    exact ⟨b, by rw [Node.at?, hchild, Option.bind_some, hb], hu⟩

variable (table policy) in
/-- The node for an expression in its place. -/
def node : Place → Expr → Node
  | .arith, e => .arith (arith table policy e).value
  | .formula, e => .formula (formula table policy e).value

/-- A form around an operand that was reported and has no type: it adds no report, keeps the operand
as it is, and has no type itself. -/
structure Passes (table : SymbolTable) (policy : LiteralPolicy) (place : Place) (e : Expr) (i : Nat)
    (f : Expr) : Prop where
  once : reports table policy place e = reports table policy e.operandPlace f
  child : (node table policy place e).children[i]? = some (node table policy e.operandPlace f)
  unknown : e.isBoolean = false → (arith table policy e).value.type = .unknown

theorem Passes.of_compare {e g : Expr} {i : Nat} {f : Expr → Expr} {op : Comparison} {l r : Expr}
    {s : Span} (he : e = .compare op l r s) (hclean : reports table policy .formula e = [])
    (hg : e.operands[i]? = some g) (hf : (arith table policy (f g)).value.type = .unknown) :
    Passes table policy .formula (e.modifyOperand f i) i (f g) := by
  have hreports := reports_modifyOperand table policy .formula (f := f)
    (fun h => reports_operand hclean) hg
  subst he
  rcases i with _ | _ | i
  · cases hg
    obtain ⟨hsilent, hleft, _⟩ := reconcile_of_unknown policy
      (r := (arith table policy r).value) s.position (.inl hf)
    refine ⟨?_, ?_, fun h => by cases h⟩
    · rw [hreports]
      simp [Expr.modifyOperand, formReports, hsilent, misplaced, Expr.isBoolean, Expr.operandPlace]
    · simp [Expr.modifyOperand, node, formula_compare, comparison, Node.children, hleft hf,
        Expr.operandPlace]
  · cases hg
    obtain ⟨hsilent, _, hright⟩ := reconcile_of_unknown policy
      (l := (arith table policy l).value) s.position (.inr hf)
    refine ⟨?_, ?_, fun h => by cases h⟩
    · rw [hreports]
      simp [Expr.modifyOperand, formReports, hsilent, misplaced, Expr.isBoolean, Expr.operandPlace]
    · simp [Expr.modifyOperand, node, formula_compare, comparison, Node.children, hright hf,
        Expr.operandPlace]
  · cases hg

theorem Passes.of_connective {e g : Expr} {i : Nat} {f : Expr → Expr} {op : Connective}
    {es : List Expr} {s : Span} (he : e = .connective op es s)
    (hclean : reports table policy .formula e = []) (hg : e.operands[i]? = some g) :
    Passes table policy .formula (e.modifyOperand f i) i (f g) := by
  have hreports := reports_modifyOperand table policy .formula (f := f)
    (fun h => reports_operand hclean) hg
  subst he
  refine ⟨?_, ?_, fun h => by cases h⟩
  · rw [hreports]
    simp [Expr.modifyOperand, formReports, misplaced, Expr.isBoolean, Expr.operandPlace]
  · have hes : es[i]? = some g := hg
    simp [Expr.modifyOperand, node, formula_connective, formulas_value, Node.children,
      Expr.operandPlace, hes]

section
variable {networks : List Network} (hdesc : Describes table networks)
  (hknown : ∀ n ∈ networks, ∀ d ∈ n.declarations, d.type ≠ .unknown)
include hdesc hknown

theorem Passes.of_arith {e g : Expr} {i : Nat} {f : Expr → Expr} (he : e.Built)
    (hclean : reports table policy .arith e = []) (hg : e.operands[i]? = some g)
    (hf : (arith table policy (f g)).value.type = .unknown) :
    Passes table policy .arith (e.modifyOperand f i) i (f g) := by
  have hne : e.operands ≠ [] := List.ne_nil_of_mem (List.mem_of_getElem? hg)
  have hsort : e.isBoolean = false := not_isBoolean_of_reports hclean
  have hsort' : (e.modifyOperand f i).isBoolean = false :=
    (Expr.isBoolean_modifyOperand f i e).trans hsort
  have hplace : e.operandPlace = .arith := Expr.operandPlace_of_not_isBoolean hsort
  have hoperands : ∀ h ∈ e.operands, reports table policy e.operandPlace h = [] :=
    fun h => reports_operand hclean
  -- before the change all operands had types, and these agree
  have htyped : ∀ h ∈ e.operands, (arith table policy h).value.type ≠ .unknown := fun h hh =>
    have hnil : reports table policy .arith h = [] := hplace ▸ hoperands h hh
    ((arith_iff policy hdesc hknown (he.operand hh) _).mp ⟨hnil, rfl⟩).ne_unknown hknown
  have hform : formReports table policy e = [] := by
    rw [reports_eq, List.append_eq_nil_iff, List.append_eq_nil_iff] at hclean
    exact hclean.2.1
  rw [(arith_form table policy hsort hne).1] at hform
  have hagree := settle_agrees
    (settle_known (by simpa using hne) (List.forall_mem_map.mpr htyped) hform)
  -- so that they settle silently without one of them
  have hrow : ∀ a ∈ (e.operands.modify i f).map fun h => (arith table policy h).value,
      a.type = .unknown ∨
        a.type ∈ (e.operands.map fun h => (arith table policy h).value).map Arith.type := by
    refine List.forall_mem_map.mpr fun h hh => ?_
    rcases mem_modify hg hh with rfl | hh
    · exact .inl hf
    · exact .inr (List.mem_map_of_mem (List.mem_map_of_mem hh))
  have hget : (e.operands.modify i f)[i]? = some (f g) := by
    rw [List.getElem?_modify_eq, hg]
    rfl
  have hchanged := List.mem_of_getElem? hget
  obtain ⟨hsilent, hunknown, hsame⟩ :=
    settle_of_unknown hagree hrow ⟨_, List.mem_map_of_mem hchanged, hf⟩
  rw [← Expr.operands_modifyOperand] at hget hchanged hsilent hunknown hsame
  obtain ⟨hreports, hvalue, htype⟩ := arith_form table policy hsort' (List.ne_nil_of_mem hchanged)
  refine ⟨?_, ?_, fun _ => htype.mp hunknown⟩
  · rw [reports_modifyOperand table policy .arith hoperands hg, Expr.operandPlace_modifyOperand,
      hreports, hsilent]
    simp [misplaced, hsort']
  · rw [Expr.operandPlace_modifyOperand, hplace]
    simp [node, Node.children, hvalue, hsame, hget]

/-- Every form that had nothing to report passes on what became of one of its operands. -/
theorem passes {place : Place} {e g : Expr} {i : Nat} {f : Expr → Expr} (he : e.Built)
    (hclean : reports table policy place e = []) (hg : e.operands[i]? = some g)
    (hf : e.operandPlace = .arith → (arith table policy (f g)).value.type = .unknown) :
    Passes table policy place (e.modifyOperand f i) i (f g) := by
  cases place with
  | arith =>
    have hplace := Expr.operandPlace_of_not_isBoolean (not_isBoolean_of_reports hclean)
    exact .of_arith hdesc hknown he hclean hg (hf hplace)
  | formula =>
    cases e with
    | compare op l r s => exact .of_compare rfl hclean hg (hf rfl)
    | connective op es s => exact .of_connective rfl hclean hg
    | _ => cases isBoolean_of_reports hclean

/-- By induction on the path: every form on it passes on the fault at its end. -/
theorem poisoned {d : Diagnostic} {new : Expr} (hone : reports table policy .arith new = [d])
    (hnew : (arith table policy new).value.type = .unknown) (place : Place) {e f : Expr}
    {path : List Nat} (he : e.Built) (hclean : reports table policy place e = [])
    (hat : e.at? path = some f) (hf : f.isBoolean = false) :
    (e.isBoolean = false →
        (arith table policy (e.replaceAt path new)).value.type = .unknown) ∧
      Poisoned d e path (reports table policy place (e.replaceAt path new))
        (node table policy place (e.replaceAt path new)) := by
  induction path generalizing place e with
  | nil =>
    cases hat
    cases place with
    | formula =>
      rw [isBoolean_of_reports hclean] at hf
      cases hf
    | arith =>
      refine ⟨fun _ => hnew, hone, fun p g hp _ _ => ?_⟩
      obtain rfl := List.prefix_nil.mp hp
      exact ⟨_, rfl, hnew⟩
  | cons i path ih =>
    obtain ⟨g, hg, hpath⟩ := Expr.at?_cons_eq_some_iff.mp hat
    have hmem := List.mem_of_getElem? hg
    have hgclean := reports_operand hclean hmem
    obtain ⟨htype, hbelow⟩ := ih _ (he.operand hmem) hgclean hpath
    have hpasses := passes (f := fun f => f.replaceAt path new) hdesc hknown he hclean hg
      fun harith => htype (not_isBoolean_of_reports (harith ▸ hgclean))
    refine ⟨fun h => hpasses.unknown ((Expr.isBoolean_modifyOperand ..).trans h), ?_⟩
    rw [Expr.replaceAt, hpasses.once, Expr.operandPlace_modifyOperand]
    refine hbelow.cons hg (by rw [hpasses.child, Expr.operandPlace_modifyOperand]) fun h => ?_
    cases place with
    | arith => exact ⟨_, rfl, hpasses.unknown ((Expr.isBoolean_modifyOperand ..).trans h)⟩
    | formula =>
      rw [isBoolean_of_reports hclean] at h
      cases h

end

/-! ## Undeclared names -/

theorem resolve_undeclared {networks : List Network} {name : String}
    (h : ∀ n ∈ networks, n.name ≠ name ∧ ¬ n.Declares name) (p : Position) :
    (SymbolTable.ofNetworks networks).resolve name p = .error ⟨.variableNotDeclared name, p⟩ := by
  have hs := ofNetworks_holds networks
  have hcand : (SymbolTable.ofNetworks networks).candidates name = [] := by
    refine List.eq_nil_iff_forall_not_mem.mpr fun ⟨s, id⟩ hmem => ?_
    obtain ⟨hscope, hget⟩ := (mem_candidates hs).mp hmem
    obtain ⟨n, hn, hholds⟩ := exists_of_mem_right hs hscope
    exact (h n hn).2 (hholds.declares_iff.mp (by simp [hget]))
  have hglobal : (SymbolTable.ofNetworks networks).global? name = none := by
    refine List.findSome?_eq_none_iff.mpr fun s hscope => ?_
    obtain ⟨n, hn, hholds⟩ := exists_of_mem_right hs hscope
    simp [hholds.name, (h n hn).1]
  simp [SymbolTable.resolve, hcand, hglobal]

end Typing

/-- A query without faults in which some arithmetic is replaced by a name that nothing declares: the
name is reported, at its own place, and nothing else. All arithmetic from there up to the comparison
around it has no type. -/
theorem Query.undeclared_reported_once {tokens : List Token} {file : String} {q : Query}
    (h : Query.ofTokens tokens file = .ok q) (options : BuildOptions)
    (hclean : (Typing.query options.policy q).diagnostics = []) {i : Nat} {a : Assertion}
    (ha : q.assertions[i]? = some a) {path : List Nat} {e : Expr}
    (he : a.condition.at? path = some e) (harith : e.isBoolean = false) {name : String}
    (hname : ∀ n ∈ q.networks, n.name ≠ name ∧ ¬ n.Declares name) (indices : List Int64)
    (s : Span) :
    let checked := Typing.query options.policy (q.replaceAt i path (.var name indices s))
    checked.diagnostics = [⟨.variableNotDeclared name, s.position⟩] ∧
      ∃ b, checked.value.assertions[i]? = some b ∧
        ∀ p f, p <+: path → a.condition.at? p = some f → f.isBoolean = false →
          ∃ c, (Typed.Node.formula b.condition).at? p = some (.arith c) ∧ c.type = .unknown := by
  obtain ⟨_, _, ts, hderives, _⟩ := Query.ofTokens_derives h
  have hproper := hderives.proper
  obtain ⟨hversion, hnetworks, _⟩ := Typing.query_diagnostics_iff.mp hclean
  obtain ⟨hvalue, hdesc, hconditions⟩ := Typing.query_clean hclean
  have hmem := List.mem_of_getElem? ha
  have hresolve := Typing.resolve_undeclared hname s.position
  -- the name alone is reported once and has no type
  have hone : Typing.reports (.ofNetworks q.networks) options.policy .arith (.var name indices s) =
      [⟨.variableNotDeclared name, s.position⟩] := by
    simp [Typing.reports, Typing.arith_var, Typing.reference, hresolve]
  have hnew : (Typing.arith (.ofNetworks q.networks) options.policy
      (.var name indices s)).value.type = .unknown := by
    simp [Typing.arith_var, Typing.reference, hresolve, Typed.Arith.type]
  obtain ⟨_, honce, hunknown⟩ := Typing.poisoned hdesc hproper.known hone hnew
    .formula (hproper.conditions a hmem) (hconditions a hmem) he harith
  refine ⟨?_, ⟨_, a.span⟩, ?_, hunknown⟩
  · rw [Typing.query_diagnostics]
    simp only [Query.replaceAt, hversion, hnetworks, hvalue, List.nil_append]
    rw [flatMap_modify hconditions ha]
    exact honce
  · simp [Typing.query, Query.replaceAt, hvalue, Typing.assertions_value, ha]

/-- In a query with the condition `(<= (- x[1]) 1.5)`, the tensor under the minus sign is
replaced. -/
theorem Query.lowerBound_undeclared :
    ∃ q, Query.ofTokens (Token.lowerBound ++ [Token.ending .nowhere]) "q" = .ok q ∧
      (Typing.query .keep q).diagnostics = [] ∧
      (Typing.query .keep (q.replaceAt 0 [0, 0] (.var "y" [] ⟨"q", 9, 10⟩))).diagnostics =
        [⟨.variableNotDeclared "y", ⟨9, "q"⟩⟩] := by
  have hfacts : (Query.ofTokens (Token.lowerBound ++ [Token.ending .nowhere]) "q").toOption.any
      (fun q => (Typing.query .keep q).diagnostics.isEmpty &&
        (q.assertions[0]?.any fun a => (a.condition.at? [0, 0]).any fun e => !e.isBoolean) &&
        q.networks.all fun n => n.name != "y" && n.declarations.all fun d => d.name != "y") =
      true := by
    decide +kernel
  cases hq : Query.ofTokens (Token.lowerBound ++ [Token.ending .nowhere]) "q" with
  | error d =>
    rw [hq] at hfacts
    cases hfacts
  | ok q =>
    rw [hq, Except.toOption, Option.any_some, Bool.and_eq_true, Bool.and_eq_true,
      List.isEmpty_iff] at hfacts
    obtain ⟨⟨hclean, hcondition⟩, hnames⟩ := hfacts
    obtain ⟨a, ha, hoccurrence⟩ := (Option.any_eq_true ..).mp hcondition
    obtain ⟨e, he, hsort⟩ := (Option.any_eq_true ..).mp hoccurrence
    refine ⟨q, rfl, hclean, (Query.undeclared_reported_once hq {} hclean ha he
      (by simpa using hsort) (fun n hn => ?_) [] _).1⟩
    have hn := List.all_eq_true.mp hnames n hn
    simpa [Network.Declares] using hn

end NeuralQuery
