import NeuralQuery.Typing.Checker

/-!
# NeuralQuery.Proofs.Framing

What a part of a pass can do to the state that all parts share.

* `Leads x c y c'` : started in `c`, the part `x` ends in `c'`. What it gives and what it reports is
  `y`, whatever was reported before.
* `Steady x`       : `x` leads from any state to some state. No part of a pass looks at the reports
  so far, takes one back or puts one in between.
* `Framed x`       : `x` leads from any state back to this state. It only adds reports.

Everything is steady, and all but networks is framed. The parts are composed of a few steps by
binds, so both properties need one rule for each step and one for binds. What is left is the
recursion: over operands (`unify_framed`), over the forms of expressions (`term_framed`) and over
those of a network (`addForms_steady`).
-/

namespace NeuralQuery
namespace Checker

open Typed
open Typing (Settled Term)

/-- The state with other reports. -/
def reporting (c : Checker) (ds : List Diagnostic) : Checker :=
  { c with diagnostics := ds }

def Leads {α : Type} (x : Check α) (c : Checker) (y : Checked α) (c' : Checker) : Prop :=
  ∀ ds, x (c.reporting ds) = (y.value, c'.reporting (ds ++ y.diagnostics))

def Steady {α : Type} (x : Check α) : Prop :=
  ∀ c, ∃ y c', Leads x c y c'

def Framed {α : Type} (x : Check α) : Prop :=
  ∀ c, ∃ y, Leads x c y c

/-! ## Steps and binds -/

section
variable {α β : Type}

namespace Leads

variable {x : Check α} {f : α → Check β} {c c' c'' : Checker} {y : Checked α}

theorem pure (c : Checker) (a : α) : Leads (pure a) c (pure a) c := by
  intro ds
  rw [Checked.diagnostics_pure, List.append_nil]
  rfl

theorem report (c : Checker) (d : Diagnostic) : Leads (report d) c (Checked.report d) c :=
  fun _ => rfl

theorem note (c : Checker) (fault : Fault) (p : Position) :
    Leads (note fault p) c (Checked.note fault p) c :=
  fun _ => rfl

theorem onSymbols (c : Checker) (f : Registry → α × Registry) :
    Leads (onSymbols f) c (Pure.pure (f c.symbols).1) { c with symbols := (f c.symbols).2 } := by
  intro ds
  rw [Checked.diagnostics_pure, List.append_nil]
  rfl

theorem bind {g : α → Checked β} (hx : Leads x c y c')
    (hf : Leads (f y.value) c' (g y.value) c'') : Leads (x >>= f) c (y >>= g) c'' := by
  intro ds
  have hstep : (x >>= f) (c.reporting ds) =
      f (x (c.reporting ds)).1 (x (c.reporting ds)).2 := rfl
  rw [hstep, hx, hf, List.append_assoc]
  rfl

/-- A part that reads the state goes on in the same way whatever was reported. -/
theorem get_bind {k : Checker → Check α} (hk : ∀ ds, k (c.reporting ds) = k c)
    (h : Leads (k c) c y c') : Leads (get >>= k) c y c' := by
  intro ds
  have hstep : (get >>= k) (c.reporting ds) = k (c.reporting ds) (c.reporting ds) := rfl
  rw [hstep, hk, h]

end Leads

namespace Framed

variable {x : Check α} {f : α → Check β}

theorem pure (a : α) : Framed (pure a : Check α) :=
  fun c => ⟨_, .pure c a⟩

theorem report (d : Diagnostic) : Framed (report d) :=
  fun c => ⟨_, .report c d⟩

theorem note (fault : Fault) (p : Position) : Framed (note fault p) :=
  fun c => ⟨_, .note c fault p⟩

theorem bind (hx : Framed x) (hf : ∀ a, Framed (f a)) : Framed (x >>= f) := by
  intro c
  obtain ⟨y, hy⟩ := hx c
  obtain ⟨z, hz⟩ := hf y.value c
  exact ⟨_, hy.bind (g := fun _ => z) hz⟩

theorem get_bind {k : Checker → Check α} (hk : ∀ c ds, k (c.reporting ds) = k c)
    (h : ∀ c, Framed (k c)) : Framed (get >>= k) := by
  intro c
  obtain ⟨y, hy⟩ := h c c
  exact ⟨y, .get_bind (hk c) hy⟩

theorem steady (hx : Framed x) : Steady x := by
  intro c
  obtain ⟨y, hy⟩ := hx c
  exact ⟨y, c, hy⟩

end Framed

namespace Steady

variable {x : Check α} {f : α → Check β}

theorem onSymbols (f : Registry → α × Registry) : Steady (onSymbols f) :=
  fun c => ⟨_, _, .onSymbols c f⟩

theorem bind (hx : Steady x) (hf : ∀ a, Steady (f a)) : Steady (x >>= f) := by
  intro c
  obtain ⟨y, c', hy⟩ := hx c
  obtain ⟨z, c'', hz⟩ := hf y.value c'
  exact ⟨_, c'', hy.bind (g := fun _ => z) hz⟩

end Steady
end

/-! ## Tensors -/

theorem checkBounds_framed (name : String) (p : Position) (dimension : Nat)
    (indices shape : List Int64) : Framed (checkBounds name p dimension indices shape) := by
  induction indices generalizing dimension shape with
  | nil => exact .pure ()
  | cons index indices ih =>
    cases shape with
    | nil => exact .pure ()
    | cons bound shape =>
      rw [checkBounds]
      split
      · exact ih (dimension + 1) shape
      · exact .bind (.note _ p) fun _ => ih (dimension + 1) shape

theorem checkIndices_framed (name : String) (p : Position) (indices shape : List Int64) :
    Framed (checkIndices name p indices shape) := by
  unfold checkIndices
  split
  · exact checkBounds_framed name p 0 indices shape
  · exact .note _ p

theorem reference_framed (name : String) (indices : List Int64) (span : Span) :
    Framed (reference name indices span) := by
  refine .get_bind (fun c ds => rfl) fun c => ?_
  cases c.symbols.resolve name span.position with
  | error d => exact .bind (.report d) fun _ => .pure _
  | ok id =>
    refine .get_bind (fun c ds => rfl) fun c => ?_
    dsimp only
    split
    · exact .bind (.note _ span.position) fun _ => .pure _
    · exact .bind (checkIndices_framed name span.position indices _) fun _ => .pure _

/-! ## Arithmetic -/

theorem unify_framed (running : Option ValueType) (failed : Bool) (operands : List Arith) :
    Framed (unify running failed operands) := by
  induction operands generalizing running failed with
  | nil => exact .pure _
  | cons a operands ih =>
    unfold unify
    split
    · exact .bind (.note _ a.span.position) fun _ => ih running true
    · cases running with
      | none => exact ih (some a.type) failed
      | some t =>
        dsimp only
        cases t.unify a.type with
        | some u => exact ih (some u) failed
        | none => exact .bind (.note _ a.span.position) fun _ => ih (some t) true

theorem settle_framed (operands : List Arith) : Framed (settle operands) := by
  refine .bind (unify_framed none false operands) fun agreed => ?_
  obtain ⟨running, failed⟩ := agreed
  dsimp only
  split
  · exact .pure _
  · cases running.getD .unknown <;> exact .pure _

theorem negation_framed (a : Arith) (span : Span) : Framed (negation a span) :=
  .bind (settle_framed [a]) fun _ => .pure _

theorem aggregation_framed (op : Aggregate) (operands : List Arith) (span : Span) :
    Framed (aggregation op operands span) :=
  .bind (settle_framed operands) fun _ => .pure _

theorem difference_framed (head : Arith) (rest : List Arith) (span : Span) :
    Framed (difference head rest span) :=
  .bind (settle_framed (head :: rest)) fun _ => .pure _

/-! ## Comparisons -/

theorem applyPolicy_framed (kind : LiteralKind) (lhs rhs : Arith) (p : Position) :
    Framed (applyPolicy kind lhs rhs p) := by
  refine .get_bind (fun c ds => rfl) fun c => ?_
  cases c.policy with
  | keep => exact .pure _
  | reject => exact .bind (.note _ p) fun _ => .pure _
  | adopt t =>
    dsimp only
    cases t.adopted? kind with
    | some e => exact .pure _
    | none => exact .bind (.note _ p) fun _ => .pure _

theorem reconcile_framed (lhs rhs : Arith) (p : Position) : Framed (reconcile lhs rhs p) := by
  unfold reconcile
  split
  · exact .bind (.note _ p) fun _ => .pure _
  · split
    · exact applyPolicy_framed _ lhs rhs p
    · exact .pure _
  · exact .pure _
  · exact .pure _

theorem comparison_framed (op : Comparison) (lhs rhs : Arith) (span : Span) :
    Framed (comparison op lhs rhs span) :=
  .bind (reconcile_framed lhs rhs span.position) fun _ => .pure _

/-! ## Expressions -/

theorem asArith_framed (e : Expr) (t : Term) : Framed (asArith e t) := by
  cases t with
  | arith a => exact .pure a
  | formula f => exact .bind (.note _ e.span.position) fun _ => .pure _

theorem asFormula_framed (e : Expr) (t : Term) : Framed (asFormula e t) := by
  cases t with
  | arith a => exact .bind (.note _ e.span.position) fun _ => .pure _
  | formula f => exact .pure f

theorem ariths_framed {es : List Expr} (h : ∀ e ∈ es, Framed (term e)) : Framed (ariths es) := by
  induction es with
  | nil =>
    rw [ariths]
    exact .pure []
  | cons e es ih =>
    obtain ⟨he, hes⟩ := List.forall_mem_cons.mp h
    rw [ariths]
    refine .bind he fun t => .bind (asArith_framed e t) fun a => ?_
    exact .bind (ih hes) fun rest => .pure _

theorem formulas_framed {es : List Expr} (h : ∀ e ∈ es, Framed (term e)) :
    Framed (formulas es) := by
  induction es with
  | nil =>
    rw [formulas]
    exact .pure []
  | cons e es ih =>
    obtain ⟨he, hes⟩ := List.forall_mem_cons.mp h
    rw [formulas]
    refine .bind he fun t => .bind (asFormula_framed e t) fun f => ?_
    exact .bind (ih hes) fun rest => .pure _

/-- Whatever stands in an expression, and whether it belongs there or not, its check only adds
reports. -/
theorem term_framed (e : Expr) : Framed (term e) := by
  induction e using Expr.inductOn with
  | var name indices s =>
    rw [term]
    exact .bind (reference_framed name indices s) fun a => .pure _
  | int lexeme value s =>
    rw [term]
    exact .pure _
  | float lexeme value s =>
    rw [term]
    exact .pure _
  | negate e s ih =>
    rw [term]
    refine .bind ih fun t => .bind (asArith_framed e t) fun a => ?_
    exact .bind (negation_framed a s) fun n => .pure _
  | aggregate op es s ih =>
    rw [term]
    refine .bind (ariths_framed ih) fun operands => ?_
    exact .bind (aggregation_framed op operands s) fun a => .pure _
  | minus e es s ihe ihes =>
    rw [term]
    refine .bind ihe fun t => .bind (asArith_framed e t) fun head => ?_
    refine .bind (ariths_framed ihes) fun rest => ?_
    exact .bind (difference_framed head rest s) fun a => .pure _
  | compare op l r s ihl ihr =>
    rw [term]
    refine .bind ihl fun t => .bind (asArith_framed l t) fun lhs => ?_
    refine .bind ihr fun t => .bind (asArith_framed r t) fun rhs => ?_
    exact .bind (comparison_framed op lhs rhs s) fun f => .pure _
  | connective op es s ih =>
    rw [term]
    exact .bind (formulas_framed ih) fun fs => .pure _

theorem arith_framed (e : Expr) : Framed (arith e) :=
  .bind (term_framed e) fun t => asArith_framed e t

theorem formula_framed (e : Expr) : Framed (formula e) :=
  .bind (term_framed e) fun t => asFormula_framed e t

theorem assertion_framed (a : NeuralQuery.Assertion) : Framed (assertion a) :=
  .bind (formula_framed a.condition) fun _ => .pure _

theorem version_framed (v : NeuralQuery.Version) : Framed (version v) := by
  unfold version
  split
  · exact .pure _
  · exact .bind (.note _ v.span.position) fun _ => .pure _

/-! ## Networks -/

theorem relation_framed (n : NeuralQuery.Network) (r : Relation) : Framed (relation n r) := by
  unfold relation
  split
  · exact .bind (.note _ r.span.position) fun _ => .pure _
  · refine .get_bind (fun c ds => rfl) fun c => ?_
    cases c.declared.get? r.target with
    | none => exact .bind (.note _ r.span.position) fun _ => .pure _
    | some other =>
      dsimp only
      cases Typing.signatureMismatch? n other with
      | some detail => exact .bind (.note _ r.span.position) fun _ => .pure _
      | none => exact .pure _

theorem definition_steady (scope : ScopeId) (network : String) (d : Declaration)
    (kind : SymbolKind) : Steady (definition scope network d kind) := by
  refine .bind (.onSymbols _) fun id => .bind (.onSymbols _) fun bound => ?_
  cases bound with
  | ok u => exact Framed.steady (.bind (.pure _) fun _ => .pure _)
  | error e => exact Framed.steady (.bind (.report e) fun _ => .pure _)

theorem addForm_steady (n : NeuralQuery.Network) (scope : ScopeId) (p : Progress)
    (i : Network.Item) : Steady (addForm n scope p i) := by
  cases i with
  | relation r =>
    refine Framed.steady (.bind (relation_framed n r) fun resolved => ?_)
    dsimp only
    split
    · exact .bind (.pure _) fun _ => .pure _
    · exact .bind (.note _ r.span.position) fun _ => .pure _
  | tensor role d =>
    exact .bind (definition_steady scope n.name d (.tensor role)) fun _ => (Framed.pure _).steady

theorem addForms_steady (n : NeuralQuery.Network) (scope : ScopeId) (p : Progress)
    (items : List Network.Item) : Steady (addForms n scope p items) := by
  induction items generalizing p with
  | nil => exact (Framed.pure p).steady
  | cons i items ih => exact .bind (addForm_steady n scope p i) fun p => ih p

theorem ownSymbol_framed (own : Except Diagnostic SymbolId) : Framed (ownSymbol own) := by
  cases own with
  | ok id => exact .pure _
  | error e => exact .bind (.report e) fun _ => .pure _

theorem network_steady (n : NeuralQuery.Network) : Steady (network n) := by
  refine .bind (.onSymbols _) fun opening => ?_
  refine .bind (ownSymbol_framed opening.2).steady fun symbol => ?_
  exact .bind (addForms_steady n opening.1 _ n.items) fun p => (Framed.pure _).steady

theorem networks_steady (ns : List NeuralQuery.Network) : Steady (networks ns) := by
  induction ns with
  | nil => exact (Framed.pure []).steady
  | cons n ns ih =>
    exact .bind (network_steady n) fun typed => .bind ih fun rest => (Framed.pure _).steady

end Checker
end NeuralQuery
