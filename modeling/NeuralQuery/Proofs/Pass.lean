import NeuralQuery.Proofs.Framing
import NeuralQuery.Proofs.RegistryTable

/-!
# NeuralQuery.Proofs.Pass

A pass over a query gives and reports what `Typing.query` does (`Checker.check_eq`).

Expressions are checked as there, with the table that the registry stands for (`term_leads`).
Networks hand on that table (`Enters`): the registry that a part leaves behind is in order again,
and stands for the table that the function of the same name returns.
-/

namespace NeuralQuery
namespace Checker

open Typed
open Typing (Settled Term Draft)

section
variable (c : Checker)

/-! ## Arithmetic and comparisons -/

theorem checkBounds_leads (name : String) (p : Position) (dimension : Nat)
    (indices shape : List Int64) :
    Leads (checkBounds name p dimension indices shape) c
      (Typing.checkBounds name p dimension indices shape) c := by
  induction indices generalizing dimension shape with
  | nil => exact .pure c ()
  | cons index indices ih =>
    cases shape with
    | nil => exact .pure c ()
    | cons bound shape =>
      rw [checkBounds, Typing.checkBounds]
      by_cases hindex : Typing.admitsIndex bound index = true
      · rw [if_pos hindex, if_pos hindex]
        exact ih (dimension + 1) shape
      · rw [if_neg hindex, if_neg hindex]
        exact (Leads.note c _ p).bind (ih (dimension + 1) shape)

theorem checkIndices_leads (name : String) (p : Position) (indices shape : List Int64) :
    Leads (checkIndices name p indices shape) c (Typing.checkIndices name p indices shape) c := by
  unfold checkIndices Typing.checkIndices
  split
  · exact checkBounds_leads c name p 0 indices shape
  · exact .note c _ p

/-- Operands are refused here if and only if something is reported about them. -/
theorem unify_leads (running : Option ValueType) (failed : Bool) (operands : List Arith) :
    Leads (unify running failed operands) c
      ⟨((Typing.agree running operands).value,
          failed || !(Typing.agree running operands).diagnostics.isEmpty),
        (Typing.agree running operands).diagnostics⟩ c := by
  induction operands generalizing running failed with
  | nil =>
    unfold unify Typing.agree
    cases failed <;> exact .pure c _
  | cons a operands ih =>
    unfold unify Typing.agree
    by_cases hnumeric : a.type ≠ .unknown ∧ !a.type.isNumeric
    · rw [if_pos hnumeric, if_pos hnumeric]
      have hrest := (Leads.note c (.nonNumericOperand a.type.name a.text) a.span.position).bind
        (f := fun _ => unify running true operands) (g := fun _ => ⟨_, _⟩) (ih running true)
      cases failed <;> exact hrest
    · rw [if_neg hnumeric, if_neg hnumeric]
      cases running with
      | none => exact ih (some a.type) failed
      | some t =>
        dsimp only
        cases t.unify a.type with
        | some u => exact ih (some u) failed
        | none =>
          have hrest := (Leads.note c (.typeMismatch t.name a.type.name a.text)
              a.span.position).bind
            (f := fun _ => unify (some t) true operands) (g := fun _ => ⟨_, _⟩) (ih (some t) true)
          cases failed <;> exact hrest

theorem settle_leads (operands : List Arith) :
    Leads (settle operands) c (Typing.settle operands) c := by
  have hrefused : (false || !(Typing.agree none operands).diagnostics.isEmpty ||
      operands.any fun a => a.type == .unknown) =
      !((Typing.agree none operands).diagnostics.isEmpty &&
        operands.all fun a => a.type != .unknown) := by
    simp [List.not_all_eq_any_not, bne]
  have hsettle : Leads (settle operands) c
      ⟨(Typing.settle operands).value, (Typing.agree none operands).diagnostics ++ []⟩ c := by
    refine (unify_leads c none false operands).bind
      (g := fun _ => pure (Typing.settle operands).value) ?_
    dsimp only
    rw [hrefused, Typing.settle, Typing.commonType]
    cases (Typing.agree none operands).diagnostics.isEmpty &&
      operands.all fun a => a.type != .unknown with
    | false => exact .pure c _
    | true => cases (Typing.agree none operands).value.getD .unknown <;> exact .pure c _
  rwa [List.append_nil, ← Typing.settle_diagnostics] at hsettle

theorem negation_leads (a : Arith) (span : Span) :
    Leads (negation a span) c (Typing.negation a span) c :=
  (settle_leads c [a]).bind (.pure c _)

theorem aggregation_leads (op : Aggregate) (operands : List Arith) (span : Span) :
    Leads (aggregation op operands span) c (Typing.aggregation op operands span) c :=
  (settle_leads c operands).bind (.pure c _)

theorem difference_leads (head : Arith) (rest : List Arith) (span : Span) :
    Leads (difference head rest span) c (Typing.difference head rest span) c :=
  (settle_leads c (head :: rest)).bind (.pure c _)

theorem applyPolicy_leads (kind : LiteralKind) (lhs rhs : Arith) (p : Position) :
    Leads (applyPolicy kind lhs rhs p) c (Typing.applyPolicy c.policy kind lhs rhs p) c := by
  refine .get_bind (fun ds => rfl) ?_
  unfold Typing.applyPolicy
  cases c.policy with
  | keep => exact .pure c _
  | reject => exact (Leads.note c _ p).bind (.pure c _)
  | adopt t =>
    dsimp only
    cases t.adopted? kind with
    | some e => exact .pure c _
    | none => exact (Leads.note c _ p).bind (.pure c _)

theorem reconcile_leads (lhs rhs : Arith) (p : Position) :
    Leads (reconcile lhs rhs p) c (Typing.reconcile c.policy lhs rhs p) c := by
  unfold reconcile Typing.reconcile
  cases lhs.type.unify rhs.type with
  | none => exact (Leads.note c _ p).bind (.pure c _)
  | some type =>
    cases type with
    | literal kind =>
      dsimp only
      split
      · exact applyPolicy_leads c kind lhs rhs p
      · exact .pure c _
    | element t => exact .pure c _
    | unknown => exact .pure c _

theorem comparison_leads (op : Comparison) (lhs rhs : Arith) (span : Span) :
    Leads (comparison op lhs rhs span) c (Typing.comparison c.policy op lhs rhs span) c :=
  (reconcile_leads c lhs rhs span.position).bind (.pure c _)

theorem asArith_leads (e : Expr) (t : Term) : Leads (asArith e t) c (t.asArith e) c := by
  cases t with
  | arith a => exact .pure c a
  | formula f => exact (Leads.note c _ e.span.position).bind (.pure c _)

theorem asFormula_leads (e : Expr) (t : Term) : Leads (asFormula e t) c (t.asFormula e) c := by
  cases t with
  | arith a => exact (Leads.note c _ e.span.position).bind (.pure c _)
  | formula f => exact .pure c f

theorem version_leads (v : NeuralQuery.Version) :
    Leads (version v) c (Typing.version v) c := by
  unfold version Typing.version
  cases Typing.versionNumbers? v.lexeme with
  | none => exact (Leads.note c _ v.span.position).bind (.pure c _)
  | some numbers => exact .pure c _

end

/-! ## Expressions -/

section
variable {c : Checker}

theorem ariths_leads {es : List Expr}
    (h : ∀ e ∈ es, Leads (term e) c (Typing.term c.symbols.table c.policy e) c) :
    Leads (ariths es) c (Typing.ariths c.symbols.table c.policy es) c := by
  induction es with
  | nil =>
    rw [ariths, Typing.ariths]
    exact .pure c []
  | cons e es ih =>
    obtain ⟨he, hes⟩ := List.forall_mem_cons.mp h
    rw [ariths, Typing.ariths]
    exact he.bind ((asArith_leads c e _).bind ((ih hes).bind (.pure c _)))

theorem formulas_leads {es : List Expr}
    (h : ∀ e ∈ es, Leads (term e) c (Typing.term c.symbols.table c.policy e) c) :
    Leads (formulas es) c (Typing.formulas c.symbols.table c.policy es) c := by
  induction es with
  | nil =>
    rw [formulas, Typing.formulas]
    exact .pure c []
  | cons e es ih =>
    obtain ⟨he, hes⟩ := List.forall_mem_cons.mp h
    rw [formulas, Typing.formulas]
    exact he.bind ((asFormula_leads c e _).bind ((ih hes).bind (.pure c _)))

variable (hc : c.symbols.Consistent)
include hc

theorem reference_leads (name : String) (indices : List Int64) (span : Span) :
    Leads (reference name indices span) c
      (Typing.reference c.symbols.table name indices span) c := by
  refine .get_bind (fun ds => rfl) ?_
  rw [Typing.reference, Registry.resolve_table hc]
  cases c.symbols.resolve name span.position with
  | error d => exact (Leads.report c d).bind (.pure c _)
  | ok id =>
    refine .get_bind (fun ds => rfl) ?_
    dsimp only
    rw [Registry.get_table]
    split
    · exact (Leads.note c _ span.position).bind (.pure c _)
    · exact (checkIndices_leads c name span.position indices _).bind (.pure c _)

theorem term_leads (e : Expr) :
    Leads (term e) c (Typing.term c.symbols.table c.policy e) c := by
  induction e using Expr.inductOn with
  | var name indices s =>
    rw [term, Typing.term]
    exact (reference_leads hc name indices s).bind (.pure c _)
  | int lexeme value s =>
    rw [term, Typing.term]
    exact .pure c _
  | float lexeme value s =>
    rw [term, Typing.term]
    exact .pure c _
  | negate e s ih =>
    rw [term, Typing.term]
    exact ih.bind ((asArith_leads c e _).bind ((negation_leads c _ s).bind (.pure c _)))
  | aggregate op es s ih =>
    rw [term, Typing.term]
    exact (ariths_leads ih).bind ((aggregation_leads c op _ s).bind (.pure c _))
  | minus e es s ihe ihes =>
    rw [term, Typing.term]
    refine ihe.bind ((asArith_leads c e _).bind ((ariths_leads ihes).bind ?_))
    exact (difference_leads c _ _ s).bind (.pure c _)
  | compare op l r s ihl ihr =>
    rw [term, Typing.term]
    refine ihl.bind ((asArith_leads c l _).bind (ihr.bind ((asArith_leads c r _).bind ?_)))
    exact (comparison_leads c op _ _ s).bind (.pure c _)
  | connective op es s ih =>
    rw [term, Typing.term]
    exact (formulas_leads ih).bind (.pure c _)

theorem assertion_leads_typing (a : NeuralQuery.Assertion) :
    Leads (assertion a) c (Typing.assertion c.symbols.table c.policy a) c :=
  ((term_leads hc a.condition).bind (asFormula_leads c a.condition _)).bind (.pure c _)

theorem assertions_leads_typing (as : List NeuralQuery.Assertion) :
    Leads (assertions as) c (Typing.assertions c.symbols.table c.policy as) c := by
  induction as with
  | nil => exact .pure c []
  | cons a as ih => exact (assertion_leads_typing hc a).bind (ih.bind (.pure c _))

end

/-! ## Networks -/

/-- What a part gives and reports is `y`, of which `m` takes what is given apart from the table, and
it leaves a registry behind that stands for this table. -/
def Enters {α β : Type} (x : Check α) (c : Checker) (m : β → α × SymbolTable) (y : Checked β) :
    Prop :=
  ∃ r : Registry, r.Consistent ∧ r.table = (m y.value).2 ∧
    Leads x c ⟨(m y.value).1, y.diagnostics⟩ { c with symbols := r }

namespace Enters

variable {α β γ δ : Type} {x : Check α} {f : α → Check γ} {c : Checker}
  {m : β → α × SymbolTable} {m' : δ → γ × SymbolTable} {y : Checked β}

theorem pure (hc : c.symbols.Consistent) {b : β} (htable : (m b).2 = c.symbols.table) :
    Enters (pure (m b).1) c m (Pure.pure b) :=
  ⟨c.symbols, hc, htable.symm, .pure c _⟩

theorem bind {g : β → Checked δ} (hx : Enters x c m y)
    (hf : ∀ r : Registry, r.Consistent → r.table = (m y.value).2 →
      Enters (f (m y.value).1) { c with symbols := r } m' (g y.value)) :
    Enters (x >>= f) c m' (y >>= g) := by
  obtain ⟨r, hr, htable, hleads⟩ := hx
  obtain ⟨r', hr', htable', hleads'⟩ := hf r hr htable
  exact ⟨r', hr', htable', hleads.bind (g := fun _ => ⟨_, _⟩) hleads'⟩

/-- A part that only adds reports hands on the table as it is. -/
theorem leads_bind {z : Checked α} {g : α → Checked δ} (hx : Leads x c z c)
    (hf : Enters (f z.value) c m' (g z.value)) : Enters (x >>= f) c m' (z >>= g) := by
  obtain ⟨r, hr, htable, hleads⟩ := hf
  exact ⟨r, hr, htable, hx.bind (g := fun _ => ⟨_, _⟩) hleads⟩

end Enters

theorem definition_enters {c : Checker} (hc : c.symbols.Consistent) (scope : ScopeId)
    (network : String) (d : Declaration) (kind : SymbolKind) :
    Enters (definition scope network d kind) c id
      (Typing.definition c.symbols.table scope network d kind) := by
  let symbol := Symbol.ofDeclaration d kind network
  let i := (c.symbols.insert symbol).1
  have hinserted : (c.symbols.insert symbol).2.Consistent := hc.insert symbol
  have hi : i.index < (c.symbols.insert symbol).2.arena.length := by simp [i, Registry.insert]
  obtain ⟨⟨bound, r⟩, hbound⟩ :
      ∃ result, (c.symbols.insert symbol).2.declareVariable scope i d.span.position = result :=
    ⟨_, rfl⟩
  have hr := hinserted.declareVariable scope d.span.position hi
  have htable := (c.symbols.insert symbol).2.declareVariable_table scope i d.span.position
  rw [hbound] at hr htable
  have hdeclare := Leads.onSymbols { c with symbols := (c.symbols.insert symbol).2 }
    fun r => r.declareVariable scope i d.span.position
  simp only [hbound] at hdeclare
  -- both operations have run, and what remains is to report a name that is taken
  have hentered : ∀ {k : SymbolId → Except Diagnostic Unit → Check Definition}
      {y : Checked Definition},
      Leads (k i bound) { c with symbols := r } y { c with symbols := r } →
      Leads (onSymbols (fun r => r.insert symbol) >>= fun id =>
        onSymbols (fun r => r.declareVariable scope id d.span.position) >>= k id) c y
        { c with symbols := r } := fun {k y} hk =>
    (Leads.onSymbols c fun r => r.insert symbol).bind (g := fun _ => y)
      (hdeclare.bind (g := fun _ => y) hk)
  cases bound with
  | ok u =>
    have htyping : Typing.definition c.symbols.table scope network d kind =
        pure (Definition.ofSymbol i symbol d.span, r.table) := by
      rw [Typing.definition, Registry.insert_table]
      dsimp only
      rw [htable]
      rfl
    rw [htyping]
    exact ⟨r, hr, rfl, hentered (.pure _ _)⟩
  | error e =>
    have hsame : r = (c.symbols.insert symbol).2 := Registry.declareVariable_error hbound
    have htyping : Typing.definition c.symbols.table scope network d kind =
        ⟨(Definition.ofSymbol i symbol d.span, r.table), [e]⟩ := by
      rw [Typing.definition, Registry.insert_table]
      dsimp only
      rw [htable, hsame]
      rfl
    rw [htyping]
    have hreport := (Leads.report { c with symbols := r } e).bind
      (f := fun _ => pure (Definition.ofSymbol i symbol d.span))
      (g := fun _ => pure (Definition.ofSymbol i symbol d.span)) (.pure _ _)
    exact ⟨r, hr, rfl, hentered hreport⟩

/-- The networks by name are those of a query. -/
def Knows (c : Checker) (networks : List NeuralQuery.Network) : Prop :=
  ∀ name, c.declared.get? name = Typing.declared? networks name

theorem start_knows (policy : LiteralPolicy) (q : NeuralQuery.Query) :
    (start policy q).Knows q.networks := by
  have hfold : ∀ (ns : List NeuralQuery.Network) (m : Lookup NeuralQuery.Network) (name : String),
      (ns.foldl (fun m n => m.insertNew n.name n) m).get? name =
        (m.get? name).or (Typing.declared? ns name) := by
    intro ns
    induction ns with
    | nil => exact fun m name => Option.or_none.symm
    | cons n ns ih =>
      intro m name
      rw [List.foldl_cons, ih, Lookup.get?_insertNew, Option.or_assoc, Typing.declared?,
        Typing.declared?, List.find?_cons]
      by_cases hname : n.name = name
      · simp [hname]
      · rw [if_neg (Ne.symm hname), beq_false_of_ne hname, Option.none_or]
  intro name
  exact hfold q.networks .empty name

theorem relation_leads {c : Checker} {networks : List NeuralQuery.Network}
    (hknows : c.Knows networks) (n : NeuralQuery.Network) (r : Relation) :
    Leads (relation n r) c (Typing.relation networks n r) c := by
  unfold relation Typing.relation
  by_cases hself : r.target = n.name
  · rw [if_pos hself, if_pos hself]
    exact (Leads.note c _ r.span.position).bind (.pure c _)
  · rw [if_neg hself, if_neg hself, ← hknows]
    refine .get_bind (fun ds => rfl) ?_
    cases c.declared.get? r.target with
    | none => exact (Leads.note c _ r.span.position).bind (.pure c _)
    | some other =>
      dsimp only
      cases Typing.signatureMismatch? n other with
      | some detail => exact (Leads.note c _ r.span.position).bind (.pure c _)
      | none => exact .pure c _

/-- A draft apart from its table. -/
def progress (d : Draft) : Progress × SymbolTable :=
  (⟨d.network, d.related⟩, d.table)

theorem addForm_enters {c : Checker} {networks : List NeuralQuery.Network}
    (hc : c.symbols.Consistent) (hknows : c.Knows networks) (n : NeuralQuery.Network) {d : Draft}
    (hd : d.table = c.symbols.table) (i : Network.Item) :
    Enters (addForm n d.scope ⟨d.network, d.related⟩ i) c progress (d.add networks n i) := by
  cases i with
  | relation r =>
    refine .leads_bind (relation_leads hknows n r) ?_
    dsimp only
    by_cases hfirst : d.related = 0
    · rw [if_pos hfirst, if_pos hfirst]
      cases (Typing.relation networks n r).value <;> exact .pure hc hd
    · rw [if_neg hfirst, if_neg hfirst]
      refine .leads_bind (.note c _ r.span.position) ?_
      cases (Typing.relation networks n r).value <;> exact .pure hc hd
  | tensor role declaration =>
    unfold Draft.add
    rw [hd]
    refine (definition_enters hc d.scope n.name declaration (.tensor role)).bind
      fun r hr htable => ?_
    exact .pure hr htable.symm

theorem scope_add (networks : List NeuralQuery.Network) (n : NeuralQuery.Network) (d : Draft)
    (i : Network.Item) : (d.add networks n i).value.scope = d.scope := by
  cases i with
  | relation r =>
    by_cases hfirst : d.related = 0 <;> cases hr : (Typing.relation networks n r).value <;>
      simp [Draft.add, hfirst, hr]
  | tensor role declaration => rfl

theorem addForms_enters {c : Checker} {networks : List NeuralQuery.Network}
    (hc : c.symbols.Consistent) (hknows : c.Knows networks) (n : NeuralQuery.Network) {d : Draft}
    (hd : d.table = c.symbols.table) (items : List Network.Item) :
    Enters (addForms n d.scope ⟨d.network, d.related⟩ items) c progress
      (d.addAll networks n items) := by
  induction items generalizing c d with
  | nil => exact .pure hc hd
  | cons i items ih =>
    refine (addForm_enters hc hknows n hd i).bind fun r hr htable => ?_
    have hrest := ih (c := { c with symbols := r }) hr hknows htable.symm
    rw [scope_add] at hrest
    exact hrest

theorem ownSymbol_leads (c : Checker) (own : Except Diagnostic SymbolId) :
    Leads (ownSymbol own) c (Typing.ownSymbol own) c := by
  cases own with
  | ok id => exact .pure c _
  | error e => exact (Leads.report c e).bind (.pure c _)

theorem network_enters {c : Checker} {networks : List NeuralQuery.Network}
    (hc : c.symbols.Consistent) (hknows : c.Knows networks) (n : NeuralQuery.Network) :
    Enters (network n) c id (Typing.network networks c.symbols.table n) := by
  let opened := c.symbols.declareNetwork n.name n.span.position
  let c' : Checker := { c with symbols := opened.2 }
  let symbol := (Typing.ownSymbol opened.1.2).value
  let d : Draft := ⟨{ name := n.name, symbol, span := n.span }, opened.1.1, 0, opened.2.table⟩
  have hopened : opened.2.Consistent := hc.declareNetwork n.name n.span.position
  have hforms : Enters (addForms n d.scope ⟨d.network, d.related⟩ n.items) c' progress
      (d.addAll networks n n.items) :=
    addForms_enters (c := c') hopened hknows n rfl n.items
  have hnetwork := Enters.leads_bind (ownSymbol_leads c' opened.1.2)
    (f := fun symbol => addForms n opened.1.1 ⟨{ name := n.name, symbol, span := n.span }, 0⟩
      n.items >>= fun p => pure p.network)
    (g := fun _ => d.addAll networks n n.items >>= fun d => pure (d.network, d.table))
    (hforms.bind fun r hr htable => .pure (m := id) hr htable.symm)
  obtain ⟨r, hr, htable, hleads⟩ := hnetwork
  unfold Typing.network
  rw [Registry.declareNetwork_table hc]
  exact ⟨r, hr, htable, (Leads.onSymbols c _).bind (g := fun _ => ⟨_, _⟩) hleads⟩

theorem networks_enter {c : Checker} {all : List NeuralQuery.Network}
    (hc : c.symbols.Consistent) (hknows : c.Knows all) (ns : List NeuralQuery.Network) :
    Enters (networks ns) c id (Typing.networksFrom all c.symbols.table ns) := by
  induction ns generalizing c with
  | nil => exact .pure hc rfl
  | cons n ns ih =>
    refine (network_enters hc hknows n).bind fun r hr htable => ?_
    have hrest := ih (c := { c with symbols := r }) hr hknows
    rw [htable] at hrest
    exact hrest.bind fun r' hr' htable' => .pure hr' htable'.symm

/-! ## Queries -/

/-- A pass gives the typed query and the reports that the check with a table in hand gives. -/
theorem check_eq (policy : LiteralPolicy) (q : NeuralQuery.Query) :
    check policy q = Typing.query policy q := by
  let c := start policy q
  let entered := Typing.networksFrom q.networks .empty q.networks
  obtain ⟨r, hr, htable, hnetworks⟩ := networks_enter (c := c) Registry.Consistent.empty
    (start_knows policy q) q.networks
  let c' : Checker := { c with symbols := r }
  have hassertions : Leads (assertions q.assertions) c'
      (Typing.assertions entered.value.2 policy q.assertions) c' := by
    have hleads := assertions_leads_typing (c := c') hr q.assertions
    rwa [htable] at hleads
  have hlast : ∀ v ns as, Leads (get >>= fun c => pure ⟨v, ns, as, c.symbols.table, q.span⟩) c'
      (pure (⟨v, ns, as, entered.value.2, q.span⟩ : Typed.Query)) c' := by
    intro v ns as
    refine .get_bind (fun ds => rfl) ?_
    rw [htable]
    exact .pure c' _
  have hquery := (version_leads c q.version).bind (f := fun v =>
      networks q.networks >>= fun ns => assertions q.assertions >>= fun as =>
        get >>= fun c => pure (⟨v, ns, as, c.symbols.table, q.span⟩ : Typed.Query))
    (g := fun _ => ⟨_, _⟩)
    (hnetworks.bind (g := fun _ => ⟨_, _⟩)
      (hassertions.bind (g := fun _ => ⟨_, _⟩) (hlast _ _ _)))
  exact congrArg (fun r => (⟨r.1, r.2.diagnostics⟩ : Checked Typed.Query)) (hquery [])

end Checker
end NeuralQuery
