import NeuralQuery.Proofs.Renumbering

/-!
# NeuralQuery.Proofs.Placeless

Checking what stands in no source.

A check looks at places only to report them, and at a table only through the names it resolves. So
the check of an expression without its places, with a table that follows another one by a
renumbering `σ`, gives what the check of the expression gives, renumbered by `σ` and without places
(`Typing.formula_erased`). Queries that are the same without their places, with the forms of their
networks in the same order, are therefore the same after their check, and the same is reported of
them in the same order (`Typing.query_relaid`).
-/

namespace NeuralQuery

open Typed (Arith Formula)

/-- The fault in no source. -/
def Diagnostic.unplaced (d : Diagnostic) : Diagnostic :=
  { d with position := .nowhere }

def Typed.Version.unplaced (v : Typed.Version) : Typed.Version :=
  { v with span := .nowhere }

/-- The typed query in no source. -/
def Typed.Query.unplaced (q : Typed.Query) : Typed.Query where
  version := q.version.unplaced
  networks := q.networks.map (Network.relabel id)
  assertions := q.assertions.map (Assertion.relabel id)
  symbols := q.symbols
  span := .nowhere

/-- What a network says, and the order in which it does, in no source. -/
def Network.forms (n : Network) : Network × List Network.Item :=
  (n.unplaced, n.items.map Network.Item.unplaced)

/-- The same query in other places. -/
structure Query.Relaid (q q' : Query) : Prop where
  version : q'.version.lexeme = q.version.lexeme
  networks : q'.networks.map Network.forms = q.networks.map Network.forms
  assertions : q'.assertions.map Assertion.unplaced = q.assertions.map Assertion.unplaced

/-! ## Results without places -/

namespace Checked

variable {α α' β β' γ : Type}

/-- Another value with the same reports, in no source. -/
def erased (f : α → β) (c : Checked α) : Checked β :=
  ⟨f c.value, c.diagnostics.map Diagnostic.unplaced⟩

/-- A step in no source, and what follows it. -/
theorem bind_erased {c : Checked α} {c' : Checked α'} {k : α → Checked β} {k' : α' → Checked β'}
    (f : α → α') {g : β → β'} (hc : c' = c.erased f) (hk : ∀ a, k' (f a) = (k a).erased g) :
    c' >>= k' = (c >>= k).erased g := by
  subst hc
  ext1
  · simp [erased, hk]
  · simp [erased, hk]

/-- Two runs that agree without their places, step by step. -/
theorem erased_bind {c : Checked α} {c' : Checked α'} {f : α → γ} {f' : α' → γ}
    {δ : Type} {k : α → Checked β} {k' : α' → Checked β'} {g : β → δ} {g' : β' → δ}
    (hc : c'.erased f' = c.erased f)
    (hk : ∀ a a', f' a' = f a → (k' a').erased g' = (k a).erased g) :
    (c' >>= k').erased g' = (c >>= k).erased g := by
  have hvalue : f' c'.value = f c.value := congrArg value hc
  have hreports := congrArg diagnostics hc
  have hnext := hk _ _ hvalue
  ext1
  · exact congrArg (fun c => c.value) hnext
  · have hlater := congrArg diagnostics hnext
    simp only [erased, diagnostics_bind, List.map_append] at hreports hlater ⊢
    rw [hreports, hlater]

theorem diagnostics_erased_eq_nil_iff {f : α → β} {c : Checked α} :
    (c.erased f).diagnostics = [] ↔ c.diagnostics = [] :=
  List.map_eq_nil_iff

end Checked

/-! ## Names -/

/-- Every name leads to the symbol that `σ` makes of the one before, which has the same record, or
to the same fault. -/
structure SymbolTable.Follows (σ : SymbolId → SymbolId) (t t' : SymbolTable) : Prop where
  resolve : ∀ name p, t'.resolve name .nowhere =
    ((t.resolve name p).map σ).mapError Diagnostic.unplaced
  records : ∀ name p id, t.resolve name p = .ok id → t'.get (σ id) = t.get id

theorem SymbolTable.follows_self (t : SymbolTable) : t.Follows id t where
  resolve name p := by
    unfold SymbolTable.resolve
    split
    · rfl
    · split <;> rfl
    · rfl
  records _ _ _ _ := rfl

namespace Typing

open Checked

/-! ## Operands -/

section
variable (σ : SymbolId → SymbolId)

theorem checkBounds_erased (name : String) (p : Position) (dimension : Nat)
    (indices shape : List Int64) :
    checkBounds name .nowhere dimension indices shape =
      (checkBounds name p dimension indices shape).erased id := by
  induction indices generalizing dimension shape with
  | nil => rfl
  | cons index indices ih =>
    cases shape with
    | nil => rfl
    | cons bound shape =>
      rw [checkBounds, checkBounds]
      split
      · exact ih _ _
      · exact bind_erased id rfl fun _ => ih _ _

theorem checkIndices_erased (name : String) (p : Position) (indices shape : List Int64) :
    checkIndices name .nowhere indices shape =
      (checkIndices name p indices shape).erased id := by
  unfold checkIndices
  split
  · exact checkBounds_erased name p 0 indices shape
  · rfl

theorem agree_erased (running : Option ValueType) (operands : List Arith) :
    agree running (operands.map (Arith.relabel σ)) = (agree running operands).erased id := by
  induction operands generalizing running with
  | nil => rfl
  | cons a operands ih =>
    simp only [List.map_cons, agree, Arith.type_relabel, Arith.text_relabel, Arith.span_relabel]
    split
    · exact bind_erased id rfl fun _ => ih _
    · cases running with
      | none => exact ih _
      | some t =>
        dsimp only
        cases t.unify a.type with
        | some u => exact ih _
        | none => exact bind_erased id rfl fun _ => ih _

/-- Operands with other numbers, in no source. -/
def Settled.relabel (s : Settled) : Settled :=
  ⟨s.type, s.operands.map (Arith.relabel σ)⟩

theorem settle_erased (operands : List Arith) :
    settle (operands.map (Arith.relabel σ)) = (settle operands).erased (Settled.relabel σ) := by
  have htype : commonType (operands.map (Arith.relabel σ)) ((agree none operands).erased id) =
      commonType operands (agree none operands) := by
    simp [commonType, erased, List.all_map, Function.comp_def]
  simp only [settle, agree_erased, htype]
  split
  · simp [erased, Settled.relabel, List.map_map, Function.comp_def, Arith.relabel_pin]
  · rfl

theorem negation_erased (a : Arith) (s : Span) :
    negation (a.relabel σ) .nowhere = (negation a s).erased (Arith.relabel σ) := by
  refine bind_erased (Settled.relabel σ) (settle_erased σ [a]) fun t => ?_
  cases t with
  | mk type operands => cases operands <;> rfl

theorem aggregation_erased (op : Aggregate) (operands : List Arith) (s : Span) :
    aggregation op (operands.map (Arith.relabel σ)) .nowhere =
      (aggregation op operands s).erased (Arith.relabel σ) := by
  refine bind_erased (Settled.relabel σ) (settle_erased σ operands) fun t => ?_
  simp [erased, Settled.relabel, Arith.relabel, Arith.relabelAll_eq_map, pure]

theorem difference_erased (head : Arith) (rest : List Arith) (s : Span) :
    difference (head.relabel σ) (rest.map (Arith.relabel σ)) .nowhere =
      (difference head rest s).erased (Arith.relabel σ) := by
  refine bind_erased (Settled.relabel σ) (settle_erased σ (head :: rest)) fun t => ?_
  cases t with
  | mk type operands =>
    cases operands <;>
      simp [erased, Settled.relabel, Arith.relabel, Arith.relabelAll_eq_map, pure]

/-! ## Comparisons -/

/-- Two sides with other numbers, in no source. -/
def relabelSides (sides : Arith × Arith) : Arith × Arith :=
  (sides.1.relabel σ, sides.2.relabel σ)

theorem applyPolicy_erased (policy : LiteralPolicy) (kind : LiteralKind) (l r : Arith)
    (p : Position) :
    applyPolicy policy kind (l.relabel σ) (r.relabel σ) .nowhere =
      (applyPolicy policy kind l r p).erased (relabelSides σ) := by
  cases policy with
  | keep => rfl
  | adopt t =>
    simp only [applyPolicy, Arith.text_relabel, ← Arith.relabel_pin]
    split <;> rfl
  | reject => rfl

theorem reconcile_erased (policy : LiteralPolicy) (l r : Arith) (p : Position) :
    reconcile policy (l.relabel σ) (r.relabel σ) .nowhere =
      (reconcile policy l r p).erased (relabelSides σ) := by
  simp only [reconcile, Arith.type_relabel, ← Arith.relabel_pin]
  split
  · rfl
  · split
    · exact applyPolicy_erased σ policy _ l r p
    · rfl
  · rfl
  · rfl

theorem comparison_erased (policy : LiteralPolicy) (op : Comparison) (l r : Arith) (s : Span) :
    comparison policy op (l.relabel σ) (r.relabel σ) .nowhere =
      (comparison policy op l r s).erased (Formula.relabel σ) :=
  bind_erased (relabelSides σ) (reconcile_erased σ policy l r s.position) fun _ => rfl

/-! ## Expressions -/

def Term.relabel : Term → Term
  | arith a => .arith (a.relabel σ)
  | formula f => .formula (f.relabel σ)

theorem asArith_erased (e : Expr) (τ : Term) :
    Term.asArith e.unplaced (τ.relabel σ) = (τ.asArith e).erased (Arith.relabel σ) := by
  cases τ with
  | arith a => rfl
  | formula f =>
    simp only [Term.asArith, Term.relabel, Expr.text_unplaced, Expr.span_unplaced]
    rfl

theorem asFormula_erased (e : Expr) (τ : Term) :
    Term.asFormula e.unplaced (τ.relabel σ) = (τ.asFormula e).erased (Formula.relabel σ) := by
  cases τ with
  | arith a =>
    simp only [Term.asFormula, Term.relabel, Expr.text_unplaced, Expr.span_unplaced,
      Arith.type_relabel]
    rfl
  | formula f => rfl

end

section
variable {σ : SymbolId → SymbolId} {t t' : SymbolTable} (h : t.Follows σ t')
  (policy : LiteralPolicy)
include h

theorem reference_erased (name : String) (indices : List Int64) (s : Span) :
    reference t' name indices .nowhere =
      (reference t name indices s).erased (Arith.relabel σ) := by
  have hresolve : t'.resolve name Span.nowhere.position = _ := h.resolve name s.position
  unfold reference
  rw [hresolve]
  cases hr : t.resolve name s.position with
  | error d => rfl
  | ok symbol =>
    have hok : ((Except.ok symbol).map σ).mapError Diagnostic.unplaced = .ok (σ symbol) := rfl
    simp only [hok, h.records _ _ _ hr]
    split
    · rfl
    · exact bind_erased id (checkIndices_erased name _ _ _) fun _ => rfl

omit h in
theorem ariths_erased {es : List Expr}
    (ih : ∀ e ∈ es, term t' policy e.unplaced = (term t policy e).erased (Term.relabel σ)) :
    ariths t' policy (Expr.unplacedAll es) =
      (ariths t policy es).erased (List.map (Arith.relabel σ)) := by
  induction es with
  | nil => rfl
  | cons e es ihes =>
    obtain ⟨he, hes⟩ := List.forall_mem_cons.mp ih
    rw [Expr.unplacedAll, ariths, ariths]
    refine bind_erased _ he fun τ => bind_erased _ (asArith_erased σ e τ) fun a => ?_
    exact bind_erased _ (ihes hes) fun rest => rfl

omit h in
theorem formulas_erased {es : List Expr}
    (ih : ∀ e ∈ es, term t' policy e.unplaced = (term t policy e).erased (Term.relabel σ)) :
    formulas t' policy (Expr.unplacedAll es) =
      (formulas t policy es).erased (List.map (Formula.relabel σ)) := by
  induction es with
  | nil => rfl
  | cons e es ihes =>
    obtain ⟨he, hes⟩ := List.forall_mem_cons.mp ih
    rw [Expr.unplacedAll, formulas, formulas]
    refine bind_erased _ he fun τ => bind_erased _ (asFormula_erased σ e τ) fun f => ?_
    exact bind_erased _ (ihes hes) fun rest => rfl

/-- An expression in no source is checked as it is in its source. -/
theorem term_erased (e : Expr) :
    term t' policy e.unplaced = (term t policy e).erased (Term.relabel σ) := by
  induction e using Expr.inductOn with
  | var name indices s =>
    rw [Expr.unplaced, term, term]
    exact bind_erased _ (reference_erased h name indices s) fun a => rfl
  | int lexeme value s =>
    rw [Expr.unplaced, term, term]
    rfl
  | float lexeme value s =>
    rw [Expr.unplaced, term, term]
    rfl
  | negate e s ih =>
    rw [Expr.unplaced, term, term]
    refine bind_erased _ ih fun τ => bind_erased _ (asArith_erased σ e τ) fun a => ?_
    exact bind_erased _ (negation_erased σ a s) fun n => rfl
  | aggregate op es s ih =>
    rw [Expr.unplaced, term, term]
    refine bind_erased _ (ariths_erased policy ih) fun operands => ?_
    exact bind_erased _ (aggregation_erased σ op operands s) fun a => rfl
  | minus e es s ihe ihes =>
    rw [Expr.unplaced, term, term]
    refine bind_erased _ ihe fun τ => bind_erased _ (asArith_erased σ e τ) fun head => ?_
    refine bind_erased _ (ariths_erased policy ihes) fun rest => ?_
    exact bind_erased _ (difference_erased σ head rest s) fun a => rfl
  | compare op l r s ihl ihr =>
    rw [Expr.unplaced, term, term]
    refine bind_erased _ ihl fun τ => bind_erased _ (asArith_erased σ l τ) fun lhs => ?_
    refine bind_erased _ ihr fun τ => bind_erased _ (asArith_erased σ r τ) fun rhs => ?_
    exact bind_erased _ (comparison_erased σ policy op lhs rhs s) fun f => rfl
  | connective op es s ih =>
    rw [Expr.unplaced, term, term]
    refine bind_erased _ (formulas_erased policy ih) fun fs => ?_
    simp [erased, Term.relabel, Formula.relabel, Formula.relabelAll_eq_map, pure]

theorem formula_erased (e : Expr) :
    formula t' policy e.unplaced = (formula t policy e).erased (Formula.relabel σ) :=
  bind_erased _ (term_erased h policy e) fun τ => asFormula_erased σ e τ

end

/-! ## Networks -/

theorem firstMismatch?_unplaced (role : String) (place : Nat) (ours theirs : List Declaration) :
    firstMismatch? role place (ours.map .unplaced) (theirs.map .unplaced) =
      firstMismatch? role place ours theirs := by
  induction ours generalizing place theirs with
  | nil => rfl
  | cons a ours ih =>
    cases theirs with
    | nil => rfl
    | cons b theirs =>
      have hone : tensorMismatch? role place a.unplaced b.unplaced =
          tensorMismatch? role place a b := rfl
      simp only [List.map_cons, firstMismatch?, hone, ih]

theorem signatureMismatch?_unplaced (n other : Network) :
    signatureMismatch? n.unplaced other.unplaced = signatureMismatch? n other := by
  simp only [signatureMismatch?, sideMismatch?, Network.unplaced, List.length_map,
    firstMismatch?_unplaced]

theorem declared?_unplaced (networks : List Network) (name : String) :
    declared? (networks.map .unplaced) name = (declared? networks name).map .unplaced :=
  List.find?_map ..

theorem relation_erased (networks : List Network) (n : Network) (r : Relation) :
    relation (networks.map .unplaced) n.unplaced r.unplaced =
      (relation networks n r).erased id := by
  have htarget : r.unplaced.target = r.target := rfl
  have hname : n.unplaced.name = n.name := rfl
  unfold relation
  rw [htarget, hname, declared?_unplaced]
  split
  · rfl
  · cases declared? networks r.target with
    | none => rfl
    | some other =>
      simp only [Option.map_some, signatureMismatch?_unplaced]
      split <;> rfl

theorem declareVariable_unplaced (t : SymbolTable) (scope : ScopeId) (id : SymbolId)
    (p : Position) :
    t.declareVariable scope id .nowhere =
      (t.declareVariable scope id p).mapError Diagnostic.unplaced := by
  simp only [SymbolTable.declareVariable]
  split
  · rfl
  · split <;> rfl

theorem definition_erased (t : SymbolTable) (scope : ScopeId) (network : String)
    (d : Declaration) (kind : SymbolKind) :
    definition t scope network d.unplaced kind =
      (definition t scope network d kind).erased (Prod.map (Typed.Definition.relabel id) id) := by
  have hdeclare := declareVariable_unplaced (t.insert (.ofDeclaration d kind network)).2 scope
    (t.insert (.ofDeclaration d kind network)).1 d.span.position
  have hposition : d.unplaced.span.position = .nowhere := rfl
  have hsymbol : Symbol.ofDeclaration d.unplaced kind network = .ofDeclaration d kind network := rfl
  simp only [definition, hposition, hsymbol, hdeclare]
  cases (t.insert (.ofDeclaration d kind network)).2.declareVariable scope _ d.span.position <;> rfl

theorem relate_relabel (n : Typed.Network) (r : Relation) :
    (n.relabel id).relate r.unplaced = (n.relate r).relabel id := by
  have hkind : r.unplaced.kind = r.kind := rfl
  unfold Typed.Network.relate
  rw [hkind]
  cases r.kind <;> rfl

theorem define_relabel (n : Typed.Network) (role : Role) (definition : Typed.Definition) :
    (n.relabel id).define role (definition.relabel id) = (n.define role definition).relabel id := by
  cases role <;> simp [Typed.Network.define, Typed.Network.relabel]

/-- The draft in no source. -/
def Draft.unplaced (d : Draft) : Draft :=
  { d with network := d.network.relabel id }

namespace Draft

theorem add_erased (networks : List Network) (n : Network) (d : Draft) (i : Network.Item) :
    d.unplaced.add (networks.map .unplaced) n.unplaced i.unplaced =
      (d.add networks n i).erased unplaced := by
  cases i with
  | relation r =>
    refine bind_erased id (relation_erased networks n r) fun resolved => ?_
    have hlast : ∀ d : Draft,
        (if resolved then { d.unplaced with network := d.unplaced.network.relate r.unplaced }
          else d.unplaced) =
        (if resolved then { d with network := d.network.relate r } else d).unplaced := by
      intro d
      cases resolved with
      | true => exact congrArg (fun m => { d with network := m }) (relate_relabel d.network r)
      | false => rfl
    have hrelated : d.unplaced.related = d.related := rfl
    simp only [hrelated]
    split
    · exact congrArg pure (hlast { d with related := d.related + 1 })
    · exact bind_erased id rfl fun _ => congrArg pure (hlast { d with related := d.related + 1 })
  | tensor role declaration =>
    refine bind_erased _ (definition_erased d.table d.scope n.name declaration (.tensor role)) ?_
    rintro ⟨typed, table⟩
    have hdefine := define_relabel d.network role typed
    exact congrArg (fun m => (pure { d with network := m, table } : Checked Draft)) hdefine

theorem addAll_erased (networks : List Network) (n : Network) (d : Draft)
    (items : List Network.Item) :
    d.unplaced.addAll (networks.map .unplaced) n.unplaced (items.map .unplaced) =
      (d.addAll networks n items).erased unplaced := by
  induction items generalizing d with
  | nil => rfl
  | cons i items ih => exact bind_erased _ (add_erased networks n d i) fun d => ih d

end Draft

/-- The forms of a network are put in order by their places, so here they are given in the order
that they have with them. -/
theorem network_erased (networks : List Network) (t : SymbolTable) (n : Network) :
    (network networks t n).erased (Prod.map (Typed.Network.relabel id) id) = do
      let opening := t.declareNetwork n.name .nowhere
      let symbol ← ownSymbol opening.symbol
      let start : Typed.Network := { name := n.name, symbol, span := .nowhere }
      let d ← Draft.addAll (networks.map .unplaced) n.unplaced
        ⟨start, opening.scope, 0, opening.table⟩ (n.items.map .unplaced)
      return (d.network, d.table) := by
  have hopening : t.declareNetwork n.name .nowhere =
      { t.declareNetwork n.name n.span.position with
        symbol := (t.declareNetwork n.name n.span.position).symbol.mapError .unplaced } := by
    simp only [SymbolTable.declareNetwork]
    split <;> rfl
  rw [hopening, network]
  generalize t.declareNetwork n.name n.span.position = opening
  refine (bind_erased id ?_ fun symbol => ?_).symm
  · cases opening.symbol <;> rfl
  · refine bind_erased Draft.unplaced ?_ fun d => rfl
    rw [← Draft.addAll_erased]
    simp [Draft.unplaced, Typed.Network.relabel]

theorem networksFrom_relaid {all all' : List Network}
    (hall : all'.map Network.unplaced = all.map Network.unplaced) {ns ns' : List Network}
    (h : ns'.map Network.forms = ns.map Network.forms) (t : SymbolTable) :
    (networksFrom all' t ns').erased (Prod.map (List.map (Typed.Network.relabel id)) id) =
      (networksFrom all t ns).erased (Prod.map (List.map (Typed.Network.relabel id)) id) := by
  induction ns generalizing ns' t with
  | nil =>
    obtain rfl := List.map_eq_nil_iff.mp h
    rfl
  | cons n ns ih =>
    obtain ⟨n', ns', rfl, hn, hns⟩ := List.map_eq_cons_iff.mp h
    obtain ⟨hunplaced, hitems⟩ := Prod.mk.inj hn
    have hone : (network all' t n').erased (Prod.map (Typed.Network.relabel id) id) =
        (network all t n).erased (Prod.map (Typed.Network.relabel id) id) := by
      rw [network_erased, network_erased, hall, hunplaced, hitems, Network.name_eq hunplaced]
    refine erased_bind hone ?_
    rintro ⟨typed, _⟩ ⟨typed', t'⟩ hsame
    obtain ⟨htyped, rfl⟩ := Prod.mk.inj hsame
    refine erased_bind (ih hns _) ?_
    rintro ⟨rest, _⟩ ⟨rest', t'⟩ hsame
    obtain ⟨hrest, rfl⟩ := Prod.mk.inj hsame
    have hlist : (typed' :: rest').map (Typed.Network.relabel id) =
        (typed :: rest).map (Typed.Network.relabel id) := by
      rw [List.map_cons, List.map_cons, hrest]
      exact congrArg (· :: _) htyped
    exact congrArg (fun l => pure (l, t')) hlist

/-! ## Queries -/

theorem version_relaid {v v' : Version} (h : v'.lexeme = v.lexeme) :
    (version v').erased Typed.Version.unplaced = (version v).erased Typed.Version.unplaced := by
  unfold version
  rw [h]
  split <;> rfl

theorem assertions_erased {σ : SymbolId → SymbolId} {t t' : SymbolTable} (h : t.Follows σ t')
    (policy : LiteralPolicy) (as : List Assertion) :
    assertions t' policy (as.map .unplaced) =
      (assertions t policy as).erased (List.map (Typed.Assertion.relabel σ)) := by
  induction as with
  | nil => rfl
  | cons a as ih =>
    have hone : assertion t' policy a.unplaced =
        (assertion t policy a).erased (Typed.Assertion.relabel σ) :=
      bind_erased _ (formula_erased h policy a.condition) fun f => rfl
    exact bind_erased _ hone fun typed => bind_erased _ ih fun others => rfl

/-- Assertions that are the same without their places are checked alike. -/
theorem assertions_relaid {σ : SymbolId → SymbolId} {t t' : SymbolTable} (h : t.Follows σ t')
    (policy : LiteralPolicy) {as as' : List Assertion}
    (hu : as'.map Assertion.unplaced = as.map Assertion.unplaced) :
    (assertions t' policy as').erased (List.map (Typed.Assertion.relabel id)) =
      (assertions t policy as).erased (List.map (Typed.Assertion.relabel σ)) := by
  rw [← assertions_erased t'.follows_self, hu, assertions_erased h]

/-- Queries that differ only in their places have the same types, and the same faults in the same
order. -/
theorem query_relaid (policy : LiteralPolicy) {q q' : Query} (h : q.Relaid q') :
    (query policy q').erased Typed.Query.unplaced =
      (query policy q).erased Typed.Query.unplaced := by
  have hall : q'.networks.map Network.unplaced = q.networks.map Network.unplaced := by
    have hfirst := congrArg (List.map Prod.fst) h.networks
    rwa [List.map_map, List.map_map] at hfirst
  refine erased_bind (version_relaid h.version) fun v v' hv => ?_
  refine erased_bind (networksFrom_relaid hall h.networks .empty) ?_
  rintro ⟨networks, _⟩ ⟨networks', t⟩ hsame
  obtain ⟨hnetworks, rfl⟩ := Prod.mk.inj hsame
  refine erased_bind (assertions_relaid t.follows_self policy h.assertions) ?_
  intro as as' hassertions
  exact congrArg pure (Typed.Query.mk.injEq .. |>.mpr ⟨hv, hnetworks, hassertions, rfl, rfl⟩)

end Typing
end NeuralQuery
