import NeuralQuery.Proofs.Pinning
import NeuralQuery.Proofs.Written

/-!
# NeuralQuery.Proofs.Display

The text of a query that is checked without a report is the query written out (`Typing.query_text`).

Two things have to hold for that. Forms keep their order inside a network, which they do when the
tokens of the query stand in the order of their offsets (`DerivesQuery.inOrder`). And types, symbols
and pinned literals leave no trace in the text of an expression (`Typing.arith_text`).
-/

namespace NeuralQuery

open Typed (Arith Formula)

/-! ## Forms in written order -/

namespace Network

/-- The forms in the order of their places make up the network. -/
def InOrder (n : Network) : Prop :=
  ofItems n.name n.items n.span = n

/-- The forms of a network are known from the order of their places. -/
theorem items_eq_of_perm {n : Network} {items : List Item} (hperm : n.grouped.Perm items)
    (h : items.Pairwise fun i j => i.span.start < j.span.start) : n.items = items := by
  let before (i j : Item) : Bool := i.span.start ≤ j.span.start
  have hperm : n.items.Perm items := (List.mergeSort_perm _ _).trans hperm
  have hsorted : n.items.Pairwise (fun i j => before i j = true) :=
    List.pairwise_mergeSort (by simp [before]; omega) (by simp [before]; omega) _
  have hitems : items.Pairwise (fun i j => before i j = true) :=
    h.imp fun hij => by simpa [before] using Nat.le_of_lt hij
  refine hperm.eq_of_pairwise (fun i j hi hj hij hji => ?_) hsorted hitems
  -- two different forms never start at the same place
  have hi := hperm.mem_iff.mp hi
  have hstart : i.span.start = j.span.start := by
    simp only [before, decide_eq_true_eq] at hij hji
    omega
  by_contra hne
  have hor := List.Pairwise.forall_of_forall_of_flip (R := fun i j : Item => i ≠ j →
    i.span.start < j.span.start ∨ j.span.start < i.span.start) (by simp)
    (h.imp fun hlt _ => .inl hlt) (h.imp fun hlt _ => .inr hlt) hi hj hne
  omega

theorem items_ofItems (name : String) (s : Span) {items : List Item}
    (h : items.Pairwise fun i j => i.span.start < j.span.start) :
    (ofItems name items s).items = items :=
  items_eq_of_perm (grouped_ofItems_perm name items s) h

end Network

/-- A form starts where its first token does. -/
theorem DerivesItem.position {ts : List Token} {i : Network.Item} (h : DerivesItem ts i) :
    ∃ t ∈ ts, i.span.position = t.span.position := by
  cases h with
  | relation hr =>
    cases hr
    exact ⟨_, by simp, rfl⟩
  | tensor role hd =>
    cases hd
    exact ⟨_, by simp, rfl⟩

def InSequence (ts : List Token) : Prop :=
  ts.Pairwise fun t u => t.span.start < u.span.start

theorem DerivesItem.inSequence {parts : List (List Token × Network.Item)}
    (h : ∀ p ∈ parts, DerivesItem p.1 p.2) (hs : InSequence (parts.flatMap Prod.fst)) :
    (parts.map Prod.snd).Pairwise fun i j => i.span.start < j.span.start := by
  induction parts with
  | nil => exact .nil
  | cons p parts ih =>
    obtain ⟨hp, hparts⟩ := List.forall_mem_cons.mp h
    rw [List.flatMap_cons] at hs
    obtain ⟨_, hrest, hacross⟩ := List.pairwise_append.mp hs
    rw [List.map_cons, List.pairwise_cons]
    refine ⟨fun j hj => ?_, ih hparts hrest⟩
    obtain ⟨q, hq, rfl⟩ := List.mem_map.mp hj
    obtain ⟨t, ht, hti⟩ := hp.position
    obtain ⟨u, hu, huj⟩ := (hparts q hq).position
    have hstart : p.2.span.start = t.span.start := congrArg Position.offset hti
    have hstart' : q.2.span.start = u.span.start := congrArg Position.offset huj
    rw [hstart, hstart']
    exact hacross t ht u (List.mem_flatMap.mpr ⟨q, hq, hu⟩)

theorem DerivesNetwork.inOrder {ts : List Token} {n : Network} (h : DerivesNetwork ts n)
    (hs : InSequence ts) : n.InOrder := by
  cases h with
  | @mk left keyword name right parts _ _ _ hparts _ =>
    have hsub : (parts.flatMap Prod.fst).Sublist
        (left :: keyword :: name :: (parts.flatMap Prod.fst ++ [right])) :=
      (((List.sublist_append_left ..).cons name).cons keyword).cons left
    have hitems := Network.items_ofItems name.value (left.span.upTo right.span)
      (DerivesItem.inSequence hparts (hs.sublist hsub))
    unfold Network.InOrder
    rw [hitems]
    rfl

theorem DerivesQuery.inOrder {file : String} {ending : Token} {ts : List Token} {q : Query}
    (h : DerivesQuery file ending ts q) (hs : InSequence ts) : ∀ n ∈ q.networks, n.InOrder := by
  cases h with
  | @mk us v networks assertions _ hnetworks _ =>
    intro n hn
    obtain ⟨p, hp, rfl⟩ := List.mem_map.mp hn
    have hrow : p.1.Sublist (networks.flatMap Prod.fst) := by
      rw [List.flatMap_def]
      exact List.sublist_flatten_of_mem (List.mem_map_of_mem hp)
    have hsub := hrow.trans ((List.sublist_append_left _ (assertions.flatMap Prod.fst)).trans
      (List.sublist_append_right us _))
    exact (hnetworks p hp).inOrder (hs.sublist hsub)

/-! ## Typed networks -/

/-- The typed tensor has the record of a declared one, which is that of its symbol. -/
def Defines (symbols : List Symbol) (n : Network) (role : Role) (d : Declaration)
    (typed : Typed.Definition) : Prop :=
  symbols[typed.symbol.index]? = some (n.symbolOf (role, d)) ∧
    typed = .ofSymbol typed.symbol (n.symbolOf (role, d)) d.span

/-- The target of the first relation of a kind. -/
def Network.target? (n : Network) (kind : RelationKind) : Option String :=
  n.relations.findSome? fun r => if r.kind = kind then some r.target else none

/-- The typed network has all the forms of the network, in its order. -/
structure TypedAs (symbols : List Symbol) (n : Network) (m : Typed.Network) : Prop where
  name : m.name = n.name
  own : ∃ id, m.symbol = some id ∧ symbols[id.index]? = some (.ofNetwork n.name)
  isometricTo : m.isometricTo = n.target? .isometric
  equalTo : m.equalTo = n.target? .equal
  inputs : List.Forall₂ (Defines symbols n .input) n.inputs m.inputs
  hidden : List.Forall₂ (Defines symbols n .hidden) n.hidden m.hidden
  outputs : List.Forall₂ (Defines symbols n .output) n.outputs m.outputs

namespace TypedAs

theorem definitionsFrom (n : Network) (role : Role) (symbols : List Symbol)
    (items : List Network.Item) :
    List.Forall₂ (Defines (symbols ++ (items.filterMap Network.Item.part?).map n.symbolOf) n role)
      (items.filterMap (Network.Item.tensor? role))
      (n.definitionsFrom role symbols.length (items.filterMap Network.Item.part?)) := by
  induction items generalizing symbols with
  | nil => exact .nil
  | cons i items ih =>
    cases i with
    | relation r => exact ih symbols
    | tensor role' d =>
      have hrest := ih (symbols ++ [n.symbolOf (role', d)])
      simp only [List.filterMap_cons, Network.Item.part?, Network.Item.tensor?, List.map_cons,
        Network.definitionsFrom_cons]
      simp only [List.length_append, List.length_singleton, List.append_assoc,
        List.singleton_append] at hrest
      by_cases hr : role' = role
      · subst hr
        simp only [if_true, List.singleton_append]
        exact .cons ⟨by simp [Typed.Definition.ofSymbol], rfl⟩ hrest
      · simpa [hr] using hrest

theorem of_typed {n : Network} (h : n.InOrder) (t : SymbolTable) :
    TypedAs (t.extend n).symbols n (n.typed t.symbols.length) := by
  have htarget : ∀ kind, n.items.findSome? (Network.Item.target? kind) = n.target? kind := by
    intro kind
    have hrelations : n.relations = n.items.filterMap Network.Item.relation? :=
      congrArg Network.relations h.symm
    rw [Network.target?, hrelations, ← List.head?_filterMap, ← List.head?_filterMap,
      List.filterMap_filterMap]
    congr 2
    funext i
    cases i <;> rfl
  have htensors : ∀ role, List.Forall₂ (Defines (t.extend n).symbols n role)
      (n.items.filterMap (Network.Item.tensor? role))
      (n.definitionsFrom role (t.symbols.length + 1) n.tensors) := by
    intro role
    have hfrom := definitionsFrom n role (t.symbols ++ [.ofNetwork n.name]) n.items
    simpa [SymbolTable.extend, Network.tensors] using hfrom
  exact {
    name := rfl
    own := ⟨_, rfl, by simp [SymbolTable.extend]⟩
    isometricTo := by simpa [Network.typed, Network.typedWith] using htarget .isometric
    equalTo := by simpa [Network.typed, Network.typedWith] using htarget .equal
    inputs := by
      rw [show n.inputs = n.items.filterMap (Network.Item.tensor? .input) from
        congrArg Network.inputs h.symm]
      exact htensors .input
    hidden := by
      rw [show n.hidden = n.items.filterMap (Network.Item.tensor? .hidden) from
        congrArg Network.hidden h.symm]
      exact htensors .hidden
    outputs := by
      rw [show n.outputs = n.items.filterMap (Network.Item.tensor? .output) from
        congrArg Network.outputs h.symm]
      exact htensors .output }

variable {symbols : List Symbol} {n : Network} {m : Typed.Network}

theorem mono (h : TypedAs symbols n m) (more : List Symbol) : TypedAs (symbols ++ more) n m := by
  obtain ⟨id, hid, hown⟩ := h.own
  have hkeep : ∀ role d typed, Defines symbols n role d typed →
      Defines (symbols ++ more) n role d typed := fun role d typed hd =>
    ⟨getElem?_append_of_some hd.1 more, hd.2⟩
  exact { h with
    own := ⟨id, hid, getElem?_append_of_some hown more⟩
    inputs := h.inputs.imp (hkeep .input)
    hidden := h.hidden.imp (hkeep .hidden)
    outputs := h.outputs.imp (hkeep .output) }

end TypedAs

/-- The symbols that a network adds to a table. -/
def Network.symbols (n : Network) : List Symbol :=
  .ofNetwork n.name :: n.tensors.map n.symbolOf

theorem SymbolTable.foldl_extend_symbols (ns : List Network) (t : SymbolTable) :
    (ns.foldl extend t).symbols = t.symbols ++ ns.flatMap Network.symbols := by
  induction ns generalizing t with
  | nil => simp
  | cons n ns ih => rw [List.foldl_cons, ih]; simp [extend, Network.symbols]

theorem Network.typedFrom_typedAs {ns : List Network} (h : ∀ n ∈ ns, n.InOrder) (t : SymbolTable) :
    List.Forall₂ (TypedAs (ns.foldl SymbolTable.extend t).symbols) ns
      (typedFrom t.symbols.length ns) := by
  induction ns generalizing t with
  | nil => exact .nil
  | cons n ns ih =>
    obtain ⟨hn, hns⟩ := List.forall_mem_cons.mp h
    have hrest := ih hns (t.extend n)
    have hlen : (t.extend n).symbols.length = t.symbols.length + (n.tensors.length + 1) := by
      simp [SymbolTable.extend]
    rw [hlen] at hrest
    refine .cons ?_ hrest
    rw [List.foldl_cons, SymbolTable.foldl_extend_symbols]
    exact (TypedAs.of_typed hn t).mono _

theorem Defines.text {symbols : List Symbol} {n : Network} {role : Role} {d : Declaration}
    {typed : Typed.Definition} (h : Defines symbols n role d typed) :
    typed.text = (Network.Item.tensor role d).text := by
  rw [h.2]
  rfl

/-- A network with at most one relation keeps it in its text. -/
theorem TypedAs.text {symbols : List Symbol} {n : Network} {m : Typed.Network}
    (h : TypedAs symbols n m) (hr : n.relations.length ≤ 1) : m.text = n.text := by
  have hrelations : (m.isometricTo.toList.map fun target =>
        Text.form RelationKind.isometric.keyword [target]) ++
      (m.equalTo.toList.map fun target => Text.form RelationKind.equal.keyword [target]) =
      n.relations.map fun r => (Network.Item.relation r).text := by
    rw [h.isometricTo, h.equalTo, Network.target?, Network.target?]
    match hn : n.relations with
    | [] => rfl
    | [r] => cases hk : r.kind <;> simp [hk, Network.Item.text]
    | _ :: _ :: _ =>
      rw [hn] at hr
      simp at hr
  have hinputs := map_eq_of_forall₂ h.inputs fun _ _ hd => hd.text
  have hhidden := map_eq_of_forall₂ h.hidden fun _ _ hd => hd.text
  have houtputs := map_eq_of_forall₂ h.outputs fun _ _ hd => hd.text
  have hparts : m.parts = n.grouped.map Network.Item.text := by
    simp only [Typed.Network.parts, Typed.Network.definitions, hrelations, Network.grouped,
      List.map_append, List.map_map, hinputs, hhidden, houtputs, List.append_assoc,
      Function.comp_def]
  unfold Typed.Network.text Network.text
  rw [hparts, h.name]

/-! ## Typed expressions -/

namespace Typing

open Checked

theorem pin_text (t : ElementType) (a : Arith) : (a.pin t).text = a.text := by
  induction a using Arith.inductOn with
  | var symbol name indices type s => rfl
  | int lexeme value type s => rfl
  | float lexeme value type s => rfl
  | negate e type s ih =>
    rw [Arith.pin]
    split
    · rw [Arith.text, ih, Arith.text]
    · rfl
  | aggregate op es type s ih =>
    rw [Arith.pin]
    split
    · rw [Arith.text, Arith.text, Arith.pinAll_eq_map, Arith.texts_eq_map, Arith.texts_eq_map,
        List.map_map]
      exact congrArg (Text.form op.symbol) (List.map_congr_left ih)
    · rfl
  | minus h r type s ihh ihr =>
    rw [Arith.pin]
    split
    · rw [Arith.text, Arith.text, Arith.pinAll_eq_map, Arith.texts_eq_map, Arith.texts_eq_map,
        List.map_map, ihh]
      exact congrArg (fun parts => Text.form "-" (h.text :: parts)) (List.map_congr_left ihr)
    · rfl
  | invalid source s => rfl

theorem settle_text (operands : List Arith) :
    (settle operands).value.operands.map Arith.text = operands.map Arith.text := by
  rw [settle_value]
  split
  · rw [List.map_map]
    exact List.map_congr_left fun a _ => pin_text _ a
  · rfl

variable {table : SymbolTable} {policy : LiteralPolicy}

/-- A reference without a report is to an element of a tensor of the table. -/
theorem reference_clean {name : String} {indices : List Int64} {s : Span}
    (h : (reference table name indices s).diagnostics = []) :
    ∃ id, table.resolve name s.position = .ok id ∧ (table.get id).kind ≠ .network ∧
      FitsShape indices (table.get id).shape ∧
      (reference table name indices s).value = .var id name indices (table.get id).type s := by
  unfold reference at h ⊢
  cases hr : table.resolve name s.position with
  | error d => simp [hr] at h
  | ok id =>
    by_cases hk : (table.get id).kind = .network
    · simp [hr, hk] at h
    · simp only [hr, hk, if_false, diagnostics_bind, diagnostics_pure, List.append_nil] at h
      exact ⟨id, rfl, hk, checkIndices_iff.mp h, by simp [hk]⟩

theorem arith_text {e : Expr} (h : (arith table policy e).diagnostics = []) :
    (arith table policy e).value.text = e.text := by
  induction e using Expr.inductOn with
  | var name indices s =>
    rw [arith_var] at h ⊢
    obtain ⟨id, _, _, _, hvalue⟩ := reference_clean h
    rw [hvalue]
    rfl
  | int lexeme value s => rw [arith_int]; rfl
  | float lexeme value s => rw [arith_float]; rfl
  | negate e s ih =>
    rw [arith_negate] at h ⊢
    simp only [diagnostics_bind, List.append_eq_nil_iff, value_bind] at h ⊢
    obtain ⟨b, bs, hb, hlen⟩ := settle_cons (arith table policy e).value []
    have htext := settle_text [(arith table policy e).value]
    simp only [hb, List.map_cons, List.map_nil, List.cons.injEq] at htext
    simp [negation, hb, Arith.text, Expr.text, htext.1, ih h.1]
  | aggregate op es s ih =>
    rw [arith_aggregate] at h ⊢
    simp only [diagnostics_bind, List.append_eq_nil_iff, value_bind, ariths_diagnostics,
      List.flatMap_eq_nil_iff] at h ⊢
    simp only [aggregation, value_bind, value_pure, Arith.text, Expr.text, Arith.texts_eq_map,
      Expr.texts_eq_map, settle_text, ariths_value, List.map_map]
    exact congrArg (Text.form op.symbol) (List.map_congr_left fun e he => ih e he (h.1 e he))
  | minus e es s ihe ihes =>
    rw [arith_minus] at h ⊢
    simp only [diagnostics_bind, List.append_eq_nil_iff, value_bind, ariths_diagnostics,
      List.flatMap_eq_nil_iff, ariths_value] at h ⊢
    obtain ⟨b, bs, hb, _⟩ := settle_cons (arith table policy e).value
      (es.map fun e => (arith table policy e).value)
    have htext := settle_text
      ((arith table policy e).value :: es.map fun e => (arith table policy e).value)
    simp only [hb, List.map_cons, List.cons.injEq, List.map_map] at htext
    simp only [difference, value_bind, value_pure, hb, List.headD_cons, List.tail_cons, Arith.text,
      Expr.text, Arith.texts_eq_map, Expr.texts_eq_map, htext.1, htext.2, ihe h.1]
    exact congrArg (fun parts => Text.form "-" (e.text :: parts))
      (List.map_congr_left fun f hf => ihes f hf (h.2.1 f hf))
  | compare op l r s => exact absurd h (arith_of_isBoolean table policy rfl).2
  | connective op es s => exact absurd h (arith_of_isBoolean table policy rfl).2

theorem formula_text {e : Expr} (h : (formula table policy e).diagnostics = []) :
    (formula table policy e).value.text = e.text := by
  induction e using Expr.inductOn with
  | compare op l r s _ _ =>
    rw [formula_compare] at h ⊢
    simp only [diagnostics_bind, List.append_eq_nil_iff, value_bind, comparison, value_pure,
      Formula.text, Expr.text] at h ⊢
    obtain ⟨hl, hr, _⟩ := h
    rcases reconcile_value policy (arith table policy l).value (arith table policy r).value
      s.position with hv | ⟨t, hv⟩
    · rw [hv, arith_text hl, arith_text hr]
    · rw [hv, pin_text, pin_text, arith_text hl, arith_text hr]
  | connective op es s ih =>
    rw [formula_connective] at h ⊢
    simp only [diagnostics_bind, diagnostics_pure, List.append_nil, formulas_diagnostics,
      List.flatMap_eq_nil_iff] at h
    simp only [value_bind, value_pure, Formula.text, Expr.text, Formula.texts_eq_map,
      Expr.texts_eq_map, formulas_value, List.map_map]
    exact congrArg (Text.form op.symbol) (List.map_congr_left fun e he => ih e he (h e he))
  | _ => exact absurd h (formula_of_not_isBoolean table policy rfl).2

/-! ## Queries -/

/-- What the check of a query without a report leaves behind. -/
theorem query_value {policy : LiteralPolicy} {q : Query} (h : (query policy q).diagnostics = []) :
    (query policy q).value =
      ⟨(version q.version).value, Network.typedFrom 0 q.networks,
        q.assertions.map fun a =>
          ⟨(formula (.ofNetworks q.networks) policy a.condition).value, a.span⟩,
        .ofNetworks q.networks, q.span⟩ := by
  obtain ⟨hnetworks, _, _⟩ := query_clean h
  simp [query, hnetworks, assertions_value]

/-- The text of a query that is checked without a report is the query written out. -/
theorem query_text {policy : LiteralPolicy} {q : Query} (h : (query policy q).diagnostics = [])
    (ho : ∀ n ∈ q.networks, n.InOrder) :
    (query policy q).value.text =
      q.text (query policy q).value.version.major (query policy q).value.version.minor := by
  obtain ⟨_, hclean, _⟩ := query_diagnostics_iff.mp h
  obtain ⟨_, _, hsound⟩ := networksFrom_iff.mp hclean
  obtain ⟨_, _, hconditions⟩ := query_clean h
  have htyped : List.Forall₂ (TypedAs (SymbolTable.ofNetworks q.networks).symbols) q.networks
      (Network.typedFrom 0 q.networks) := Network.typedFrom_typedAs ho .empty
  have hnetworks : (Network.typedFrom 0 q.networks).map Typed.Network.text =
      q.networks.map Network.text := by
    have hboth := (List.forall₂_and_left _ _).mpr ⟨fun n hn => (hsound n hn).related, htyped⟩
    exact map_eq_of_forall₂ hboth fun n m hnm => hnm.2.text hnm.1
  have hassertions : (q.assertions.map fun a : Assertion =>
      (⟨(formula (.ofNetworks q.networks) policy a.condition).value, a.span⟩ :
        Typed.Assertion)).map Typed.Assertion.text =
      q.assertions.map Assertion.text := by
    rw [List.map_map]
    exact List.map_congr_left fun a ha =>
      congrArg (fun part => Text.form "assert" [part]) (formula_text (hconditions a ha))
  rw [query_value h]
  unfold Typed.Query.text Query.text
  rw [hnetworks, hassertions]
  rfl

end Typing
end NeuralQuery
