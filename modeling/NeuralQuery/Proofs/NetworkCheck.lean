import NeuralQuery.Proofs.NetworkTable

/-!
# NeuralQuery.Proofs.NetworkCheck

The check of a network in any table, whatever is wrong with the network.

* `SymbolTable.enter`     : the table afterwards. The network has its own symbol only if its name is
  new, and every tensor has one; a name that two tensors share is bound to the first of them.
* `Network.checked`       : the typed network.
* `Network.reportsWithin` : what the forms of the network report. It depends on the other networks,
  but on nothing that the table holds.

`network_eq` puts the three together. The run over all forms is `addAll_last`, by induction from
what one form does (`add_relation_last`, `add_tensor_last`). Of the other networks a check asks only
which one has a name (`relation_congr`).
-/

namespace NeuralQuery

namespace Scope

/-- Binds a name that is new in the scope. -/
def bind (s : Scope) (name : String) (id : SymbolId) : Scope :=
  if name ∈ s.bindings.map Prod.fst then s else { s with bindings := s.bindings ++ [(name, id)] }

/-- Binds the names of tensors, whose symbols are numbered from `start`, as far as they are new. -/
def bindAll (s : Scope) (start : Nat) : List (Role × Declaration) → Scope
  | [] => s
  | p :: ts => (s.bind p.2.name ⟨start⟩).bindAll (start + 1) ts

@[simp] theorem name_bind (s : Scope) (name : String) (id : SymbolId) :
    (s.bind name id).name = s.name := by
  unfold bind
  split <;> rfl

@[simp] theorem symbol_bind (s : Scope) (name : String) (id : SymbolId) :
    (s.bind name id).symbol = s.symbol := by
  unfold bind
  split <;> rfl

theorem names_bind (s : Scope) (name : String) (id : SymbolId) :
    (s.bind name id).bindings.map Prod.fst =
      if name ∈ s.bindings.map Prod.fst then s.bindings.map Prod.fst
      else s.bindings.map Prod.fst ++ [name] := by
  unfold bind
  split <;> simp

/-- A name keeps the symbol it had. -/
theorem get?_bind (s : Scope) (name : String) (id : SymbolId) (v : String) :
    (s.bind name id).get? v = (s.get? v).or (if name = v then some id else none) := by
  unfold bind
  split
  · rename_i htaken
    by_cases hv : name = v
    · have hbound : s.get? v ≠ none := fun h => Scope.get?_eq_none_iff.mp h (hv ▸ htaken)
      obtain ⟨old, hold⟩ := Option.ne_none_iff_exists'.mp hbound
      simp [hold]
    · simp [hv]
  · simp only [get?, List.lookup_append, List.lookup_cons, List.lookup_nil]
    by_cases hv : name = v
    · simp [hv]
    · have hv' : (v == name) = false := by simpa using Ne.symm hv
      simp [hv, hv']

@[simp] theorem name_bindAll (s : Scope) (start : Nat) (ts : List (Role × Declaration)) :
    (s.bindAll start ts).name = s.name := by
  induction ts generalizing s start with
  | nil => rfl
  | cons p ts ih => rw [bindAll, ih, name_bind]

@[simp] theorem symbol_bindAll (s : Scope) (start : Nat) (ts : List (Role × Declaration)) :
    (s.bindAll start ts).symbol = s.symbol := by
  induction ts generalizing s start with
  | nil => rfl
  | cons p ts ih => rw [bindAll, ih, symbol_bind]

/-- A name that is new is bound to the first tensor that has it. -/
theorem get?_bindAll (s : Scope) (start : Nat) (ts : List (Role × Declaration)) (v : String) :
    (s.bindAll start ts).get? v =
      (s.get? v).or ((ts.findIdx? fun p => p.2.name == v).map fun k => ⟨start + k⟩) := by
  induction ts generalizing s start with
  | nil => simp [bindAll]
  | cons p ts ih =>
    rw [bindAll, ih, get?_bind, List.findIdx?_cons, Option.or_assoc]
    by_cases hv : p.2.name = v
    · simp [hv]
    · simp [hv, Function.comp_def, Nat.add_comm, Nat.add_left_comm]

end Scope

namespace SymbolTable

/-- The symbol that a network of this name gets, if the name is new. -/
def own? (t : SymbolTable) (name : String) : Option SymbolId :=
  if (t.network? name).isSome then none else some ⟨t.symbols.length⟩

/-- The number of the first tensor of a network of this name. -/
def firstTensor (t : SymbolTable) (name : String) : Nat :=
  t.symbols.length + (t.own? name).toList.length

/-- The table after the check of a network. -/
def enter (t : SymbolTable) (n : Network) : SymbolTable where
  symbols := t.symbols ++
    ((t.own? n.name).toList.map (fun _ => .ofNetwork n.name) ++ n.tensors.map n.symbolOf)
  scopes := t.scopes ++
    [(⟨n.name, t.own? n.name, []⟩ : Scope).bindAll (t.firstTensor n.name) n.tensors]

theorem own?_cases (t : SymbolTable) (name : String) :
    (t.network? name).isSome = true ∧ t.own? name = none ∨
      (t.network? name).isSome = false ∧ t.own? name = some ⟨t.symbols.length⟩ := by
  unfold own?
  cases (t.network? name).isSome <;> simp

end SymbolTable

namespace Network

/-- The target of a relation of one kind that leads to another declared network. -/
def Item.resolved? (networks : List Network) (n : Network) (kind : RelationKind) :
    Item → Option String
  | .relation r =>
    if r.kind = kind ∧ (Typing.relation networks n r).value = true then some r.target else none
  | .tensor _ _ => none

/-- A typed network with more forms of the network `n`, whose tensors have symbols numbered from
`start`. -/
def checkedWith (networks : List Network) (n : Network) (typed : Typed.Network) (start : Nat)
    (items : List Item) : Typed.Network :=
  let ts := items.filterMap Item.part?
  { typed with
    isometricTo := typed.isometricTo.or (items.findSome? (Item.resolved? networks n .isometric))
    equalTo := typed.equalTo.or (items.findSome? (Item.resolved? networks n .equal))
    inputs := typed.inputs ++ n.definitionsFrom .input start ts
    hidden := typed.hidden ++ n.definitionsFrom .hidden start ts
    outputs := typed.outputs ++ n.definitionsFrom .output start ts }

theorem checkedWith_append (networks : List Network) (n : Network) (typed : Typed.Network)
    (start : Nat) (items more : List Item) :
    n.checkedWith networks (n.checkedWith networks typed start items)
        (start + (items.filterMap Item.part?).length) more =
      n.checkedWith networks typed start (items ++ more) := by
  simp [checkedWith, definitionsFrom_append, List.findSome?_append, Option.or_assoc]

/-- The typed network that the check of a network gives in a table. -/
def checked (networks : List Network) (t : SymbolTable) (n : Network) : Typed.Network :=
  n.checkedWith networks { name := n.name, symbol := t.own? n.name, span := n.span }
    (t.firstTensor n.name) n.items

/-- What forms of the network `n` report behind `related` relations, where these names are taken. -/
def reportsWithin (networks : List Network) (n : Network) (related : Nat) (names : List String) :
    List Item → List Diagnostic
  | [] => []
  | .relation r :: items =>
    (Typing.relation networks n r).diagnostics ++
      (if related = 0 then [] else [⟨.contradictoryRelations n.name, r.span.position⟩]) ++
      n.reportsWithin networks (related + 1) names items
  | .tensor _ d :: items =>
    if d.name ∈ names then
      ⟨.variableAlreadyDeclared d.name n.name, d.span.position⟩ ::
        n.reportsWithin networks related names items
    else n.reportsWithin networks related (names ++ [d.name]) items

/-- What a network reports about its name. -/
def ownReports (t : SymbolTable) (n : Network) : List Diagnostic :=
  if (t.network? n.name).isSome then [⟨.networkAlreadyDeclared n.name, n.span.position⟩] else []

/-- What the check of a network reports in a table. -/
def reports (networks : List Network) (t : SymbolTable) (n : Network) : List Diagnostic :=
  n.ownReports t ++ n.reportsWithin networks 0 [] n.items

end Network

namespace Typing

open Checked
open Network (Item)

section
variable {networks : List Network} {n : Network} {typed : Typed.Network} {related : Nat}
  {symbols : List Symbol} {scopes : List Scope} {s : Scope}

/-! ## One form -/

theorem add_relation_last (r : Relation) :
    (Draft.last typed related symbols scopes s).add networks n (.relation r) =
      ⟨.last (n.checkedWith networks typed symbols.length [.relation r]) (related + 1) symbols
        scopes s,
        (relation networks n r).diagnostics ++
          if related = 0 then [] else [⟨.contradictoryRelations n.name, r.span.position⟩]⟩ := by
  ext1
  · cases hk : r.kind <;> cases hr : (relation networks n r).value <;> by_cases h0 : related = 0 <;>
      simp [Draft.add, Typed.Network.relate, Draft.last, Network.checkedWith, List.filterMap_cons,
        Item.resolved?, Item.part?, hk, hr, h0]
  · by_cases h0 : related = 0 <;> simp [Draft.add, Draft.last, h0]

theorem add_tensor_last (hs : s.name = n.name) (role : Role) (d : Declaration) :
    (Draft.last typed related symbols scopes s).add networks n (.tensor role d) =
      ⟨.last (n.checkedWith networks typed symbols.length [.tensor role d]) related
        (symbols ++ [n.symbolOf (role, d)]) scopes (s.bind d.name ⟨symbols.length⟩),
        if d.name ∈ s.bindings.map Prod.fst then
          [⟨.variableAlreadyDeclared d.name n.name, d.span.position⟩]
        else []⟩ := by
  by_cases hd : d.name ∈ s.bindings.map Prod.fst
  · simp only [Draft.add, Draft.last, definition_last, hd, if_true, Scope.bind, hs]
    cases role <;>
      simp [Typed.Network.define, Network.checkedWith, Item.part?, Item.resolved?,
        Network.definitionsFrom_cons, Network.symbolOf] <;> rfl
  · simp only [Draft.add, Draft.last, definition_last, hd, if_false, Scope.bind]
    cases role <;>
      simp [Typed.Network.define, Network.checkedWith, Item.part?, Item.resolved?,
        Network.definitionsFrom_cons, Network.symbolOf] <;> rfl

/-! ## All forms of a network -/

theorem addAll_last (hs : s.name = n.name) (items : List Item) :
    Draft.addAll networks n (.last typed related symbols scopes s) items =
      ⟨.last (n.checkedWith networks typed symbols.length items)
        (related + (items.filterMap Item.relation?).length)
        (symbols ++ (items.filterMap Item.part?).map n.symbolOf) scopes
        (s.bindAll symbols.length (items.filterMap Item.part?)),
        n.reportsWithin networks related (s.bindings.map Prod.fst) items⟩ := by
  induction items generalizing typed related symbols s with
  | nil =>
    ext1 <;> simp [Draft.addAll, Network.checkedWith, Network.reportsWithin, Scope.bindAll]
  | cons i items ih =>
    cases i with
    | relation r =>
      have htyped : n.checkedWith networks (n.checkedWith networks typed symbols.length
          [.relation r]) symbols.length items =
          n.checkedWith networks typed symbols.length (.relation r :: items) :=
        n.checkedWith_append networks typed symbols.length [.relation r] items
      ext1
      · simp only [Draft.addAll, add_relation_last, value_bind, ih hs, htyped]
        simp [List.filterMap_cons, Item.part?, Item.relation?, Nat.add_comm, Nat.add_left_comm]
      · simp only [Draft.addAll, add_relation_last, diagnostics_bind, ih hs, Network.reportsWithin]
    | tensor role d =>
      have hs' : (s.bind d.name ⟨symbols.length⟩).name = n.name := by rw [Scope.name_bind, hs]
      have htyped : n.checkedWith networks (n.checkedWith networks typed symbols.length
          [.tensor role d]) (symbols.length + 1) items =
          n.checkedWith networks typed symbols.length (.tensor role d :: items) :=
        n.checkedWith_append networks typed symbols.length [.tensor role d] items
      ext1
      · simp only [Draft.addAll, add_tensor_last hs, value_bind, ih hs', List.length_append,
          List.length_singleton, htyped]
        simp [List.filterMap_cons, Item.part?, Item.relation?, Scope.bindAll]
      · simp only [Draft.addAll, add_tensor_last hs, diagnostics_bind, ih hs', Scope.names_bind,
          Network.reportsWithin]
        split <;> rfl

end

/-! ## Networks -/

/-- What the check of a network gives, in any table. -/
theorem network_eq (networks : List Network) (t : SymbolTable) (n : Network) :
    network networks t n = ⟨(n.checked networks t, t.enter n), n.reports networks t⟩ := by
  cases h : t.network? n.name with
  | some scope =>
    have hrun : network networks t n = (do
        report ⟨.networkAlreadyDeclared n.name, n.span.position⟩
        let d ← Draft.addAll networks n
          (.last { name := n.name, symbol := none, span := n.span } 0 t.symbols t.scopes
            ⟨n.name, none, []⟩) n.items
        return (d.network, d.table)) := by
      simp only [network, SymbolTable.declareNetwork, h, ownSymbol, bind_assoc, pure_bind]
      rfl
    have hown : t.own? n.name = none := by simp [SymbolTable.own?, h]
    rw [hrun]
    simp only [addAll_last (s := ⟨n.name, none, []⟩) rfl]
    ext1
    · simp [Draft.last, Network.checked, SymbolTable.enter, SymbolTable.firstTensor, hown,
        Network.tensors]
    · simp [Network.reports, Network.ownReports, h]
  | none =>
    have hown : t.own? n.name = some ⟨t.symbols.length⟩ := by simp [SymbolTable.own?, h]
    rw [network_opened h]
    simp only [addAll_last (s := ⟨n.name, some ⟨t.symbols.length⟩, []⟩) rfl]
    ext1
    · simp [Draft.last, Network.checked, SymbolTable.enter, SymbolTable.firstTensor, hown,
        Network.tensors]
    · simp [Network.reports, Network.ownReports, h]

/-- Networks as their checks, one after the other, leave them. -/
def checkedFrom (networks : List Network) : SymbolTable → List Network → List Typed.Network
  | _, [] => []
  | t, n :: ns => n.checked networks t :: checkedFrom networks (t.enter n) ns

theorem networksFrom_eq (networks : List Network) (t : SymbolTable) (ns : List Network) :
    (networksFrom networks t ns).value =
      (checkedFrom networks t ns, ns.foldl SymbolTable.enter t) := by
  induction ns generalizing t with
  | nil => rfl
  | cons n ns ih =>
    simp only [networksFrom, value_bind, value_pure, network_eq, ih]
    rfl

/-! ## The networks that relations lead to -/

section
variable {ns ns' : List Network} (h : declared? ns' = declared? ns)
include h

/-- All that a relation asks of the networks is which one has a name. -/
theorem relation_congr : relation ns' = relation ns := by
  funext n r
  unfold relation
  rw [h]

theorem checkedWith_congr : Network.checkedWith ns' = Network.checkedWith ns := by
  have hresolved : Item.resolved? ns' = Item.resolved? ns := by
    funext n kind i
    cases i with
    | relation r => simp only [Item.resolved?, relation_congr h]
    | tensor role d => rfl
  funext n typed start items
  simp only [Network.checkedWith, hresolved]

theorem reportsWithin_congr : Network.reportsWithin ns' = Network.reportsWithin ns := by
  funext n related names items
  induction items generalizing related names with
  | nil => rfl
  | cons i items ih =>
    cases i with
    | relation r => simp only [Network.reportsWithin, relation_congr h, ih]
    | tensor role d => simp only [Network.reportsWithin, ih]

theorem checkedFrom_congr : checkedFrom ns' = checkedFrom ns := by
  funext t ms
  induction ms generalizing t with
  | nil => rfl
  | cons m ms ih => simp only [checkedFrom, Network.checked, checkedWith_congr h, ih]

end

end Typing
end NeuralQuery
