import NeuralQuery.Proofs.Derivation
import NeuralQuery.Proofs.WellTyped
import NeuralQuery.Typing.Network

/-!
# NeuralQuery.Proofs.NetworkTable

The check of networks that have nothing wrong with them, and the table it leaves behind.

A network adds its own symbol and then one symbol for each tensor in written order, and opens a
scope that binds the names of the tensors to these symbols (`SymbolTable.extend`). The check of a
form either reports something or takes the draft one such step further (`add_tensor`,
`add_relation`); a run over all forms (`addAll_iff`, `addAll_value`) and over all networks
(`networksFrom_iff`, `networksFrom_value`) follows by induction.
-/

namespace NeuralQuery

namespace Network

/-! ## Forms of a network -/

def Item.part? : Item → Option (Role × Declaration)
  | .relation _ => none
  | .tensor role d => some (role, d)

def Item.target? (kind : RelationKind) : Item → Option String
  | .relation r => if r.kind = kind then some r.target else none
  | .tensor _ _ => none

/-- The tensors of a network in written order. -/
def tensors (n : Network) : List (Role × Declaration) :=
  n.items.filterMap Item.part?

theorem items_perm (n : Network) :
    n.items.Perm (n.relations.map .relation ++ n.inputs.map (.tensor .input) ++
      n.hidden.map (.tensor .hidden) ++ n.outputs.map (.tensor .output)) :=
  List.mergeSort_perm _ _

theorem tensors_perm (n : Network) : (n.tensors.map Prod.snd).Perm n.declarations := by
  have h := (n.items_perm.filterMap Item.part?).map Prod.snd
  simpa [tensors, declarations, Item.part?, List.filterMap_map, Function.comp_def] using h

theorem relations_perm (n : Network) : (n.items.filterMap Item.relation?).Perm n.relations := by
  have h := n.items_perm.filterMap Item.relation?
  simpa [Item.relation?, List.filterMap_map, Function.comp_def] using h

/-! ## The table of a network -/

/-- The symbol of a tensor of this network. -/
def symbolOf (n : Network) (p : Role × Declaration) : Symbol :=
  .ofDeclaration p.2 (.tensor p.1) n.name

/-- The tensors of one role with symbols numbered from `start`, among the tensors `ts`. -/
def definitionsFrom (n : Network) (role : Role) (start : Nat) (ts : List (Role × Declaration)) :
    List Typed.Definition :=
  (ts.zipIdx start).filterMap fun p =>
    if p.1.1 = role then some (.ofSymbol ⟨p.2⟩ (n.symbolOf p.1) p.1.2.span) else none

/-- A typed network with more forms, whose tensors have symbols numbered from `start`. -/
def typedWith (n : Network) (typed : Typed.Network) (start : Nat) (items : List Item) :
    Typed.Network :=
  let ts := items.filterMap Item.part?
  { typed with
    isometricTo := typed.isometricTo.or (items.findSome? (Item.target? .isometric))
    equalTo := typed.equalTo.or (items.findSome? (Item.target? .equal))
    inputs := typed.inputs ++ n.definitionsFrom .input start ts
    hidden := typed.hidden ++ n.definitionsFrom .hidden start ts
    outputs := typed.outputs ++ n.definitionsFrom .output start ts }

@[simp] theorem definitionsFrom_nil (n : Network) (role : Role) (start : Nat) :
    n.definitionsFrom role start [] = [] := rfl

theorem definitionsFrom_cons (n : Network) (role : Role) (start : Nat) (p : Role × Declaration)
    (ts : List (Role × Declaration)) :
    n.definitionsFrom role start (p :: ts) =
      (if p.1 = role then [.ofSymbol ⟨start⟩ (n.symbolOf p) p.2.span] else []) ++
        n.definitionsFrom role (start + 1) ts := by
  simp only [definitionsFrom, List.zipIdx_cons, List.filterMap_cons]
  split <;> simp_all

theorem definitionsFrom_append (n : Network) (role : Role) (start : Nat)
    (ts us : List (Role × Declaration)) :
    n.definitionsFrom role start (ts ++ us) =
      n.definitionsFrom role start ts ++ n.definitionsFrom role (start + ts.length) us := by
  simp [definitionsFrom, List.zipIdx_append]

/-- Forms in two steps are forms in one. -/
theorem typedWith_append (n : Network) (typed : Typed.Network) (start : Nat)
    (items more : List Item) :
    n.typedWith (n.typedWith typed start items)
        (start + (items.filterMap Item.part?).length) more =
      n.typedWith typed start (items ++ more) := by
  simp [typedWith, definitionsFrom_append, List.findSome?_append, Option.or_assoc]

/-- The network with its symbols numbered from `start`, its own symbol first. -/
def typed (n : Network) (start : Nat) : Typed.Network :=
  n.typedWith { name := n.name, symbol := some ⟨start⟩, span := n.span } (start + 1) n.items

/-- Networks with all symbols numbered from `start`. -/
def typedFrom (start : Nat) : List Network → List Typed.Network
  | [] => []
  | n :: ns => n.typed start :: typedFrom (start + (n.tensors.length + 1)) ns

theorem mem_typedFrom {start : Nat} {ns : List Network} {m : Typed.Network}
    (h : m ∈ typedFrom start ns) : ∃ n ∈ ns, ∃ i, m = n.typed i := by
  induction ns generalizing start with
  | nil => cases h
  | cons n ns ih =>
    rcases List.mem_cons.mp h with rfl | h
    · exact ⟨n, by simp, start, rfl⟩
    · obtain ⟨k, hk, i, rfl⟩ := ih h
      exact ⟨k, by simp [hk], i, rfl⟩

/-- A tensor of a typed network has the record of a tensor of the network. -/
theorem mem_definitions_typed {n : Network} {start : Nat} {d : Typed.Definition}
    (h : d ∈ (n.typed start).definitions) :
    ∃ p ∈ n.tensors, ∃ id, d = .ofSymbol id (n.symbolOf p) p.2.span := by
  have hrole : ∀ {role start}, d ∈ n.definitionsFrom role start n.tensors →
      ∃ p ∈ n.tensors, ∃ id, d = .ofSymbol id (n.symbolOf p) p.2.span := by
    intro role start hd
    obtain ⟨⟨p, i⟩, hp, heq⟩ := List.mem_filterMap.mp hd
    split at heq
    · cases heq
      exact ⟨p, List.fst_mem_of_mem_zipIdx hp, _, rfl⟩
    · cases heq
  simp only [Typed.Network.definitions, typed, typedWith, List.nil_append, List.mem_append] at h
  rcases h with (h | h) | h <;> exact hrole h

end Network

namespace Scope

/-- The names of tensors, bound to symbols numbered from `start`. -/
def bindingsFrom (start : Nat) (ts : List (Role × Declaration)) : List (String × SymbolId) :=
  (ts.zipIdx start).map fun p => (p.1.2.name, ⟨p.2⟩)

@[simp] theorem bindingsFrom_nil (start : Nat) : bindingsFrom start [] = [] := rfl

@[simp] theorem bindingsFrom_cons (start : Nat) (p : Role × Declaration)
    (ts : List (Role × Declaration)) :
    bindingsFrom start (p :: ts) = (p.2.name, ⟨start⟩) :: bindingsFrom (start + 1) ts := by
  simp [bindingsFrom, List.zipIdx_cons]

theorem get?_eq_none_iff {s : Scope} {name : String} :
    s.get? name = none ↔ name ∉ s.bindings.map Prod.fst := by
  rw [Scope.get?, List.lookup_eq_none_iff]
  constructor
  · rintro h hmem
    obtain ⟨p, hp, rfl⟩ := List.mem_map.mp hmem
    simpa using h p hp
  · intro h p hp
    have hne : name ≠ p.1 := fun heq => h (List.mem_map.mpr ⟨p, hp, heq.symm⟩)
    simpa using hne

end Scope

namespace SymbolTable

/-- The table with a network that is declared without a fault. -/
def extend (t : SymbolTable) (n : Network) : SymbolTable where
  symbols := t.symbols ++ .ofNetwork n.name :: n.tensors.map n.symbolOf
  scopes := t.scopes ++
    [⟨n.name, some ⟨t.symbols.length⟩, Scope.bindingsFrom (t.symbols.length + 1) n.tensors⟩]

/-- The table of networks that are declared without a fault. -/
def ofNetworks (ns : List Network) : SymbolTable :=
  ns.foldl extend empty

@[simp] theorem get_concat (symbols : List Symbol) (scopes : List Scope) (s : Symbol) :
    get ⟨symbols ++ [s], scopes⟩ ⟨symbols.length⟩ = s := by
  simp [get]

theorem extend_network? (t : SymbolTable) (n : Network) (name : String) :
    (t.extend n).network? name = none ↔ t.network? name = none ∧ n.name ≠ name := by
  simp [extend, network?, Scope.isAttached, List.findIdx?_append]

end SymbolTable

namespace Typing

open Checked

/-! ## One form -/

/-- A tensor always becomes a symbol. It is bound in the last scope unless its name is taken. -/
theorem definition_last {symbols : List Symbol} {scopes : List Scope} {s : Scope}
    (network : String) (d : Declaration) (kind : SymbolKind) :
    definition ⟨symbols, scopes ++ [s]⟩ ⟨scopes.length⟩ network d kind =
      let symbol := Symbol.ofDeclaration d kind network
      let typed := Typed.Definition.ofSymbol ⟨symbols.length⟩ symbol d.span
      if d.name ∈ s.bindings.map Prod.fst then
        ⟨(typed, ⟨symbols ++ [symbol], scopes ++ [s]⟩),
          [⟨.variableAlreadyDeclared d.name s.name, d.span.position⟩]⟩
      else
        ⟨(typed, ⟨symbols ++ [symbol],
          scopes ++ [{ s with bindings := s.bindings ++ [(d.name, ⟨symbols.length⟩)] }]⟩), []⟩ := by
  by_cases h : d.name ∈ s.bindings.map Prod.fst
  · have hget : s.get? d.name ≠ none := by
      rw [ne_eq, Scope.get?_eq_none_iff]
      exact not_not_intro h
    obtain ⟨id, hid⟩ := Option.ne_none_iff_exists'.mp hget
    simp only [definition, SymbolTable.insert, SymbolTable.declareVariable,
      SymbolTable.get_concat, Symbol.ofDeclaration, List.getElem?_concat_length, hid, h, if_true]
    rfl
  · have hget : s.get? d.name = none := Scope.get?_eq_none_iff.mpr h
    simp only [definition, SymbolTable.insert, SymbolTable.declareVariable,
      SymbolTable.get_concat, Symbol.ofDeclaration, List.getElem?_concat_length, hget, h, if_false,
      Std.le_refl, List.set_append_right, Nat.sub_self, List.set_cons_zero]
    rfl

/-- A draft whose scope is the last one of its table. -/
def Draft.last (typed : Typed.Network) (related : Nat) (symbols : List Symbol)
    (scopes : List Scope) (s : Scope) : Draft :=
  ⟨typed, ⟨scopes.length⟩, related, ⟨symbols, scopes ++ [s]⟩⟩

section
variable {networks : List Network} {n : Network} {typed : Typed.Network} {related : Nat}
  {symbols : List Symbol} {scopes : List Scope} {s : Scope}

/-- A new name takes the draft one symbol further. -/
theorem add_tensor {role : Role} {d : Declaration} (h : d.name ∉ s.bindings.map Prod.fst) :
    (Draft.last typed related symbols scopes s).add networks n (.tensor role d) =
      pure (Draft.last (n.typedWith typed symbols.length [.tensor role d]) related
        (symbols ++ [n.symbolOf (role, d)]) scopes
        { s with bindings := s.bindings ++ [(d.name, ⟨symbols.length⟩)] }) := by
  simp only [Draft.add, Draft.last, definition_last, h, if_false]
  cases role <;>
    simp [Typed.Network.define, Network.typedWith, Network.Item.part?, Network.Item.target?,
      Network.definitionsFrom_cons, Network.symbolOf] <;> rfl

theorem add_tensor_taken {role : Role} {d : Declaration} (h : d.name ∈ s.bindings.map Prod.fst) :
    ((Draft.last typed related symbols scopes s).add networks n (.tensor role d)).diagnostics
      ≠ [] := by
  simp [Draft.add, Draft.last, definition_last, h]

theorem relation_value {r : Relation} (h : (relation networks n r).diagnostics = []) :
    (relation networks n r).value = true := by
  unfold relation at h ⊢
  split at h
  · simp at h
  · rename_i hself
    rw [if_neg hself]
    split at h
    · simp at h
    · split <;> rfl

theorem add_relation_iff {d : Draft} {r : Relation} :
    (d.add networks n (.relation r)).diagnostics = [] ↔
      (relation networks n r).diagnostics = [] ∧ d.related = 0 := by
  by_cases h : d.related = 0 <;> simp [Draft.add, h]

/-- A relation that holds is kept in the draft. -/
theorem add_relation_value {r : Relation} (h : (relation networks n r).diagnostics = []) :
    ((Draft.last typed related symbols scopes s).add networks n (.relation r)).value =
      Draft.last (n.typedWith typed symbols.length [.relation r]) (related + 1) symbols scopes
        s := by
  simp only [Draft.add, value_bind, relation_value h, if_true]
  by_cases h0 : related = 0 <;> cases hk : r.kind <;>
    simp [Typed.Network.relate, Draft.last, h0, hk, Network.typedWith, List.filterMap_cons,
      Network.Item.part?, Network.Item.target?]

/-! ## All forms of a network -/

open Network (Item)

theorem addAll_value {items : List Item}
    (h : (Draft.addAll networks n (.last typed related symbols scopes s) items).diagnostics = []) :
    (Draft.addAll networks n (.last typed related symbols scopes s) items).value =
      .last (n.typedWith typed symbols.length items)
        (related + (items.filterMap Item.relation?).length)
        (symbols ++ (items.filterMap Item.part?).map n.symbolOf) scopes
        { s with
          bindings :=
            s.bindings ++ Scope.bindingsFrom symbols.length (items.filterMap Item.part?) } := by
  induction items generalizing typed related symbols s with
  | nil => simp [Draft.addAll, Network.typedWith]
  | cons i items ih =>
    simp only [Draft.addAll, diagnostics_bind, List.append_eq_nil_iff, value_bind] at h ⊢
    obtain ⟨hstep, hrest⟩ := h
    cases i with
    | relation r =>
      rw [add_relation_value (add_relation_iff.mp hstep).1] at hrest ⊢
      have htyped : n.typedWith (n.typedWith typed symbols.length [.relation r]) symbols.length
          items = n.typedWith typed symbols.length (.relation r :: items) :=
        n.typedWith_append typed symbols.length [.relation r] items
      rw [ih hrest, htyped]
      simp [List.filterMap_cons, Item.part?, Item.relation?, Nat.add_comm, Nat.add_left_comm]
    | tensor role d =>
      by_cases hd : d.name ∈ s.bindings.map Prod.fst
      · exact absurd hstep (add_tensor_taken hd)
      · rw [add_tensor hd, value_pure] at hrest ⊢
        have htyped : n.typedWith (n.typedWith typed symbols.length [.tensor role d])
            (symbols.length + 1) items =
            n.typedWith typed symbols.length (.tensor role d :: items) :=
          n.typedWith_append typed symbols.length [.tensor role d] items
        rw [ih hrest, List.length_append, List.length_singleton, htyped]
        simp [List.filterMap_cons, Item.part?, Item.relation?]

/-- Forms are checked without a report exactly if all relations hold, there is at most one of them,
and all names are new. -/
theorem addAll_iff {items : List Item} (hk : related ≤ 1)
    (hs : (s.bindings.map Prod.fst).Nodup) :
    (Draft.addAll networks n (.last typed related symbols scopes s) items).diagnostics = [] ↔
      (∀ r ∈ items.filterMap Item.relation?, (relation networks n r).diagnostics = []) ∧
      related + (items.filterMap Item.relation?).length ≤ 1 ∧
      (s.bindings.map Prod.fst ++ (items.filterMap Item.part?).map (·.2.name)).Nodup := by
  induction items generalizing typed related symbols s with
  | nil => simp [Draft.addAll, hk, hs]
  | cons i items ih =>
    simp only [Draft.addAll, diagnostics_bind, List.append_eq_nil_iff]
    cases i with
    | relation r =>
      rw [add_relation_iff]
      by_cases hr : (relation networks n r).diagnostics = []
      · rw [add_relation_value hr]
        simp only [List.filterMap_cons, Item.part?, Item.relation?, List.forall_mem_cons, hr,
          true_and, List.length_cons]
        constructor
        · rintro ⟨h0, hrest⟩
          have h0 : related = 0 := h0
          obtain ⟨hrel, hcount, hnames⟩ := (ih (by omega) hs).mp hrest
          exact ⟨hrel, by omega, hnames⟩
        · rintro ⟨hrel, hcount, hnames⟩
          exact ⟨show related = 0 by omega, (ih (by omega) hs).mpr ⟨hrel, by omega, hnames⟩⟩
      · simp [List.filterMap_cons, Item.relation?, hr]
    | tensor role d =>
      simp only [List.filterMap_cons, Item.part?, Item.relation?, List.map_cons]
      by_cases hd : d.name ∈ s.bindings.map Prod.fst
      · constructor
        · intro h
          exact absurd h.1 (add_tensor_taken hd)
        · rintro ⟨_, _, hnames⟩
          exact absurd rfl ((List.nodup_append.mp hnames).2.2 _ hd _ (by simp))
      · have hs' : ((s.bindings ++ [(d.name, (⟨symbols.length⟩ : SymbolId))]).map
            Prod.fst).Nodup := by
          simp only [List.map_append, List.map_cons, List.map_nil]
          exact List.nodup_append.mpr ⟨hs, by simp, by
            rintro a ha b hb rfl
            exact hd (List.mem_singleton.mp hb ▸ ha)⟩
        rw [add_tensor hd, value_pure, diagnostics_pure, ih hk hs']
        simp

end

/-! ## All networks -/

/-- What the check of a network asks of its forms. -/
structure Sound (networks : List Network) (n : Network) : Prop where
  relations : ∀ r ∈ n.relations, (relation networks n r).diagnostics = []
  related : n.relations.length ≤ 1
  names : (n.declarations.map Declaration.name).Nodup

theorem sound_iff {networks : List Network} {n : Network} :
    ((∀ r ∈ n.items.filterMap Network.Item.relation?, (relation networks n r).diagnostics = []) ∧
      (n.items.filterMap Network.Item.relation?).length ≤ 1 ∧
      (n.tensors.map (·.2.name)).Nodup) ↔ Sound networks n := by
  have hnames := (n.tensors_perm.map Declaration.name).nodup_iff
  rw [List.map_map] at hnames
  rw [n.relations_perm.length_eq]
  constructor
  · rintro ⟨hr, hc, hn⟩
    exact ⟨fun r h => hr r (n.relations_perm.mem_iff.mpr h), hc, hnames.mp hn⟩
  · rintro ⟨hr, hc, hn⟩
    exact ⟨fun r h => hr r (n.relations_perm.mem_iff.mp h), hc, hnames.mpr hn⟩

variable {networks : List Network} {n : Network} {t : SymbolTable}

theorem network_opened (h : t.network? n.name = none) :
    network networks t n = (do
      let d ← Draft.addAll networks n
        (.last { name := n.name, symbol := some ⟨t.symbols.length⟩, span := n.span } 0
          (t.symbols ++ [.ofNetwork n.name]) t.scopes ⟨n.name, some ⟨t.symbols.length⟩, []⟩)
        n.items
      return (d.network, d.table)) := by
  simp only [network, SymbolTable.declareNetwork, h, SymbolTable.insert, ownSymbol, pure_bind]
  rfl

theorem network_iff :
    (network networks t n).diagnostics = [] ↔ t.network? n.name = none ∧ Sound networks n := by
  cases h : t.network? n.name with
  | some id => simp [network, SymbolTable.declareNetwork, h, ownSymbol]
  | none =>
    rw [network_opened h, ← sound_iff]
    simp only [diagnostics_bind, diagnostics_pure, List.append_nil, true_and]
    rw [addAll_iff (by omega) (by simp)]
    simp [Network.tensors]

theorem network_value (h : (network networks t n).diagnostics = []) :
    (network networks t n).value = (n.typed t.symbols.length, t.extend n) := by
  have hnew := (network_iff.mp h).1
  rw [network_opened hnew] at h ⊢
  simp only [diagnostics_bind, diagnostics_pure, List.append_nil] at h
  simp only [value_bind, addAll_value h]
  simp [Draft.last, Network.typed, SymbolTable.extend, Network.tensors]

theorem networksFrom_iff {ns : List Network} :
    (networksFrom networks t ns).diagnostics = [] ↔
      (∀ n ∈ ns, t.network? n.name = none) ∧ (ns.map Network.name).Nodup ∧
        ∀ n ∈ ns, Sound networks n := by
  induction ns generalizing t with
  | nil => simp [networksFrom]
  | cons n ns ih =>
    simp only [networksFrom, diagnostics_bind, List.append_eq_nil_iff, diagnostics_pure, and_true]
    simp only [List.forall_mem_cons, List.map_cons, List.nodup_cons]
    by_cases h : (network networks t n).diagnostics = []
    · obtain ⟨hnew, hsound⟩ := network_iff.mp h
      rw [network_value h, ih]
      simp only [h, hnew, hsound, true_and, SymbolTable.extend_network?]
      constructor
      · rintro ⟨hrest, hnodup, hall⟩
        refine ⟨fun m hm => (hrest m hm).1, ⟨fun hmem => ?_, hnodup⟩, hall⟩
        obtain ⟨m, hm, heq⟩ := List.mem_map.mp hmem
        exact (hrest m hm).2 heq.symm
      · rintro ⟨hrest, ⟨hne, hnodup⟩, hall⟩
        refine ⟨fun m hm => ⟨hrest m hm, fun heq => hne ?_⟩, hnodup, hall⟩
        exact List.mem_map.mpr ⟨m, hm, heq.symm⟩
    · constructor
      · rintro ⟨hclean, _⟩
        exact absurd hclean h
      · rintro ⟨⟨hnew, _⟩, _, hsound, _⟩
        exact absurd (network_iff.mpr ⟨hnew, hsound⟩) h

theorem networksFrom_value {ns : List Network}
    (h : (networksFrom networks t ns).diagnostics = []) :
    (networksFrom networks t ns).value =
      (Network.typedFrom t.symbols.length ns, ns.foldl SymbolTable.extend t) := by
  induction ns generalizing t with
  | nil => rfl
  | cons n ns ih =>
    simp only [networksFrom, diagnostics_bind, List.append_eq_nil_iff, value_bind] at h ⊢
    obtain ⟨hn, hrest, _⟩ := h
    rw [network_value hn] at hrest ⊢
    rw [ih hrest]
    simp [Network.typedFrom, SymbolTable.extend]

/-! ## Symbols of any run -/

theorem declareVariable_symbols {t t' : SymbolTable} {scope : ScopeId} {id : SymbolId}
    {p : Position} (h : t.declareVariable scope id p = .ok t') : t'.symbols = t.symbols := by
  unfold SymbolTable.declareVariable at h
  simp only at h
  split at h
  · cases h
    rfl
  · split at h
    · cases h
    · cases h
      rfl

theorem definition_symbols (t : SymbolTable) (scope : ScopeId) (network : String) (d : Declaration)
    (kind : SymbolKind) :
    (definition t scope network d kind).value.2.symbols =
      t.symbols ++ [.ofDeclaration d kind network] := by
  unfold definition
  simp only
  split
  · rename_i t' h
    rw [value_pure, declareVariable_symbols h]
    rfl
  · rfl

theorem addAll_symbols (d : Draft) (items : List Network.Item) :
    (Draft.addAll networks n d items).value.table.symbols =
      d.table.symbols ++ (items.filterMap Network.Item.part?).map n.symbolOf := by
  induction items generalizing d with
  | nil => simp [Draft.addAll]
  | cons i items ih =>
    rw [Draft.addAll, value_bind, ih]
    cases i with
    | relation r =>
      have hkeep : ((d.add networks n (.relation r)).value).table = d.table := by
        cases hr : (relation networks n r).value <;> cases hk : r.kind <;>
          by_cases h0 : d.related = 0 <;> simp [Draft.add, Typed.Network.relate, hr, hk, h0]
      simp [hkeep, List.filterMap_cons, Network.Item.part?]
    | tensor role decl =>
      have hone : ((d.add networks n (.tensor role decl)).value).table.symbols =
          d.table.symbols ++ [n.symbolOf (role, decl)] := by
        simp only [Draft.add, value_bind]
        cases role <;> exact definition_symbols ..
      simp [hone, Network.Item.part?]

theorem network_symbols (networks : List Network) (t : SymbolTable) (n : Network) :
    ∃ own, (own = [] ∨ own = [Symbol.ofNetwork n.name]) ∧
      (network networks t n).value.2.symbols = t.symbols ++ (own ++ n.tensors.map n.symbolOf) := by
  have hrun : ∃ d : Draft,
      (network networks t n).value.2 = (Draft.addAll networks n d n.items).value.table ∧
      (d.table.symbols = t.symbols ∨ d.table.symbols = t.symbols ++ [.ofNetwork n.name]) := by
    unfold network SymbolTable.declareNetwork
    cases t.network? n.name with
    | some id => exact ⟨_, rfl, .inl rfl⟩
    | none => exact ⟨_, rfl, .inr rfl⟩
  obtain ⟨d, hval, hd⟩ := hrun
  rw [hval, addAll_symbols]
  rcases hd with hd | hd
  · exact ⟨[], .inl rfl, by simp [hd, Network.tensors]⟩
  · exact ⟨[.ofNetwork n.name], .inr rfl, by simp [hd, Network.tensors]⟩

/-- Every symbol that checking networks adds is the one of a network or of a tensor. -/
theorem networksFrom_symbols {ns : List Network} {s : Symbol}
    (h : s ∈ (networksFrom networks t ns).value.2.symbols) :
    s ∈ t.symbols ∨ ∃ n ∈ ns, s = .ofNetwork n.name ∨ ∃ p ∈ n.tensors, s = n.symbolOf p := by
  induction ns generalizing t with
  | nil => exact .inl h
  | cons n ns ih =>
    rw [networksFrom, value_bind, value_bind] at h
    rcases ih h with h | ⟨m, hm, hs⟩
    · obtain ⟨own, hown, hsym⟩ := network_symbols networks t n
      rw [hsym, List.mem_append, List.mem_append] at h
      rcases h with h | h | h
      · exact .inl h
      · refine .inr ⟨n, by simp, .inl ?_⟩
        rcases hown with rfl | rfl
        · cases h
        · exact List.mem_singleton.mp h
      · obtain ⟨p, hp, rfl⟩ := List.mem_map.mp h
        exact .inr ⟨n, by simp, .inr ⟨p, hp, rfl⟩⟩
    · exact .inr ⟨m, by simp [hm], hs⟩

end Typing
end NeuralQuery
