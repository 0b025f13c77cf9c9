import Mathlib.Data.Finset.Card
import NeuralQuery.Proofs.NetworkCheck
import NeuralQuery.Proofs.Retyping

/-!
# NeuralQuery.Proofs.SymbolAgreement

A typed query and its table of symbols agree, with or without reports (`Query.agrees_symbols`).

Every network adds its own symbol, if it gets one, and one symbol for each of its tensors, in a row
(`checked_ids_perm`); so no number is left out and none is given twice (`checkedFrom_ids_perm`). A
scope binds a name to a tensor with that name only (`SymbolTable.Binds`), and a tensor in an
expression is left alone by all that happens to the expression later (`Arith.TensorsIn`).
-/

namespace NeuralQuery

open Typed (Arith Formula Node)

/-! ## Numbers -/

/-- The symbols of a typed network: its own, if it has one, and those of its tensors. -/
def Typed.Network.ids (m : Typed.Network) : List SymbolId :=
  m.symbol.toList ++ m.definitions.map Definition.symbol

namespace Network

/-- The tensors of all roles together have consecutive numbers. -/
theorem definitionsFrom_ids_perm (n : Network) (start : Nat) (ts : List (Role × Declaration)) :
    ((n.definitionsFrom .input start ts ++ n.definitionsFrom .hidden start ts ++
      n.definitionsFrom .output start ts).map Typed.Definition.symbol).Perm
      ((List.range' start ts.length).map SymbolId.mk) := by
  induction ts generalizing start with
  | nil => simp
  | cons p ts ih =>
    have hrest := (ih (start + 1)).cons ⟨start⟩
    simp only [List.length_cons, List.range'_succ, List.map_cons, definitionsFrom_cons]
    refine List.Perm.trans ?_ hrest
    obtain ⟨role, d⟩ := p
    cases role with
    | input => simp [Typed.Definition.ofSymbol]
    | hidden => simp [Typed.Definition.ofSymbol]
    | output =>
      simp only [reduceCtorEq, if_false, if_true, List.nil_append, List.map_append,
        List.map_cons, List.singleton_append, Typed.Definition.ofSymbol]
      exact List.perm_middle

end Network

namespace SymbolTable

/-- The number of symbols that a network adds to a table. -/
def added (t : SymbolTable) (n : Network) : Nat :=
  (t.own? n.name).toList.length + n.declarations.length

theorem length_enter (t : SymbolTable) (n : Network) :
    (t.enter n).symbols.length = t.symbols.length + t.added n := by
  have htensors := n.tensors_perm.length_eq
  rw [List.length_map] at htensors
  simp [enter, added, htensors]

end SymbolTable

namespace Typing

theorem checked_ids_perm (networks : List Network) (t : SymbolTable) (n : Network) :
    (n.checked networks t).ids.Perm
      ((List.range' t.symbols.length (t.added n)).map SymbolId.mk) := by
  have htensors := n.tensors_perm.length_eq
  rw [List.length_map] at htensors
  have hdefinitions := n.definitionsFrom_ids_perm (t.firstTensor n.name) n.tensors
  rw [htensors] at hdefinitions
  rcases t.own?_cases n.name with ⟨_, hown⟩ | ⟨_, hown⟩
  · simpa [Typed.Network.ids, Typed.Network.definitions, Network.checked, Network.checkedWith,
      SymbolTable.firstTensor, SymbolTable.added, hown, Network.tensors] using hdefinitions
  · have hcons := hdefinitions.cons ⟨t.symbols.length⟩
    simpa [Typed.Network.ids, Typed.Network.definitions, Network.checked, Network.checkedWith,
      SymbolTable.firstTensor, SymbolTable.added, hown, Network.tensors, Nat.add_comm 1,
      List.range'_succ] using hcons

/-- Networks that are checked one after the other number all the symbols they add, each once. -/
theorem checkedFrom_ids_perm (networks : List Network) (t : SymbolTable) (ns : List Network) :
    ∃ k, (ns.foldl SymbolTable.enter t).symbols.length = t.symbols.length + k ∧
      ((checkedFrom networks t ns).flatMap Typed.Network.ids).Perm
        ((List.range' t.symbols.length k).map SymbolId.mk) := by
  induction ns generalizing t with
  | nil => exact ⟨0, rfl, .nil⟩
  | cons n ns ih =>
    obtain ⟨k, hlength, hperm⟩ := ih (t.enter n)
    rw [t.length_enter n] at hlength hperm
    refine ⟨t.added n + k, by rw [List.foldl_cons, hlength, Nat.add_assoc], ?_⟩
    have hboth := (checked_ids_perm networks t n).append hperm
    rwa [← List.map_append, List.range'_append_1] at hboth

end Typing

/-! ## Records -/

/-- The typed tensors of one role are the declared ones, each with the record of its symbol. -/
def DefinesAll (symbols : List Symbol) (n : Network) (role : Role) (declared : List Declaration)
    (typed : List Typed.Definition) : Prop :=
  ∃ ds, ds.Perm declared ∧ List.Forall₂ (Defines symbols n role) ds typed

/-- A typed network has the tensors of the network it was made from, and if it has a symbol, then
one with the record of a network of its name. -/
structure Records (symbols : List Symbol) (n : Network) (m : Typed.Network) : Prop where
  name : m.name = n.name
  own : ∀ id, m.symbol = some id → symbols[id.index]? = some (.ofNetwork m.name)
  inputs : DefinesAll symbols n .input n.inputs m.inputs
  hidden : DefinesAll symbols n .hidden n.hidden m.hidden
  outputs : DefinesAll symbols n .output n.outputs m.outputs

theorem DefinesAll.mono {symbols : List Symbol} {n : Network} {role : Role}
    {declared : List Declaration} {typed : List Typed.Definition}
    (h : DefinesAll symbols n role declared typed) (more : List Symbol) :
    DefinesAll (symbols ++ more) n role declared typed := by
  obtain ⟨ds, hperm, hall⟩ := h
  exact ⟨ds, hperm, hall.imp fun _ _ hd => ⟨getElem?_append_of_some hd.1 more, hd.2⟩⟩

theorem Records.mono {symbols : List Symbol} {n : Network} {m : Typed.Network}
    (h : Records symbols n m) (more : List Symbol) : Records (symbols ++ more) n m where
  name := h.name
  own id hid := getElem?_append_of_some (h.own id hid) more
  inputs := h.inputs.mono more
  hidden := h.hidden.mono more
  outputs := h.outputs.mono more

namespace Network

theorem inputs_perm (n : Network) : (n.items.filterMap (Item.tensor? .input)).Perm n.inputs := by
  have h := n.items_perm.filterMap (Item.tensor? .input)
  simpa [Item.tensor?, List.filterMap_map, Function.comp_def] using h

theorem hidden_perm (n : Network) : (n.items.filterMap (Item.tensor? .hidden)).Perm n.hidden := by
  have h := n.items_perm.filterMap (Item.tensor? .hidden)
  simpa [Item.tensor?, List.filterMap_map, Function.comp_def] using h

theorem outputs_perm (n : Network) : (n.items.filterMap (Item.tensor? .output)).Perm n.outputs := by
  have h := n.items_perm.filterMap (Item.tensor? .output)
  simpa [Item.tensor?, List.filterMap_map, Function.comp_def] using h

end Network

namespace SymbolTable

theorem foldl_enter_symbols (t : SymbolTable) (ns : List Network) :
    ∃ more, (ns.foldl enter t).symbols = t.symbols ++ more := by
  induction ns generalizing t with
  | nil => exact ⟨[], by simp⟩
  | cons n ns ih =>
    obtain ⟨more, hmore⟩ := ih (t.enter n)
    rw [List.foldl_cons, hmore]
    exact ⟨_, by rw [enter, List.append_assoc]⟩

end SymbolTable

namespace Typing

theorem checked_records (networks : List Network) (t : SymbolTable) (n : Network) :
    Records (t.enter n).symbols n (n.checked networks t) := by
  let own : List Symbol := (t.own? n.name).toList.map fun _ => .ofNetwork n.name
  have hrow : ∀ role, List.Forall₂ (Defines (t.enter n).symbols n role)
      (n.items.filterMap (Network.Item.tensor? role))
      (n.definitionsFrom role (t.firstTensor n.name) n.tensors) := by
    intro role
    have hfrom := TypedAs.definitionsFrom n role (t.symbols ++ own) n.items
    have hlength : (t.symbols ++ own).length = t.firstTensor n.name := by
      simp [own, SymbolTable.firstTensor]
    rwa [hlength, List.append_assoc] at hfrom
  exact {
    name := rfl
    own := by
      intro id hid
      have hown : t.own? n.name = some id := hid
      rcases t.own?_cases n.name with ⟨_, hnone⟩ | ⟨_, hsome⟩
      · rw [hnone] at hown
        cases hown
      · obtain rfl : (⟨t.symbols.length⟩ : SymbolId) = id := by simpa [hsome] using hown
        simp [SymbolTable.enter, hsome, Network.checked, Network.checkedWith]
    inputs := ⟨_, n.inputs_perm, hrow .input⟩
    hidden := ⟨_, n.hidden_perm, hrow .hidden⟩
    outputs := ⟨_, n.outputs_perm, hrow .output⟩ }

theorem checkedFrom_records (networks : List Network) (t : SymbolTable) (ns : List Network) :
    List.Forall₂ (Records (ns.foldl SymbolTable.enter t).symbols) ns
      (checkedFrom networks t ns) := by
  induction ns generalizing t with
  | nil => exact .nil
  | cons n ns ih =>
    obtain ⟨more, hmore⟩ := (t.enter n).foldl_enter_symbols ns
    refine .cons ?_ (ih (t.enter n))
    rw [List.foldl_cons, hmore]
    exact (checked_records networks t n).mono more

end Typing

/-! ## The length of the table -/

namespace SymbolTable

theorem network?_enter (t : SymbolTable) (n : Network) (v : String) :
    ((t.enter n).network? v).isSome = ((t.network? v).isSome || n.name == v) := by
  have hlast : ((t.enter n).network? v).isSome =
      ((t.network? v).isSome || ((t.own? n.name).isSome && n.name == v)) := by
    simp only [network?, enter, List.findIdx?_append, Option.isSome_map, Option.isSome_or,
      List.findIdx?_cons, List.findIdx?_nil, Scope.isAttached, Scope.symbol_bindAll,
      Scope.name_bindAll]
    cases (t.own? n.name).isSome && n.name == v <;> simp
  rw [hlast]
  rcases t.own?_cases n.name with ⟨htaken, hown⟩ | ⟨_, hown⟩
  · by_cases hv : n.name = v
    · rw [← hv, htaken, Bool.true_or, Bool.true_or]
    · rw [beq_false_of_ne hv, Bool.and_false]
  · rw [hown, Option.isSome_some, Bool.true_and]

theorem foldl_enter_network? (ns : List Network) (v : String) :
    ((ns.foldl enter empty).network? v).isSome = true ↔ v ∈ ns.map Network.name := by
  induction ns using List.reverseRecOn with
  | nil => simp [empty, network?]
  | append_singleton ns n ih =>
    rw [List.foldl_append, List.foldl_cons, List.foldl_nil, network?_enter, Bool.or_eq_true, ih,
      List.map_append, List.mem_append, beq_iff_eq, List.map_singleton, List.mem_singleton, eq_comm]

/-- A network gets a symbol if no network before it has its name. -/
theorem own?_foldl_enter (ns : List Network) (name : String) :
    (ns.foldl enter empty).own? name =
      if name ∈ ns.map Network.name then none
      else some ⟨(ns.foldl enter empty).symbols.length⟩ := by
  simp only [own?, foldl_enter_network?]

end SymbolTable

theorem card_toFinset_concat {α : Type} [DecidableEq α] (l : List α) (a : α) :
    (l ++ [a]).toFinset.card = l.toFinset.card + if a ∈ l then 0 else 1 := by
  have hset : (l ++ [a]).toFinset = insert a l.toFinset := by
    ext x
    simp
  by_cases h : a ∈ l
  · rw [hset, Finset.insert_eq_of_mem (List.mem_toFinset.mpr h), if_pos h, Nat.add_zero]
  · rw [hset, Finset.card_insert_of_notMem (fun hmem => h (List.mem_toFinset.mp hmem)), if_neg h]

/-- A table has one symbol for each name of a network and one for each tensor. -/
theorem SymbolTable.length_foldl_enter (ns : List Network) :
    (ns.foldl enter empty).symbols.length =
      (ns.map Network.name).toFinset.card + (ns.flatMap Network.declarations).length := by
  induction ns using List.reverseRecOn with
  | nil => rfl
  | append_singleton ns n ih =>
    have hown : ((ns.foldl enter empty).own? n.name).toList.length =
        if n.name ∈ ns.map Network.name then 0 else 1 := by
      rw [own?_foldl_enter]
      split <;> rfl
    rw [List.foldl_append, List.foldl_cons, List.foldl_nil, length_enter, ih, added, hown,
      List.map_append, List.map_singleton, card_toFinset_concat, List.flatMap_append,
      List.length_append, List.flatMap_singleton]
    omega

/-! ## Names -/

/-- The symbol with this number is that of a tensor with this name and this type. -/
def IsTensor (symbols : List Symbol) (id : SymbolId) (name : String) (type : ValueType) : Prop :=
  ∃ r role, symbols[id.index]? = some r ∧ r.name = name ∧ r.type = type ∧ r.kind = .tensor role

/-- Names are bound to tensors that have them, and networks to their own symbols. -/
structure SymbolTable.Binds (t : SymbolTable) : Prop where
  tensors : ∀ s ∈ t.scopes, ∀ v id, s.get? v = some id → ∃ type, IsTensor t.symbols id v type
  own : ∀ s ∈ t.scopes, ∀ id, s.symbol = some id → t.symbols[id.index]? = some (.ofNetwork s.name)

namespace SymbolTable

theorem binds_empty : empty.Binds where
  tensors s hs := by cases hs
  own s hs := by cases hs

/-- The scope of a network that was checked just now binds names to its own tensors. -/
theorem get?_enter (t : SymbolTable) (n : Network) {v : String} {id : SymbolId}
    (h : ((⟨n.name, t.own? n.name, []⟩ : Scope).bindAll (t.firstTensor n.name) n.tensors).get? v =
      some id) :
    ∃ p ∈ n.tensors, p.2.name = v ∧ (t.enter n).symbols[id.index]? = some (n.symbolOf p) := by
  rw [Scope.get?_bindAll] at h
  obtain ⟨k, hk, rfl⟩ := Option.map_eq_some_iff.mp h
  obtain ⟨hlt, hname, _⟩ := List.findIdx?_eq_some_iff_getElem.mp hk
  refine ⟨n.tensors[k], List.getElem_mem hlt, by simpa using hname, ?_⟩
  have hfront : t.firstTensor n.name =
      (t.symbols ++ (t.own? n.name).toList.map fun _ => Symbol.ofNetwork n.name).length := by
    simp [firstTensor]
  rw [enter, ← List.append_assoc, hfront, List.getElem?_append_right (by simp)]
  simp [hlt]

theorem Binds.enter {t : SymbolTable} (h : t.Binds) (n : Network) : (t.enter n).Binds := by
  have hkeep : ∀ {id : SymbolId} {r : Symbol}, t.symbols[id.index]? = some r →
      (t.enter n).symbols[id.index]? = some r := fun hr => getElem?_append_of_some hr _
  refine ⟨fun s hs v id hget => ?_, fun s hs id hsym => ?_⟩
  · rcases List.mem_append.mp hs with hs | hs
    · obtain ⟨type, r, role, hr, hrest⟩ := h.tensors s hs v id hget
      exact ⟨type, r, role, hkeep hr, hrest⟩
    · obtain rfl := List.mem_singleton.mp hs
      obtain ⟨p, _, hname, hr⟩ := t.get?_enter n hget
      exact ⟨_, _, p.1, hr, hname, rfl, rfl⟩
  · rcases List.mem_append.mp hs with hs | hs
    · exact hkeep (h.own s hs id hsym)
    · obtain rfl := List.mem_singleton.mp hs
      rw [Scope.symbol_bindAll] at hsym
      rw [Scope.name_bindAll]
      exact (Typing.checked_records [] t n).own id hsym

theorem Binds.foldl_enter {t : SymbolTable} (h : t.Binds) (ns : List Network) :
    (ns.foldl SymbolTable.enter t).Binds := by
  induction ns generalizing t with
  | nil => exact h
  | cons n ns ih => exact ih (h.enter n)

/-- A name leads to a tensor with that name, or to a network. -/
theorem Binds.resolve {t : SymbolTable} (h : t.Binds) {name : String} {p : Position}
    {id : SymbolId} (hr : t.resolve name p = .ok id) (hk : (t.get id).kind ≠ .network) :
    IsTensor t.symbols id name (t.get id).type := by
  rcases exists_of_resolve hr with ⟨s, hs, hget⟩ | ⟨s, hs, hsym⟩
  · obtain ⟨type, r, role, hr, hname, htype, hkind⟩ := h.tensors s hs name id hget
    exact ⟨r, role, hr, hname, by rw [get_eq hr], hkind⟩
  · exact absurd (by rw [get_eq (h.own s hs id hsym)]; rfl) hk

theorem Binds.resolve_mem {t : SymbolTable} (h : t.Binds) {name : String} {p : Position}
    {id : SymbolId} (hr : t.resolve name p = .ok id) : id ∈ t.ids := by
  rcases exists_of_resolve hr with ⟨s, hs, hget⟩ | ⟨s, hs, hsym⟩
  · obtain ⟨_, _, _, hrecord, _⟩ := h.tensors s hs name id hget
    exact (List.getElem?_eq_some_iff.mp hrecord).1
  · exact (List.getElem?_eq_some_iff.mp (h.own s hs id hsym)).1

end SymbolTable

/-! ## Expressions -/

/-- Every tensor that occurs in an expression has the name and the type of its symbol. -/
def Typed.Arith.TensorsIn (symbols : List Symbol) (a : Arith) : Prop :=
  ∀ id name indices type s, (Arith.var id name indices type s).Within a →
    IsTensor symbols id name type

namespace Typed.Arith

variable {symbols : List Symbol}

/-- A form that is not itself a tensor has those of its operands. -/
theorem TensorsIn.of_operands {a : Arith} (h : ∀ c ∈ a.operands, c.TensorsIn symbols)
    (hform : ∀ id name indices type s, a ≠ .var id name indices type s) :
    a.TensorsIn symbols := by
  intro id name indices type s hw
  cases hw with
  | refl => exact absurd rfl (hform id name indices type s)
  | operand hmem hw => exact h _ hmem id name indices type s hw

theorem TensorsIn.operand {a c : Arith} (h : a.TensorsIn symbols) (hc : c ∈ a.operands) :
    c.TensorsIn symbols :=
  fun id name indices type s hw => h id name indices type s (.operand hc hw)

/-- Pinning leaves a node alone, or goes on to its operands. -/
theorem pin_cases (t : ElementType) (a : Arith) :
    a.pin t = a ∨ (a.pin t).operands = a.operands.map (Arith.pin t) ∧
      ∀ id name indices type s, a.pin t ≠ .var id name indices type s := by
  by_cases hl : a.type.isLiteral = true
  · cases a <;> simp_all [Arith.pin, Arith.type, operands, pinAll_eq_map]
  · exact .inl (pin_of_not_isLiteral (by simpa using hl) t)

theorem TensorsIn.pin {a : Arith} (t : ElementType) (h : a.TensorsIn symbols) :
    (a.pin t).TensorsIn symbols := by
  induction a using Arith.operandsInduct with
  | h a ih =>
    rcases a.pin_cases t with hsame | ⟨hops, hform⟩
    · rwa [hsame]
    · refine .of_operands (fun c hc => ?_) hform
      rw [hops] at hc
      obtain ⟨b, hb, rfl⟩ := List.mem_map.mp hc
      exact ih b hb (h.operand hb)

end Typed.Arith

namespace Typing

open Checked

theorem settle_tensorsIn {symbols : List Symbol} {operands : List Arith}
    (h : ∀ a ∈ operands, a.TensorsIn symbols) :
    ∀ a ∈ (settle operands).value.operands, a.TensorsIn symbols := by
  rw [settle_value]
  split
  · intro a ha
    obtain ⟨b, hb, rfl⟩ := List.mem_map.mp ha
    exact (h b hb).pin _
  · exact h

section
variable {table : SymbolTable} (h : table.Binds)
include h

theorem reference_tensorsIn (name : String) (indices : List Int64) (s : Span) :
    (reference table name indices s).value.TensorsIn table.symbols := by
  have hinvalid : (Arith.invalid name s).TensorsIn table.symbols :=
    .of_operands (by simp [Arith.operands]) (by simp)
  unfold reference
  split
  · exact hinvalid
  · rename_i id hr
    simp only
    split
    · exact hinvalid
    · rename_i hk
      intro id' name' indices' type' s' hw
      cases hw with
      | refl => exact h.resolve hr hk
      | operand hmem _ => cases hmem

variable (policy : LiteralPolicy)

theorem arith_tensorsIn (e : Expr) :
    (arith table policy e).value.TensorsIn table.symbols := by
  induction e using Expr.inductOn with
  | var name indices s =>
    rw [arith_var]
    exact reference_tensorsIn h name indices s
  | int lexeme value s =>
    rw [arith_int]
    exact .of_operands (by simp [Arith.operands]) (by simp)
  | float lexeme value s =>
    rw [arith_float]
    exact .of_operands (by simp [Arith.operands]) (by simp)
  | negate e s ih =>
    have hone : ∀ a ∈ [(arith table policy e).value], a.TensorsIn table.symbols := by
      simpa using ih
    have hops := settle_tensorsIn hone
    obtain ⟨b, hb, hvalue⟩ := negation_value (arith table policy e).value s
    rw [hb] at hops
    rw [arith_negate, value_bind, hvalue]
    exact .of_operands hops (by simp)
  | aggregate op es s ih =>
    have hops := settle_tensorsIn (List.forall_mem_map.mpr ih)
    rw [arith_aggregate, value_bind, ariths_value]
    exact .of_operands hops (by simp [aggregation])
  | minus e es s ihe ihes =>
    have hops := settle_tensorsIn
      (List.forall_mem_cons.mpr ⟨ihe, List.forall_mem_map.mpr ihes⟩)
    obtain ⟨b, bs, hb, hvalue⟩ := difference_value (arith table policy e).value
      (es.map fun e => (arith table policy e).value) s
    rw [hb] at hops
    rw [arith_minus, value_bind, value_bind, ariths_value, hvalue]
    exact .of_operands hops (by simp)
  | compare op l r s _ _ =>
    rw [(arith_of_isBoolean table policy rfl).1]
    exact .of_operands (by simp [Arith.operands]) (by simp)
  | connective op es s _ =>
    rw [(arith_of_isBoolean table policy rfl).1]
    exact .of_operands (by simp [Arith.operands]) (by simp)

theorem formula_tensorsIn (e : Expr) {op : Comparison} {l r : Arith} {s : Span}
    (hw : (Formula.compare op l r s).Within (formula table policy e).value) :
    l.TensorsIn table.symbols ∧ r.TensorsIn table.symbols := by
  obtain ⟨e', hg, _, _⟩ := formula_within e hw
  obtain ⟨l', r', rfl, heq⟩ := formula_eq_compare hg
  have hl := arith_tensorsIn h policy l'
  have hr := arith_tensorsIn h policy r'
  rcases reconcile_value policy (arith table policy l').value (arith table policy r').value
    s.position with hval | ⟨t, hval⟩
  · rw [hval] at heq
    cases heq
    exact ⟨hl, hr⟩
  · rw [hval] at heq
    cases heq
    exact ⟨hl.pin t, hr.pin t⟩

end
end Typing

/-! ## Queries -/

namespace Typing

theorem query_symbols (policy : LiteralPolicy) (q : Query) :
    (query policy q).value.symbols = q.networks.foldl SymbolTable.enter .empty :=
  congrArg Prod.snd (networksFrom_eq q.networks .empty q.networks)

theorem query_networks (policy : LiteralPolicy) (q : Query) :
    (query policy q).value.networks = checkedFrom q.networks .empty q.networks :=
  congrArg Prod.fst (networksFrom_eq q.networks .empty q.networks)

theorem query_assertions (policy : LiteralPolicy) (q : Query) :
    (query policy q).value.assertions = q.assertions.map fun a =>
      ⟨(formula (query policy q).value.symbols policy a.condition).value, a.span⟩ :=
  assertions_value _ policy q.assertions

end Typing

/-- A typed query agrees with its table of symbols and with the query it was made from. -/
structure Query.Agrees (q : Query) (typed : Typed.Query) : Prop where
  /-- Every tensor in an expression is that of its symbol. -/
  tensors : ∀ id name indices type s,
    .arith (.var id name indices type s) ∈ Node.descendants (.query typed) →
      IsTensor typed.symbols.symbols id name type
  /-- Every declared tensor and every network is that of its symbol, if it has one. -/
  networks : List.Forall₂ (Records typed.symbols.symbols) q.networks typed.networks
  /-- Every symbol is that of one declared tensor or of one network. -/
  numbers : (typed.networks.flatMap Typed.Network.ids).Perm
    ((List.range typed.symbols.symbols.length).map SymbolId.mk)
  /-- There is one symbol for each name of a network and one for each declared tensor. -/
  length : typed.symbols.symbols.length =
    (q.networks.map Network.name).toFinset.card + (q.networks.flatMap Network.declarations).length

/-- The check of any query, whatever it reports, gives a typed query that agrees with its
symbols. -/
theorem Query.agrees_symbols (q : Query) (options : BuildOptions) :
    q.Agrees (Typing.query options.policy q).value := by
  have hvalue := Typing.networksFrom_eq q.networks .empty q.networks
  have hnetworks : (Typing.query options.policy q).value.networks =
      Typing.checkedFrom q.networks .empty q.networks := congrArg Prod.fst hvalue
  have htable : (Typing.query options.policy q).value.symbols =
      q.networks.foldl SymbolTable.enter .empty := congrArg Prod.snd hvalue
  refine ⟨fun id name indices type s hmem => ?_, ?_, ?_, ?_⟩
  · obtain ⟨c, hc, op, l, r, s', hw, hside⟩ := Typed.Query.arith_mem_descendants hmem
    obtain ⟨b, _, hcond⟩ := Typing.mem_query_assertions hc
    rw [hvalue] at hcond
    rw [hcond] at hw
    have hbinds := SymbolTable.binds_empty.foldl_enter q.networks
    obtain ⟨hl, hr⟩ := Typing.formula_tensorsIn hbinds options.policy b.condition hw
    rw [htable]
    rcases hside with hside | hside
    · exact hl id name indices type s hside
    · exact hr id name indices type s hside
  · rw [htable, hnetworks]
    exact Typing.checkedFrom_records q.networks .empty q.networks
  · obtain ⟨k, hlength, hperm⟩ := Typing.checkedFrom_ids_perm q.networks .empty q.networks
    have hk : (q.networks.foldl SymbolTable.enter .empty).symbols.length = k := by
      rw [hlength, SymbolTable.empty, List.length_nil, Nat.zero_add]
    rw [htable, hnetworks, hk, List.range_eq_range']
    exact hperm
  · rw [htable]
    exact SymbolTable.length_foldl_enter q.networks

end NeuralQuery
