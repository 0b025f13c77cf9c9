import NeuralQuery.Proofs.NetworkCheck
import NeuralQuery.Proofs.Resolution

/-!
# NeuralQuery.Proofs.History

What a name stands for, told from the history of a table.

A history is the row of calls that led from the empty table to this one, each with what it gave
back (`Reached`). Calls may come in any order: a scope can be opened twice for one name, symbols can
be entered and never bound, bound late, or bound in several scopes. The history alone says which
scopes are to be searched for a name and which symbol it has in each of them (`binders`,
`firstBinding?`), and `resolve_reached` says that looking up the name gives just that.

The invariant is `Told`: what a table holds is what its history says. Every call keeps it.
-/

namespace NeuralQuery
namespace SymbolTable

/-- A call of an operation on a table, with what it gave back. -/
inductive Call where
  /-- A scope was opened for a network, which got a symbol if its name was new. -/
  | declareNetwork (name : String) (scope : ScopeId) (symbol : Option SymbolId)
  | insert (record : Symbol) (id : SymbolId)
  /-- A symbol was to be bound in a scope. -/
  | declareVariable (scope : ScopeId) (id : SymbolId)

/-- A scope that was opened, with the symbol of its network if it got one. -/
structure Opened where
  name : String
  scope : ScopeId
  symbol : Option SymbolId
  deriving DecidableEq

namespace Call

def opened? : Call → Option Opened
  | declareNetwork name scope symbol => some ⟨name, scope, symbol⟩
  | _ => none

/-- The name of a symbol, from the call that created it. -/
def nameOf? (id : SymbolId) : Call → Option String
  | declareNetwork name _ symbol => if symbol = some id then some name else none
  | insert record i => if i = id then some record.name else none
  | declareVariable _ _ => none

/-- The symbol that was to be bound in a scope, if it has this name. -/
def binds? (nameOf : SymbolId → Option String) (scope : ScopeId) (v : String) :
    Call → Option SymbolId
  | declareVariable s id => if s = scope ∧ nameOf id = some v then some id else none
  | _ => none

end Call

section
variable (calls : List Call)

/-- The scopes of a history, in the order in which they were opened. -/
def opened : List Opened :=
  calls.filterMap Call.opened?

/-- The scope that was the first to be opened for a network of this name. -/
def first? (name : String) : Option Opened :=
  (opened calls).find? fun o => o.name == name

def nameOf? (id : SymbolId) : Option String :=
  calls.findSome? (Call.nameOf? id)

/-- The first symbol of a name that was to be bound in a scope. -/
def firstBinding? (scope : ScopeId) (v : String) : Option SymbolId :=
  calls.findSome? (Call.binds? (nameOf? calls) scope v)

/-- The scopes that were the first of their network and in which a symbol of this name was to be
bound. -/
def binders (v : String) : List Opened :=
  (opened calls).filter fun o =>
    first? calls o.name = some o ∧ (firstBinding? calls o.scope v).isSome

end

/-- Tables that are reached from the empty one. A symbol is bound only if it was given back by an
earlier call, and in a scope that was. -/
inductive Reached : List Call → SymbolTable → Prop where
  | empty : Reached [] .empty
  | declareNetwork {calls : List Call} {t : SymbolTable} (name : String) (p : Position) :
      Reached calls t →
      Reached (calls ++ [.declareNetwork name (t.declareNetwork name p).scope
        (t.declareNetwork name p).symbol.toOption]) (t.declareNetwork name p).table
  | insert {calls : List Call} {t : SymbolTable} (record : Symbol) :
      Reached calls t → Reached (calls ++ [.insert record (t.insert record).1]) (t.insert record).2
  | bound {calls : List Call} {t t' : SymbolTable} {scope : ScopeId} {id : SymbolId}
      {p : Position} :
      Reached calls t → (∃ o ∈ opened calls, o.scope = scope) → (nameOf? calls id).isSome →
      t.declareVariable scope id p = .ok t' → Reached (calls ++ [.declareVariable scope id]) t'
  | refused {calls : List Call} {t : SymbolTable} {scope : ScopeId} {id : SymbolId}
      {p : Position} {d : Diagnostic} :
      Reached calls t → (∃ o ∈ opened calls, o.scope = scope) → (nameOf? calls id).isSome →
      t.declareVariable scope id p = .error d → Reached (calls ++ [.declareVariable scope id]) t

/-! ## Histories that grow -/

section
variable (calls : List Call) (c : Call)

theorem opened_concat : opened (calls ++ [c]) = opened calls ++ c.opened?.toList := by
  simp only [opened, List.filterMap_append]
  cases c <;> rfl

theorem first?_concat (name : String) :
    first? (calls ++ [c]) name =
      (first? calls name).or (c.opened?.toList.find? fun o => o.name == name) := by
  rw [first?, opened_concat, List.find?_append]
  rfl

theorem nameOf?_concat (id : SymbolId) :
    nameOf? (calls ++ [c]) id = (nameOf? calls id).or (c.nameOf? id) := by
  simp [nameOf?, List.findSome?_append]

end

theorem getElem?_concat {α : Type} (l : List α) (a : α) (i : Nat) :
    (l ++ [a])[i]? = l[i]?.or (if i = l.length then some a else none) := by
  rcases Nat.lt_trichotomy i l.length with hlt | rfl | hgt
  · rw [List.getElem?_append_left hlt, List.getElem?_eq_getElem hlt, Option.some_or]
  · simp
  · have hend : (l ++ [a])[i]? = none := List.getElem?_eq_none (by simp; omega)
    rw [hend, List.getElem?_eq_none (Nat.le_of_lt hgt), if_neg (Nat.ne_of_gt hgt)]
    rfl

theorem getElem?_concat_cases {α : Type} {l : List α} {a b : α} {i : Nat}
    (h : (l ++ [a])[i]? = some b) : l[i]? = some b ∨ i = l.length ∧ b = a := by
  rw [getElem?_concat] at h
  cases hold : l[i]? with
  | some c => exact .inl (by simpa [hold] using h)
  | none =>
    rw [hold, Option.none_or] at h
    split at h
    · exact .inr ⟨‹_›, (Option.some.inj h).symm⟩
    · cases h

section
variable (t : SymbolTable) (name : String) (p : Position)

theorem declareNetwork_scope : (t.declareNetwork name p).scope = ⟨t.scopes.length⟩ := by
  unfold declareNetwork
  cases t.network? name <;> rfl

theorem declareNetwork_symbol : (t.declareNetwork name p).symbol.toOption = t.own? name := by
  unfold declareNetwork own?
  cases t.network? name <;> rfl

theorem declareNetwork_table : (t.declareNetwork name p).table =
    ⟨t.symbols ++ (t.own? name).toList.map fun _ => .ofNetwork name,
      t.scopes ++ [⟨name, t.own? name, []⟩]⟩ := by
  unfold declareNetwork own?
  cases t.network? name with
  | none => rfl
  | some scope => simp

end

/-- The table with a symbol bound to its name in a scope, as far as the name is new there. -/
def bindIn (t : SymbolTable) (scope : ScopeId) (id : SymbolId) : SymbolTable :=
  { t with scopes := t.scopes.modify scope.index fun s => s.bind (t.get id).name id }

section
variable {t t' : SymbolTable} {scope : ScopeId} {id : SymbolId} {p : Position}

theorem declareVariable_eq_ok (h : t.declareVariable scope id p = .ok t') :
    t' = t.bindIn scope id := by
  cases hs : t.scopes[scope.index]? with
  | none =>
    simp only [declareVariable, hs, Except.ok.injEq] at h
    have hend : t.scopes.length ≤ scope.index := List.getElem?_eq_none_iff.mp hs
    rw [bindIn, List.modify_eq_self hend, h]
  | some s =>
    cases hg : s.get? (t.get id).name with
    | some old => simp [declareVariable, hs, hg] at h
    | none =>
      simp only [declareVariable, hs, hg, Except.ok.injEq] at h
      have hnew := Scope.get?_eq_none_iff.mp hg
      rw [← h, bindIn, List.modify_eq_set_getElem?, hs, Option.map_eq_map, Option.map_some,
        Option.getD_some, Scope.bind, if_neg hnew]

theorem declareVariable_eq_error {d : Diagnostic} (h : t.declareVariable scope id p = .error d) :
    t = t.bindIn scope id := by
  cases hs : t.scopes[scope.index]? with
  | none => simp [declareVariable, hs] at h
  | some s =>
    cases hg : s.get? (t.get id).name with
    | none => simp [declareVariable, hs, hg] at h
    | some old =>
      have htaken : (t.get id).name ∈ s.bindings.map Prod.fst := by
        by_contra hnew
        simp [Scope.get?_eq_none_iff.mpr hnew] at hg
      rw [bindIn, List.modify_eq_set_getElem?, hs, Option.map_eq_map, Option.map_some,
        Option.getD_some, Scope.bind, if_pos htaken]
      obtain ⟨hlt, rfl⟩ := List.getElem?_eq_some_iff.mp hs
      rw [List.set_getElem_self]

theorem getElem?_bindIn (t : SymbolTable) (scope : ScopeId) (id : SymbolId) (k : Nat) :
    (t.bindIn scope id).scopes[k]? =
      t.scopes[k]?.map fun s => if scope.index = k then s.bind (t.get id).name id else s := by
  simp [bindIn, List.getElem?_modify]

/-- A scope keeps its network, and the names that are bound in it. -/
theorem bindIn_cases {k : Nat} {s : Scope} (h : (t.bindIn scope id).scopes[k]? = some s) :
    ∃ s', t.scopes[k]? = some s' ∧ s.name = s'.name ∧ s.symbol = s'.symbol ∧
      ∀ v, s.get? v =
        (s'.get? v).or (if scope = ⟨k⟩ ∧ (t.get id).name = v then some id else none) := by
  rw [getElem?_bindIn] at h
  obtain ⟨s', hs', rfl⟩ := Option.map_eq_some_iff.mp h
  refine ⟨s', hs', ?_⟩
  obtain ⟨i⟩ := scope
  by_cases hk : i = k
  · simp [hk, Scope.get?_bind]
  · simp [hk]

end

/-! ## What a history tells of its table -/

/-- The name of the symbol with this number. -/
def nameAt? (t : SymbolTable) (id : SymbolId) : Option String :=
  t.symbols[id.index]?.map Symbol.name

theorem nameAt?_concat (t : SymbolTable) (record : Symbol) (scopes : List Scope) (id : SymbolId) :
    (⟨t.symbols ++ [record], scopes⟩ : SymbolTable).nameAt? id =
      (t.nameAt? id).or
        (if (⟨t.symbols.length⟩ : SymbolId) = id then some record.name else none) := by
  simp only [nameAt?, getElem?_concat, Option.map_or]
  by_cases hid : (⟨t.symbols.length⟩ : SymbolId) = id
  · simp [← hid]
  · have hne : id.index ≠ t.symbols.length := fun heq => hid (by rw [← heq])
    simp [hid, hne]

/-- A table holds what its history says. -/
structure Told (calls : List Call) (t : SymbolTable) : Prop where
  opened : ∀ k, (opened calls)[k]? = t.scopes[k]?.map fun s => Opened.mk s.name ⟨k⟩ s.symbol
  /-- A scope is attached if it was the first of its network. -/
  attached : ∀ k s, t.scopes[k]? = some s →
    (s.isAttached = true ↔ first? calls s.name = some ⟨s.name, ⟨k⟩, s.symbol⟩)
  names : ∀ id, nameOf? calls id = t.nameAt? id
  bound : ∀ k s, t.scopes[k]? = some s →
    ∀ v, s.get? v = calls.findSome? (Call.binds? t.nameAt? ⟨k⟩ v)
  /-- Only scopes and symbols of the table were ever used. -/
  used : ∀ scope id, Call.declareVariable scope id ∈ calls →
    scope.index < t.scopes.length ∧ id.index < t.symbols.length

namespace Told

variable {calls : List Call} {t : SymbolTable}

theorem empty : Told [] .empty where
  opened k := rfl
  attached k s hs := by cases hs
  names id := rfl
  bound k s hs := by cases hs
  used scope id h := by cases h

section
variable (h : Told calls t)
include h

theorem mem_opened_iff {o : Opened} :
    o ∈ SymbolTable.opened calls ↔
      ∃ k s, t.scopes[k]? = some s ∧ o = ⟨s.name, ⟨k⟩, s.symbol⟩ := by
  rw [List.mem_iff_getElem?]
  constructor
  · rintro ⟨k, hk⟩
    rw [h.opened, Option.map_eq_some_iff] at hk
    obtain ⟨s, hs, rfl⟩ := hk
    exact ⟨k, s, hs, rfl⟩
  · rintro ⟨k, s, hs, rfl⟩
    exact ⟨k, by rw [h.opened, hs, Option.map_some]⟩

/-- The first scope of a name is attached, so that its symbol is the one of the network. -/
theorem symbol_of_first? {v : String} {o : Opened} (ho : first? calls v = some o) :
    ∃ s, t.scopes[o.scope.index]? = some s ∧ s.name = v ∧ s.isAttached = true ∧
      o.symbol = s.symbol := by
  obtain ⟨k, s, hs, rfl⟩ := h.mem_opened_iff.mp (List.mem_of_find?_eq_some ho)
  have hname : s.name = v := by simpa using List.find?_some ho
  rw [← hname] at ho
  exact ⟨s, hs, hname, (h.attached k s hs).mpr ho, rfl⟩

/-- A name is free in a table if no scope was opened for it. -/
theorem network?_eq_none_iff (v : String) : t.network? v = none ↔ first? calls v = none := by
  constructor
  · intro hnone
    cases ho : first? calls v with
    | none => rfl
    | some o =>
      obtain ⟨s, hs, hname, hattached, _⟩ := h.symbol_of_first? ho
      have hmiss := List.findIdx?_eq_none_iff.mp (Option.map_eq_none_iff.mp hnone) s
        (List.mem_of_getElem? hs)
      simp [hattached, hname] at hmiss
  · intro hnone
    rw [network?, Option.map_eq_none_iff, List.findIdx?_eq_none_iff]
    intro s hs
    obtain ⟨k, hk⟩ := List.mem_iff_getElem?.mp hs
    have hmiss := List.find?_eq_none.mp hnone _ (h.mem_opened_iff.mpr ⟨k, s, hk, rfl⟩)
    have hname : ¬ s.name = v := by simpa using hmiss
    simp [hname]

/-- What was bound keeps its name when more symbols are entered. -/
theorem binds?_append {t' : SymbolTable} {more : List Symbol}
    (hsym : t'.symbols = t.symbols ++ more) (scope : ScopeId) (v : String) :
    calls.findSome? (Call.binds? t'.nameAt? scope v) =
      calls.findSome? (Call.binds? t.nameAt? scope v) := by
  have hsame : ∀ c ∈ calls, Call.binds? t'.nameAt? scope v c = Call.binds? t.nameAt? scope v c := by
    intro c hc
    cases c with
    | declareNetwork name s symbol => rfl
    | insert record i => rfl
    | declareVariable s id =>
      have hkeep : t'.nameAt? id = t.nameAt? id := by
        simp only [nameAt?, hsym, List.getElem?_append_left (h.used s id hc).2]
      simp only [Call.binds?, hkeep]
  rw [← List.head?_filterMap, ← List.head?_filterMap, List.filterMap_congr hsame]

theorem opened_eq :
    SymbolTable.opened calls = t.scopes.zipIdx.map fun s => ⟨s.1.name, ⟨s.2⟩, s.1.symbol⟩ := by
  refine List.ext_getElem? fun k => ?_
  rw [h.opened, List.getElem?_map, List.getElem?_zipIdx]
  cases t.scopes[k]? <;> simp

theorem length_opened : (SymbolTable.opened calls).length = t.scopes.length := by
  simp [h.opened_eq]

theorem first?_ne_none {k : Nat} {s : Scope} (hs : t.scopes[k]? = some s) :
    first? calls s.name ≠ none := by
  intro hnone
  simpa using List.find?_eq_none.mp hnone _ (h.mem_opened_iff.mpr ⟨k, s, hs, rfl⟩)

/-- A scope that was never used has nothing bound in it. -/
theorem binds?_unused (nameOf : SymbolId → Option String) (v : String) :
    calls.findSome? (Call.binds? nameOf ⟨t.scopes.length⟩ v) = none := by
  rw [List.findSome?_eq_none_iff]
  intro c hc
  cases c with
  | declareNetwork name s symbol => rfl
  | insert record i => rfl
  | declareVariable s id =>
    have hne : s ≠ ⟨t.scopes.length⟩ := by
      rintro rfl
      exact absurd (h.used _ id hc).1 (Nat.lt_irrefl _)
    simp [Call.binds?, hne]

/-! ## One call -/

/-- A new scope is attached if no scope was opened for its network before. -/
theorem own?_isSome_iff (name : String) :
    (t.own? name).isSome = true ↔ first? calls name = none := by
  rw [← h.network?_eq_none_iff]
  rcases t.own?_cases name with ⟨htaken, hown⟩ | ⟨hfree, hown⟩
  · rw [hown]
    refine ⟨fun hsome => (by cases hsome), fun hnone => ?_⟩
    rw [hnone] at htaken
    cases htaken
  · rw [hown]
    exact ⟨fun _ => by simpa using hfree, fun _ => rfl⟩

theorem declareNetwork (name : String) (p : Position) :
    Told (calls ++ [.declareNetwork name (t.declareNetwork name p).scope
      (t.declareNetwork name p).symbol.toOption]) (t.declareNetwork name p).table := by
  rw [declareNetwork_scope, declareNetwork_symbol, declareNetwork_table]
  refine {
    opened := fun k => ?opened
    attached := fun k s hs => ?attached
    names := fun id => ?names
    bound := fun k s hs v => ?bound
    used := fun scope id hc => ?used }
  case opened =>
    rw [opened_concat]
    simp only [Call.opened?, Option.toList_some, getElem?_concat, h.opened, h.length_opened]
    by_cases hk : k = t.scopes.length
    · simp [hk]
    · simp [hk]
  case attached =>
    rw [first?_concat]
    rcases getElem?_concat_cases hs with hold | ⟨rfl, rfl⟩
    · obtain ⟨o, ho⟩ := Option.ne_none_iff_exists'.mp (h.first?_ne_none hold)
      rw [h.attached k s hold, ho, Option.some_or]
    · rw [Scope.isAttached, h.own?_isSome_iff]
      cases ho : first? calls name with
      | none => simp [Call.opened?]
      | some o =>
        -- the scope that was the first is an old one
        obtain ⟨s, hs, _⟩ := h.symbol_of_first? ho
        have hne : o.scope.index ≠ t.scopes.length :=
          Nat.ne_of_lt (List.getElem?_eq_some_iff.mp hs).1
        simp only [reduceCtorEq, Option.some_or, Option.some.injEq, false_iff]
        rintro rfl
        exact hne rfl
  case names =>
    rw [nameOf?_concat, h.names]
    rcases t.own?_cases name with ⟨_, hown⟩ | ⟨_, hown⟩
    · simp [Call.nameOf?, hown, nameAt?]
    · have hnew := t.nameAt?_concat (.ofNetwork name) (t.scopes ++ [⟨name, t.own? name, []⟩]) id
      simp only [Call.nameOf?, hown, Option.some.injEq, Option.toList_some, List.map_cons,
        List.map_nil] at hnew ⊢
      exact hnew.symm
  case bound =>
    rw [List.findSome?_append, h.binds?_append rfl]
    simp only [List.findSome?_cons, Call.binds?, List.findSome?_nil, Option.or_none]
    rcases getElem?_concat_cases hs with hold | ⟨rfl, rfl⟩
    · exact h.bound k s hold v
    · rw [h.binds?_unused]
      rfl
  case used =>
    rcases List.mem_append.mp hc with hc | hc
    · have hlt := h.used scope id hc
      simp only [List.length_append]
      omega
    · cases List.mem_singleton.mp hc

theorem insert (record : Symbol) :
    Told (calls ++ [.insert record (t.insert record).1]) (t.insert record).2 := by
  refine {
    opened := fun k => ?opened
    attached := fun k s hs => ?attached
    names := fun id => ?names
    bound := fun k s hs v => ?bound
    used := fun scope id hc => ?used }
  case opened =>
    simp only [opened_concat, Call.opened?, Option.toList_none, List.append_nil]
    exact h.opened k
  case attached =>
    simpa [first?_concat, Call.opened?] using h.attached k s hs
  case names =>
    rw [nameOf?_concat, h.names]
    exact (t.nameAt?_concat record t.scopes id).symm
  case bound =>
    rw [List.findSome?_append, h.binds?_append rfl]
    simpa [Call.binds?] using h.bound k s hs v
  case used =>
    rcases List.mem_append.mp hc with hc | hc
    · have hlt := h.used scope id hc
      simp only [SymbolTable.insert, List.length_append]
      omega
    · cases List.mem_singleton.mp hc

/-- A call uses only what earlier calls gave back, so that it is in the table. -/
theorem known {scope : ScopeId} {id : SymbolId}
    (hscope : ∃ o ∈ SymbolTable.opened calls, o.scope = scope) (hid : (nameOf? calls id).isSome) :
    scope.index < t.scopes.length ∧ ∃ record, t.symbols[id.index]? = some record := by
  obtain ⟨o, ho, rfl⟩ := hscope
  obtain ⟨k, s, hs, rfl⟩ := h.mem_opened_iff.mp ho
  rw [h.names, nameAt?, Option.isSome_map] at hid
  exact ⟨(List.getElem?_eq_some_iff.mp hs).1, Option.isSome_iff_exists.mp hid⟩

theorem bindIn {scope : ScopeId} {id : SymbolId}
    (hscope : ∃ o ∈ SymbolTable.opened calls, o.scope = scope) (hid : (nameOf? calls id).isSome) :
    Told (calls ++ [.declareVariable scope id]) (t.bindIn scope id) := by
  obtain ⟨hlt, record, hrecord⟩ := h.known hscope hid
  have hname : t.nameAt? id = some (t.get id).name := by
    simp [nameAt?, SymbolTable.get, hrecord]
  refine {
    opened := fun k => ?opened
    attached := fun k s hs => ?attached
    names := fun i => ?names
    bound := fun k s hs v => ?bound
    used := fun scope' i hc => ?used }
  case opened =>
    simp only [opened_concat, Call.opened?, Option.toList_none, List.append_nil, h.opened,
      getElem?_bindIn, Option.map_map]
    cases t.scopes[k]? with
    | none => rfl
    | some s => by_cases hk : scope.index = k <;> simp [hk]
  case attached =>
    obtain ⟨s', hs', hn, hsym, _⟩ := bindIn_cases hs
    have hold := h.attached k s' hs'
    simpa [first?_concat, Call.opened?, Scope.isAttached, hn, hsym] using hold
  case names =>
    rw [nameOf?_concat, Call.nameOf?, Option.or_none, h.names]
    rfl
  case bound =>
    obtain ⟨s', hs', _, _, hget⟩ := bindIn_cases hs
    have hold := h.bound k s' hs' v
    rw [hget, hold, List.findSome?_append]
    change _ = (calls.findSome? (Call.binds? t.nameAt? ⟨k⟩ v)).or _
    have hlast : List.findSome? (Call.binds? t.nameAt? ⟨k⟩ v) [.declareVariable scope id] =
        if scope = ⟨k⟩ ∧ (t.get id).name = v then some id else none := by
      by_cases hv : scope = ⟨k⟩ ∧ (t.get id).name = v <;>
        simp [Call.binds?, hname, hv]
    rw [← hlast]
    rfl
  case used =>
    rcases List.mem_append.mp hc with hc | hc
    · have hold := h.used scope' i hc
      simpa [SymbolTable.bindIn] using hold
    · cases List.mem_singleton.mp hc
      simpa [SymbolTable.bindIn] using ⟨hlt, (List.getElem?_eq_some_iff.mp hrecord).1⟩

end
end Told

/-! ## Any row of calls -/

theorem Reached.told {calls : List Call} {t : SymbolTable} (h : Reached calls t) :
    Told calls t := by
  induction h with
  | empty => exact .empty
  | declareNetwork name p _ ih => exact ih.declareNetwork name p
  | insert record _ ih => exact ih.insert record
  | bound _ hscope hid hok ih =>
    rw [declareVariable_eq_ok hok]
    exact ih.bindIn hscope hid
  | refused _ hscope hid herror ih =>
    rw [declareVariable_eq_error herror]
    exact ih.bindIn hscope hid

namespace Told

variable {calls : List Call} {t : SymbolTable} (h : Told calls t)
include h

theorem firstBinding?_eq {k : Nat} {s : Scope} (hs : t.scopes[k]? = some s) (v : String) :
    firstBinding? calls ⟨k⟩ v = s.get? v := by
  rw [firstBinding?, funext h.names, h.bound k s hs]

/-- The scopes that are searched for a name are those that the history tells. -/
theorem candidates_eq (v : String) :
    (t.candidates v).map (fun c => (c.1.name, some c.2)) =
      (binders calls v).map fun o => (o.name, firstBinding? calls o.scope v) := by
  have hscope : ∀ s ∈ t.scopes.zipIdx,
      (if s.1.isAttached then (s.1.get? v).map fun id => (s.1.name, some id) else none) =
        if first? calls s.1.name = some ⟨s.1.name, ⟨s.2⟩, s.1.symbol⟩ ∧
            (firstBinding? calls ⟨s.2⟩ v).isSome then
          some (s.1.name, firstBinding? calls ⟨s.2⟩ v)
        else none := by
    rintro ⟨s, k⟩ hs
    have hs : t.scopes[k]? = some s := List.mem_zipIdx_iff_getElem?.mp hs
    simp only [h.firstBinding?_eq hs, ← h.attached k s hs]
    by_cases hatt : s.isAttached = true
    · cases hg : s.get? v <;> simp [hatt]
    · simp [hatt]
  calc (t.candidates v).map (fun c => (c.1.name, some c.2))
      = t.scopes.filterMap fun s =>
          if s.isAttached then (s.get? v).map fun id => (s.name, some id) else none := by
        rw [candidates, List.filterMap_filter, List.map_filterMap]
        refine List.filterMap_congr fun s _ => ?_
        by_cases hatt : s.isAttached = true <;> simp [hatt, Function.comp_def]
    _ = t.scopes.zipIdx.filterMap fun s =>
          if s.1.isAttached then (s.1.get? v).map fun id => (s.1.name, some id) else none := by
        nth_rewrite 1 [← List.zipIdx_map_fst 0 t.scopes]
        rw [List.filterMap_map]
        rfl
    _ = _ := List.filterMap_congr hscope
    _ = _ := by
        rw [binders, h.opened_eq, ← List.filterMap_eq_map, List.filterMap_filter,
          List.filterMap_map]
        simp

theorem global?_eq (v : String) :
    t.global? v =
      (SymbolTable.opened calls).findSome? fun o => if o.name == v then o.symbol else none := by
  rw [h.opened_eq, List.findSome?_map, global?]
  nth_rewrite 1 [← List.zipIdx_map_fst 0 t.scopes]
  rw [List.findSome?_map]
  rfl

/-- The first network of a name has a symbol, and the name leads to it. -/
theorem global?_of_first? {v : String} {o : Opened} (ho : first? calls v = some o) :
    ∃ id, o.symbol = some id ∧ t.global? v = some id := by
  obtain ⟨s, _, _, hattached, hsymbol⟩ := h.symbol_of_first? ho
  obtain ⟨id, hid⟩ := Option.isSome_iff_exists.mp hattached
  obtain ⟨hname, before, after, hopened, hbefore⟩ := List.find?_eq_some_iff_append.mp ho
  have hskip : before.findSome? (fun o => if o.name == v then o.symbol else none) = none := by
    rw [List.findSome?_eq_none_iff]
    intro o' ho'
    rw [if_neg (by simpa using hbefore o' ho')]
  refine ⟨id, hsymbol.trans hid, ?_⟩
  rw [h.global?_eq, hopened, List.findSome?_append, hskip, Option.none_or, List.findSome?_cons,
    if_pos hname, hsymbol, hid]

theorem global?_of_unopened {v : String} (hv : first? calls v = none) : t.global? v = none := by
  rw [h.global?_eq, List.findSome?_eq_none_iff]
  intro o ho
  rw [if_neg (List.find?_eq_none.mp hv o ho)]

end Told

/-- Looking up a name gives what the history of the table tells. -/
theorem resolve_reached {calls : List Call} {t : SymbolTable} (h : Reached calls t) (v : String)
    (p : Position) :
    (∀ o, binders calls v = [o] →
      ∃ id, firstBinding? calls o.scope v = some id ∧ t.resolve v p = .ok id) ∧
    (2 ≤ (binders calls v).length →
      t.resolve v p =
        .error ⟨.ambiguousVariable v (listing ((binders calls v).map Opened.name)), p⟩) ∧
    (binders calls v = [] →
      (∀ o, first? calls v = some o → ∃ id, o.symbol = some id ∧ t.resolve v p = .ok id) ∧
      (first? calls v = none → t.resolve v p = .error ⟨.variableNotDeclared v, p⟩)) := by
  obtain ⟨bound, hbound, hmap⟩ :
      ∃ bound, (t.candidates v).map (fun c => (c.1.name, c.2)) = bound ∧
        bound.map (fun x => (x.1, some x.2)) =
          (binders calls v).map fun o => (o.name, firstBinding? calls o.scope v) :=
    ⟨_, rfl, by simpa [Function.comp_def] using h.told.candidates_eq v⟩
  refine ⟨fun o ho => ?_, fun htwo => ?_, fun hnone => ?_⟩
  · rw [ho, List.map_singleton] at hmap
    obtain ⟨x, hx, hxo⟩ := List.map_eq_singleton_iff.mp hmap
    exact ⟨x.2, (Prod.mk.inj hxo).2.symm, resolve_one hbound hx⟩
  · have hnames : bound.map Prod.fst = (binders calls v).map Opened.name := by
      simpa [Function.comp_def] using congrArg (List.map Prod.fst) hmap
    have hlength : bound.length = (binders calls v).length := by
      simpa using congrArg List.length hmap
    rw [← hnames]
    exact resolve_many hbound (by omega)
  · rw [hnone, List.map_nil, List.map_eq_nil_iff] at hmap
    constructor
    · intro o ho
      obtain ⟨id, hid, hglobal⟩ := h.told.global?_of_first? ho
      exact ⟨id, hid, resolve_global hbound hmap hglobal⟩
    · intro hv
      exact resolve_unknown hbound hmap (h.told.global?_of_unopened hv)

/-- A tensor `X` of a network. -/
def tensorX (network : String) : Symbol :=
  ⟨"X", none, .unknown, [], .tensor .input, network⟩

/-- `N` is declared twice, so that its second scope is detached. Its `X` is bound in that scope, and
in vain in the scope of `M`, where the `X` of `M` came first. -/
def twoNetworks : List Call :=
  [.declareNetwork "N" ⟨0⟩ (some ⟨0⟩), .declareNetwork "N" ⟨1⟩ none,
    .declareNetwork "M" ⟨2⟩ (some ⟨1⟩), .insert (tensorX "N") ⟨2⟩, .insert (tensorX "M") ⟨3⟩,
    .declareVariable ⟨1⟩ ⟨2⟩, .declareVariable ⟨2⟩ ⟨3⟩, .declareVariable ⟨2⟩ ⟨2⟩]

def twoNetworksTable : SymbolTable where
  symbols := [.ofNetwork "N", .ofNetwork "M", tensorX "N", tensorX "M"]
  scopes := [⟨"N", some ⟨0⟩, []⟩, ⟨"N", none, [("X", ⟨2⟩)]⟩, ⟨"M", some ⟨1⟩, [("X", ⟨3⟩)]⟩]

theorem reached_twoNetworks : Reached twoNetworks twoNetworksTable := by
  have hopened := Reached.empty
    |>.declareNetwork "N" ⟨0, ""⟩ |>.declareNetwork "N" ⟨1, ""⟩ |>.declareNetwork "M" ⟨2, ""⟩
  have hentered := (hopened.insert (tensorX "N")).insert (tensorX "M")
  have hfirst : Reached (_ ++ [.declareVariable ⟨1⟩ ⟨2⟩]) _ :=
    hentered.bound (p := ⟨3, ""⟩) (by decide) (by decide) rfl
  have hsecond : Reached (_ ++ [.declareVariable ⟨2⟩ ⟨3⟩]) _ :=
    hfirst.bound (p := ⟨4, ""⟩) (by decide) (by decide) rfl
  exact hsecond.refused (p := ⟨5, ""⟩) (by decide) (by decide) rfl

theorem resolve_twoNetworks :
    Reached twoNetworks twoNetworksTable ∧ binders twoNetworks "X" = [⟨"M", ⟨2⟩, some ⟨1⟩⟩] ∧
      twoNetworksTable.resolve "X" ⟨6, ""⟩ = .ok ⟨3⟩ := by
  have hone : binders twoNetworks "X" = [⟨"M", ⟨2⟩, some ⟨1⟩⟩] := by decide
  obtain ⟨id, hid, hresolve⟩ := (resolve_reached reached_twoNetworks "X" ⟨6, ""⟩).1 _ hone
  obtain rfl : ⟨3⟩ = id := Option.some.inj hid
  exact ⟨reached_twoNetworks, hone, hresolve⟩

end SymbolTable
end NeuralQuery
