import NeuralQuery.Proofs.Indexes

/-!
# NeuralQuery.Proofs.RegistryTable

A registry and the table it stands for (`Registry.table`).

As long as its indexes are in order, every operation does to the registry what the operation of the
same name does to the table, and a name stands for the same symbol in both. So the indexes and the
marks on detached scopes are a way to compute, and a table needs neither: there, a scope is attached
if it has the symbol of its network, and networks are found among the scopes.
-/

namespace NeuralQuery
namespace Registry

variable {r : Registry}

theorem get_table (r : Registry) (id : SymbolId) : r.table.get id = r.get id := rfl

theorem insert_table (r : Registry) (record : Symbol) :
    r.table.insert record = ((r.insert record).1, (r.insert record).2.table) := rfl

/-! ## Networks -/

theorem isAttached_scope (h : r.Consistent) {s : NetworkScope} (hs : s ∈ r.scopes) :
    (r.scope s).isAttached = !s.detached := by
  cases hdetached : s.detached with
  | true => simp [scope, Scope.isAttached, hdetached]
  | false =>
    have hname : s.name ∈ r.globals.names :=
      (h.keys s.name).2.mpr (mem_attachedNames.mpr ⟨s, hs, hdetached, rfl⟩)
    have hglobal : (r.globals.get? s.name).isSome = true := Lookup.contains_iff.mpr hname
    simp [scope, Scope.isAttached, hdetached, hglobal]

theorem isSome_network?_table (h : r.Consistent) (name : String) :
    (r.table.network? name).isSome = r.networks.contains name := by
  rw [Bool.eq_iff_iff, Lookup.contains_iff, (h.keys name).1, mem_attachedNames,
    SymbolTable.network?, Option.isSome_map, List.findIdx?_isSome, table, List.any_map,
    List.any_eq_true]
  refine exists_congr fun s => and_congr_right fun hs => ?_
  rw [Function.comp_apply, isAttached_scope h hs]
  simp [scope]

/-- The scopes that are open keep their symbols when one more is opened. -/
theorem scope_insert (h : r.Consistent) {name : String} (hnew : ¬r.networks.contains name = true)
    {s : NetworkScope} (hs : s ∈ r.scopes) (arena : List Symbol) (scopes : List NetworkScope)
    (networks : Lookup ScopeId) (id : SymbolId) :
    scope ⟨arena, scopes, networks, r.globals.insert name id⟩ s = r.scope s := by
  cases hdetached : s.detached with
  | true => simp [scope, hdetached]
  | false =>
    have hne : s.name ≠ name := by
      rintro rfl
      have hname := (h.keys s.name).1.mpr (mem_attachedNames.mpr ⟨s, hs, hdetached, rfl⟩)
      exact hnew (Lookup.contains_iff.mpr hname)
    simp [scope, hdetached, Lookup.get?_insert, hne]

theorem declareNetwork_table (h : r.Consistent) (name : String) (p : Position) :
    r.table.declareNetwork name p =
      ⟨(r.declareNetwork name p).1.1, (r.declareNetwork name p).1.2,
        (r.declareNetwork name p).2.table⟩ := by
  have hfound := isSome_network?_table h name
  have hlength : r.table.scopes.length = r.scopes.length := by simp [table]
  by_cases hname : r.networks.contains name = true
  · obtain ⟨k, hk⟩ := Option.isSome_iff_exists.mp (hfound.trans hname)
    rw [declareNetwork_taken p hname, SymbolTable.declareNetwork, hk, hlength]
    simp [table, scope, Lookup.empty]
  · have hnone : r.table.network? name = none := by
      rw [Bool.not_eq_true] at hname
      rwa [hname, Option.isSome_eq_false_iff, Option.isNone_iff_eq_none] at hfound
    have hold : r.scopes.map (scope ⟨r.arena ++ [.ofNetwork name],
          r.scopes ++ [⟨name, false, .empty⟩], r.networks.insert name ⟨r.scopes.length⟩,
          r.globals.insert name ⟨r.arena.length⟩⟩) = r.scopes.map r.scope :=
      List.map_congr_left fun s hs => scope_insert h hname hs ..
    rw [declareNetwork_new p hname, SymbolTable.declareNetwork, hnone, hlength]
    simp only [table, List.map_append, hold]
    simp [scope, SymbolTable.insert, Lookup.empty, Lookup.get?_insert]

/-! ## Tensors -/

theorem declareVariable_table (r : Registry) (scope : ScopeId) (id : SymbolId) (p : Position) :
    r.table.declareVariable scope id p =
      (r.declareVariable scope id p).1.map fun _ => (r.declareVariable scope id p).2.table := by
  have hscope : r.table.scopes[scope.index]? = r.scopes[scope.index]?.map r.scope :=
    List.getElem?_map
  rw [SymbolTable.declareVariable, hscope, get_table]
  cases hs : r.scopes[scope.index]? with
  | none =>
    rw [declareVariable_unopened r scope id p hs]
    rfl
  | some s =>
    by_cases hname : s.bindings.contains (r.get id).name = true
    · obtain ⟨old, hold⟩ := Option.isSome_iff_exists.mp hname
      rw [declareVariable_taken r scope id p hs hname]
      simp only [Option.map_some]
      have hget : (r.scope s).get? (r.get id).name = some old := hold
      rw [hget]
      rfl
    · have hget : (r.scope s).get? (r.get id).name = none := Lookup.get?_eq_none_iff.mpr hname
      rw [declareVariable_new r scope id p hs hname]
      simp only [Option.map_some, hget, Except.map, table, List.map_set]
      simp only [Registry.scope, Lookup.entries_insert hname]
      rfl

/-! ## Names -/

theorem candidates_table (h : r.Consistent) (name : String) :
    r.table.candidates name = (r.found name).map fun f => (r.scope f.1, f.2) := by
  rw [SymbolTable.candidates, found, List.map_filterMap, table, List.filter_map,
    List.filterMap_map]
  have hattached : r.scopes.filter (Scope.isAttached ∘ r.scope) =
      r.scopes.filter fun s => !s.detached :=
    List.filter_congr fun s hs => isAttached_scope h hs
  rw [hattached]
  refine List.filterMap_congr fun s _ => ?_
  simp [scope, Scope.get?, Lookup.get?, Function.comp_def]

theorem global?_table (h : r.Consistent) (name : String) :
    r.table.global? name = r.globals.get? name := by
  -- all attached scopes of the name, and there is one if the index has it, give the same symbol
  have hscope : (fun s => if s.name == name then s.symbol else none) ∘ r.scope =
      fun s => if s.name = name ∧ s.detached = false then r.globals.get? name else none := by
    funext s
    by_cases hname : s.name = name
    · cases hdetached : s.detached <;> simp [scope, hname, hdetached]
    · simp [scope, hname]
  rw [SymbolTable.global?, table, List.findSome?_map, hscope]
  cases hglobal : r.globals.get? name with
  | none => simp
  | some id =>
    have hkey : name ∈ r.attachedNames :=
      (h.keys name).2.mp (Lookup.contains_iff.mp (Option.isSome_iff_exists.mpr ⟨id, hglobal⟩))
    obtain ⟨s, hs, hdetached, hname⟩ := mem_attachedNames.mp hkey
    have hsome : (r.scopes.findSome? fun s =>
        if s.name = name ∧ s.detached = false then some id else none).isSome = true :=
      List.findSome?_isSome_iff.mpr ⟨s, hs, by rw [if_pos ⟨hname, hdetached⟩]; rfl⟩
    obtain ⟨found, hfound⟩ := Option.isSome_iff_exists.mp hsome
    obtain ⟨s', _, hs'⟩ := List.exists_of_findSome?_eq_some hfound
    rw [hfound, ← hs', if_pos (Option.ite_none_right_eq_some.mp hs').1]

theorem resolve_table (h : r.Consistent) (name : String) (p : Position) :
    r.table.resolve name p = r.resolve name p := by
  rw [SymbolTable.resolve, resolve, candidates_table h, global?_table h]
  cases r.found name with
  | nil => rfl
  | cons f fs =>
    cases fs with
    | nil => rfl
    | cons g fs => simp [scope, Function.comp_def]

end Registry
end NeuralQuery
