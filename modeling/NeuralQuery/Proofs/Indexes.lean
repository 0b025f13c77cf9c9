import Mathlib.Logic.Relation
import NeuralQuery.Proofs.Resolution
import NeuralQuery.Registry

/-!
# NeuralQuery.Proofs.Indexes

What holds of a registry after any row of calls, and what no later call can change.

* `Consistent r`   : every name leads to a symbol that has it, and the two indexes hold the names of
  the attached scopes, which differ, and lead to the scope and to the symbol of that network.
* `Extends r r'`   : what was found in the first registry is found in the second one.
* `Session.Step`   : one call. A symbol is bound only if it was handed out before, and in a scope
  that was.

A name that is not in one index is not in the other one either, and this is what a call that
declares a network relies on: it looks at `networks` only, and overwrites `globals`. So each clause
of `Consistent` is kept by a call only because the others hold before it
(`Consistent.declareNetwork`).
-/

namespace NeuralQuery
namespace Registry

/-- The names of the attached scopes, in the order in which these were opened. -/
def attachedNames (r : Registry) : List String :=
  (r.scopes.filter fun s => !s.detached).map NetworkScope.name

/-- All names lead where they should. -/
structure Consistent (r : Registry) : Prop where
  /-- What a scope or the index of symbols holds is a symbol of the arena that has this name. -/
  bound : ∀ s ∈ r.scopes, ∀ v id, s.bindings.get? v = some id →
    ∃ record, r.arena[id.index]? = some record ∧ record.name = v
  global : ∀ v id, r.globals.get? v = some id →
    ∃ record, r.arena[id.index]? = some record ∧ record.name = v ∧ record.kind = .network
  apart : r.attachedNames.Nodup
  /-- Both indexes have the names of the attached scopes, and no others. -/
  keys : ∀ v, (v ∈ r.networks.names ↔ v ∈ r.attachedNames) ∧
    (v ∈ r.globals.names ↔ v ∈ r.attachedNames)
  network : ∀ v k, r.networks.get? v = some k →
    ∃ s, r.scopes[k.index]? = some s ∧ s.detached = false ∧ s.name = v

/-- Nothing that was found in the first registry is lost or changed in the second one. -/
structure Extends (r r' : Registry) : Prop where
  arena : r.arena <+: r'.arena
  scopes : ∀ (k : Nat) (s : NetworkScope), r.scopes[k]? = some s → ∃ s', r'.scopes[k]? = some s' ∧
    s'.name = s.name ∧ s'.detached = s.detached ∧
    ∀ v id, s.bindings.get? v = some id → s'.bindings.get? v = some id
  networks : ∀ v k, r.networks.get? v = some k → r'.networks.get? v = some k
  globals : ∀ v id, r.globals.get? v = some id → r'.globals.get? v = some id

/-! ## What a call does -/

section
variable {r : Registry} {name : String} (p : Position)

theorem declareNetwork_taken (h : r.networks.contains name = true) :
    r.declareNetwork name p =
      ((⟨r.scopes.length⟩, .error ⟨.networkAlreadyDeclared name, p⟩),
        { r with scopes := r.scopes ++ [⟨name, true, .empty⟩] }) := by
  rw [declareNetwork, h]
  rfl

theorem declareNetwork_new (h : ¬r.networks.contains name = true) :
    r.declareNetwork name p =
      ((⟨r.scopes.length⟩, .ok ⟨r.arena.length⟩),
        { arena := r.arena ++ [.ofNetwork name]
          scopes := r.scopes ++ [⟨name, false, .empty⟩]
          networks := r.networks.insert name ⟨r.scopes.length⟩
          globals := r.globals.insert name ⟨r.arena.length⟩ }) := by
  rw [Bool.not_eq_true] at h
  rw [declareNetwork, h]
  rfl

end

/-- Only the first symbol of a name is bound in a scope. -/
def bindIn (r : Registry) (scope : ScopeId) (id : SymbolId) : Registry :=
  { r with scopes := r.scopes.modify scope.index fun s =>
      { s with bindings := s.bindings.insertNew (r.get id).name id } }

section
variable (r : Registry) (scope : ScopeId) (id : SymbolId) (p : Position)

theorem declareVariable_unopened (h : r.scopes[scope.index]? = none) :
    r.declareVariable scope id p = (.ok (), r) := by
  rw [declareVariable, h]

variable {s : NetworkScope} (hs : r.scopes[scope.index]? = some s)
include hs

theorem declareVariable_taken (h : s.bindings.contains (r.get id).name = true) :
    r.declareVariable scope id p =
      (.error ⟨.variableAlreadyDeclared (r.get id).name s.name, p⟩, r) := by
  simp only [declareVariable, hs, h, if_true]

theorem declareVariable_new (h : ¬s.bindings.contains (r.get id).name = true) :
    r.declareVariable scope id p =
      (.ok (), { r with scopes := (r.scopes.set scope.index
        { s with bindings := s.bindings.insert (r.get id).name id }) }) := by
  simp only [declareVariable, hs, h, if_false, Bool.false_eq_true]

end

section
variable (r : Registry) (scope : ScopeId) (id : SymbolId) (p : Position)

theorem getElem?_bindIn (k : Nat) :
    (r.bindIn scope id).scopes[k]? = r.scopes[k]?.map fun s =>
      if scope.index = k then { s with bindings := s.bindings.insertNew (r.get id).name id }
      else s := by
  rw [bindIn, List.getElem?_modify]
  rfl

theorem declareVariable_registry : (r.declareVariable scope id p).2 = r.bindIn scope id := by
  have hscopes : ∀ scopes : List NetworkScope,
      (∀ k, scopes[k]? = (r.bindIn scope id).scopes[k]?) → { r with scopes } = r.bindIn scope id :=
    fun scopes h => congrArg (fun l => { r with scopes := l }) (List.ext_getElem? h)
  cases hs : r.scopes[scope.index]? with
  | none =>
    rw [declareVariable_unopened r scope id p hs]
    refine hscopes r.scopes fun k => ?_
    rw [getElem?_bindIn]
    by_cases hk : scope.index = k
    · rw [← hk, hs]
      rfl
    · simp [hk]
  | some s =>
    by_cases hname : s.bindings.contains (r.get id).name = true
    · rw [declareVariable_taken r scope id p hs hname]
      refine hscopes r.scopes fun k => ?_
      rw [getElem?_bindIn]
      by_cases hk : scope.index = k
      · rw [← hk, hs]
        simp [Lookup.insertNew, hname]
      · simp [hk]
    · rw [declareVariable_new r scope id p hs hname]
      refine hscopes _ fun k => ?_
      have hlt := (List.getElem?_eq_some_iff.mp hs).1
      rw [getElem?_bindIn, List.getElem?_set]
      by_cases hk : scope.index = k
      · rw [← hk, hs]
        simp [Lookup.insertNew, hname, hlt]
      · simp [hk]

/-- A scope after a binding: it belongs to the same network and may have one more name. -/
theorem bindIn_cases {k : Nat} {s : NetworkScope} (h : (r.bindIn scope id).scopes[k]? = some s) :
    ∃ s', r.scopes[k]? = some s' ∧ s.name = s'.name ∧ s.detached = s'.detached ∧
      ∀ v, s.bindings.get? v = (s'.bindings.get? v).or
        (if scope.index = k ∧ v = (r.get id).name then some id else none) := by
  rw [getElem?_bindIn] at h
  obtain ⟨s', hs', rfl⟩ := Option.map_eq_some_iff.mp h
  refine ⟨s', hs', ?_⟩
  by_cases hk : scope.index = k
  · simp [hk, Lookup.get?_insertNew]
  · simp [hk]

theorem attachedNames_bindIn : (r.bindIn scope id).attachedNames = r.attachedNames := by
  have hheads : (r.bindIn scope id).scopes.map (fun s => (s.name, s.detached)) =
      r.scopes.map fun s => (s.name, s.detached) := by
    refine List.ext_getElem? fun k => ?_
    rw [List.getElem?_map, List.getElem?_map, getElem?_bindIn, Option.map_map]
    cases r.scopes[k]? with
    | none => rfl
    | some s => by_cases hk : scope.index = k <;> simp [hk]
  have heads : ∀ r : Registry, r.attachedNames =
      ((r.scopes.map fun s => (s.name, s.detached)).filter fun h => !h.2).map Prod.fst := by
    intro r
    rw [attachedNames, List.filter_map, List.map_map]
    rfl
  rw [heads, hheads, ← heads]

end

/-! ## Every call keeps all names in order -/

theorem mem_attachedNames {r : Registry} {v : String} :
    v ∈ r.attachedNames ↔ ∃ s ∈ r.scopes, s.detached = false ∧ s.name = v := by
  simp [attachedNames, and_assoc]

namespace Consistent

theorem empty : Registry.empty.Consistent where
  bound s hs := by cases hs
  global v id hid := by cases hid
  apart := .nil
  keys v := ⟨Iff.rfl, Iff.rfl⟩
  network v k hk := by cases hk

variable {r : Registry} (h : r.Consistent)
include h

theorem insert (record : Symbol) : (r.insert record).2.Consistent where
  bound s hs v id hv := by
    obtain ⟨old, hold, hname⟩ := h.bound s hs v id hv
    exact ⟨old, getElem?_append_of_some hold [record], hname⟩
  global v id hid := by
    obtain ⟨old, hold, hname⟩ := h.global v id hid
    exact ⟨old, getElem?_append_of_some hold [record], hname⟩
  apart := h.apart
  keys := h.keys
  network := h.network

/-- A name that is free in one index is free in the other one. -/
theorem globals_contains_iff (v : String) :
    r.globals.contains v = true ↔ r.networks.contains v = true := by
  rw [Lookup.contains_iff, Lookup.contains_iff, (h.keys v).1, (h.keys v).2]

theorem open_detached (name : String) :
    Consistent { r with scopes := r.scopes ++ [⟨name, true, .empty⟩] } := by
  have hnames : attachedNames { r with scopes := r.scopes ++ [⟨name, true, .empty⟩] } =
      r.attachedNames := by
    simp [attachedNames]
  refine ⟨?_, h.global, by rw [hnames]; exact h.apart, by rw [hnames]; exact h.keys, ?_⟩
  · intro s hs v id hv
    rcases List.mem_append.mp hs with hs | hs
    · exact h.bound s hs v id hv
    · obtain rfl := List.mem_singleton.mp hs
      cases hv
  · intro v k hk
    obtain ⟨s, hs, hattached⟩ := h.network v k hk
    exact ⟨s, getElem?_append_of_some hs _, hattached⟩

theorem open_attached {name : String} (hnew : ¬r.networks.contains name = true) :
    Consistent
      { arena := r.arena ++ [.ofNetwork name]
        scopes := r.scopes ++ [⟨name, false, .empty⟩]
        networks := r.networks.insert name ⟨r.scopes.length⟩
        globals := r.globals.insert name ⟨r.arena.length⟩ } := by
  have hfree : ¬r.globals.contains name = true := mt (h.globals_contains_iff name).mp hnew
  have hnames : attachedNames
      { arena := r.arena ++ [.ofNetwork name]
        scopes := r.scopes ++ [⟨name, false, .empty⟩]
        networks := r.networks.insert name ⟨r.scopes.length⟩
        globals := r.globals.insert name ⟨r.arena.length⟩ } = r.attachedNames ++ [name] := by
    simp [attachedNames]
  have hunused : name ∉ r.attachedNames := fun hname =>
    hnew (Lookup.contains_iff.mpr ((h.keys name).1.mpr hname))
  constructor
  case bound =>
    intro s hs v id hv
    rcases List.mem_append.mp hs with hs | hs
    · obtain ⟨record, hrecord, hname⟩ := h.bound s hs v id hv
      exact ⟨record, getElem?_append_of_some hrecord _, hname⟩
    · -- nothing is bound yet in the scope that was opened
      obtain rfl := List.mem_singleton.mp hs
      cases hv
  case global =>
    intro v id hid
    rw [Lookup.get?_insert] at hid
    split at hid
    · rename_i hv
      cases hid
      exact ⟨.ofNetwork name, by simp, hv.symm, rfl⟩
    · obtain ⟨record, hrecord, hname⟩ := h.global v id hid
      exact ⟨record, getElem?_append_of_some hrecord _, hname⟩
  case apart =>
    rw [hnames, ← List.concat_eq_append]
    exact h.apart.concat hunused
  case keys =>
    intro v
    rw [hnames, Lookup.names_insert hnew, Lookup.names_insert hfree, List.mem_append,
      List.mem_append, List.mem_append, (h.keys v).1, (h.keys v).2]
    exact ⟨Iff.rfl, Iff.rfl⟩
  case network =>
    intro v k hk
    rw [Lookup.get?_insert] at hk
    split at hk
    · rename_i hv
      cases hk
      exact ⟨⟨name, false, .empty⟩, by simp, rfl, hv.symm⟩
    · obtain ⟨s, hs, hattached⟩ := h.network v k hk
      exact ⟨s, getElem?_append_of_some hs _, hattached⟩

theorem declareNetwork (name : String) (p : Position) :
    (r.declareNetwork name p).2.Consistent := by
  by_cases htaken : r.networks.contains name = true
  · rw [declareNetwork_taken p htaken]
    exact h.open_detached name
  · rw [declareNetwork_new p htaken]
    exact h.open_attached htaken

theorem bindIn (scope : ScopeId) {id : SymbolId} (hid : id.index < r.arena.length) :
    (r.bindIn scope id).Consistent where
  bound s hs v i hv := by
    obtain ⟨k, hk⟩ := List.mem_iff_getElem?.mp hs
    obtain ⟨s', hs', _, _, hget⟩ := r.bindIn_cases scope id hk
    rw [hget] at hv
    rcases Option.or_eq_some_iff.mp hv with hv | ⟨_, hv⟩
    · exact h.bound s' (List.mem_of_getElem? hs') v i hv
    · split at hv
      · rename_i hnew
        cases hv
        refine ⟨r.get id, ?_, hnew.2.symm⟩
        change r.arena[id.index]? = _
        rw [Registry.get, List.getD_eq_getElem?_getD, List.getElem?_eq_getElem hid]
        rfl
      · cases hv
  global := h.global
  apart := by
    rw [attachedNames_bindIn]
    exact h.apart
  keys := by
    rw [attachedNames_bindIn]
    exact h.keys
  network v k hk := by
    obtain ⟨s, hs, hattached, hname⟩ := h.network v k hk
    refine ⟨_, by rw [getElem?_bindIn, hs, Option.map_some], ?_⟩
    by_cases hscope : scope.index = k.index <;> simp [hscope, hattached, hname]

theorem declareVariable (scope : ScopeId) {id : SymbolId} (p : Position)
    (hid : id.index < r.arena.length) : (r.declareVariable scope id p).2.Consistent := by
  rw [declareVariable_registry]
  exact h.bindIn scope hid

end Consistent

/-! ## No call changes what was there -/

namespace Extends

theorem refl (r : Registry) : r.Extends r where
  arena := List.prefix_refl _
  scopes _ s hs := ⟨s, hs, rfl, rfl, fun _ _ h => h⟩
  networks _ _ h := h
  globals _ _ h := h

theorem trans {r r' r'' : Registry} (h : r.Extends r') (h' : r'.Extends r'') : r.Extends r'' where
  arena := h.arena.trans h'.arena
  scopes k s hs := by
    obtain ⟨s₁, hs₁, hname, hdetached, hget⟩ := h.scopes k s hs
    obtain ⟨s₂, hs₂, hname', hdetached', hget'⟩ := h'.scopes k s₁ hs₁
    exact ⟨s₂, hs₂, hname'.trans hname, hdetached'.trans hdetached,
      fun v id hv => hget' v id (hget v id hv)⟩
  networks v k hk := h'.networks v k (h.networks v k hk)
  globals v id hid := h'.globals v id (h.globals v id hid)

theorem insert (r : Registry) (record : Symbol) : r.Extends (r.insert record).2 where
  arena := List.prefix_append _ _
  scopes _ s hs := ⟨s, hs, rfl, rfl, fun _ _ h => h⟩
  networks _ _ h := h
  globals _ _ h := h

/-- The symbol of a new network takes no other one's place, since its name is free in both
indexes. -/
theorem declareNetwork {r : Registry} (h : r.Consistent) (name : String) (p : Position) :
    r.Extends (r.declareNetwork name p).2 := by
  have hscopes : ∀ (last : NetworkScope) (k : Nat) (s : NetworkScope), r.scopes[k]? = some s →
      ∃ s', (r.scopes ++ [last])[k]? = some s' ∧ s'.name = s.name ∧ s'.detached = s.detached ∧
        ∀ v id, s.bindings.get? v = some id → s'.bindings.get? v = some id :=
    fun last k s hs => ⟨s, getElem?_append_of_some hs _, rfl, rfl, fun _ _ hv => hv⟩
  by_cases htaken : r.networks.contains name = true
  · rw [declareNetwork_taken p htaken]
    exact ⟨List.prefix_refl _, hscopes _, fun _ _ hk => hk, fun _ _ hid => hid⟩
  · have hfree : ¬r.globals.contains name = true := mt (h.globals_contains_iff name).mp htaken
    rw [declareNetwork_new p htaken]
    refine ⟨List.prefix_append _ _, hscopes _, fun v k hk => ?_, fun v id hid => ?_⟩
    · rw [Lookup.get?_insert, if_neg, hk]
      rintro rfl
      exact htaken (Option.isSome_iff_exists.mpr ⟨k, hk⟩)
    · rw [Lookup.get?_insert, if_neg, hid]
      rintro rfl
      exact hfree (Option.isSome_iff_exists.mpr ⟨id, hid⟩)

theorem declareVariable (r : Registry) (scope : ScopeId) (id : SymbolId) (p : Position) :
    r.Extends (r.declareVariable scope id p).2 := by
  rw [declareVariable_registry]
  refine ⟨List.prefix_refl _, fun k s hs => ?_, fun _ _ hk => hk, fun _ _ hid => hid⟩
  obtain ⟨s₁, hnew⟩ : ∃ s₁, (r.bindIn scope id).scopes[k]? = some s₁ := by
    rw [getElem?_bindIn, hs, Option.map_some]
    exact ⟨_, rfl⟩
  obtain ⟨s', hs', hname, hdetached, hget⟩ := r.bindIn_cases scope id hnew
  obtain rfl : s' = s := Option.some.inj (hs'.symm.trans hs)
  exact ⟨s₁, hnew, hname, hdetached, fun v i hv => by rw [hget, hv, Option.some_or]⟩

end Extends

/-! ## Calls that fail -/

theorem declareVariable_error {r r' : Registry} {scope : ScopeId} {id : SymbolId} {p : Position}
    {d : Diagnostic} (h : r.declareVariable scope id p = (.error d, r')) : r' = r := by
  cases hs : r.scopes[scope.index]? with
  | none =>
    rw [declareVariable_unopened r scope id p hs] at h
    cases h
  | some s =>
    by_cases hname : s.bindings.contains (r.get id).name = true
    · rw [declareVariable_taken r scope id p hs hname] at h
      exact (Prod.mk.inj h).2.symm
    · rw [declareVariable_new r scope id p hs hname] at h
      cases h

theorem declareNetwork_error {r r' : Registry} {name : String} {scope : ScopeId} {p : Position}
    {d : Diagnostic} (h : r.declareNetwork name p = ((scope, .error d), r')) :
    r' = { r with scopes := r.scopes ++ [⟨name, true, .empty⟩] } := by
  by_cases htaken : r.networks.contains name = true
  · rw [declareNetwork_taken p htaken] at h
    exact (Prod.mk.inj h).2.symm
  · rw [declareNetwork_new p htaken] at h
    cases h

/-! ## Rows of calls -/

/-- A registry in use, with the scopes and symbols that it handed out. -/
structure Session where
  registry : Registry
  scopes : List ScopeId
  symbols : List SymbolId

namespace Session

def start : Session :=
  ⟨.empty, [], []⟩

def declareNetwork (s : Session) (name : String) (p : Position) : Session where
  registry := (s.registry.declareNetwork name p).2
  scopes := s.scopes ++ [(s.registry.declareNetwork name p).1.1]
  symbols := s.symbols ++ (s.registry.declareNetwork name p).1.2.toOption.toList

def insert (s : Session) (record : Symbol) : Session where
  registry := (s.registry.insert record).2
  scopes := s.scopes
  symbols := s.symbols ++ [(s.registry.insert record).1]

def declareVariable (s : Session) (scope : ScopeId) (id : SymbolId) (p : Position) : Session :=
  { s with registry := (s.registry.declareVariable scope id p).2 }

/-- A call. -/
inductive Step : Session → Session → Prop where
  | declareNetwork (s : Session) (name : String) (p : Position) :
      Step s (s.declareNetwork name p)
  | insert (s : Session) (record : Symbol) : Step s (s.insert record)
  | declareVariable (s : Session) {scope : ScopeId} {id : SymbolId} (p : Position) :
      scope ∈ s.scopes → id ∈ s.symbols → Step s (s.declareVariable scope id p)

/-- Any row of calls, from one session to a later one. -/
def Later : Session → Session → Prop :=
  Relation.ReflTransGen Step

/-- The registry is in order, and what it handed out is still there. -/
structure Sound (s : Session) : Prop where
  consistent : s.registry.Consistent
  scopes : ∀ k ∈ s.scopes, k.index < s.registry.scopes.length
  symbols : ∀ id ∈ s.symbols, id.index < s.registry.arena.length

theorem Sound.start : Session.start.Sound where
  consistent := .empty
  scopes k hk := by cases hk
  symbols id hid := by cases hid

/-- What is handed out next has the next index. -/
theorem lt_concat {α : Type} {f : α → Nat} {l : List α} {a : α} (h : ∀ b ∈ l, f b < f a) :
    ∀ b ∈ l ++ [a], f b < f a + 1 := by
  intro b hb
  rcases List.mem_append.mp hb with hb | hb
  · exact Nat.lt_succ_of_lt (h b hb)
  · rw [List.mem_singleton.mp hb]
    exact Nat.lt_succ_self _

theorem Sound.step {s s' : Session} (h : s.Sound) (hstep : Step s s') : s'.Sound := by
  cases hstep with
  | declareNetwork name p =>
    refine ⟨h.consistent.declareNetwork name p, ?_, ?_⟩
    all_goals rw [declareNetwork]
    all_goals by_cases htaken : s.registry.networks.contains name = true
    · simpa [declareNetwork_taken p htaken] using lt_concat h.scopes
    · simpa [declareNetwork_new p htaken] using lt_concat h.scopes
    · simpa [declareNetwork_taken p htaken, Except.toOption] using h.symbols
    · rw [declareNetwork_new p htaken, List.length_append]
      exact lt_concat h.symbols
  | insert record =>
    refine ⟨h.consistent.insert record, h.scopes, ?_⟩
    simpa [insert, Registry.insert] using lt_concat h.symbols
  | declareVariable p hscope hid =>
    refine ⟨h.consistent.declareVariable _ p (h.symbols _ hid), ?_, ?_⟩
    all_goals rw [declareVariable, declareVariable_registry]
    · simpa [bindIn] using h.scopes
    · exact h.symbols

theorem Sound.later {s s' : Session} (h : s.Sound) (hlater : Later s s') : s'.Sound := by
  induction hlater with
  | refl => exact h
  | tail _ hstep ih => exact ih.step hstep

theorem Sound.extends_step {s s' : Session} (h : s.Sound) (hstep : Step s s') :
    s.registry.Extends s'.registry := by
  cases hstep with
  | declareNetwork name p => exact .declareNetwork h.consistent name p
  | insert record => exact .insert s.registry record
  | declareVariable p _ _ => exact .declareVariable s.registry _ _ p

theorem Sound.extends_later {s s' : Session} (h : s.Sound) (hlater : Later s s') :
    s.registry.Extends s'.registry := by
  induction hlater with
  | refl => exact .refl s.registry
  | tail hbefore hstep ih => exact ih.trans ((h.later hbefore).extends_step hstep)

end Session

open Session (Later)

/-- After any row of calls all names lead where they should, whatever is called later leaves what
they lead to as it is, and a call that fails does nothing but open a detached scope if it was to
declare a network. -/
theorem invariant_of_later {s : Session} (h : Later .start s) :
    s.registry.Consistent ∧
    (∀ s', Later s s' → s.registry.Extends s'.registry) ∧
    (∀ scope id p d r, s.registry.declareVariable scope id p = (.error d, r) → r = s.registry) ∧
    ∀ name p scope d r, s.registry.declareNetwork name p = ((scope, .error d), r) →
      r = { s.registry with scopes := s.registry.scopes ++ [⟨name, true, .empty⟩] } := by
  have hsound := Session.Sound.start.later h
  exact ⟨hsound.consistent, fun s' => hsound.extends_later,
    fun scope id p d r => declareVariable_error, fun name p scope d r => declareNetwork_error⟩

/-- `N` is declared twice, and `X` is bound in both scopes of it. -/
def crowded : Session :=
  Session.start.declareNetwork "N" ⟨0, ""⟩ |>.declareNetwork "N" ⟨1, ""⟩
    |>.insert ⟨"X", none, .unknown, [], .tensor .input, "N"⟩
    |>.declareVariable ⟨0⟩ ⟨1⟩ ⟨2, ""⟩ |>.declareVariable ⟨1⟩ ⟨1⟩ ⟨3, ""⟩

theorem later_crowded : Later .start crowded :=
  Relation.ReflTransGen.refl
    |>.tail (.declareNetwork _ "N" ⟨0, ""⟩) |>.tail (.declareNetwork _ "N" ⟨1, ""⟩)
    |>.tail (.insert _ ⟨"X", none, .unknown, [], .tensor .input, "N"⟩)
    |>.tail (.declareVariable _ ⟨2, ""⟩ (by decide) (by decide))
    |>.tail (.declareVariable _ ⟨3, ""⟩ (by decide) (by decide))

/-- A third `N` and a second `X` are refused. -/
theorem invariant_crowded :
    Later .start crowded ∧ crowded.registry.Consistent ∧
      (crowded.registry.declareVariable ⟨0⟩ ⟨1⟩ ⟨4, ""⟩).2 = crowded.registry ∧
      (crowded.registry.declareNetwork "N" ⟨5, ""⟩).2 =
        { crowded.registry with scopes := crowded.registry.scopes ++ [⟨"N", true, .empty⟩] } := by
  obtain ⟨hconsistent, _, hvariable, hnetwork⟩ := invariant_of_later later_crowded
  exact ⟨later_crowded, hconsistent, hvariable ⟨0⟩ ⟨1⟩ ⟨4, ""⟩ _ _ rfl,
    hnetwork "N" ⟨5, ""⟩ _ _ _ rfl⟩

end Registry
end NeuralQuery
