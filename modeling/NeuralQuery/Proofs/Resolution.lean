import Mathlib.Data.List.Nodup
import NeuralQuery.Proofs.Conditions
import NeuralQuery.Proofs.NetworkTable

/-!
# NeuralQuery.Proofs.Resolution

Names in the table of networks that have nothing wrong with them.

Each network has a scope that binds the names of its tensors to symbols with their records
(`Holds`). Where networks, and tensors inside a network, have different names, a name is found in
that table exactly if one network declares it and no other does (`describes_ofNetworks`).
-/

namespace NeuralQuery

open Typing

/-! ## Related lists -/

theorem exists_of_mem_right {α β : Type} {R : α → β → Prop} {as : List α} {bs : List β} {b : β}
    (h : List.Forall₂ R as bs) (hb : b ∈ bs) : ∃ a ∈ as, R a b := by
  induction h with
  | nil => simp at hb
  | @cons a c as bs hac _ ih =>
    rcases List.mem_cons.mp hb with rfl | hb
    · exact ⟨a, by simp, hac⟩
    · obtain ⟨a', ha', hr⟩ := ih hb
      exact ⟨a', by simp [ha'], hr⟩

theorem exists_of_mem_left {α β : Type} {R : α → β → Prop} {as : List α} {bs : List β} {a : α}
    (h : List.Forall₂ R as bs) (ha : a ∈ as) : ∃ b ∈ bs, R a b :=
  exists_of_mem_right (R := flip R) h.flip ha

theorem map_eq_of_forall₂ {α β γ : Type} {R : α → β → Prop} {as : List α} {bs : List β} {f : α → γ}
    {g : β → γ} (h : List.Forall₂ R as bs) (hfg : ∀ a b, R a b → g b = f a) :
    bs.map g = as.map f := by
  induction h with
  | nil => rfl
  | cons hr _ ih => simp [hfg _ _ hr, ih]

/-- Elements with one key among different keys are one element. -/
theorem eq_singleton_of_nodup_map {α β : Type} {f : α → β} {l : List α} {x : α} {k : β}
    (hl : (l.map f).Nodup) (hall : ∀ y ∈ l, f y = k) (hx : x ∈ l) : l = [x] := by
  match l with
  | [] => simp at hx
  | [y] => rw [List.mem_singleton.mp hx]
  | y :: z :: _ =>
    have hyz : f y = f z := (hall y (by simp)).trans (hall z (by simp)).symm
    simp [hyz] at hl

theorem getElem?_append_of_some {α : Type} {l : List α} {i : Nat} {a : α} (h : l[i]? = some a)
    (more : List α) : (l ++ more)[i]? = some a := by
  rw [List.getElem?_append_left (List.getElem?_eq_some_iff.mp h).1, h]

/-! ## Names by their candidates -/

namespace SymbolTable

/-- The names of networks as they are listed for a name that is ambiguous. -/
def listing (networks : List String) : String :=
  ", ".intercalate (networks.map fun n => "`" ++ n ++ "`")

section
variable {t : SymbolTable} {v : String} {p : Position} {bound : List (String × SymbolId)}
  (h : (t.candidates v).map (fun c => (c.1.name, c.2)) = bound)
include h

theorem resolve_one {x : String × SymbolId} (hx : bound = [x]) : t.resolve v p = .ok x.2 := by
  rw [hx] at h
  obtain ⟨c, hc, rfl⟩ := List.map_eq_singleton_iff.mp h
  rw [resolve, hc]

theorem resolve_many (hlength : 2 ≤ bound.length) :
    t.resolve v p = .error ⟨.ambiguousVariable v (listing (bound.map Prod.fst)), p⟩ := by
  have hnames : (t.candidates v).map (fun c => "`" ++ c.1.name ++ "`") =
      (bound.map Prod.fst).map fun n => "`" ++ n ++ "`" := by
    rw [← h, List.map_map, List.map_map]
    rfl
  rw [← h, List.length_map] at hlength
  rw [listing, ← hnames]
  rcases hc : t.candidates v with _ | ⟨c, _ | ⟨c', rest⟩⟩
  · simp [hc] at hlength
  · simp [hc] at hlength
  · rw [resolve, hc]

theorem resolve_global (hnone : bound = []) {id : SymbolId} (hid : t.global? v = some id) :
    t.resolve v p = .ok id := by
  rw [hnone, List.map_eq_nil_iff] at h
  simp [resolve, h, hid]

theorem resolve_unknown (hnone : bound = []) (hid : t.global? v = none) :
    t.resolve v p = .error ⟨.variableNotDeclared v, p⟩ := by
  rw [hnone, List.map_eq_nil_iff] at h
  simp [resolve, h, hid]

end
end SymbolTable

/-! ## Scopes and networks -/

/-- The scope has the name, the symbol and the tensors of the network. -/
structure Holds (symbols : List Symbol) (n : Network) (s : Scope) : Prop where
  name : s.name = n.name
  own : ∃ id, s.symbol = some id ∧ symbols[id.index]? = some (.ofNetwork n.name)
  bound : List.Forall₂
    (fun p b => b.1 = p.2.name ∧ symbols[b.2.index]? = some (n.symbolOf p)) n.tensors s.bindings

namespace Holds

variable {symbols : List Symbol} {n : Network} {s : Scope}

theorem mono (h : Holds symbols n s) (more : List Symbol) : Holds (symbols ++ more) n s := by
  obtain ⟨id, hid, hrec⟩ := h.own
  exact ⟨h.name, ⟨id, hid, getElem?_append_of_some hrec more⟩, h.bound.imp fun _ _ hb =>
    ⟨hb.1, getElem?_append_of_some hb.2 more⟩⟩

theorem names (h : Holds symbols n s) :
    s.bindings.map Prod.fst = n.tensors.map (·.2.name) :=
  map_eq_of_forall₂ h.bound fun _ _ hb => hb.1

theorem declares_iff (h : Holds symbols n s) {name : String} :
    s.get? name ≠ none ↔ n.Declares name := by
  rw [ne_eq, Scope.get?_eq_none_iff, not_not, h.names, Network.Declares, List.mem_map]
  constructor
  · rintro ⟨p, hp, rfl⟩
    exact ⟨p.2, n.tensors_perm.mem_iff.mp (List.mem_map_of_mem hp), rfl⟩
  · rintro ⟨d, hd, rfl⟩
    obtain ⟨p, hp, rfl⟩ := List.mem_map.mp (n.tensors_perm.mem_iff.mpr hd)
    exact ⟨p, hp, rfl⟩

/-- A name that the scope binds belongs to a tensor of the network, with its record. -/
theorem get?_eq_some (h : Holds symbols n s) {name : String} {id : SymbolId}
    (hget : s.get? name = some id) :
    ∃ p ∈ n.tensors, p.2.name = name ∧ symbols[id.index]? = some (n.symbolOf p) := by
  obtain ⟨before, after, hbs, _⟩ := List.lookup_eq_some_iff.mp hget
  have hmem : (name, id) ∈ s.bindings := by simp [hbs]
  obtain ⟨p, hp, hname, hrec⟩ := exists_of_mem_right h.bound hmem
  exact ⟨p, hp, hname.symm, hrec⟩

end Holds

theorem bindingsFrom_holds (n : Network) (symbols : List Symbol) (ts : List (Role × Declaration)) :
    List.Forall₂
      (fun p b => b.1 = p.2.name ∧ (symbols ++ ts.map n.symbolOf)[b.2.index]? = some (n.symbolOf p))
      ts (Scope.bindingsFrom symbols.length ts) := by
  induction ts generalizing symbols with
  | nil => simp
  | cons p ts ih =>
    rw [Scope.bindingsFrom_cons, List.map_cons]
    refine .cons ⟨rfl, by simp⟩ ?_
    have hrest := ih (symbols ++ [n.symbolOf p])
    simpa using hrest

theorem extend_holds (t : SymbolTable) (n : Network) :
    Holds (t.extend n).symbols n
      ⟨n.name, some ⟨t.symbols.length⟩, Scope.bindingsFrom (t.symbols.length + 1) n.tensors⟩ := by
  refine ⟨rfl, ⟨_, rfl, by simp [SymbolTable.extend]⟩, ?_⟩
  have hb := bindingsFrom_holds n (t.symbols ++ [.ofNetwork n.name]) n.tensors
  simpa [SymbolTable.extend] using hb

/-- The table of networks has one scope for each of them. -/
theorem foldl_extend_holds (ns : List Network) {done : List Network} {t : SymbolTable}
    (h : List.Forall₂ (Holds t.symbols) done t.scopes) :
    List.Forall₂ (Holds (ns.foldl SymbolTable.extend t).symbols) (done ++ ns)
      (ns.foldl SymbolTable.extend t).scopes := by
  induction ns generalizing done t with
  | nil => simpa using h
  | cons n ns ih =>
    rw [List.foldl_cons, List.append_cons]
    refine ih (List.rel_append (h.imp fun _ _ hs => ?_) (.cons (extend_holds t n) .nil))
    exact hs.mono _

theorem ofNetworks_holds (ns : List Network) :
    List.Forall₂ (Holds (SymbolTable.ofNetworks ns).symbols) ns
      (SymbolTable.ofNetworks ns).scopes := by
  have h : List.Forall₂ (Holds SymbolTable.empty.symbols) [] SymbolTable.empty.scopes := .nil
  exact foldl_extend_holds ns h

/-! ## Looking up a name -/

section
variable {t : SymbolTable} {networks : List Network}
  (hs : List.Forall₂ (Holds t.symbols) networks t.scopes)
include hs

theorem mem_candidates {name : String} {s : Scope} {id : SymbolId} :
    (s, id) ∈ t.candidates name ↔ s ∈ t.scopes ∧ s.get? name = some id := by
  have hattached : ∀ s ∈ t.scopes, s.isAttached = true := by
    intro s h
    obtain ⟨n, _, hn⟩ := exists_of_mem_right hs h
    obtain ⟨id, hid, _⟩ := hn.own
    simp [Scope.isAttached, hid]
  simp only [SymbolTable.candidates, List.mem_filterMap, List.mem_filter, Option.map_eq_some_iff,
    Prod.mk.injEq]
  constructor
  · rintro ⟨s', ⟨hmem, _⟩, id', hget, rfl, rfl⟩
    exact ⟨hmem, hget⟩
  · rintro ⟨hmem, hget⟩
    exact ⟨s, ⟨hmem, hattached s hmem⟩, id, hget, rfl, rfl⟩

theorem candidates_names_nodup (hn : (networks.map Network.name).Nodup) (name : String) :
    ((t.candidates name).map (·.1.name)).Nodup := by
  have hnames : t.scopes.map Scope.name = networks.map Network.name :=
    map_eq_of_forall₂ hs fun _ _ hn => hn.name
  rw [← hnames, List.Nodup, List.pairwise_map] at hn
  rw [List.Nodup, List.pairwise_map, SymbolTable.candidates, List.pairwise_filterMap]
  refine (hn.filter _).imp ?_
  intro s s' hne c hc c' hc'
  obtain ⟨_, _, rfl⟩ := Option.map_eq_some_iff.mp hc
  obtain ⟨_, _, rfl⟩ := Option.map_eq_some_iff.mp hc'
  exact hne

/-- The symbol of a network is of no use as a tensor. -/
theorem global?_kind {name : String} {id : SymbolId} (h : t.global? name = some id) :
    (t.get id).kind = .network := by
  obtain ⟨s, hmem, hsym⟩ := List.exists_of_findSome?_eq_some h
  have hsym : s.symbol = some id := by
    split at hsym
    · exact hsym
    · cases hsym
  obtain ⟨n, _, hn⟩ := exists_of_mem_right hs hmem
  obtain ⟨id', hid, hrec⟩ := hn.own
  obtain rfl : id' = id := by simpa [hid] using hsym
  simp [SymbolTable.get, hrec, Symbol.ofNetwork]

theorem describes_of_holds (hn : (networks.map Network.name).Nodup)
    (ht : ∀ n ∈ networks, (n.declarations.map Declaration.name).Nodup) :
    Describes t networks := by
  constructor
  · intro name p id hres hkind
    unfold SymbolTable.resolve at hres
    split at hres
    · rename_i s id' hcand
      cases hres
      have hmem : (s, id) ∈ t.candidates name := by simp [hcand]
      obtain ⟨hscope, hget⟩ := (mem_candidates hs).mp hmem
      obtain ⟨n, hmn, hholds⟩ := exists_of_mem_right hs hscope
      obtain ⟨p, hp, hname, hrec⟩ := hholds.get?_eq_some hget
      refine ⟨p.2, ⟨n, hmn, n.tensors_perm.mem_iff.mp (List.mem_map_of_mem hp), hname, ?_⟩, ?_⟩
      · -- another network with this name would be another candidate
        intro m hm hdecl
        obtain ⟨s', hscope', hholds'⟩ := exists_of_mem_left hs hm
        obtain ⟨id', hget'⟩ := Option.ne_none_iff_exists'.mp (hholds'.declares_iff.mpr hdecl)
        have hmem' := (mem_candidates hs).mpr ⟨hscope', hget'⟩
        rw [hcand, List.mem_singleton, Prod.mk.injEq] at hmem'
        rw [← hholds'.name, hmem'.1, hholds.name]
      · simp [SymbolTable.get, hrec, Network.symbolOf, Symbol.ofDeclaration]
    · split at hres
      · rename_i id' hglobal
        cases hres
        exact absurd (global?_kind hs hglobal) hkind
      · cases hres
    · cases hres
  · rintro name d p ⟨n, hmn, hd, hname, honly⟩
    obtain ⟨s, hscope, hholds⟩ := exists_of_mem_left hs hmn
    obtain ⟨id, hget⟩ := Option.ne_none_iff_exists'.mp (hholds.declares_iff.mpr ⟨d, hd, hname⟩)
    have hmem := (mem_candidates hs).mpr ⟨hscope, hget⟩
    have hcand : t.candidates name = [(s, id)] := by
      refine eq_singleton_of_nodup_map (k := n.name) (candidates_names_nodup hs hn name) ?_ hmem
      rintro ⟨s', id'⟩ hmem'
      obtain ⟨hscope', hget'⟩ := (mem_candidates hs).mp hmem'
      obtain ⟨m, hm, hholds'⟩ := exists_of_mem_right hs hscope'
      have hdecl := hholds'.declares_iff.mp (by simp [hget'] : s'.get? name ≠ none)
      exact hholds'.name.trans (honly m hm hdecl)
    obtain ⟨q, hq, hqname, hrec⟩ := hholds.get?_eq_some hget
    have hqd : q.2 = d :=
      List.inj_on_of_nodup_map (ht n hmn) (n.tensors_perm.mem_iff.mp (List.mem_map_of_mem hq)) hd
        (hqname.trans hname.symm)
    refine ⟨id, by rw [SymbolTable.resolve, hcand], ?_⟩
    simp [SymbolTable.get, hrec, Network.symbolOf, Symbol.ofDeclaration, hqd]

end

/-- The table of networks with different names finds exactly the tensors they declare. -/
theorem describes_ofNetworks {networks : List Network} (hn : (networks.map Network.name).Nodup)
    (ht : ∀ n ∈ networks, (n.declarations.map Declaration.name).Nodup) :
    Describes (.ofNetworks networks) networks :=
  describes_of_holds (ofNetworks_holds networks) hn ht

end NeuralQuery
