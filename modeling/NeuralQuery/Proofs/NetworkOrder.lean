import NeuralQuery.Proofs.SourceOrder
import NeuralQuery.Proofs.SymbolAgreement
import NeuralQuery.Proofs.TwoTables

/-!
# NeuralQuery.Proofs.NetworkOrder

Networks with different names in any order.

The table of such networks is theirs in a row: every network has its symbols behind those of the
networks before it (`foldl_enter_eq`). So what a network is in one order and in another differs by
the number of its first symbol (`startOf`) and by nothing else, and one renumbering takes all
symbols of the one table to those of the other (`shuffling`). Names lead to the same tensors through
it, and a name that is ambiguous is so between the same networks (`shuffling_matches`).
-/

namespace NeuralQuery

/-! ## The table of networks with different names -/

namespace Network

theorem length_symbols (n : Network) : n.symbols.length = n.tensors.length + 1 := by
  simp [symbols]

/-- The number of the first symbol of a network, which has this name. -/
def startOf : List Network → String → Nat
  | [], _ => 0
  | n :: ns, name => if n.name = name then 0 else n.symbols.length + startOf ns name

theorem startOf_append_of_mem {ns : List Network} {name : String} (h : name ∈ ns.map Network.name)
    (ms : List Network) : startOf (ns ++ ms) name = startOf ns name := by
  induction ns with
  | nil => cases h
  | cons n ns ih =>
    by_cases hname : n.name = name
    · simp [startOf, hname]
    · have hrest : name ∈ ns.map Network.name := by
        rw [List.map_cons, List.mem_cons] at h
        exact h.resolve_left (Ne.symm hname)
      simp [startOf, hname, ih hrest]

theorem startOf_append_of_notMem {ns : List Network} {name : String}
    (h : name ∉ ns.map Network.name) (ms : List Network) :
    startOf (ns ++ ms) name = (ns.flatMap symbols).length + startOf ms name := by
  induction ns with
  | nil => simp
  | cons n ns ih =>
    rw [List.map_cons, List.mem_cons, not_or] at h
    simp only [List.cons_append, startOf, if_neg (Ne.symm h.1), ih h.2, List.flatMap_cons,
      List.length_append]
    omega

/-- The scope of a network whose symbols are numbered from `start`, its own symbol first. -/
def scopeFrom (n : Network) (start : Nat) : Scope :=
  (⟨n.name, some ⟨start⟩, []⟩ : Scope).bindAll (start + 1) n.tensors

/-- The typed network whose symbols are numbered from `start`, its own symbol first. -/
def checkedAt (networks : List Network) (n : Network) (start : Nat) : Typed.Network :=
  n.checkedWith networks { name := n.name, symbol := some ⟨start⟩, span := n.span } (start + 1)
    n.items

end Network

open Network (startOf)

namespace SymbolTable

/-- The table of networks with different names, each behind those before it. -/
def row (ns : List Network) : SymbolTable where
  symbols := ns.flatMap Network.symbols
  scopes := ns.map fun n => n.scopeFrom (startOf ns n.name)

end SymbolTable

/-- Induction over networks with different names, from the first to the last. -/
@[elab_as_elim]
theorem Network.distinctInduct {P : List Network → Prop} {ns : List Network}
    (hn : (ns.map Network.name).Nodup) (nil : P [])
    (concat : ∀ ns n, n.name ∉ ns.map Network.name → (ns.map Network.name).Nodup → P ns →
      P (ns ++ [n])) :
    P ns := by
  induction ns using List.reverseRecOn with
  | nil => exact nil
  | append_singleton ns n ih =>
    rw [List.map_append, List.map_singleton, List.nodup_append_comm, List.singleton_append,
      List.nodup_cons] at hn
    exact concat ns n hn.1 hn.2 (ih hn.2)

/-- What stands before the last network has the same number with and without it. -/
theorem Network.map_startOf_concat {α : Type} (f : Network → Nat → α) (ns : List Network)
    (n : Network) (hnew : n.name ∉ ns.map Network.name) :
    (ns ++ [n]).map (fun m => f m (startOf (ns ++ [n]) m.name)) =
      ns.map (fun m => f m (startOf ns m.name)) ++ [f n (ns.flatMap Network.symbols).length] := by
  rw [List.map_append, List.map_singleton, Network.startOf_append_of_notMem hnew]
  congr 1
  · exact List.map_congr_left fun m hm => by
      rw [Network.startOf_append_of_mem (List.mem_map_of_mem hm)]
  · simp [startOf]

theorem SymbolTable.foldl_enter_eq {ns : List Network} (hn : (ns.map Network.name).Nodup) :
    ns.foldl enter empty = row ns := by
  refine Network.distinctInduct hn rfl fun ns n hnew _ ih => ?_
  have hown := own?_foldl_enter ns n.name
  rw [if_neg hnew, ih] at hown
  rw [List.foldl_append, List.foldl_cons, List.foldl_nil, ih, enter, firstTensor, hown]
  simp only [row, Network.map_startOf_concat Network.scopeFrom ns n hnew]
  simp [Network.symbols, Network.scopeFrom]

namespace Typing

theorem checkedFrom_append (networks : List Network) (t : SymbolTable) (ns ms : List Network) :
    checkedFrom networks t (ns ++ ms) =
      checkedFrom networks t ns ++ checkedFrom networks (ns.foldl SymbolTable.enter t) ms := by
  induction ns generalizing t with
  | nil => rfl
  | cons n ns ih => simp only [List.cons_append, checkedFrom, ih, List.foldl_cons]

theorem networkReports_cons (networks : List Network) (t : SymbolTable) (n : Network)
    (ns : List Network) :
    networkReports networks t (n :: ns) =
      n.reports networks t :: networkReports networks (t.enter n) ns := by
  rw [networkReports, network_eq]

theorem networkReports_append (networks : List Network) (t : SymbolTable) (ns ms : List Network) :
    networkReports networks t (ns ++ ms) =
      networkReports networks t ns ++
        networkReports networks (ns.foldl SymbolTable.enter t) ms := by
  induction ns generalizing t with
  | nil => rfl
  | cons n ns ih =>
    simp only [List.cons_append, networkReports_cons, ih, List.foldl_cons]

section
variable (networks : List Network) {ns : List Network} (hn : (ns.map Network.name).Nodup)
include hn

theorem checkedFrom_distinct :
    checkedFrom networks .empty ns = ns.map fun n => n.checkedAt networks (startOf ns n.name) := by
  refine Network.distinctInduct hn rfl fun ns n hnew hn ih => ?_
  have hown := SymbolTable.own?_foldl_enter ns n.name
  rw [if_neg hnew, SymbolTable.foldl_enter_eq hn] at hown
  rw [checkedFrom_append, ih, SymbolTable.foldl_enter_eq hn,
    Network.map_startOf_concat (Network.checkedAt networks) ns n hnew]
  simp only [checkedFrom, Network.checked, SymbolTable.firstTensor, hown]
  rfl

theorem networkReports_distinct :
    networkReports networks .empty ns = ns.map fun n => n.reportsWithin networks 0 [] n.items := by
  refine Network.distinctInduct hn rfl fun ns n hnew _ ih => ?_
  have hown : n.ownReports (ns.foldl SymbolTable.enter .empty) = [] :=
    if_neg fun htaken => hnew ((SymbolTable.foldl_enter_network? ns n.name).mp htaken)
  rw [networkReports_append, ih, List.map_append, networkReports_cons]
  simp [networkReports, Network.reports, hown]

end

/-! ## Relations -/

section
variable {ns ns' : List Network} (hp : ns'.Perm ns) (hn : (ns.map Network.name).Nodup)
include hp hn

/-- The network that a name refers to is the same in any order. -/
theorem declared?_perm : declared? ns' = declared? ns := by
  have hn' : (ns'.map Network.name).Nodup := (hp.map Network.name).nodup_iff.mpr hn
  funext name
  refine Option.ext fun m => ?_
  rw [declared?_eq_some_iff hn', declared?_eq_some_iff hn, hp.mem_iff]

theorem checkedAt_perm : Network.checkedAt ns' = Network.checkedAt ns := by
  funext n start
  simp only [Network.checkedAt, checkedWith_congr (declared?_perm hp hn)]

theorem reportsWithin_perm (n : Network) (related : Nat) (names : List String)
    (items : List Network.Item) :
    n.reportsWithin ns' related names items = n.reportsWithin ns related names items := by
  rw [reportsWithin_congr (declared?_perm hp hn)]

end
end Typing

/-! ## Other numbers -/

namespace Network

section
variable {ns : List Network} (hn : (ns.map Network.name).Nodup)
include hn

/-- The symbols of a network stand behind those of the networks before it. -/
theorem getElem?_startOf {n : Network} (hmem : n ∈ ns) {k : Nat} (hk : k < n.symbols.length) :
    (ns.flatMap symbols)[startOf ns n.name + k]? = n.symbols[k]? := by
  induction ns with
  | nil => cases hmem
  | cons m ns ih =>
    rw [List.map_cons, List.nodup_cons] at hn
    rw [List.flatMap_cons, startOf]
    rcases List.mem_cons.mp hmem with rfl | hmem
    · rw [if_pos rfl, Nat.zero_add, List.getElem?_append_left hk]
    · have hne : m.name ≠ n.name := fun heq => hn.1 (heq ▸ List.mem_map_of_mem hmem)
      rw [if_neg hne, Nat.add_assoc, List.getElem?_append_right (Nat.le_add_right ..),
        Nat.add_sub_cancel_left, ih hn.2 hmem]

/-- Every symbol is one of a network. -/
theorem exists_startOf {i : Nat} (hi : i < (ns.flatMap symbols).length) :
    ∃ n ∈ ns, ∃ k < n.symbols.length, i = startOf ns n.name + k := by
  induction ns generalizing i with
  | nil => simp at hi
  | cons m ns ih =>
    rw [List.map_cons, List.nodup_cons] at hn
    by_cases hm : i < m.symbols.length
    · exact ⟨m, by simp, i, hm, by simp [startOf]⟩
    · rw [List.flatMap_cons, List.length_append] at hi
      obtain ⟨n, hmem, k, hk, heq⟩ := ih hn.2 (i := i - m.symbols.length) (by omega)
      have hne : m.name ≠ n.name := fun h => hn.1 (h ▸ List.mem_map_of_mem hmem)
      refine ⟨n, by simp [hmem], k, hk, ?_⟩
      rw [startOf, if_neg hne]
      omega

end
end Network

namespace SymbolTable

/-- The number that a symbol of the networks `ns` has when they stand in the order of `ns'`. -/
def shuffling (ns ns' : List Network) (id : SymbolId) : SymbolId :=
  let name := ((row ns).get id).network
  ⟨startOf ns' name + (id.index - startOf ns name)⟩

section
variable {ns ns' : List Network} (hp : ns'.Perm ns) (hn : (ns.map Network.name).Nodup)
include hn

theorem startOf_mem_ids {n : Network} (hmem : n ∈ ns) {k : Nat} (hk : k < n.symbols.length) :
    ⟨startOf ns n.name + k⟩ ∈ (row ns).ids := by
  have hrecord := Network.getElem?_startOf hn hmem hk
  rw [List.getElem?_eq_getElem hk] at hrecord
  exact (List.getElem?_eq_some_iff.mp hrecord).1

theorem shuffling_startOf (ns' : List Network) {n : Network} (hmem : n ∈ ns) {k : Nat}
    (hk : k < n.symbols.length) :
    shuffling ns ns' ⟨startOf ns n.name + k⟩ = ⟨startOf ns' n.name + k⟩ := by
  have hget : (row ns).get ⟨startOf ns n.name + k⟩ = n.symbols[k] :=
    get_eq ((Network.getElem?_startOf hn hmem hk).trans (List.getElem?_eq_getElem hk))
  have hname : n.symbols[k].network = n.name :=
    Network.network_of_mem_symbols (List.getElem_mem hk)
  simp only [shuffling, hget, hname, Nat.add_sub_cancel_left]

include hp

/-- A symbol keeps its record. -/
theorem getElem?_shuffling {id : SymbolId} (h : id ∈ (row ns).ids) :
    (row ns').symbols[(shuffling ns ns' id).index]? = (row ns).symbols[id.index]? := by
  have hn' : (ns'.map Network.name).Nodup := (hp.map Network.name).nodup_iff.mpr hn
  obtain ⟨i⟩ := id
  obtain ⟨n, hmem, k, hk, rfl⟩ := Network.exists_startOf hn h
  rw [shuffling_startOf hn ns' hmem hk]
  exact (Network.getElem?_startOf hn' (hp.mem_iff.mpr hmem) hk).trans
    (Network.getElem?_startOf hn hmem hk).symm

theorem get_shuffling {id : SymbolId} (h : id ∈ (row ns).ids) :
    (row ns').get (shuffling ns ns' id) = (row ns).get id := by
  unfold SymbolTable.get
  rw [List.getD_eq_getElem?_getD, List.getD_eq_getElem?_getD, getElem?_shuffling hp hn h]

theorem shuffling_mapsTo : Set.MapsTo (shuffling ns ns') (row ns).ids (row ns').ids := by
  intro id h
  have hrecord := getElem?_shuffling hp hn h
  rw [List.getElem?_eq_getElem h] at hrecord
  exact (List.getElem?_eq_some_iff.mp hrecord).1

theorem shuffling_leftInvOn :
    Set.LeftInvOn (shuffling ns' ns) (shuffling ns ns') (row ns).ids := by
  have hn' : (ns'.map Network.name).Nodup := (hp.map Network.name).nodup_iff.mpr hn
  rintro ⟨i⟩ h
  obtain ⟨n, hmem, k, hk, rfl⟩ := Network.exists_startOf hn h
  rw [shuffling_startOf hn ns' hmem hk, shuffling_startOf hn' ns (hp.mem_iff.mpr hmem) hk]

theorem shuffling_bijOn : Set.BijOn (shuffling ns ns') (row ns).ids (row ns').ids := by
  have hn' : (ns'.map Network.name).Nodup := (hp.map Network.name).nodup_iff.mpr hn
  exact Set.InvOn.bijOn
    ⟨shuffling_leftInvOn hp hn, shuffling_leftInvOn hp.symm hn'⟩
    (shuffling_mapsTo hp hn) (shuffling_mapsTo hp.symm hn')

end
end SymbolTable

open SymbolTable (row shuffling)

namespace Network

theorem definitionsFrom_renumber {σ : SymbolId → SymbolId} (n : Network) (role : Role)
    {start start' : Nat} {ts : List (Role × Declaration)}
    (h : ∀ k < ts.length, σ ⟨start + k⟩ = ⟨start' + k⟩) :
    (n.definitionsFrom role start ts).map (Typed.Definition.renumber σ) =
      n.definitionsFrom role start' ts := by
  induction ts generalizing start start' with
  | nil => rfl
  | cons p ts ih =>
    have hfirst : σ ⟨start⟩ = ⟨start'⟩ := h 0 (by simp)
    have hrest : ∀ k < ts.length, σ ⟨start + 1 + k⟩ = ⟨start' + 1 + k⟩ := by
      intro k hk
      have hnext := h (k + 1) (by simpa using hk)
      rwa [Nat.add_right_comm start, Nat.add_right_comm start', Nat.add_assoc, Nat.add_assoc]
    rw [definitionsFrom_cons, definitionsFrom_cons, List.map_append, ih hrest]
    by_cases hrole : p.1 = role
    · simp [hrole, Typed.Definition.renumber, Typed.Definition.ofSymbol, hfirst]
    · simp [hrole]

/-- Forms whose tensors have other numbers. -/
theorem checkedWith_renumber {σ : SymbolId → SymbolId} (networks : List Network) (n : Network)
    (typed : Typed.Network) {start start' : Nat} {items : List Item}
    (h : ∀ k < (items.filterMap Item.part?).length, σ ⟨start + k⟩ = ⟨start' + k⟩) :
    (n.checkedWith networks typed start items).renumber σ =
      n.checkedWith networks (typed.renumber σ) start' items := by
  simp only [checkedWith, Typed.Network.renumber, List.map_append,
    definitionsFrom_renumber n _ h]

/-- A network in another order is the same one with other numbers. -/
theorem checkedAt_renumber (networks : List Network) {ns : List Network}
    (hn : (ns.map Network.name).Nodup) (ns' : List Network) {n : Network} (hmem : n ∈ ns) :
    (n.checkedAt networks (startOf ns n.name)).renumber (shuffling ns ns') =
      n.checkedAt networks (startOf ns' n.name) := by
  have hnumber : ∀ k < n.symbols.length, shuffling ns ns' ⟨startOf ns n.name + k⟩ = _ :=
    fun k hk => SymbolTable.shuffling_startOf hn ns' hmem hk
  have hown : shuffling ns ns' ⟨startOf ns n.name⟩ = ⟨startOf ns' n.name⟩ :=
    hnumber 0 (by rw [length_symbols]; omega)
  have htensors : ∀ k < n.tensors.length,
      shuffling ns ns' ⟨startOf ns n.name + 1 + k⟩ = ⟨startOf ns' n.name + 1 + k⟩ := by
    intro k hk
    have hnext := hnumber (1 + k) (by rw [length_symbols]; omega)
    rwa [← Nat.add_assoc, ← Nat.add_assoc] at hnext
  rw [checkedAt, checkedWith_renumber networks n _ htensors, Typed.Network.renumber,
    Option.map_some, hown]
  rfl

/-- The networks with a tensor of this name, and the numbers of the first ones, if the symbols of
each network are numbered from `start`. -/
def bound (start : String → Nat) (v : String) (ns : List Network) : List (String × SymbolId) :=
  ns.filterMap fun n => (n.tensors.findIdx? fun p => p.2.name == v).map fun k =>
    (n.name, ⟨start n.name + (1 + k)⟩)

theorem exists_of_mem_bound {start : String → Nat} {v : String} {ns : List Network}
    {x : String × SymbolId} (h : x ∈ bound start v ns) :
    ∃ n ∈ ns, ∃ k < n.symbols.length, x = (n.name, ⟨start n.name + k⟩) := by
  obtain ⟨n, hmem, hx⟩ := List.mem_filterMap.mp h
  obtain ⟨k, hk, rfl⟩ := Option.map_eq_some_iff.mp hx
  obtain ⟨hlt, _⟩ := List.findIdx?_eq_some_iff_getElem.mp hk
  exact ⟨n, hmem, 1 + k, by rw [length_symbols]; omega, rfl⟩

theorem map_bound {ns : List Network} (hn : (ns.map Network.name).Nodup) (ns' : List Network)
    (v : String) :
    (bound (startOf ns) v ns).map (fun x => (x.1, shuffling ns ns' x.2)) =
      bound (startOf ns') v ns := by
  rw [bound, List.map_filterMap]
  refine List.filterMap_congr fun n hmem => ?_
  cases hk : n.tensors.findIdx? fun p => p.2.name == v with
  | none => rfl
  | some k =>
    obtain ⟨hlt, _⟩ := List.findIdx?_eq_some_iff_getElem.mp hk
    have hnumber := SymbolTable.shuffling_startOf hn ns' hmem (k := 1 + k)
      (by rw [length_symbols]; omega)
    simp only [Option.map_some, hnumber]

end Network

/-! ## Names -/

namespace SymbolTable

theorem row_candidates (ns : List Network) (v : String) :
    ((row ns).candidates v).map (fun c => (c.1.name, c.2)) = Network.bound (startOf ns) v ns := by
  have hall : (row ns).scopes.filter Scope.isAttached = (row ns).scopes := by
    rw [List.filter_eq_self]
    intro s hs
    obtain ⟨n, _, rfl⟩ := List.mem_map.mp hs
    simp [Network.scopeFrom, Scope.isAttached]
  rw [candidates, hall, row, List.filterMap_map, List.map_filterMap, Network.bound]
  refine List.filterMap_congr fun n _ => ?_
  have hget := (⟨n.name, some ⟨startOf ns n.name⟩, []⟩ : Scope).get?_bindAll
    (startOf ns n.name + 1) n.tensors v
  simp only [Function.comp_apply, Network.scopeFrom, hget]
  cases n.tensors.findIdx? fun p => p.2.name == v with
  | none => rfl
  | some k => simp [Scope.get?, Nat.add_assoc]

theorem row_global? (ns : List Network) (v : String) :
    (row ns).global? v = (Typing.declared? ns v).map fun n => ⟨startOf ns n.name⟩ := by
  rw [global?, row, List.findSome?_map, Typing.declared?]
  generalize startOf ns = start
  induction ns with
  | nil => rfl
  | cons n ns ih =>
    rw [List.findSome?_cons, ih]
    by_cases hv : n.name = v
    · rw [List.find?_cons_of_pos (by simpa using hv)]
      simp [Network.scopeFrom, hv]
    · rw [List.find?_cons_of_neg (by simpa using hv)]
      simp [Network.scopeFrom, hv]

end SymbolTable

/-- The same report, or that a name is ambiguous between the same networks in another order. -/
inductive Diagnostic.Alike : Diagnostic → Diagnostic → Prop where
  | same (d : Diagnostic) : Alike d d
  | listed (v : String) (p : Position) {networks networks' : List String} :
      networks.Perm networks' →
      Alike ⟨.ambiguousVariable v (SymbolTable.listing networks), p⟩
        ⟨.ambiguousVariable v (SymbolTable.listing networks'), p⟩

theorem SymbolTable.shuffling_matches {ns ns' : List Network} (hp : ns'.Perm ns)
    (hn : (ns.map Network.name).Nodup) :
    (row ns).Matches Diagnostic.Alike (shuffling ns ns') (row ns') := by
  intro v p
  have hbound := row_candidates ns v
  have hbound' := row_candidates ns' v
  have hperm : (Network.bound (startOf ns') v ns').Perm
      ((Network.bound (startOf ns) v ns).map fun x => (x.1, shuffling ns ns' x.2)) := by
    rw [Network.map_bound hn]
    exact hp.filterMap _
  have hfound : ∀ id ∈ (row ns).ids, (row ns).resolve v p = .ok id →
      (row ns').resolve v p = .ok (shuffling ns ns' id) →
      ∃ id, (row ns).resolve v p = .ok id ∧ (row ns').resolve v p = .ok (shuffling ns ns' id) ∧
        (row ns').get (shuffling ns ns' id) = (row ns).get id :=
    fun id hid hr hr' => ⟨id, hr, hr', get_shuffling hp hn hid⟩
  rcases hc : Network.bound (startOf ns) v ns with _ | ⟨x, _ | ⟨y, rest⟩⟩
  · have hc' : Network.bound (startOf ns') v ns' = [] := by
      rw [hc, List.map_nil] at hperm
      exact hperm.eq_nil
    have hglobal := row_global? ns v
    have hglobal' := row_global? ns' v
    rw [Typing.declared?_perm hp hn] at hglobal'
    cases hd : Typing.declared? ns v with
    | none =>
      rw [hd] at hglobal hglobal'
      exact .inr ⟨_, _, resolve_unknown hbound hc hglobal, resolve_unknown hbound' hc' hglobal',
        .same _⟩
    | some n =>
      rw [hd] at hglobal hglobal'
      obtain ⟨hmem, _⟩ := (Typing.declared?_eq_some_iff hn).mp hd
      have hk : 0 < n.symbols.length := by rw [Network.length_symbols]; omega
      refine .inl (hfound _ (startOf_mem_ids hn hmem hk) (resolve_global hbound hc hglobal) ?_)
      rw [shuffling_startOf hn ns' hmem hk]
      exact resolve_global hbound' hc' hglobal'
  · obtain ⟨n, hmem, k, hk, rfl⟩ := Network.exists_of_mem_bound (hc ▸ List.mem_singleton_self x)
    rw [hc, List.map_singleton, List.perm_singleton] at hperm
    exact .inl (hfound _ (startOf_mem_ids hn hmem hk) (resolve_one hbound hc)
      (resolve_one hbound' hperm))
  · have hlength := hperm.length_eq
    have hnames := (hperm.map Prod.fst).symm
    rw [List.map_map] at hnames
    rw [List.length_map, hc] at hlength
    refine .inr ⟨_, _, resolve_many hbound (by simp [hc]), resolve_many hbound' ?_,
      .listed v p hnames⟩
    simp [hlength]

/-! ## Queries -/

namespace Query

/-- What the check of a query reports of each network. -/
def networkReports (q : Query) : List (List Diagnostic) :=
  Typing.networkReports q.networks .empty q.networks

/-- What the check of a query reports of each assertion. -/
def assertionReports (policy : LiteralPolicy) (q : Query) : List (List Diagnostic) :=
  q.assertions.map fun a =>
    Typing.reports (Typing.query policy q).value.symbols policy .formula a.condition

/-- The reports of a query are a block for its version, one for each network and one for each
assertion. -/
def InBlocks (policy : LiteralPolicy) (q : Query) : Prop :=
  (Typing.query policy q).diagnostics =
    (Typing.version q.version).diagnostics ++
      (q.networkReports.flatten ++ (q.assertionReports policy).flatten)

/-- Two queries are checked alike, up to the numbers of symbols. -/
structure CheckedAlike (policy : LiteralPolicy) (σ : SymbolId → SymbolId) (q q' : Query) :
    Prop where
  numbers : Set.BijOn σ (Typing.query policy q).value.symbols.ids
    (Typing.query policy q').value.symbols.ids
  records : ∀ id ∈ (Typing.query policy q).value.symbols.ids,
    (Typing.query policy q').value.symbols.get (σ id) = (Typing.query policy q).value.symbols.get id
  /-- A network has the same block of reports and the same typed network, wherever it stands. -/
  networks : ∀ (i j : Nat) (n : Network), q.networks[i]? = some n → q'.networks[j]? = some n →
    ∃ block typed, q.networkReports[i]? = some block ∧ q'.networkReports[j]? = some block ∧
      (Typing.query policy q).value.networks[i]? = some typed ∧
      (Typing.query policy q').value.networks[j]? = some (typed.renumber σ)
  assertions : (Typing.query policy q').value.assertions =
    (Typing.query policy q).value.assertions.map (Typed.Assertion.renumber σ)
  reports : List.Forall₂ (List.Forall₂ Diagnostic.Alike) (q.assertionReports policy)
    (q'.assertionReports policy)

theorem inBlocks (policy : LiteralPolicy) (q : Query) : q.InBlocks policy := by
  rw [InBlocks, Typing.query_diagnostics, Typing.networksFrom_diagnostics, assertionReports,
    List.flatMap_def]
  rfl

section
variable (policy : LiteralPolicy) {q : Query} (hn : (q.networks.map Network.name).Nodup)
include hn

/-- The table and the networks of a query whose networks have different names. -/
theorem query_distinct :
    (Typing.query policy q).value.symbols = row q.networks ∧
      (Typing.query policy q).value.networks =
        q.networks.map fun n => n.checkedAt q.networks (startOf q.networks n.name) := by
  rw [Typing.query_symbols, Typing.query_networks]
  exact ⟨SymbolTable.foldl_enter_eq hn, Typing.checkedFrom_distinct q.networks hn⟩

theorem query_assertions :
    (Typing.query policy q).value.assertions = q.assertions.map fun a =>
      ⟨(Typing.formula (row q.networks) policy a.condition).value, a.span⟩ := by
  rw [← (query_distinct policy hn).1]
  exact Typing.query_assertions policy q

end
end Query

/-- Networks with different names can stand in any order: each of them and each assertion is
checked alike, and a name that is ambiguous is so between the same networks. -/
theorem Query.networks_in_any_order {q : Query} (hn : (q.networks.map Network.name).Nodup)
    {ns : List Network} (hp : ns.Perm q.networks) (options : BuildOptions) :
    ∃ σ, q.CheckedAlike options.policy σ { q with networks := ns } ∧
      q.InBlocks options.policy ∧ { q with networks := ns }.InBlocks options.policy := by
  have hn' : (ns.map Network.name).Nodup := (hp.map Network.name).nodup_iff.mpr hn
  have hmatches := SymbolTable.shuffling_matches hp hn
  obtain ⟨htable, hnetworks⟩ := Query.query_distinct options.policy hn
  obtain ⟨htable', hnetworks'⟩ :=
    Query.query_distinct options.policy (q := { q with networks := ns }) hn'
  refine ⟨shuffling q.networks ns, ⟨?_, ?_, ?_, ?_, ?_⟩, Query.inBlocks _ _, Query.inBlocks _ _⟩
  · rw [htable, htable']
    exact SymbolTable.shuffling_bijOn hp hn
  · rw [htable, htable']
    exact fun id hid => SymbolTable.get_shuffling hp hn hid
  · intro i j n hi hj
    have hrenumber := Network.checkedAt_renumber q.networks hn ns (List.mem_of_getElem? hi)
    refine ⟨n.reportsWithin q.networks 0 [] n.items,
      n.checkedAt q.networks (startOf q.networks n.name), ?_, ?_, ?_, ?_⟩
    · simp [Query.networkReports, Typing.networkReports_distinct _ hn, hi]
    · have hreports := Typing.reportsWithin_perm hp hn n 0 [] n.items
      simp only [Query.networkReports, Typing.networkReports_distinct _ hn', List.getElem?_map, hj,
        Option.map_some, hreports]
    · rw [hnetworks, List.getElem?_map, hi, Option.map_some]
    · rw [hnetworks', List.getElem?_map, hj, Option.map_some, Typing.checkedAt_perm hp hn,
        hrenumber]
  · rw [Query.query_assertions _ hn, Query.query_assertions _ hn', List.map_map]
    refine List.map_congr_left fun a _ => ?_
    rw [Typing.formula_renumber hmatches]
    rfl
  · rw [Query.assertionReports, Query.assertionReports, htable, htable',
      List.forall₂_map_left_iff, List.forall₂_map_right_iff, List.forall₂_same]
    exact fun a _ => Typing.reports_matches hmatches _ .same .formula a.condition

/-- A network with one input `x`. -/
def Network.withInput (name : String) : Network where
  name := name
  inputs := [⟨"x", .element .float32, [], none, .nowhere⟩]
  span := .nowhere

/-- The first network is related to the last one, and two networks have an input `x`. -/
def Query.twoInputs : Query where
  version := ⟨"2.0", .nowhere⟩
  networks := [{ name := "K", relations := [⟨.isometric, "M", .nowhere⟩], span := .nowhere },
    .withInput "N", .withInput "M"]
  assertions := [⟨.compare .less (.var "x" [] .nowhere) (.var "x" [] .nowhere) .nowhere, .nowhere⟩]
  span := .nowhere

theorem Query.twoInputs_in_any_order :
    (Query.twoInputs.assertionReports .keep).flatten =
      List.replicate 2 ⟨.ambiguousVariable "x" "`N`, `M`", .nowhere⟩ ∧
    ∃ σ, Query.twoInputs.CheckedAlike .keep σ
      { Query.twoInputs with networks := Query.twoInputs.networks.reverse } := by
  have hn : (Query.twoInputs.networks.map Network.name).Nodup := by decide
  obtain ⟨σ, halike, _⟩ :=
    Query.networks_in_any_order hn (List.reverse_perm Query.twoInputs.networks) {}
  exact ⟨by decide +kernel, σ, halike⟩

end NeuralQuery
