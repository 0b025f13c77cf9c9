import NeuralQuery.Proofs.NetworkOrder

/-!
# NeuralQuery.Proofs.DuplicateNetwork

A network with the name of an earlier one is invisible to the rest of its query
(`Query.duplicate_unseen`).

Such a network gets no symbol of its own, so its scope is not searched for names, and all that it
does to the table is to put its tensors before the symbols that come later. `SymbolTable.Widened`
relates the tables without and with it; to enter a further network keeps that relation
(`Widened.enter`), and what is checked in one table and in the other differs by the numbers of later
symbols (`SymbolId.raise`).
-/

namespace NeuralQuery

/-- The number of a symbol after `count` symbols came in at number `first`. -/
def SymbolId.raise (first count : Nat) (id : SymbolId) : SymbolId :=
  if id.index < first then id else ⟨id.index + count⟩

namespace SymbolId

variable {first count : Nat}

theorem raise_of_lt {id : SymbolId} (h : id.index < first) : id.raise first count = id :=
  if_pos h

theorem raise_of_le {i : Nat} (h : first ≤ i) : raise first count ⟨i⟩ = ⟨i + count⟩ :=
  if_neg (Nat.not_lt.mpr h)

/-- All numbers are taken but those of the symbols that came in. -/
theorem raise_bijOn {length : Nat} (h : first ≤ length) :
    Set.BijOn (raise first count) {id | id.index < length}
      ({id | id.index < length + count} \
        {id | id ∈ (List.range' first count).map SymbolId.mk}) := by
  refine ⟨?_, ?_, ?_⟩
  · rintro ⟨i⟩ hi
    simp only [Set.mem_ofPred_eq, Set.mem_sdiff, List.mem_map, List.mem_range'_1, raise] at hi ⊢
    split <;> grind
  · rintro ⟨i⟩ _ ⟨j⟩ _ heq
    simp only [raise] at heq
    grind
  · rintro ⟨i⟩ ⟨hi, hnew⟩
    simp only [Set.mem_ofPred_eq, List.mem_map, List.mem_range'_1] at hi hnew
    by_cases hlt : i < first
    · exact ⟨⟨i⟩, by simp only [Set.mem_ofPred_eq]; omega, raise_of_lt hlt⟩
    · have hle : first + count ≤ i := by
        by_contra hgt
        exact hnew ⟨i, by omega, rfl⟩
      refine ⟨⟨i - count⟩, by simp only [Set.mem_ofPred_eq]; omega, ?_⟩
      rw [raise_of_le (by omega), Nat.sub_add_cancel (by omega)]

end SymbolId

/-! ## Tables -/

namespace SymbolTable

/-- The second table has more symbols, all in one place, and no name leads to them: what is searched
for a name are the scopes of the first table. -/
structure Widened (front extra : List Symbol) (t t' : SymbolTable) : Prop where
  symbols : ∃ back, t.symbols = front ++ back ∧ t'.symbols = front ++ (extra ++ back)
  scopes : List.Forall₂ (Scope.Renumbered (.raise front.length extra.length)) t.attached t'.attached

theorem global?_isSome (t : SymbolTable) (name : String) :
    (t.global? name).isSome = (t.network? name).isSome := by
  rw [global?, network?, Option.isSome_map, List.isSome_findSome?, List.findIdx?_isSome]
  congr 1
  funext s
  cases s.name == name <;> simp [Scope.isAttached]

/-- A network whose name is taken widens the table. -/
theorem Binds.widened {t : SymbolTable} (h : t.Binds) {d : Network} (hown : t.own? d.name = none) :
    Widened t.symbols (d.tensors.map d.symbolOf) t (t.enter d) := by
  -- the scope of the network is not attached, and the symbols of all others are in front
  have hattached : (t.enter d).attached = t.attached := by
    simp [attached, SymbolTable.enter, hown, Scope.isAttached]
  have hlt : ∀ {id : SymbolId} {r : Symbol}, t.symbols[id.index]? = some r →
      id.raise t.symbols.length (d.tensors.map d.symbolOf).length = id :=
    fun hr => SymbolId.raise_of_lt (List.getElem?_eq_some_iff.mp hr).1
  refine ⟨⟨[], by simp, by simp [SymbolTable.enter, hown]⟩, ?_⟩
  rw [hattached, List.forall₂_same]
  intro s hs
  have hmem := List.mem_of_mem_filter hs
  refine ⟨rfl, ?_, fun v => ?_⟩
  · cases hsym : s.symbol with
    | none => rfl
    | some id => rw [Option.map_some, hlt (h.own s hmem id hsym)]
  · cases hget : s.get? v with
    | none => rfl
    | some id =>
      obtain ⟨_, _, _, hr, _⟩ := h.tensors s hmem v id hget
      rw [Option.map_some, hlt hr]

namespace Widened

variable {front extra : List Symbol} {t t' : SymbolTable} (h : Widened front extra t t')
include h

theorem front_le : front.length ≤ t.symbols.length := by
  obtain ⟨back, hs, _⟩ := h.symbols
  simp [hs]

theorem length : t'.symbols.length = t.symbols.length + extra.length := by
  obtain ⟨back, hs, hs'⟩ := h.symbols
  simp only [hs, hs', List.length_append]
  omega

theorem getElem?_raise (id : SymbolId) :
    t'.symbols[(id.raise front.length extra.length).index]? = t.symbols[id.index]? := by
  obtain ⟨back, hs, hs'⟩ := h.symbols
  obtain ⟨i⟩ := id
  by_cases hlt : i < front.length
  · rw [SymbolId.raise_of_lt hlt, hs, hs', List.getElem?_append_left hlt,
      List.getElem?_append_left hlt]
  · have hle : front.length ≤ i := Nat.not_lt.mp hlt
    rw [SymbolId.raise_of_le hle, hs, hs', List.getElem?_append_right hle,
      List.getElem?_append_right (by simp only; omega),
      List.getElem?_append_right (by simp only; omega)]
    congr 1
    simp only
    omega

theorem get_raise (id : SymbolId) :
    t'.get (id.raise front.length extra.length) = t.get id := by
  unfold SymbolTable.get
  rw [List.getD_eq_getElem?_getD, List.getD_eq_getElem?_getD, h.getElem?_raise]

theorem taken (name : String) : (t'.network? name).isSome = (t.network? name).isSome := by
  rw [← global?_isSome, ← global?_isSome, global?_renumbered h.scopes, Option.isSome_map]

theorem own? (name : String) :
    t'.own? name = (t.own? name).map (.raise front.length extra.length) := by
  unfold SymbolTable.own?
  rw [h.taken, h.length]
  split
  · rfl
  · rw [Option.map_some, SymbolId.raise_of_le h.front_le]

theorem firstTensor (name : String) :
    t'.firstTensor name = t.firstTensor name + extra.length := by
  simp only [SymbolTable.firstTensor, h.own?, h.length, Option.toList_map, List.length_map]
  omega

/-- The tensors of a network that is checked next have higher numbers. -/
theorem raise_tensor (name : String) (k : Nat) :
    SymbolId.raise front.length extra.length ⟨t.firstTensor name + k⟩ =
      ⟨t'.firstTensor name + k⟩ := by
  have hle := h.front_le
  rw [SymbolId.raise_of_le (by rw [SymbolTable.firstTensor]; omega), h.firstTensor,
    Nat.add_right_comm]

/-- What one network does to both tables. -/
theorem enter (n : Network) : Widened front extra (t.enter n) (t'.enter n) := by
  obtain ⟨back, hs, hs'⟩ := h.symbols
  refine ⟨⟨back ++ ((t.own? n.name).toList.map (fun _ => .ofNetwork n.name) ++
    n.tensors.map n.symbolOf), ?_, ?_⟩, ?_⟩
  · simp [SymbolTable.enter, hs]
  · simp [SymbolTable.enter, hs', h.own?, Option.toList_map, Function.comp_def]
  · -- the name of the network is new in both tables or in none, and so are its scopes attached
    simp only [attached, SymbolTable.enter, List.filter_append]
    refine List.rel_append h.scopes (List.rel_filter (fun s s' hs => ?_) (.cons ?_ .nil))
    · simp [Scope.isAttached, hs.symbol]
    · refine ⟨by simp, by simp [h.own?], fun v => ?_⟩
      rw [Scope.get?_bindAll, Scope.get?_bindAll]
      simp [Scope.get?, Function.comp_def, h.raise_tensor]

theorem foldl_enter (ns : List Network) :
    Widened front extra (ns.foldl SymbolTable.enter t) (ns.foldl SymbolTable.enter t') := by
  induction ns generalizing t t' with
  | nil => exact h
  | cons n ns ih => exact ih (h.enter n)

/-- A name leads to the same record in both tables, or to the same fault. -/
theorem same : t.Matches Eq (.raise front.length extra.length) t' := by
  intro name p
  have hr' := resolve_renumbered h.scopes name p
  cases hr : t.resolve name p with
  | error d => exact .inr ⟨d, d, rfl, by rw [hr', hr]; rfl, rfl⟩
  | ok id => exact .inl ⟨id, rfl, by rw [hr', hr]; rfl, h.get_raise id⟩

end Widened
end SymbolTable

/-! ## Networks -/

theorem Typed.Network.renumber_eq_self {σ : SymbolId → SymbolId} {m : Typed.Network}
    (h : ∀ id ∈ m.ids, σ id = id) : m.renumber σ = m := by
  have hdefinitions : ∀ ds ⊆ m.definitions, ds.map (Definition.renumber σ) = ds := by
    intro ds hds
    refine (List.map_congr_left fun d hd => ?_).trans (List.map_id ds)
    have hsymbol : σ d.symbol = d.symbol :=
      h _ (List.mem_append_right _ (List.mem_map_of_mem (hds hd)))
    rw [Definition.renumber, hsymbol, id]
  have hown : m.symbol.map σ = m.symbol := by
    cases hs : m.symbol with
    | none => rfl
    | some id => rw [Option.map_some, h id (by simp [ids, hs])]
  rw [renumber, hown, hdefinitions m.inputs (by simp [definitions]),
    hdefinitions m.hidden (by simp [definitions]), hdefinitions m.outputs (by simp [definitions])]

namespace Typing

/-- A network whose name is taken is not the one that its name refers to. -/
theorem declared?_duplicate {ns : List Network} {d : Network} (hd : d.name ∈ ns.map Network.name)
    (ms : List Network) : declared? (ns ++ d :: ms) = declared? (ns ++ ms) := by
  funext name
  rw [declared?, declared?, List.find?_append, List.find?_append]
  by_cases hname : d.name = name
  · obtain ⟨n, hn, hsame⟩ := List.mem_map.mp hd
    have hfound : (ns.find? fun n => n.name == name).isSome := by
      rw [List.find?_isSome]
      exact ⟨n, hn, by rw [hsame, hname, beq_self_eq_true]⟩
    rw [Option.or_of_isSome hfound, Option.or_of_isSome hfound]
  · rw [List.find?_cons_of_neg (by simpa using hname)]

theorem networkReports_congr {ns ns' : List Network} (h : declared? ns' = declared? ns) :
    networkReports ns' = networkReports ns := by
  funext t ms
  induction ms generalizing t with
  | nil => rfl
  | cons m ms ih =>
    simp only [networkReports_cons, Network.reports, reportsWithin_congr h, ih]

section
variable {front extra : List Symbol} {t t' : SymbolTable}
  (h : SymbolTable.Widened front extra t t')
include h

theorem checked_widened (networks : List Network) (n : Network) :
    n.checked networks t' =
      (n.checked networks t).renumber (.raise front.length extra.length) := by
  rw [Network.checked, Network.checked,
    Network.checkedWith_renumber networks n _ fun k _ => h.raise_tensor n.name k,
    Typed.Network.renumber, h.own?]
  rfl

theorem checkedFrom_widened (networks ns : List Network) :
    checkedFrom networks t' ns =
      (checkedFrom networks t ns).map (.renumber (.raise front.length extra.length)) := by
  induction ns generalizing t t' with
  | nil => rfl
  | cons n ns ih => rw [checkedFrom, checkedFrom, ih (h.enter n), checked_widened h, List.map_cons]

theorem networkReports_widened (networks ns : List Network) :
    networkReports networks t' ns = networkReports networks t ns := by
  induction ns generalizing t t' with
  | nil => rfl
  | cons n ns ih =>
    rw [networkReports_cons, networkReports_cons, ih (h.enter n), Network.reports,
      Network.ownReports, h.taken]
    rfl

end

/-- Networks that were checked before symbols came in keep their numbers. -/
theorem checkedFrom_raise (networks ns : List Network) (count : Nat) :
    (checkedFrom networks .empty ns).map
        (.renumber (.raise (ns.foldl SymbolTable.enter .empty).symbols.length count)) =
      checkedFrom networks .empty ns := by
  obtain ⟨k, hlength, hperm⟩ := checkedFrom_ids_perm networks .empty ns
  refine (List.map_congr_left fun m hm => ?_).trans (List.map_id _)
  refine Typed.Network.renumber_eq_self fun id hid => SymbolId.raise_of_lt ?_
  obtain ⟨i, hi, rfl⟩ := List.mem_map.mp
    (hperm.mem_iff.mp (List.mem_flatMap.mpr ⟨m, hm, hid⟩))
  rw [List.mem_range'_1, ← hlength] at hi
  exact hi.2

theorem length_checkedFrom (networks : List Network) (t : SymbolTable) (ns : List Network) :
    (checkedFrom networks t ns).length = ns.length := by
  induction ns generalizing t with
  | nil => rfl
  | cons n ns ih => rw [checkedFrom, List.length_cons, ih, List.length_cons]

theorem length_networkReports (networks : List Network) (t : SymbolTable) (ns : List Network) :
    (networkReports networks t ns).length = ns.length := by
  induction ns generalizing t with
  | nil => rfl
  | cons n ns ih => rw [networkReports, List.length_cons, ih, List.length_cons]

end Typing

/-! ## Networks with a duplicate -/

section
variable {ns : List Network} {d : Network} (hd : d.name ∈ ns.map Network.name) (ms : List Network)
include hd

namespace SymbolTable

omit ms in
theorem widened_enter :
    Widened (ns.foldl enter empty).symbols (d.tensors.map d.symbolOf) (ns.foldl enter empty)
      ((ns.foldl enter empty).enter d) := by
  have hown := own?_foldl_enter ns d.name
  rw [if_pos hd] at hown
  exact (binds_empty.foldl_enter ns).widened hown

theorem widened_duplicate :
    Widened (ns.foldl enter empty).symbols (d.tensors.map d.symbolOf)
      ((ns ++ ms).foldl enter empty) ((ns ++ d :: ms).foldl enter empty) := by
  rw [List.foldl_append, List.foldl_append, List.foldl_cons]
  exact (widened_enter hd).foldl_enter ms

theorem added_duplicate : (ns.foldl enter empty).added d = (d.tensors.map d.symbolOf).length := by
  have hlength := (widened_enter hd).length
  rw [length_enter] at hlength
  omega

end SymbolTable

namespace Typing

theorem checkedFrom_duplicate :
    checkedFrom (ns ++ d :: ms) .empty (ns ++ d :: ms) =
      checkedFrom (ns ++ ms) .empty ns ++
        d.checked (ns ++ ms) (ns.foldl SymbolTable.enter .empty) ::
          checkedFrom (ns ++ ms) ((ns.foldl SymbolTable.enter .empty).enter d) ms := by
  rw [checkedFrom_congr (declared?_duplicate hd ms), checkedFrom_append, checkedFrom]

theorem networkReports_duplicate :
    networkReports (ns ++ d :: ms) .empty (ns ++ d :: ms) =
      networkReports (ns ++ ms) .empty ns ++
        (⟨.networkAlreadyDeclared d.name, d.span.position⟩ ::
          d.reportsWithin (ns ++ ms) 0 [] d.items) ::
          networkReports (ns ++ ms) (ns.foldl SymbolTable.enter .empty) ms := by
  have htaken := (SymbolTable.foldl_enter_network? ns d.name).mpr hd
  rw [networkReports_congr (declared?_duplicate hd ms), networkReports_append, networkReports_cons,
    networkReports_widened (SymbolTable.widened_enter hd), Network.reports, Network.ownReports,
    if_pos htaken]
  rfl

end Typing
end

/-! ## Queries -/

/-- The query without one of its networks. -/
def Query.without (q : Query) (i : Nat) : Query :=
  { q with networks := q.networks.eraseIdx i }

/-- The symbols that one of the networks of a typed query declares. -/
def Typed.Query.declaredBy (q : Typed.Query) (i : Nat) : Set SymbolId :=
  {id | ∃ m, q.networks[i]? = some m ∧ id ∈ m.ids}

/-- The rest of a query is the same with and without the network `d`, which stands at `i`, up to the
numbers of symbols. -/
structure Query.Overlooks (policy : LiteralPolicy) (σ : SymbolId → SymbolId) (q : Query) (i : Nat)
    (d : Network) : Prop where
  numbers : Set.BijOn σ (Typing.query policy (q.without i)).value.symbols.ids
    ((Typing.query policy q).value.symbols.ids \ (Typing.query policy q).value.declaredBy i)
  records : ∀ id, (Typing.query policy q).value.symbols.get (σ id) =
    (Typing.query policy (q.without i)).value.symbols.get id
  networks : (Typing.query policy q).value.networks.eraseIdx i =
    (Typing.query policy (q.without i)).value.networks.map (.renumber σ)
  assertions : (Typing.query policy q).value.assertions =
    (Typing.query policy (q.without i)).value.assertions.map (.renumber σ)
  /-- No name leads to a tensor of the network, or is ambiguous because of one. -/
  names : ∀ v p, (Typing.query policy q).value.symbols.resolve v p =
    ((Typing.query policy (q.without i)).value.symbols.resolve v p).map σ
  unseen : ∀ v p id, (Typing.query policy q).value.symbols.resolve v p = .ok id →
    id ∉ (Typing.query policy q).value.declaredBy i
  /-- No relation is checked against the network. -/
  relations : Typing.relation q.networks = Typing.relation (q.without i).networks
  networkBlocks : (q.without i).networkReports = q.networkReports.eraseIdx i
  assertionBlocks : (q.without i).assertionReports policy = q.assertionReports policy
  /-- What is reported of the network stands together, and is all that is missing without it. -/
  reports : ∃ before block after,
    q.networkReports[i]? = some (⟨.networkAlreadyDeclared d.name, d.span.position⟩ :: block) ∧
    (Typing.query policy q).diagnostics =
      before ++ (⟨.networkAlreadyDeclared d.name, d.span.position⟩ :: block ++ after) ∧
    (Typing.query policy (q.without i)).diagnostics = before ++ after

theorem eraseIdx_middle {α : Type} {front : List α} {i : Nat} (h : front.length = i) (a : α)
    (back : List α) : (front ++ a :: back).eraseIdx i = front ++ back := by
  rw [List.eraseIdx_append_of_length_le h.le, ← h, Nat.sub_self, List.eraseIdx_cons_zero]

theorem getElem?_middle {α : Type} {front : List α} {i : Nat} (h : front.length = i) (a : α)
    (back : List α) : (front ++ a :: back)[i]? = some a := by
  rw [List.getElem?_append_right h.le, ← h, Nat.sub_self, List.getElem?_cons_zero]

namespace Query

section
variable (policy : LiteralPolicy) {q : Query} {ns ms : List Network} {d : Network}
  (hq : q.networks = ns ++ d :: ms) (hd : d.name ∈ ns.map Network.name)
include hq

theorem networks_without : (q.without ns.length).networks = ns ++ ms := by
  rw [without, hq, eraseIdx_middle rfl]

include hd

theorem widened_without :
    SymbolTable.Widened (ns.foldl SymbolTable.enter .empty).symbols (d.tensors.map d.symbolOf)
      (Typing.query policy (q.without ns.length)).value.symbols
      (Typing.query policy q).value.symbols := by
  rw [Typing.query_symbols, Typing.query_symbols, networks_without hq, hq]
  exact SymbolTable.widened_duplicate hd ms

/-- A duplicate declares its tensors only, which have the numbers that come in. -/
theorem declaredBy_duplicate :
    (Typing.query policy q).value.declaredBy ns.length =
      {id | id ∈ (List.range' (ns.foldl SymbolTable.enter .empty).symbols.length
        (d.tensors.map d.symbolOf).length).map SymbolId.mk} := by
  have hids := Typing.checked_ids_perm (ns ++ ms) (ns.foldl SymbolTable.enter .empty) d
  rw [SymbolTable.added_duplicate hd] at hids
  ext id
  have htyped : (Typing.query policy q).value.networks[ns.length]? =
      some (d.checked (ns ++ ms) (ns.foldl SymbolTable.enter .empty)) := by
    rw [Typing.query_networks, hq, Typing.checkedFrom_duplicate hd ms]
    exact getElem?_middle (Typing.length_checkedFrom _ _ ns) _ _
  simp only [Typed.Query.declaredBy, htyped, Option.some.injEq, exists_eq_left',
    Set.mem_ofPred_eq, hids.mem_iff]

theorem numbers_duplicate :
    Set.BijOn (SymbolId.raise (ns.foldl SymbolTable.enter .empty).symbols.length
        (d.tensors.map d.symbolOf).length)
      (Typing.query policy (q.without ns.length)).value.symbols.ids
      ((Typing.query policy q).value.symbols.ids \
        (Typing.query policy q).value.declaredBy ns.length) := by
  have hwidened := widened_without policy hq hd
  rw [declaredBy_duplicate policy hq hd, SymbolTable.ids, SymbolTable.ids, hwidened.length]
  exact SymbolId.raise_bijOn hwidened.front_le

theorem networks_duplicate :
    (Typing.query policy q).value.networks.eraseIdx ns.length =
      (Typing.query policy (q.without ns.length)).value.networks.map
        (.renumber (.raise (ns.foldl SymbolTable.enter .empty).symbols.length
          (d.tensors.map d.symbolOf).length)) := by
  rw [Typing.query_networks, Typing.query_networks, networks_without hq, hq,
    Typing.checkedFrom_duplicate hd ms, eraseIdx_middle (Typing.length_checkedFrom _ _ ns),
    Typing.checkedFrom_append, List.map_append, Typing.checkedFrom_raise,
    Typing.checkedFrom_widened (SymbolTable.widened_enter hd)]

theorem networkReports_without :
    (q.without ns.length).networkReports = q.networkReports.eraseIdx ns.length := by
  rw [networkReports, networkReports, networks_without hq, hq,
    Typing.networkReports_duplicate hd ms, eraseIdx_middle (Typing.length_networkReports _ _ ns),
    Typing.networkReports_append]

theorem assertionReports_without :
    (q.without ns.length).assertionReports policy = q.assertionReports policy := by
  have hsame := (widened_without policy hq hd).same
  refine List.map_congr_left fun a _ => ?_
  have hreports := Typing.reports_matches hsame policy (fun _ => rfl) .formula a.condition
  rwa [List.forall₂_eq_eq_eq] at hreports

/-- The block of a duplicate starts with a report of its name. -/
theorem diagnostics_duplicate :
    ∃ before block after,
      q.networkReports[ns.length]? =
        some (⟨.networkAlreadyDeclared d.name, d.span.position⟩ :: block) ∧
      (Typing.query policy q).diagnostics =
        before ++ (⟨.networkAlreadyDeclared d.name, d.span.position⟩ :: block ++ after) ∧
      (Typing.query policy (q.without ns.length)).diagnostics = before ++ after := by
  have hblocks := Typing.networkReports_duplicate hd ms
  rw [← hq] at hblocks
  have hlength := Typing.length_networkReports (ns ++ ms) .empty ns
  have hreports := inBlocks policy q
  have hreports' := inBlocks policy (q.without ns.length)
  rw [InBlocks, networkReports, hblocks] at hreports
  rw [InBlocks, assertionReports_without policy hq hd, networkReports_without hq hd,
    networkReports, hblocks, eraseIdx_middle hlength] at hreports'
  refine ⟨(Typing.version q.version).diagnostics ++
    (Typing.networkReports (ns ++ ms) .empty ns).flatten,
    d.reportsWithin (ns ++ ms) 0 [] d.items,
    (Typing.networkReports (ns ++ ms) (ns.foldl SymbolTable.enter .empty) ms).flatten ++
      (q.assertionReports policy).flatten, ?_, ?_, ?_⟩
  · rw [networkReports, hblocks]
    exact getElem?_middle hlength _ _
  · rw [hreports]
    simp only [List.flatten_append, List.flatten_cons, List.append_assoc]
  · rw [hreports']
    simp only [List.flatten_append, List.append_assoc]
    rfl

end
end Query

/-- A network with the name of an earlier one can be taken away: what is reported of it goes, and
nothing else changes but the numbers of symbols. -/
theorem Query.duplicate_unseen {q : Query} {i : Nat} {d : Network} (hi : q.networks[i]? = some d)
    (hd : d.name ∈ (q.networks.take i).map Network.name) (options : BuildOptions) :
    ∃ σ, q.Overlooks options.policy σ i d := by
  obtain ⟨ns, ms, hq, rfl⟩ : ∃ ns ms, q.networks = ns ++ d :: ms ∧ ns.length = i := by
    obtain ⟨hlt, hget⟩ := List.getElem?_eq_some_iff.mp hi
    refine ⟨q.networks.take i, q.networks.drop (i + 1), ?_, List.length_take_of_le hlt.le⟩
    rw [← hget, ← List.drop_eq_getElem_cons hlt, List.take_append_drop]
  rw [hq, List.take_left] at hd
  have hwidened := Query.widened_without options.policy hq hd
  have hnumbers := Query.numbers_duplicate options.policy hq hd
  have hnames := SymbolTable.resolve_renumbered hwidened.scopes
  refine ⟨_, hnumbers, hwidened.get_raise, Query.networks_duplicate _ hq hd, ?_, hnames, ?_, ?_,
    Query.networkReports_without hq hd, Query.assertionReports_without _ hq hd,
    Query.diagnostics_duplicate _ hq hd⟩
  · rw [Typing.query_assertions, Typing.query_assertions, List.map_map]
    refine List.map_congr_left fun a _ => ?_
    rw [Typing.formula_renumber hwidened.same]
    rfl
  · -- a name leads to a raised number, and none of those belongs to the duplicate
    intro v p id hr
    rw [hnames] at hr
    cases hr' : (Typing.query options.policy (q.without ns.length)).value.symbols.resolve v p with
    | error e =>
      rw [hr'] at hr
      cases hr
    | ok id' =>
      rw [hr'] at hr
      cases hr
      have hbinds := SymbolTable.binds_empty.foldl_enter (q.without ns.length).networks
      rw [← Typing.query_symbols options.policy] at hbinds
      exact (hnumbers.mapsTo (hbinds.resolve_mem hr')).2
  · rw [Query.networks_without hq, hq, Typing.relation_congr (Typing.declared?_duplicate hd ms)]

/-- The second network has the name of the first one, and is the only one with an input `y`. -/
def Query.repeatedNetwork : Query where
  version := ⟨"2.0", .nowhere⟩
  networks := [.withInput "N",
    { name := "N", inputs := [⟨"y", .element .float32, [], none, .nowhere⟩], span := .nowhere },
    .withInput "M"]
  assertions := [⟨.compare .less (.var "x" [] .nowhere) (.var "y" [] .nowhere) .nowhere, .nowhere⟩]
  span := .nowhere

theorem Query.repeatedNetwork_unseen :
    (Typing.query .keep Query.repeatedNetwork).diagnostics =
      [⟨.networkAlreadyDeclared "N", .nowhere⟩, ⟨.ambiguousVariable "x" "`N`, `M`", .nowhere⟩,
        ⟨.variableNotDeclared "y", .nowhere⟩] ∧
    ∃ d σ, Query.repeatedNetwork.networks[1]? = some d ∧
      Query.repeatedNetwork.Overlooks .keep σ 1 d := by
  obtain ⟨σ, hoverlooks⟩ :=
    Query.duplicate_unseen (q := Query.repeatedNetwork) (i := 1) rfl (by decide) {}
  exact ⟨by decide +kernel, _, σ, rfl, hoverlooks⟩

end NeuralQuery
