import NeuralQuery.Proofs.Placeless

/-!
# NeuralQuery.Proofs.Retyping

Checking a query again in other places and with a renumbered table of symbols.

A renumbered table follows the one before it (`SymbolTable.Renumbered.follows`), and networks that
are related without their places are related in any places (`Relates.again`). So what is checked
without a report is checked again without a report, and gives the same tree up to numbers and spans
(`Typing.query_again`).
-/

namespace NeuralQuery

/-! ## Names -/

namespace SymbolTable

theorem resolve_eq_ok_iff {t : SymbolTable} {name : String} {p : Position} {id : SymbolId} :
    t.resolve name p = .ok id ↔
      (t.candidates name).map Prod.snd = [id] ∨
        (t.candidates name).map Prod.snd = [] ∧ t.global? name = some id := by
  unfold resolve
  match t.candidates name with
  | [] => cases t.global? name <;> simp
  | [(s, id')] => simp
  | _ :: _ :: _ => simp

/-- What a name leads to is bound to the name in a scope, or is a network. -/
theorem exists_of_resolve {t : SymbolTable} {name : String} {p : Position} {id : SymbolId}
    (h : t.resolve name p = .ok id) :
    (∃ s ∈ t.scopes, s.get? name = some id) ∨ ∃ s ∈ t.scopes, s.symbol = some id := by
  rcases resolve_eq_ok_iff.mp h with h | ⟨_, h⟩
  · obtain ⟨⟨s, id'⟩, hmem, rfl⟩ := List.mem_map.mp
      (show id ∈ (t.candidates name).map Prod.snd by simp [h])
    obtain ⟨s', hscope, hget⟩ := List.mem_filterMap.mp hmem
    obtain ⟨id, hget, heq⟩ := Option.map_eq_some_iff.mp hget
    cases heq
    exact .inl ⟨_, List.mem_of_mem_filter hscope, hget⟩
  · obtain ⟨s, hscope, hsym⟩ := List.exists_of_findSome?_eq_some h
    split at hsym
    · exact .inr ⟨s, hscope, hsym⟩
    · cases hsym

/-- Every symbol that a name leads to is in the table. -/
theorem resolve_mem_ids {t : SymbolTable} {networks : List Network}
    (hs : List.Forall₂ (Holds t.symbols) networks t.scopes) {name : String} {p : Position}
    {id : SymbolId} (h : t.resolve name p = .ok id) : id ∈ t.ids := by
  rcases exists_of_resolve h with ⟨s, hscope, hget⟩ | ⟨s, hscope, hsym⟩
  · obtain ⟨n, _, hn⟩ := exists_of_mem_right hs hscope
    obtain ⟨_, _, _, hrec⟩ := hn.get?_eq_some hget
    exact (List.getElem?_eq_some_iff.mp hrec).1
  · obtain ⟨n, _, hn⟩ := exists_of_mem_right hs hscope
    obtain ⟨id', hid, hrec⟩ := hn.own
    obtain rfl : id' = id := by simpa [hid] using hsym
    exact (List.getElem?_eq_some_iff.mp hrec).1

/-- The scopes in which names are looked up. -/
def attached (t : SymbolTable) : List Scope :=
  t.scopes.filter Scope.isAttached

theorem global?_eq_attached (t : SymbolTable) (name : String) :
    t.global? name = t.attached.findSome? fun s => if s.name == name then s.symbol else none := by
  rw [global?, attached]
  induction t.scopes with
  | nil => rfl
  | cons s ss ih =>
    rw [List.findSome?_cons, List.filter_cons, ih]
    cases hs : s.symbol with
    | none => simp [Scope.isAttached, hs]
    | some id => simp [Scope.isAttached, hs, List.findSome?_cons]

section
variable {σ : SymbolId → SymbolId} {t t' : SymbolTable}
  (h : List.Forall₂ (Scope.Renumbered σ) t.attached t'.attached)
include h

theorem candidates_renumbered (name : String) :
    (t'.candidates name).map (fun c => (c.1.name, c.2)) =
      (t.candidates name).map (fun c => (c.1.name, σ c.2)) := by
  unfold candidates
  unfold attached at h
  generalize t.scopes.filter Scope.isAttached = ss, t'.scopes.filter Scope.isAttached = ss' at h
  induction h with
  | nil => rfl
  | @cons s s' ss ss' hs _ ih =>
    simp only [List.filterMap_cons, hs.bindings]
    cases s.get? name with
    | none => exact ih
    | some id => simpa [hs.name] using ih

theorem global?_renumbered (name : String) : t'.global? name = (t.global? name).map σ := by
  rw [global?_eq_attached, global?_eq_attached]
  generalize t.attached = ss, t'.attached = ss' at h
  induction h with
  | nil => rfl
  | @cons s s' ss ss' hs _ ih =>
    simp only [List.findSome?_cons, hs.name, hs.symbol, ih]
    by_cases hname : (s.name == name) = true
    · cases s.symbol <;> simp only [hname, if_true, Option.map_none, Option.map_some]
    · simp only [if_neg hname]

/-- A name leads to the renumbered symbol, or to the same fault. -/
theorem resolve_renumbered (name : String) (p : Position) :
    t'.resolve name p = (t.resolve name p).map σ := by
  have hglobal := global?_renumbered h name
  obtain ⟨bound, hbound⟩ : ∃ bound, (t.candidates name).map (fun c => (c.1.name, c.2)) = bound :=
    ⟨_, rfl⟩
  have hbound' : (t'.candidates name).map (fun c => (c.1.name, c.2)) =
      bound.map fun x => (x.1, σ x.2) := by
    rw [candidates_renumbered h, ← hbound, List.map_map]
    rfl
  rcases bound with _ | ⟨x, _ | ⟨y, rest⟩⟩
  · cases hid : t.global? name with
    | none =>
      rw [hid] at hglobal
      rw [resolve_unknown hbound rfl hid, resolve_unknown hbound' rfl hglobal]
      rfl
    | some id =>
      rw [hid] at hglobal
      rw [resolve_global hbound rfl hid, resolve_global hbound' rfl hglobal]
      rfl
  · rw [resolve_one hbound rfl, resolve_one hbound' rfl]
    rfl
  · rw [resolve_many hbound (by simp), resolve_many hbound' (by simp), List.map_map]
    rfl

end

theorem Renumbered.attached {σ : SymbolId → SymbolId} {t t' : SymbolTable} (h : t.Renumbered σ t') :
    List.Forall₂ (Scope.Renumbered σ) t.attached t'.attached := by
  refine List.rel_filter (fun s s' hs => ?_) h.scopes
  simp [Scope.isAttached, hs.symbol]

/-- A renumbered table leads every name to the renumbered symbol, or to the same fault. -/
theorem Renumbered.follows {σ : SymbolId → SymbolId} {t t' : SymbolTable} (h : t.Renumbered σ t')
    (hin : ∀ {name p id}, t.resolve name p = .ok id → id ∈ t.ids) : t.Follows σ t' where
  records name p id hr := h.records id (hin hr)
  resolve name p := by
    rw [resolve_renumbered h.attached, (follows_self t).resolve name p]
    cases t.resolve name p <;> rfl

end SymbolTable

/-! ## Networks -/

theorem exists_of_map_eq {α γ : Type} {f : α → γ} {as as' : List α} (h : as'.map f = as.map f)
    {a : α} (ha : a ∈ as) : ∃ a' ∈ as', f a' = f a := by
  have hmem : f a ∈ as'.map f := h ▸ List.mem_map_of_mem ha
  exact List.mem_map.mp hmem

theorem signature_eq {ds ds' : List Declaration}
    (h : ds'.map Declaration.unplaced = ds.map Declaration.unplaced) :
    signature ds' = signature ds := by
  have hkeep : ∀ ds : List Declaration, signature (ds.map Declaration.unplaced) = signature ds := by
    intro ds
    simp only [signature, List.map_map]
    rfl
  rw [← hkeep ds', h, hkeep ds]

theorem Relates.again {ns ns' : List Network} {n n' : Network} {r r' : Relation}
    (h : Relates ns n r) (hu : ns'.map Network.unplaced = ns.map Network.unplaced)
    (hn : n'.unplaced = n.unplaced) (hr : r'.unplaced = r.unplaced) : Relates ns' n' r' := by
  obtain ⟨m, hm, htarget, hne, hin, hout⟩ := h
  obtain ⟨m', hm', heq⟩ := exists_of_map_eq hu hm
  have hsame : r'.target = r.target := by
    have := congrArg Relation.target hr
    exact this
  have hside : ∀ {m m' : Network}, m'.unplaced = m.unplaced →
      signature m'.inputs = signature m.inputs ∧ signature m'.outputs = signature m.outputs :=
    fun h => ⟨signature_eq (congrArg Network.inputs h), signature_eq (congrArg Network.outputs h)⟩
  refine ⟨m', hm', ?_, ?_, ?_, ?_⟩
  · rw [Network.name_eq heq, htarget, hsame]
  · rwa [Network.name_eq heq, Network.name_eq hn]
  · rw [(hside hn).1, (hside heq).1, hin]
  · rw [(hside hn).2, (hside heq).2, hout]

namespace Typing

theorem networks_again {ns ns' : List Network}
    (hu : ns'.map Network.unplaced = ns.map Network.unplaced)
    (hclean : (networksFrom ns .empty ns).diagnostics = []) :
    (networksFrom ns' .empty ns').diagnostics = [] := by
  obtain ⟨_, hnames, hsound⟩ := networksFrom_iff.mp hclean
  have hnames' : (ns'.map Network.name).Nodup := by
    have hsame := congrArg (List.map Network.name) hu
    simp only [List.map_map] at hsame
    exact Eq.subst (motive := List.Nodup) hsame.symm hnames
  refine networksFrom_iff.mpr ⟨fun _ _ => rfl, hnames', fun n' hn' => ?_⟩
  obtain ⟨n, hn, heq⟩ := exists_of_map_eq hu.symm hn'
  have hs := hsound n hn
  have hrelations : n.relations.map Relation.unplaced = n'.relations.map Relation.unplaced :=
    congrArg Network.relations heq
  refine ⟨fun r' hr' => ?_, ?_, ?_⟩
  · obtain ⟨r, hr, hreq⟩ := exists_of_map_eq hrelations hr'
    have hrel := (relation_iff hnames).mp (hs.relations r hr)
    exact (relation_iff hnames').mpr (hrel.again hu heq.symm hreq.symm)
  · have hlen := congrArg List.length hrelations
    simp only [List.length_map] at hlen
    exact hlen ▸ hs.related
  · rw [← n'.records_names, ← Network.records_eq heq, n.records_names]
    exact hs.names

/-! ## Queries -/

theorem uint32?_repr (u : UInt32) : Number.uint32? u.toNat.repr.toList = some u := by
  obtain ⟨hd, hval⟩ := Number.natural?_eq_some_iff.mp (Number.natural?_repr u.toNat)
  exact uint32?_eq_some_iff.mpr ⟨_, .inl rfl, hd, hval.symm⟩

/-- A version in its shortest form is read back. -/
theorem versionNumbers?_versionLexeme (major minor : UInt32) :
    versionNumbers? (versionLexeme major minor) = some (major, minor) := by
  have htext : (versionLexeme major minor).toList =
      major.toNat.repr.toList ++ '.' :: minor.toNat.repr.toList := by simp [versionLexeme]
  have hpoint : '.' ∉ major.toNat.repr.toList := (Token.repr_isDigits _).not_mem (by decide)
  rw [versionNumbers?, atPoint?_eq_some_iff.mpr ⟨htext, hpoint⟩]
  simp only [uint32?_repr]

/-- A query that is checked without a report is so again in other places, and gives the same typed
query up to spans and the numbers of its symbols. -/
theorem query_again {policy : LiteralPolicy} {q q' : Query}
    (hclean : (query policy q).diagnostics = []) (ha : q.Alike q')
    (ho : ∀ n ∈ q.networks, n.InOrder) (ho' : ∀ n ∈ q'.networks, n.InOrder)
    (hv : q'.version.lexeme = versionLexeme (query policy q).value.version.major
      (query policy q).value.version.minor) :
    (query policy q').diagnostics = [] ∧
      ∃ σ, (query policy q).value.Renumbered σ (query policy q').value := by
  obtain ⟨_, hnetworks, _⟩ := query_diagnostics_iff.mp hclean
  obtain ⟨_, hnames, hsound⟩ := networksFrom_iff.mp hnetworks
  obtain ⟨_, _, hconditions⟩ := query_clean hclean
  have htensors := fun n hn => (hsound n hn).names
  have hnetworks' := networks_again ha.networks hnetworks
  have hvalue' := networksFrom_value hnetworks'
  have htable := SymbolTable.renumbered_ofNetworks ha.networks hnames htensors
  have hfollows := htable.follows (SymbolTable.resolve_mem_ids (ofNetworks_holds q.networks))
  have hsame := assertions_relaid hfollows policy ha.assertions
  have hversion : version q'.version = pure ⟨(query policy q).value.version.major,
      (query policy q).value.version.minor, q'.version.span⟩ := by
    rw [version, hv, versionNumbers?_versionLexeme]
  have hconditions' : ∀ a ∈ q'.assertions,
      (formula (.ofNetworks q'.networks) policy a.condition).diagnostics = [] := by
    have hnone : (assertions (.ofNetworks q.networks) policy q.assertions).diagnostics = [] := by
      simpa [assertions_diagnostics] using hconditions
    have hnone' : (assertions (.ofNetworks q'.networks) policy q'.assertions).diagnostics = [] := by
      rwa [← Checked.diagnostics_erased_eq_nil_iff, hsame, Checked.diagnostics_erased_eq_nil_iff]
    simpa [assertions_diagnostics] using hnone'
  have hclean' : (query policy q').diagnostics = [] := by
    rw [query_diagnostics_iff, hversion, hvalue']
    exact ⟨rfl, hnetworks', hconditions'⟩
  have hmajor : (query policy q').value.version.major = (query policy q).value.version.major := by
    rw [query_value hclean', hversion]
    rfl
  have hminor : (query policy q').value.version.minor = (query policy q).value.version.minor := by
    rw [query_value hclean', hversion]
    rfl
  refine ⟨hclean', SymbolTable.renumbering (.ofNetworks q.networks) (.ofNetworks q'.networks), ?_,
    hmajor, hminor, ?_, ?_⟩
  · rw [query_value hclean, query_value hclean']
    exact htable
  · rw [query_value hclean, query_value hclean']
    exact Network.typedFrom_relabel ha.networks hnames htensors ho ho'
  · rw [query_value hclean, query_value hclean', ← assertions_value, ← assertions_value]
    exact congrArg (fun c => c.value) hsame

end Typing
end NeuralQuery
