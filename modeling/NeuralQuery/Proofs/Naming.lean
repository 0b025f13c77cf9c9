import NeuralQuery.Proofs.SymbolAgreement

/-!
# NeuralQuery.Proofs.Naming

Which names stand for tensors, whatever is wrong with the networks.

Only a network that is the first of its name is searched for tensors (`Network.leading`). A name
stands for a tensor if exactly one of these networks declares it (`Query.isTensor`), and that is
when looking it up in the table of the query leads to a tensor (`Query.resolves_iff`).
-/

namespace NeuralQuery

namespace Network

/-- The networks that are the first of their name. -/
def leading : List Network → List Network
  | [] => []
  | n :: ns => n :: (leading ns).filter fun m => m.name != n.name

def declares (n : Network) (name : String) : Bool :=
  n.declarations.any fun d => d.name == name

theorem leading_concat (ns : List Network) (n : Network) :
    leading (ns ++ [n]) = leading ns ++ if n.name ∈ ns.map Network.name then [] else [n] := by
  induction ns with
  | nil => rfl
  | cons m ns ih =>
    rw [List.cons_append, leading, ih, List.filter_append, leading, List.cons_append,
      List.map_cons]
    by_cases hm : n.name = m.name
    · simp only [hm, List.mem_cons, true_or, if_true]
      split <;> simp [hm]
    · simp only [List.mem_cons, hm, false_or]
      split <;> simp [hm]

end Network

/-- A name stands for a tensor if one of the networks that are the first of their name declares it,
and no other one does. -/
def Query.isTensor (q : Query) (name : String) : Bool :=
  (Network.leading q.networks).countP (fun n => n.declares name) == 1

/-! ## Candidates -/

namespace SymbolTable

/-- The scope of a network binds the names that the network declares. -/
theorem get?_bindAll_isSome (n : Network) (own : Option SymbolId) (start : Nat) (v : String) :
    (((⟨n.name, own, []⟩ : Scope).bindAll start n.tensors).get? v).isSome = n.declares v := by
  have hany : (n.tensors.map Prod.snd).any (fun d => d.name == v) = n.declares v :=
    n.tensors_perm.any_eq
  rw [← hany, Scope.get?_bindAll, List.any_map]
  simp [Scope.get?, Function.comp_def]

/-- A network is searched for a name if it was the first of its name. -/
theorem candidates_enter_length (t : SymbolTable) (n : Network) (v : String) :
    ((t.enter n).candidates v).length =
      (t.candidates v).length + if (t.own? n.name).isSome && n.declares v then 1 else 0 := by
  have hget := get?_bindAll_isSome n (t.own? n.name) (t.firstTensor n.name) v
  rw [candidates, enter, List.filter_append, List.filterMap_append, List.length_append, candidates]
  congr 1
  rw [← hget, List.filter_singleton, Scope.isAttached, Scope.symbol_bindAll]
  cases hown : (t.own? n.name).isSome with
  | false => rfl
  | true =>
    simp only [Bool.cond_true, List.filterMap_cons, List.filterMap_nil, Bool.true_and]
    cases Scope.get? _ v <;> rfl

theorem candidates_foldl_enter_length (ns : List Network) (v : String) :
    ((ns.foldl enter empty).candidates v).length =
      (Network.leading ns).countP fun n => n.declares v := by
  induction ns using List.reverseRecOn with
  | nil => rfl
  | append_singleton ns n ih =>
    rw [List.foldl_append, List.foldl_cons, List.foldl_nil, candidates_enter_length, ih,
      Network.leading_concat, List.countP_append, own?_foldl_enter]
    congr 1
    split
    · rfl
    · simp [List.countP_singleton]

/-- A name leads to a tensor if it has one candidate. -/
theorem Binds.resolves_iff {t : SymbolTable} (h : t.Binds) (v : String) (p : Position) :
    (∃ id, t.resolve v p = .ok id ∧ (t.get id).kind ≠ .network) ↔
      (t.candidates v).length = 1 := by
  constructor
  · rintro ⟨id, hr, hkind⟩
    rcases resolve_eq_ok_iff.mp hr with hone | ⟨_, hglobal⟩
    · simpa using congrArg List.length hone
    · -- a name without candidates leads to a network at most
      obtain ⟨s, hs, hsym⟩ := List.exists_of_findSome?_eq_some hglobal
      split at hsym
      · exact absurd (by rw [get_eq (h.own s hs id hsym)]; rfl) hkind
      · cases hsym
  · intro hlength
    obtain ⟨⟨s, id⟩, hone⟩ := List.length_eq_one_iff.mp hlength
    have hmem : (s, id) ∈ t.candidates v := hone ▸ List.mem_singleton_self _
    obtain ⟨s', hs', hget⟩ := List.mem_filterMap.mp hmem
    obtain ⟨id', hget, heq⟩ := Option.map_eq_some_iff.mp hget
    cases heq
    obtain ⟨_, record, role, hrecord, _, _, hkind⟩ :=
      h.tensors s (List.mem_of_mem_filter hs') v id hget
    refine ⟨id, resolve_eq_ok_iff.mpr (.inl (by rw [hone]; rfl)), ?_⟩
    rw [get_eq hrecord, hkind]
    simp

end SymbolTable

theorem Query.resolves_iff (policy : LiteralPolicy) (q : Query) (v : String) (p : Position) :
    (∃ id, (Typing.query policy q).value.symbols.resolve v p = .ok id ∧
      ((Typing.query policy q).value.symbols.get id).kind ≠ .network) ↔ q.isTensor v = true := by
  have hbinds := SymbolTable.binds_empty.foldl_enter q.networks
  rw [Typing.query_symbols, hbinds.resolves_iff, SymbolTable.candidates_foldl_enter_length,
    Query.isTensor, beq_iff_eq]

end NeuralQuery
