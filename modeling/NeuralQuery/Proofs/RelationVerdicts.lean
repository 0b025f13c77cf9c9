import NeuralQuery.Proofs.NetworkOrder
import NeuralQuery.Proofs.PolicyRuns
import NeuralQuery.Proofs.Reparsing

/-!
# NeuralQuery.Proofs.RelationVerdicts

What the check of a network makes of its relations (`Query.relations_judged`).

* `Relation.Verdict` : what is wrong with a relation by itself, told from the names and signatures
  of the networks of the query.
* `Network.Judged`   : the reports of a network have a block for each relation, with its verdict
  and, behind all but the first, that relations contradict each other. Reports of taken names stand
  in between. The networks that it is isometric and equal to are the targets of the first relations
  of these kinds that lead to another network.
-/

namespace NeuralQuery

/-! ## Verdicts -/

/-- The first of these networks that has the name. -/
def Network.IsFirst (networks : List Network) (name : String) (m : Network) : Prop :=
  m.name = name ∧ ∃ front back, networks = front ++ m :: back ∧ ∀ l ∈ front, l.name ≠ name

namespace Relation

/-- What is wrong with a relation of the network `n`. -/
inductive Verdict (networks : List Network) (n : Network) (r : Relation) : List Fault → Prop where
  | self : r.target = n.name → Verdict networks n r [.selfRelation n.name]
  | undeclared : r.target ≠ n.name → (∀ m ∈ networks, m.name ≠ r.target) →
      Verdict networks n r [.networkNotDeclared r.target]
  | mismatch {m : Network} {detail : String} : r.target ≠ n.name →
      Network.IsFirst networks r.target m →
      signature n.inputs ≠ signature m.inputs ∨ signature n.outputs ≠ signature m.outputs →
      Typing.signatureMismatch? n m = some detail →
      Verdict networks n r [.signatureMismatch n.name r.target detail]
  | sound {m : Network} : r.target ≠ n.name → Network.IsFirst networks r.target m →
      signature n.inputs = signature m.inputs → signature n.outputs = signature m.outputs →
      Verdict networks n r []

/-- The relation leads to another network of the query. -/
def leads (networks : List Network) (n : Network) (r : Relation) : Bool :=
  r.target != n.name && networks.any fun m => m.name == r.target

end Relation

namespace Typing

open Checked

theorem declared?_eq_none_iff {networks : List Network} {name : String} :
    declared? networks name = none ↔ ∀ m ∈ networks, m.name ≠ name := by
  simp [declared?, List.find?_eq_none]

theorem isFirst_of_declared? {networks : List Network} {name : String} {m : Network}
    (h : declared? networks name = some m) : Network.IsFirst networks name m := by
  obtain ⟨hname, front, back, hsplit, hfront⟩ := List.find?_eq_some_iff_append.mp h
  refine ⟨by simpa using hname, front, back, hsplit, fun l hl => ?_⟩
  simpa using hfront l hl

variable (networks : List Network) (n : Network)

theorem relation_verdict (r : Relation) :
    ∃ faults, r.Verdict networks n faults ∧
      (relation networks n r).diagnostics = faults.map fun f => ⟨f, r.span.position⟩ := by
  unfold relation
  by_cases hself : r.target = n.name
  · rw [if_pos hself]
    exact ⟨_, .self hself, rfl⟩
  · rw [if_neg hself]
    cases hm : declared? networks r.target with
    | none => exact ⟨_, .undeclared hself (declared?_eq_none_iff.mp hm), rfl⟩
    | some m =>
      have hfirst := isFirst_of_declared? hm
      cases hdetail : signatureMismatch? n m with
      | none =>
        obtain ⟨hinputs, houtputs⟩ := signatureMismatch?_eq_none_iff.mp hdetail
        exact ⟨_, .sound hself hfirst hinputs houtputs, by simp [hdetail]⟩
      | some detail =>
        have hdiffer : ¬(signature n.inputs = signature m.inputs ∧
            signature n.outputs = signature m.outputs) := by
          intro hsame
          rw [signatureMismatch?_eq_none_iff.mpr hsame] at hdetail
          cases hdetail
        exact ⟨_, .mismatch hself hfirst (Decidable.not_and_iff_not_or_not.mp hdiffer) hdetail,
          by simp [hdetail]⟩

theorem relation_leads (r : Relation) :
    (relation networks n r).value = r.leads networks n := by
  unfold relation Relation.leads
  by_cases hself : r.target = n.name
  · simp [hself]
  · have hother : (r.target != n.name) = true := by simpa using hself
    rw [if_neg hself, hother, Bool.true_and]
    cases hm : declared? networks r.target with
    | none =>
      have hnone : (networks.any fun m => m.name == r.target) = false := by
        simpa using declared?_eq_none_iff.mp hm
      rw [hnone]
      rfl
    | some m =>
      have hsome : (networks.any fun m => m.name == r.target) = true := by
        have hmem := List.mem_of_find?_eq_some hm
        exact List.any_eq_true.mpr ⟨m, hmem, by simpa using (isFirst_of_declared? hm).1⟩
      rw [hsome]
      cases hdetail : signatureMismatch? n m <;> simp [hdetail]

end Typing

/-! ## One network -/

namespace Network

/-- The relations of a network in the order in which they are checked. -/
def related (n : Network) : List Relation :=
  n.items.filterMap Item.relation?

/-- The block of a relation with so many others before it. -/
def IsVerdictBlock (networks : List Network) (n : Network) (p : Relation × Nat)
    (block : List Diagnostic) : Prop :=
  ∃ faults, p.1.Verdict networks n faults ∧
    block = (faults ++ if p.2 = 0 then [] else [Fault.contradictoryRelations n.name]).map
      fun f => ⟨f, p.1.span.position⟩

/-- A report that a name is taken. -/
def IsNameReport (n : Network) (d : Diagnostic) : Prop :=
  d.fault = .networkAlreadyDeclared n.name ∨ ∃ v, d.fault = .variableAlreadyDeclared v n.name

/-- The relations of a network are judged by these reports and slots. -/
structure Judged (networks : List Network) (n : Network) (typed : Typed.Network)
    (reports : List Diagnostic) : Prop where
  blocks : ∃ verdicts names all, reports = all.flatten ∧ Woven verdicts names all ∧
    List.Forall₂ (n.IsVerdictBlock networks) n.related.zipIdx verdicts ∧
    ∀ block ∈ names, ∀ d ∈ block, n.IsNameReport d
  isometricTo : typed.isometricTo = (n.related.find? fun r =>
    r.kind == .isometric && r.leads networks n).map Relation.target
  equalTo : typed.equalTo = (n.related.find? fun r =>
    r.kind == .equal && r.leads networks n).map Relation.target

variable (networks : List Network) (n : Network)

/-- The forms that are left report in blocks, with `count` relations before them. -/
theorem reportsWithin_blocks (items : List Item) :
    ∀ (count : Nat) (taken : List String), ∃ verdicts names all,
      n.reportsWithin networks count taken items = all.flatten ∧ Woven verdicts names all ∧
      List.Forall₂ (n.IsVerdictBlock networks) ((items.filterMap Item.relation?).zipIdx count)
        verdicts ∧
      ∀ block ∈ names, ∀ d ∈ block, n.IsNameReport d := by
  induction items with
  | nil =>
    intro count taken
    exact ⟨[], [], [], rfl, .nil, .nil, by simp⟩
  | cons i items ih =>
    intro count taken
    cases i with
    | relation r =>
      obtain ⟨verdicts, names, all, hall, hwoven, hverdicts, hnames⟩ := ih (count + 1) taken
      obtain ⟨faults, hverdict, hreports⟩ := Typing.relation_verdict networks n r
      -- the verdict, and the contradiction to the relations before this one
      let block := (Typing.relation networks n r).diagnostics ++
        if count = 0 then [] else [⟨.contradictoryRelations n.name, r.span.position⟩]
      have hblock : n.IsVerdictBlock networks (r, count) block := by
        refine ⟨faults, hverdict, ?_⟩
        simp only [block]
        rw [hreports, List.map_append]
        congr 1
        split <;> rfl
      refine ⟨block :: verdicts, names, block :: all, ?_, .left hwoven, .cons hblock hverdicts,
        hnames⟩
      rw [reportsWithin, hall]
      rfl
    | tensor role d =>
      by_cases hd : d.name ∈ taken
      · obtain ⟨verdicts, names, all, hall, hwoven, hverdicts, hnames⟩ := ih count taken
        refine ⟨verdicts, _, [⟨.variableAlreadyDeclared d.name n.name, d.span.position⟩] :: all, ?_,
          .right hwoven, hverdicts, List.forall_mem_cons.mpr ⟨?_, hnames⟩⟩
        · rw [reportsWithin, if_pos hd, hall]
          rfl
        · exact List.forall_mem_singleton.mpr (.inr ⟨d.name, rfl⟩)
      · obtain ⟨verdicts, names, all, hall, hrest⟩ := ih count (taken ++ [d.name])
        refine ⟨verdicts, names, all, ?_, hrest⟩
        rw [reportsWithin, if_neg hd, hall]

theorem findSome?_resolved (kind : RelationKind) (items : List Item) :
    items.findSome? (Item.resolved? networks n kind) =
      ((items.filterMap Item.relation?).find? fun r =>
        r.kind == kind && r.leads networks n).map Relation.target := by
  induction items with
  | nil => rfl
  | cons i items ih =>
    cases i with
    | tensor role d => exact ih
    | relation r =>
      have hhead : (Item.relation r :: items).filterMap Item.relation? =
          r :: items.filterMap Item.relation? := rfl
      rw [hhead, List.findSome?_cons, List.find?_cons, Item.resolved?, Typing.relation_leads]
      by_cases hr : r.kind = kind ∧ r.leads networks n = true
      · simp [hr.1, hr.2]
      · have hskip : (r.kind == kind && r.leads networks n) = false := by simpa using hr
        rw [if_neg hr, hskip]
        exact ih

/-- The check of a network judges its relations, in any table. -/
theorem judged_checked (t : SymbolTable) :
    n.Judged networks (n.checked networks t) (n.reports networks t) where
  blocks := by
    obtain ⟨verdicts, names, all, hall, hwoven, hverdicts, hnames⟩ :=
      n.reportsWithin_blocks networks n.items 0 []
    refine ⟨verdicts, n.ownReports t :: names, n.ownReports t :: all, ?_, .right hwoven, hverdicts,
      List.forall_mem_cons.mpr ⟨fun d hd => ?_, hnames⟩⟩
    · rw [reports, hall]
      rfl
    · rw [ownReports] at hd
      split at hd
      · obtain rfl := List.mem_singleton.mp hd
        exact .inl rfl
      · cases hd
  isometricTo := n.findSome?_resolved networks .isometric n.items
  equalTo := n.findSome?_resolved networks .equal n.items

/-- Relations are checked in written order exactly if they start in that order: forms that start at
one offset keep their order, and tensors in between do not matter. -/
theorem related_eq_relations_iff :
    n.related = n.relations ↔ n.relations.Pairwise fun r s => r.span.start ≤ s.span.start := by
  constructor
  · intro h
    rw [← h, related, List.pairwise_filterMap]
    refine (Typing.items_ordered n).imp fun {i j} hij r hr s hs => ?_
    cases i with
    | tensor role d => cases hr
    | relation r =>
      cases j with
      | tensor role d => cases hs
      | relation s =>
        cases hr
        cases hs
        exact hij
  · intro h
    have hgrouped : (n.relations.map Item.relation).Sublist n.grouped := by
      simp only [grouped, List.append_assoc]
      exact List.sublist_append_left ..
    have hordered : (n.relations.map Item.relation).Pairwise fun i j =>
        decide (i.span.start ≤ j.span.start) = true :=
      List.pairwise_map.mpr (h.imp fun hrs => decide_eq_true hrs)
    have hsub := (List.sublist_mergeSort (by simp; omega) (by simp; omega) hordered
      hgrouped).filterMap Item.relation?
    have hrow : (n.relations.map Item.relation).filterMap Item.relation? = n.relations := by
      simp [List.filterMap_map, Function.comp_def, Item.relation?]
    rw [hrow] at hsub
    exact (hsub.eq_of_length n.relations_perm.length_eq.symm).symm

end Network

/-! ## Queries -/

theorem Typing.getElem?_checkedFrom (networks : List Network) {n : Network} :
    ∀ {ns : List Network} {k : Nat} (t : SymbolTable), ns[k]? = some n →
      ∃ t', (checkedFrom networks t ns)[k]? = some (n.checked networks t') ∧
        (networkReports networks t ns)[k]? = some (n.reports networks t') := by
  intro ns
  induction ns with
  | nil =>
    intro k t h
    cases h
  | cons m ns ih =>
    intro k t h
    rw [checkedFrom, networkReports, network_eq]
    cases k with
    | zero =>
      cases h
      exact ⟨t, rfl, rfl⟩
    | succ k => exact ih (t.enter m) h

/-- Every network of a query that was parsed has its relations judged, in the order in which they
are checked. That is the written one exactly if they start one behind the other, as they do if the
tokens are those of a text of fewer than `2 ^ 32` bytes. -/
theorem Query.relations_judged {tokens : List Token} {file : String} {q : Query}
    (h : Query.ofTokens tokens file = .ok q) (policy : LiteralPolicy) {k : Nat} {n : Network}
    (hn : q.networks[k]? = some n) :
    q.InBlocks policy ∧
    (∃ typed reports, (Typing.query policy q).value.networks[k]? = some typed ∧
      q.networkReports[k]? = some reports ∧ n.Judged q.networks typed reports) ∧
    n.related.Perm n.relations ∧
    (n.related = n.relations ↔
      n.relations.Pairwise fun r s => r.span.start ≤ s.span.start) ∧
    ∀ source, Token.tokenize source file = .ok tokens →
      Text.byteLength source.toList < UInt32.size → n.related = n.relations := by
  refine ⟨q.inBlocks policy, ?_, n.relations_perm, n.related_eq_relations_iff,
    fun source htok hsize => ?_⟩
  · obtain ⟨t, htyped, hreports⟩ := Typing.getElem?_checkedFrom q.networks .empty hn
    rw [Typing.query_networks]
    exact ⟨_, _, htyped, hreports, n.judged_checked q.networks t⟩
  · obtain ⟨row, span, rfl, _⟩ := Token.Scan.tokens_row htok
    have hderives := (Query.ofTokens_tokenize_iff htok).mp h
    have horder := hderives.inOrder ((Token.tokenize_row htok).2.2 hsize) n
      (List.mem_of_getElem? hn)
    exact congrArg Network.relations horder

/-- A network without tensors that is to be isometric to one with an input. -/
def Query.unevenPairSource : String :=
  "(vnnlib-version<2.0>)(declare-network N(isometric-to M))" ++
    "(declare-network M(declare-input x Real[]))"

/-- The target is kept though the signatures differ. -/
theorem Query.unevenPair_judged :
    ∃ tokens q n typed, Query.ofTokens tokens "q" = .ok q ∧ q.networks[0]? = some n ∧
      (Typing.query .keep q).value.networks[0]? = some typed ∧
      q.networkReports[0]? =
        some [⟨.signatureMismatch "N" "M" "0 inputs against 1", ⟨39, "q"⟩⟩] ∧
      n.Judged q.networks typed [⟨.signatureMismatch "N" "M" "0 inputs against 1", ⟨39, "q"⟩⟩] ∧
      n.related = n.relations ∧ typed.isometricTo = some "M" := by
  have hfacts : (Token.tokenize Query.unevenPairSource "q").toOption.any (fun tokens =>
      (Query.ofTokens tokens "q").toOption.any fun q =>
        q.networkReports[0]? == some [⟨.signatureMismatch "N" "M" "0 inputs against 1",
          ⟨39, "q"⟩⟩] &&
        q.networks[0]?.any fun n =>
          (n.related.find? fun r => r.kind == .isometric && r.leads q.networks n).map
            Relation.target == some "M") = true := by
    decide +kernel
  obtain ⟨q, ⟨tokens, htok, hq⟩, hfacts⟩ := Query.exists_readFrom hfacts
  rw [Bool.and_eq_true, beq_iff_eq, Option.any_eq_true] at hfacts
  obtain ⟨hreports, n, hn, htarget⟩ := hfacts
  obtain ⟨_, ⟨typed, reports, htyped, hblock, hjudged⟩, _, _, horder⟩ :=
    Query.relations_judged hq .keep hn
  obtain rfl := Option.some.inj (hblock.symm.trans hreports)
  exact ⟨tokens, q, n, typed, hq, hn, htyped, hreports, hjudged,
    horder _ htok (by decide +kernel), hjudged.isometricTo.trans (beq_iff_eq.mp htarget)⟩

/-- Of two relations on either side of byte `2 ^ 32` the second one is judged first, and it is the
first one that is found to contradict the other. -/
theorem Query.straddlingRelations_reversed :
    ∃ (q : Query) (n : Network) (r s : Relation),
      q.ReadFrom (Token.spaced Build.straddlingRelations) "<string>" ∧ q.networks = [n] ∧
      n.relations = [r, s] ∧ n.related = [s, r] ∧ s.span.position ≠ r.span.position ∧
      q.networkReports = [[⟨.networkNotDeclared "M", s.span.position⟩,
        ⟨.selfRelation "N", r.span.position⟩, ⟨.contradictoryRelations "N", r.span.position⟩]] := by
  obtain ⟨tokens, q, htok, hq, _, hnetworks, _⟩ := Build.straddlingRelations_read
  refine ⟨q, .straddling, _, _, ⟨tokens, htok, hq⟩, hnetworks, rfl, ?_, by decide, ?_⟩
  · rw [Network.related, Network.straddling_items]
    rfl
  · rw [Query.networkReports, hnetworks, Network.straddling_reports]
    rfl

end NeuralQuery
