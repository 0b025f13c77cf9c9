import Mathlib.Data.List.Basic
import NeuralQuery.Proofs.Framing

/-!
# NeuralQuery.Proofs.Independence

Assertions are checked each by itself (`Query.assertions_checked_apart`).

All of them are checked in one state, one after the other. But the check of an expression only adds
reports, and no check looks at the reports before it, so each assertion finds the state that the
networks left behind (`Checker.assertions_leads`). A query with other assertions therefore differs
in these assertions and in their blocks of reports only (`Checker.query_leads`). A selection of
assertions, which may leave some out, repeat others and put them in another order, is checked as the
same selection of typed assertions and of blocks.
-/

namespace NeuralQuery

/-- The query with other assertions. -/
def Query.asserting (q : Query) (as : List Assertion) : Query :=
  { q with assertions := as }

def Typed.Query.asserting (q : Typed.Query) (as : List Typed.Assertion) : Typed.Query :=
  { q with assertions := as }

/-- The elements at these places of a row, in this order. -/
def select {α : Type} (places : List Nat) (row : List α) : List α :=
  places.filterMap fun i => row[i]?

theorem map_select {α β : Type} (f : α → β) (places : List Nat) (row : List α) :
    (select places row).map f = select places (row.map f) := by
  rw [select, List.map_filterMap, select]
  exact List.filterMap_congr fun i _ => by rw [List.getElem?_map]

namespace Checker

/-- The state that the networks of a query leave behind. -/
def afterNetworks (policy : LiteralPolicy) (q : Query) : Checker :=
  (networks q.networks (start policy q)).2

/-- An assertion as it is checked in a state. -/
def typed (c : Checker) (a : Assertion) : Typed.Assertion :=
  (assertion a (c.reporting [])).1

/-- What is reported about an assertion that is checked in a state. -/
def block (c : Checker) (a : Assertion) : List Diagnostic :=
  (assertion a (c.reporting [])).2.diagnostics

theorem assertion_leads (c : Checker) (a : Assertion) :
    Leads (assertion a) c ⟨c.typed a, c.block a⟩ c := by
  obtain ⟨y, hy⟩ := assertion_framed a c
  have htyped : c.typed a = y.value := congrArg Prod.fst (hy [])
  have hblock : c.block a = y.diagnostics := congrArg (fun r => r.2.diagnostics) (hy [])
  rw [htyped, hblock]
  exact hy

theorem assertions_leads (c : Checker) (as : List Assertion) :
    Leads (assertions as) c ⟨as.map c.typed, as.flatMap c.block⟩ c := by
  induction as with
  | nil => exact .pure c []
  | cons a as ih =>
    have hrest : Leads (assertions as >>= fun others => pure (c.typed a :: others)) c
        ⟨c.typed a :: as.map c.typed, as.flatMap c.block ++ []⟩ c :=
      ih.bind (g := fun others => pure (c.typed a :: others)) (.pure c _)
    rw [List.append_nil] at hrest
    exact (assertion_leads c a).bind
      (g := fun t => ⟨t :: as.map c.typed, as.flatMap c.block⟩) hrest

/-- The pass over a query, whatever is asserted in it. -/
theorem query_leads (policy : LiteralPolicy) (q : Query) :
    ∃ v ns ds, ∀ as, Leads (query (q.asserting as)) (start policy q)
      ⟨⟨v, ns, as.map (afterNetworks policy q).typed, (afterNetworks policy q).symbols.table,
          q.span⟩,
        ds ++ as.flatMap (afterNetworks policy q).block⟩
      (afterNetworks policy q) := by
  obtain ⟨v, hv⟩ := version_framed q.version (start policy q)
  obtain ⟨ns, c, hns⟩ := networks_steady q.networks (start policy q)
  have hafter : afterNetworks policy q = c.reporting ns.diagnostics := congrArg Prod.snd (hns [])
  have hns' : Leads (networks q.networks) (start policy q) ns (afterNetworks policy q) := by
    rw [hafter]
    exact hns
  refine ⟨v.value, ns.value, v.diagnostics ++ ns.diagnostics, fun as => ?_⟩
  let c' := afterNetworks policy q
  let result (typed : List Typed.Assertion) : Checked Typed.Query :=
    pure ⟨v.value, ns.value, typed, c'.symbols.table, q.span⟩
  let asserted : Checked (List Typed.Assertion) := ⟨as.map c'.typed, as.flatMap c'.block⟩
  have hasserted : Leads (assertions as >>= fun typed => get >>= fun c =>
      pure ⟨v.value, ns.value, typed, c.symbols.table, q.span⟩) c' (asserted >>= result) c' :=
    (assertions_leads c' as).bind (.get_bind (fun ds => rfl) (.pure c' _))
  have hquery : Leads (query (q.asserting as)) (start policy q)
      (v >>= fun _ => ns >>= fun _ => asserted >>= result) c' :=
    hv.bind (hns'.bind hasserted)
  have hresult : (v >>= fun _ => ns >>= fun _ => asserted >>= result) =
      ⟨(result (as.map c'.typed)).value,
        v.diagnostics ++ ns.diagnostics ++ as.flatMap c'.block⟩ := by
    ext1
    · rfl
    · simp [asserted, result]
  rw [hresult] at hquery
  exact hquery

end Checker

/-- What is reported about each assertion of a query. -/
def Query.assertionBlocks (policy : LiteralPolicy) (q : Query) : List (List Diagnostic) :=
  q.assertions.map (Checker.afterNetworks policy q).block

/-- A query whose assertions are checked each by itself. -/
structure Query.ChecksApart (policy : LiteralPolicy) (q : Query) : Prop where
  /-- In any state and in any place, the check of an expression only adds reports, and what it gives
  and adds does not depend on the reports before. -/
  frame : ∀ e, Checker.Framed (Checker.formula e) ∧ Checker.Framed (Checker.arith e)
  /-- The symbols are those that the networks leave behind. -/
  table : (Checker.query q (.start policy q)).2.symbols =
      (Checker.afterNetworks policy q).symbols ∧
    (Checker.check policy q).value.symbols = (Checker.afterNetworks policy q).symbols.table
  /-- Behind all other reports stands a block for each assertion. -/
  blocks : (Checker.check policy q).diagnostics =
    (Checker.check policy (q.asserting [])).diagnostics ++ (q.assertionBlocks policy).flatten
  /-- An assertion that stands alone has the same typed assertion and the same block. -/
  alone : ∀ (i : Nat) (a : Assertion), q.assertions[i]? = some a →
    ∃ typed block, (Checker.check policy q).value.assertions[i]? = some typed ∧
      (q.assertionBlocks policy)[i]? = some block ∧
      Checker.check policy (q.asserting [a]) =
        ⟨(Checker.check policy q).value.asserting [typed],
          (Checker.check policy (q.asserting [])).diagnostics ++ block⟩
  /-- A selection of assertions is checked as the same selection of all that belongs to them. -/
  selected : ∀ places : List Nat,
    Checker.check policy (q.asserting (select places q.assertions)) =
      ⟨(Checker.check policy q).value.asserting
          (select places (Checker.check policy q).value.assertions),
        (Checker.check policy (q.asserting [])).diagnostics ++
          (select places (q.assertionBlocks policy)).flatten⟩

/-- The assertions of a query have nothing to do with each other. -/
theorem Query.assertions_checked_apart (q : Query) (options : BuildOptions) :
    q.ChecksApart options.policy := by
  obtain ⟨v, ns, ds, hquery⟩ := Checker.query_leads options.policy q
  let c := Checker.afterNetworks options.policy q
  have hcheck : ∀ as, Checker.check options.policy (q.asserting as) =
      ⟨⟨v, ns, as.map c.typed, c.symbols.table, q.span⟩, ds ++ as.flatMap c.block⟩ :=
    fun as => congrArg (fun r => (⟨r.1, r.2.diagnostics⟩ : Checked Typed.Query)) (hquery as [])
  have hall : Checker.check options.policy q = _ := hcheck q.assertions
  have hfront : (Checker.check options.policy (q.asserting [])).diagnostics = ds := by
    rw [hcheck, List.flatMap_nil, List.append_nil]
  refine ⟨fun e => ⟨Checker.formula_framed e, Checker.arith_framed e⟩, ⟨?_, ?_⟩, ?_,
    fun i a ha => ?_, fun places => ?_⟩
  · exact congrArg (fun r => r.2.symbols) (hquery q.assertions [])
  · rw [hall]
  · rw [hall, hfront, Query.assertionBlocks, List.flatMap_def]
  · refine ⟨c.typed a, c.block a, ?_, ?_, ?_⟩
    · rw [hall, List.getElem?_map, ha, Option.map_some]
    · rw [Query.assertionBlocks, List.getElem?_map, ha, Option.map_some]
    · rw [hcheck, hfront, hall, List.flatMap_singleton]
      rfl
  · rw [hcheck, hfront, hall, List.flatMap_def, map_select, map_select]
    rfl

end NeuralQuery
