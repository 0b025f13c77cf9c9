import NeuralQuery.Proofs.Recovery
import NeuralQuery.Proofs.Spans
import NeuralQuery.Proofs.Walks

/-!
# NeuralQuery.Proofs.WalkOrder

The walk over a typed query, against the text it was built from (`Build.walk_follows_text`).

The check keeps the spans of what it checks: a checked condition has the tree of the condition, with
gaps that have the spans of what was refused (`Tree.Nested.prune`), and the tensors of a checked
network stand where they are declared (`Network.spans_definitions`). So the nodes of a typed query
are orderly, as the forms of the text are. But a network lists its tensors by their roles, and only
`Typed.Network.ByRole` makes that the order of the text (`Network.placed_checked`).
-/

namespace NeuralQuery

open Typed (Node)

namespace Typed

/-- Inputs are declared before hidden tensors, and these before outputs. -/
def Network.ByRole (n : Network) : Prop :=
  (∀ d ∈ n.inputs, ∀ e ∈ n.hidden ++ n.outputs, d.span.start ≤ e.span.start) ∧
    ∀ d ∈ n.hidden, ∀ e ∈ n.outputs, d.span.start ≤ e.span.start

/-- Where the tensors of each role are in written order, the roles decide about all of them. -/
theorem Network.byRole_iff {n : Network}
    (hinputs : n.inputs.Pairwise fun d e => d.span.start ≤ e.span.start)
    (hhidden : n.hidden.Pairwise fun d e => d.span.start ≤ e.span.start)
    (houtputs : n.outputs.Pairwise fun d e => d.span.start ≤ e.span.start) :
    (n.definitions.Pairwise fun d e => d.span.start ≤ e.span.start) ↔ n.ByRole := by
  rw [definitions, List.pairwise_append, List.pairwise_append]
  constructor
  · rintro ⟨⟨_, _, hinput⟩, _, houtput⟩
    refine ⟨fun d hd e he => ?_, fun d hd e he => houtput d (List.mem_append_right _ hd) e he⟩
    rcases List.mem_append.mp he with he | he
    · exact hinput d hd e he
    · exact houtput d (List.mem_append_left _ hd) e he
  · rintro ⟨hinput, hhidden'⟩
    refine ⟨⟨hinputs, hhidden, fun d hd e he => ?_⟩, houtputs, fun d hd e he => ?_⟩
    · exact hinput d hd e (List.mem_append_left _ he)
    · rcases List.mem_append.mp hd with hd | hd
      · exact hinput d hd e (List.mem_append_right _ he)
      · exact hhidden' d hd e he

/-- An orderly node with its children in written order, unless it is a network with tensors declared
in another order than by role. -/
def Node.Placed (x : Node) : Prop :=
  x.Orderly ∧ (x.InWrittenOrder ↔ ∀ n, x = .network n → n.ByRole)

theorem Node.placed_of_splits {x : Node} (h : x.span.Splits (x.children.map span))
    (hx : ∀ n, x ≠ .network n) : x.Placed := by
  have hapart := h.apart
  rw [List.pairwise_map] at hapart
  refine ⟨⟨List.forall_mem_map.mp h.inside, hapart.imp .inl⟩, fun _ n hn => absurd hn (hx n), ?_⟩
  exact fun _ => hapart

theorem Node.placed_of_leaf {x : Node} (h : x.children = []) (hx : ∀ n, x ≠ .network n) :
    ∀ y ∈ x.descendants, y.Placed := by
  intro y hy
  rw [descendants_eq, h] at hy
  obtain rfl := List.mem_singleton.mp hy
  refine placed_of_splits ?_ hx
  rw [h]
  exact .nil

end Typed

/-! ## Conditions -/

namespace Tree

def span : Tree → Span
  | node _ _ s => s
  | gap s => s

def operands : Tree → List Tree
  | node _ ts _ => ts
  | gap _ => []

/-- The operands of every form split its span. -/
inductive Nested : Tree → Prop where
  | mk {t : Tree} (splits : t.span.Splits (t.operands.map span))
      (below : ∀ u ∈ t.operands, u.Nested) : t.Nested

theorem span_prune (tensor : String → Bool) (place : Place) (t : Tree) :
    (t.prune tensor place).span = t.span := by
  cases t with
  | gap s => rfl
  | node f ts s =>
    rw [prune]
    split <;> rfl

/-- A gap keeps the span of what it stands for. -/
theorem Nested.prune {tensor : String → Bool} {t : Tree} (h : t.Nested) :
    ∀ place, (t.prune tensor place).Nested := by
  have hgap (s : Span) : (gap s).Nested := ⟨.nil, fun _ hu => absurd hu List.not_mem_nil⟩
  induction h with
  | @mk t splits _ ih =>
    intro place
    cases t with
    | gap s => exact hgap s
    | node f ts s =>
      rw [Tree.prune]
      split
      · exact hgap s
      · rw [pruneAll_eq_map]
        refine ⟨?_, List.forall_mem_map.mpr fun u hu => ih u hu _⟩
        have hspans : (ts.map (Tree.prune tensor f.operandPlace)).map span = ts.map span := by
          rw [List.map_map]
          exact List.map_congr_left fun u _ => span_prune tensor _ u
        show s.Splits ((ts.map (Tree.prune tensor f.operandPlace)).map span)
        rw [hspans]
        exact splits

end Tree

theorem Expr.nested_tree {e : Expr}
    (h : ∀ f : Expr, f.Within e → f.span.Splits (f.operands.map Expr.span)) : e.tree.Nested := by
  induction e using Expr.operandsInduct with
  | h e ih =>
    rw [e.tree_eq]
    refine ⟨?_, List.forall_mem_map.mpr fun f hf => ih f hf fun g hg => h g (.operand hf hg)⟩
    have hspans : (e.operands.map tree).map Tree.span = e.operands.map Expr.span := by
      rw [List.map_map]
      exact List.map_congr_left fun f _ => by rw [Function.comp_apply, f.tree_eq]; rfl
    show e.span.Splits ((e.operands.map tree).map Tree.span)
    rw [hspans]
    exact h e .refl

namespace Typed

/-- The tree of a node in a condition. -/
def Node.tree? : Node → Option Tree
  | .formula f => some f.tree
  | .arith a => some a.tree
  | _ => none

theorem Arith.span_tree (a : Arith) : a.tree.span = a.span := by
  cases a <;> rfl

theorem Formula.span_tree (f : Formula) : f.tree.span = f.span := by
  cases f <;> rfl

theorem Arith.operands_tree (a : Arith) : a.tree.operands = a.operands.map Arith.tree := by
  cases a <;> simp [tree, operands, Tree.operands, trees_eq_map]

/-- Below a node is what is below its tree. -/
theorem Node.children_of_tree? {x : Node} {t : Tree} (h : x.tree? = some t) :
    x.span = t.span ∧ x.children.map Node.span = t.operands.map Tree.span ∧
      ∀ y ∈ x.children, ∃ u ∈ t.operands, y.tree? = some u := by
  cases x with
  | formula f =>
    obtain rfl := Option.some.inj h
    refine ⟨f.span_tree.symm, ?_⟩
    cases f with
    | compare op l r s =>
      simp [Node.children, Formula.tree, Tree.operands, Node.span, Node.tree?, Arith.span_tree]
    | connective op fs s =>
      rw [Node.children, Formula.tree, Tree.operands, Formula.trees_eq_map]
      refine ⟨by simp [Node.span, Formula.span_tree], List.forall_mem_map.mpr fun g hg => ?_⟩
      exact ⟨g.tree, List.mem_map_of_mem hg, rfl⟩
    | invalid source s => simp [Node.children, Formula.tree, Tree.operands]
  | arith a =>
    obtain rfl := Option.some.inj h
    refine ⟨a.span_tree.symm, ?_⟩
    rw [Node.children, Arith.operands_tree]
    refine ⟨by simp [Node.span, Arith.span_tree], List.forall_mem_map.mpr fun b hb => ?_⟩
    exact ⟨b.tree, List.mem_map_of_mem hb, rfl⟩
  | _ => cases h

theorem Node.placed_of_nested {x : Node} {t : Tree} (h : x.tree? = some t) (ht : t.Nested) :
    ∀ y ∈ x.descendants, y.Placed := by
  induction ht generalizing x with
  | @mk t splits _ ih =>
    intro y hy
    obtain ⟨hspan, hchildren, htrees⟩ := Node.children_of_tree? h
    rcases Node.mem_descendants_iff.mp hy with rfl | ⟨z, hz, hy⟩
    · rw [← hspan, ← hchildren] at splits
      refine Node.placed_of_splits splits fun n hn => ?_
      rw [hn] at h
      cases h
    · obtain ⟨u, hu, hzu⟩ := htrees z hz
      exact ih u hu hzu y hy

end Typed

/-! ## Networks -/

namespace Network

/-- The definitions of one role stand where its tensors are declared. -/
theorem spans_definitionsFrom (n : Network) (role : Role) (start : Nat) (items : List Item) :
    (n.definitionsFrom role start (items.filterMap Item.part?)).map Typed.Definition.span =
      (items.filterMap (Item.tensor? role)).map Declaration.span := by
  induction items generalizing start with
  | nil => rfl
  | cons i items ih =>
    cases i with
    | relation r => exact ih start
    | tensor r d =>
      have hpart : (Item.tensor r d :: items).filterMap Item.part? =
          (r, d) :: items.filterMap Item.part? := rfl
      rw [hpart, definitionsFrom_cons, List.map_append, ih, List.filterMap_cons, Item.tensor?]
      by_cases hr : r = role
      · simp only [hr, if_true]
        rfl
      · simp [hr]

theorem Item.span_of_tensor? {role : Role} {i : Item} {d : Declaration}
    (h : i.tensor? role = some d) : i.span = d.span := by
  cases i with
  | relation r => cases h
  | tensor r e =>
    rw [tensor?] at h
    split at h
    · cases h
      rfl
    · cases h

section
variable {n : Network} (networks : List Network) (table : SymbolTable)

theorem spans_definitions (h : n.InOrder) :
    (n.checked networks table).definitions.map Typed.Definition.span =
      n.declarations.map Declaration.span := by
  have hrole (role : Role) := n.spans_definitionsFrom role (table.firstTensor n.name) n.items
  have hlisted : n.declarations = (ofItems n.name n.items n.span).declarations := by rw [h]
  rw [hlisted, declarations, Typed.Network.definitions, List.map_append, List.map_append,
    List.map_append, List.map_append]
  exact congr (congrArg _ (congr (congrArg _ (hrole .input)) (hrole .hidden))) (hrole .output)

variable (hsplits : n.span.Splits (n.items.map Item.span))
include hsplits

/-- The definitions of one role are in written order. -/
theorem definitionsFrom_increasing (role : Role) (start : Nat) :
    (n.definitionsFrom role start n.tensors).Pairwise fun d e => d.span.start ≤ e.span.start := by
  have hitems := hsplits.increasing
  rw [List.pairwise_map] at hitems
  have hspans : ((n.items.filterMap (Item.tensor? role)).map Declaration.span).Pairwise
      fun s t => s.start ≤ t.start := by
    rw [List.pairwise_map, List.pairwise_filterMap]
    refine hitems.imp fun {i j} hlt d hd e he => ?_
    rw [← Item.span_of_tensor? hd, ← Item.span_of_tensor? he]
    exact Nat.le_of_lt hlt
  rw [← n.spans_definitionsFrom role start, List.pairwise_map] at hspans
  exact hspans

theorem declarations_apart : (n.declarations.map Declaration.span).Pairwise fun s t =>
    s.stop ≤ t.start ∨ t.stop ≤ s.start := by
  have hitems : (n.items.map Item.span).Pairwise fun s t =>
      s.stop ≤ t.start ∨ t.stop ≤ s.start := hsplits.apart.imp .inl
  rw [(n.items_perm.map Item.span).pairwise_iff fun hst => hst.symm] at hitems
  refine hitems.sublist ?_
  simp only [declarations, List.map_append, List.map_map, List.append_assoc]
  exact List.sublist_append_right _ _

theorem declarations_inside : ∀ d ∈ n.declarations, d.span.Inside n.span := by
  intro d hd
  obtain ⟨p, hp, rfl⟩ := List.mem_map.mp (n.tensors_perm.mem_iff.mpr hd)
  obtain ⟨i, hi, hpart⟩ := List.mem_filterMap.mp hp
  have hinside := hsplits.inside _ (List.mem_map_of_mem hi)
  cases i with
  | relation r => cases hpart
  | tensor role d =>
    cases hpart
    exact hinside

theorem orderly_checked (h : n.InOrder) : (Node.network (n.checked networks table)).Orderly := by
  have hchildren : (Node.network (n.checked networks table)).children.map Node.span =
      n.declarations.map Declaration.span := by
    rw [← spans_definitions networks table h, Node.children, List.map_map]
    rfl
  constructor
  · intro y hy
    have hmem := List.mem_map_of_mem (f := Node.span) hy
    rw [hchildren] at hmem
    obtain ⟨d, hd, heq⟩ := List.mem_map.mp hmem
    rw [← heq]
    exact declarations_inside hsplits d hd
  · have hapart := declarations_apart hsplits
    rw [← hchildren, List.pairwise_map] at hapart
    exact hapart

theorem placed_checked (h : n.InOrder) : (Node.network (n.checked networks table)).Placed := by
  have horderly := orderly_checked networks table hsplits h
  have hrole (role : Role) := definitionsFrom_increasing hsplits role (table.firstTensor n.name)
  refine ⟨horderly, ?_⟩
  rw [horderly.inWrittenOrder_iff, Node.children, List.pairwise_map]
  refine (Typed.Network.byRole_iff (hrole .input) (hrole .hidden) (hrole .output)).trans ?_
  constructor
  · intro hby m hm
    cases hm
    exact hby
  · intro hby
    exact hby _ rfl

end

end Network

/-! ## Queries -/

namespace Typing

theorem span_formula {table : SymbolTable} {tensor : String → Bool} (h : FindsTensors table tensor)
    (policy : LiteralPolicy) (e : Expr) : (formula table policy e).value.span = e.span := by
  rw [← Typed.Formula.span_tree, formula_tree h, Tree.span_prune, e.tree_eq]
  rfl

theorem mem_checkedFrom {networks ns : List Network} {t : SymbolTable} {m : Typed.Network}
    (h : m ∈ checkedFrom networks t ns) : ∃ n ∈ ns, ∃ t', m = n.checked networks t' := by
  induction ns generalizing t with
  | nil => cases h
  | cons n ns ih =>
    rcases List.mem_cons.mp h with rfl | h
    · exact ⟨n, List.mem_cons_self, t, rfl⟩
    · obtain ⟨n', hn', hm⟩ := ih h
      exact ⟨n', List.mem_cons_of_mem n hn', hm⟩

/-- What the check of a network keeps in any table, the check of all networks keeps. -/
theorem map_checkedFrom {β : Type} {f : Typed.Network → β} {g : Network → β}
    {networks ns : List Network} (h : ∀ n ∈ ns, ∀ t, f (n.checked networks t) = g n) :
    ∀ t, (checkedFrom networks t ns).map f = ns.map g := by
  induction ns with
  | nil => exact fun _ => rfl
  | cons n ns ih =>
    intro t
    obtain ⟨hn, hns⟩ := List.forall_mem_cons.mp h
    rw [checkedFrom, List.map_cons, List.map_cons, hn, ih hns]

theorem span_version (v : Version) : (version v).value.span = v.span := by
  unfold version
  split <;> rfl

theorem spans_query (policy : LiteralPolicy) (q : Query) :
    (Node.query (query policy q).value).children.map Node.span =
      q.version.span :: (q.networks.map Network.span ++ q.assertions.map Assertion.span) := by
  have hnetworks : (query policy q).value.networks.map Typed.Network.span =
      q.networks.map Network.span := by
    rw [query_networks]
    exact map_checkedFrom (fun _ _ _ => rfl) _
  have hassertions : (query policy q).value.assertions.map Typed.Assertion.span =
      q.assertions.map Assertion.span := by
    rw [query_assertions, List.map_map]
    rfl
  rw [Node.children, List.map_cons, List.map_append, List.map_map, List.map_map,
    ← hnetworks, ← hassertions, ← span_version q.version]
  rfl

end Typing

theorem Typed.Query.network_mem_descendants_iff {q : Typed.Query} {n : Typed.Network} :
    .network n ∈ Node.descendants (.query q) ↔ n ∈ q.networks := by
  constructor
  · intro h
    simp only [Node.descendants, Node.outline, Typed.Query.outline, List.mem_map, List.mem_cons,
      List.mem_append, List.mem_flatMap, Typed.Network.outline, Typed.Assertion.outline] at h
    obtain ⟨⟨d, y⟩, hy, rfl⟩ := h
    rcases hy with hy | hy | ⟨m, hm, hy | ⟨_, _, hy⟩⟩ | ⟨a, _, hy | hy⟩
    · cases hy
    · cases hy
    · cases hy
      exact hm
    · cases hy
    · cases hy
    · rcases Formula.within_of_mem_outline hy with ⟨_, hx, _⟩ | ⟨_, _, _, _, _, _, hx, _⟩
      · cases hx
      · cases hx
  · intro h
    refine Node.mem_descendants_of_child ?_ (Node.self_mem_descendants _)
    exact List.mem_cons_of_mem _ (List.mem_append_left _ (List.mem_map_of_mem h))

namespace Query.ReadFrom

variable {source file : String} {q : Query} (h : q.ReadFrom source file)
  (hsize : Text.byteLength source.toList < UInt32.size) (policy : LiteralPolicy)
include h hsize

theorem nested_condition {a : Assertion} (ha : a ∈ q.assertions) :
    (Typing.formula (Typing.query policy q).value.symbols policy
      a.condition).value.tree.Nested := by
  rw [Typing.formula_tree (q.resolves_iff policy)]
  refine Tree.Nested.prune (Expr.nested_tree fun e he => ?_) .formula
  exact h.splits hsize ⟨a, ha, he⟩

/-- All nodes of the typed query are placed in the text. -/
theorem placed : ∀ x ∈ Node.descendants (.query (Typing.query policy q).value), x.Placed := by
  obtain ⟨tokens, htok, hparse⟩ := id h
  obtain ⟨row, span, rfl, _⟩ := Token.Scan.tokens_row htok
  have hderives := (Query.ofTokens_tokenize_iff htok).mp hparse
  have hlaid := Token.tokenize_laid htok hsize
  intro x hx
  rcases Node.mem_descendants_iff.mp hx with rfl | ⟨z, hz, hx⟩
  · refine Node.placed_of_splits ?_ (fun n hn => by cases hn)
    rw [Typing.spans_query]
    exact hderives.splits hlaid (Token.tokenize_ending htok hsize).2
  rcases List.mem_cons.mp hz with rfl | hz
  · exact Node.placed_of_leaf rfl (fun n hn => by cases hn) x hx
  rcases List.mem_append.mp hz with hz | hz
  · obtain ⟨m, hm, rfl⟩ := List.mem_map.mp hz
    rw [Typing.query_networks] at hm
    obtain ⟨n, hn, table, rfl⟩ := Typing.mem_checkedFrom hm
    obtain ⟨hlists, hsplits⟩ := hderives.networks_split hlaid n hn
    rcases Node.mem_descendants_iff.mp hx with rfl | ⟨y, hy, hx⟩
    · exact Network.placed_checked _ table hsplits hlists.1.symm
    · obtain ⟨d, _, rfl⟩ := List.mem_map.mp hy
      exact Node.placed_of_leaf rfl (fun n hn => by cases hn) x hx
  · obtain ⟨c, hc, rfl⟩ := List.mem_map.mp hz
    rw [Typing.query_assertions] at hc
    obtain ⟨a, ha, rfl⟩ := List.mem_map.mp hc
    have hnested := h.nested_condition hsize policy ha
    rcases Node.mem_descendants_iff.mp hx with rfl | ⟨y, hy, hx⟩
    · refine Node.placed_of_splits ⟨List.forall_mem_singleton.mpr ?_, List.pairwise_singleton ..⟩
        (fun n hn => by cases hn)
      have hinside := hderives.conditions_inside hlaid a ha
      rw [← Typing.span_formula (q.resolves_iff policy) policy a.condition] at hinside
      exact hinside
    · obtain rfl := List.mem_singleton.mp hy
      exact Node.placed_of_nested rfl hnested x hx

end Query.ReadFrom

/-- A build of a text of fewer than `2 ^ 32` bytes. Below every node the children lie inside it and
do not overlap. They stand in written order, unless the node is a network that does not declare its
tensors by role. The walk from the root meets every node that can be reached, each before what is
below it and none twice, and it goes from the front of the text to its end just if every network
declares its tensors by role. -/
theorem Build.walk_follows_text {source : String} {options : BuildOptions} {b : Build}
    (h : Build.ofText source options = .ok b)
    (hsize : Text.byteLength source.toList < UInt32.size) :
    (∀ x ∈ Node.descendants (.query b.query),
      x.Orderly ∧ (x.InWrittenOrder ↔ ∀ n, x = .network n → n.ByRole)) ∧
    (∀ x, x ∈ Node.descendants (.query b.query) ↔
      ∃ path, Node.at? (.query b.query) path = some x) ∧
    (Node.descendants (.query b.query)).Nodup ∧
    (∀ x : Node, x.descendants = x :: x.children.flatMap Node.descendants) ∧
    ((Node.descendants (.query b.query)).Pairwise (fun x y => x.span.start ≤ y.span.start) ↔
      ∀ n ∈ b.query.networks, n.ByRole) := by
  obtain ⟨tokens, q, htok, hparse, rfl⟩ := Build.ofSource_eq_ok_iff.mp h
  have hread : q.ReadFrom source (options.fileName.getD "<string>") := ⟨tokens, htok, hparse⟩
  have hplaced := hread.placed hsize options.policy
  have horderly : ∀ x ∈ Node.descendants (.query (Typing.query options.policy q).value),
      x.Orderly := fun x hx => (hplaced x hx).1
  refine ⟨hplaced, fun x => Node.mem_descendants_iff_at?,
    Node.nodup_descendants horderly, Node.descendants_eq, ?_⟩
  rw [Node.starts_le_iff horderly]
  constructor
  · intro horder n hn
    have hmem := Typed.Query.network_mem_descendants_iff.mpr hn
    exact (hplaced _ hmem).2.mp (horder _ hmem) n rfl
  · intro hby x hx
    refine (hplaced x hx).2.mpr fun n hn => hby n ?_
    rw [hn] at hx
    exact Typed.Query.network_mem_descendants_iff.mp hx

/-- A text with one network is built as a query whose network lists its tensors as declared. -/
theorem Build.exists_of_starts (source : String) (starts : List Nat)
    (hsize : Text.byteLength source.toList < UInt32.size)
    (h : (Token.tokenize source "<string>").toOption.any (fun tokens =>
      (Query.ofTokens tokens "<string>").toOption.any fun q =>
        q.networks.map (fun n => n.declarations.map fun d => d.span.start) == [starts]) = true) :
    ∃ b n, Build.ofText source {} = .ok b ∧ b.query.networks = [n] ∧
      .network n ∈ Node.descendants (.query b.query) ∧
      (Node.network n).children.map (fun x => x.span.start) = starts := by
  obtain ⟨q, ⟨tokens, htok, hq⟩, hnetworks⟩ := Query.exists_readFrom h
  obtain ⟨m, hm, hstarts⟩ := List.map_eq_singleton_iff.mp (beq_iff_eq.mp hnetworks)
  obtain ⟨row, span, rfl, _⟩ := Token.Scan.tokens_row htok
  have horder := ((Query.ofTokens_tokenize_iff htok).mp hq).inOrder
    ((Token.tokenize_row htok).2.2 hsize) m (by simp [hm])
  have hchecked (policy : LiteralPolicy) : (Typing.query policy q).value.networks =
      [m.checked q.networks .empty] := by
    rw [Typing.query_networks, hm]
    rfl
  refine ⟨_, _, Build.ofSource_eq_ok_iff.mpr ⟨_, q, htok, hq, rfl⟩, hchecked _, ?_, ?_⟩
  · rw [Typed.Query.network_mem_descendants_iff, hchecked]
    exact List.mem_singleton_self _
  · have hspans := congrArg (List.map Span.start)
      (Network.spans_definitions q.networks .empty horder)
    simpa only [List.map_map, Function.comp_def, Node.children, Node.span, ← hstarts] using hspans

/-- A network with tensors of all roles, and a condition. -/
def Build.walkedSource : String :=
  "(vnnlib-version<2.0>)(declare-network N(declare-input x Real[])" ++
    "(declare-hidden h Real[]\"\")(declare-output y Real[]))(assert(<(- x)y))"

theorem Build.walkedSource_walk :
    ∃ b n, Build.ofText Build.walkedSource {} = .ok b ∧
      .network n ∈ Node.descendants (.query b.query) ∧
      (Node.network n).InWrittenOrder ∧ (Node.descendants (.query b.query)).Nodup ∧
      (Node.descendants (.query b.query)).Pairwise fun x y => x.span.start ≤ y.span.start := by
  have hsize : Text.byteLength Build.walkedSource.toList < UInt32.size := by decide +kernel
  obtain ⟨b, n, hb, hnetworks, hmem, hstarts⟩ :=
    Build.exists_of_starts _ [39, 63, 90] hsize (by decide +kernel)
  obtain ⟨hplaced, _, hnodup, _, hwalk⟩ := Build.walk_follows_text hb hsize
  obtain ⟨horderly, hiff⟩ := hplaced _ hmem
  have horder : (Node.network n).InWrittenOrder := by
    rw [horderly.inWrittenOrder_iff, ← List.pairwise_map, hstarts]
    decide
  refine ⟨b, n, hb, hmem, horder, hnodup, hwalk.mpr ?_⟩
  rw [hnetworks]
  exact List.forall_mem_singleton.mpr (hiff.mp horder n rfl)

/-- A network that declares its output before its input. -/
def Build.outputFirstSource : String :=
  "(vnnlib-version <2.0>)(declare-network N(declare-output y float32[])(declare-input x float32[]))"

/-- The walk goes back in the text, from the input to the output. -/
theorem Build.outputFirstSource_goes_back :
    ∃ b n, Build.ofText Build.outputFirstSource {} = .ok b ∧
      .network n ∈ Node.descendants (.query b.query) ∧
      (Node.network n).children.map (fun x => x.span.start) = [68, 40] ∧
      ¬(Node.descendants (.query b.query)).Pairwise
        fun x y => x.span.start ≤ y.span.start := by
  obtain ⟨b, n, hb, _, hmem, hstarts⟩ :=
    Build.exists_of_starts Build.outputFirstSource [68, 40] (by decide +kernel) (by decide +kernel)
  refine ⟨b, n, hb, hmem, hstarts, fun hwalk => ?_⟩
  have hchildren := hwalk.sublist
    ((Node.children_sublist _).trans (Node.descendants_sublist hmem))
  rw [← List.pairwise_map, hstarts] at hchildren
  revert hchildren
  decide

end NeuralQuery
