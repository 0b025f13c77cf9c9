import NeuralQuery.Proofs.NetworkCheck
import NeuralQuery.Proofs.Placement
import NeuralQuery.Proofs.RoundTrip

/-!
# NeuralQuery.Proofs.SourceOrder

Reports come out in the order of the source (`Build.diagnostics_inSourceOrder`).

The check of a query reports one block for the version, one for each network and one for each
assertion. A network reports at its own start first and then form by form (`network_blocks`), so
that its block follows the order of the offsets of its forms. That is the order in which they are
written, unless offsets start again inside the network. Inside the block of an assertion the reports
of every form stand behind those of its operands (`reports_occurrence`).
-/

namespace NeuralQuery

/-! ## Blocks -/

/-- Blocks that are in order one by one, and whose keys are in order, are in order together. -/
theorem pairwise_flatten {α β : Type} {P : α → List β → Prop} {S : α → α → Prop}
    {R : β → β → Prop} {keys : List α} {blocks : List (List β)} (h : List.Forall₂ P keys blocks)
    (hkeys : keys.Pairwise S) (hblock : ∀ k block, P k block → block.Pairwise R)
    (hacross : ∀ k l block other, S k l → P k block → P l other →
      ∀ x ∈ block, ∀ y ∈ other, R x y) :
    blocks.flatten.Pairwise R := by
  induction h with
  | nil => exact .nil
  | @cons k block keys blocks hk hrest ih =>
    obtain ⟨hfirst, hlater⟩ := List.pairwise_cons.mp hkeys
    rw [List.flatten_cons, List.pairwise_append]
    refine ⟨hblock k block hk, ih hlater, fun x hx y hy => ?_⟩
    obtain ⟨other, hother, hy⟩ := List.mem_flatten.mp hy
    obtain ⟨l, hl, hlp⟩ := exists_of_mem_right hrest hother
    exact hacross k l block other (hfirst l hl) hk hlp x hx y hy

/-- All these reports are about faults at one position. -/
def Diagnostic.AllAt (p : Position) (ds : List Diagnostic) : Prop :=
  ∀ d ∈ ds, d.FoundAt [p]

def Diagnostic.Before (d e : Diagnostic) : Prop :=
  d.position.offset ≤ e.position.offset

theorem Diagnostic.FoundAt.eq {d : Diagnostic} {p : Position} (h : d.FoundAt [p]) :
    d.position = p :=
  List.mem_singleton.mp h.position

theorem Diagnostic.AllAt.ordered {p : Position} {ds : List Diagnostic} (h : AllAt p ds) :
    ds.Pairwise Before :=
  List.pairwise_of_forall_mem_list fun d hd e he => by rw [Before, (h d hd).eq, (h e he).eq]

/-- The expressions that occur in a condition, with the places they stand in. -/
inductive Expr.Occurs (condition : Expr) : Place → Expr → Prop where
  | root : Occurs condition .formula condition
  | operand {place : Place} {e f : Expr} :
      Occurs condition place e → f ∈ e.operands → Occurs condition e.operandPlace f

namespace Typing

open Checked

variable {networks : List Network} {n : Network}

/-! ## Networks -/

theorem version_found (v : Version) : Diagnostic.AllAt v.span.position (version v).diagnostics := by
  intro d hd
  unfold version at hd
  split at hd
  · cases hd
  · obtain rfl := List.mem_singleton.mp hd
    exact ⟨by simp, by simp [Fault.category]⟩

theorem relation_found (networks : List Network) (n : Network) (r : Relation) :
    Diagnostic.AllAt r.span.position (relation networks n r).diagnostics := by
  intro d hd
  unfold relation at hd
  split at hd
  · obtain rfl := List.mem_singleton.mp hd
    exact ⟨by simp, by simp [Fault.category]⟩
  · split at hd
    · obtain rfl := List.mem_singleton.mp hd
      exact ⟨by simp, by simp [Fault.category]⟩
    · split at hd
      · obtain rfl := List.mem_singleton.mp hd
        exact ⟨by simp, by simp [Fault.category]⟩
      · cases hd

theorem declareVariable_found {t : SymbolTable} {scope : ScopeId} {id : SymbolId} {p : Position}
    {d : Diagnostic} (h : t.declareVariable scope id p = .error d) : d.FoundAt [p] := by
  unfold SymbolTable.declareVariable at h
  simp only at h
  split at h
  · cases h
  · split at h
    · cases h
      exact ⟨by simp, by simp [Fault.category]⟩
    · cases h

theorem definition_found (t : SymbolTable) (scope : ScopeId) (network : String) (d : Declaration)
    (kind : SymbolKind) :
    Diagnostic.AllAt d.span.position (definition t scope network d kind).diagnostics := by
  intro e he
  unfold definition at he
  simp only at he
  split at he
  · cases he
  · rename_i e' hdeclare
    obtain rfl := List.mem_singleton.mp he
    exact declareVariable_found hdeclare

/-- Whatever the check of a form of a network reports, it reports at the start of the form. -/
theorem add_found (networks : List Network) (n : Network) (draft : Draft) (i : Network.Item) :
    Diagnostic.AllAt i.span.position (draft.add networks n i).diagnostics := by
  intro d hd
  cases i with
  | relation r =>
    rw [Draft.add, diagnostics_bind, List.mem_append] at hd
    rcases hd with hd | hd
    · exact relation_found networks n r d hd
    · simp only at hd
      split at hd
      · cases hd
      · obtain rfl := List.mem_singleton.mp hd
        exact ⟨by simp [Network.Item.span], by simp [Fault.category]⟩
  | tensor role decl =>
    rw [Draft.add, diagnostics_bind, diagnostics_pure, List.append_nil] at hd
    exact definition_found _ _ _ decl _ d hd

/-- By induction on the forms: each of them adds a block of its own. -/
theorem addAll_blocks (networks : List Network) (n : Network) (draft : Draft)
    (items : List Network.Item) :
    ∃ blocks, (draft.addAll networks n items).diagnostics = blocks.flatten ∧
      List.Forall₂ (fun i block => Diagnostic.AllAt i.span.position block) items blocks := by
  induction items generalizing draft with
  | nil => exact ⟨[], rfl, .nil⟩
  | cons i items ih =>
    obtain ⟨blocks, hrest, hblocks⟩ := ih (draft.add networks n i).value
    refine ⟨(draft.add networks n i).diagnostics :: blocks, ?_, ?_⟩
    · rw [Draft.addAll, diagnostics_bind, hrest, List.flatten_cons]
    · exact .cons (add_found networks n draft i) hblocks

/-- The block of a network: what is wrong with its name, and then the blocks of its forms in written
order. -/
theorem network_blocks (networks : List Network) (t : SymbolTable) (n : Network) :
    ∃ own blocks, (network networks t n).diagnostics = own ++ blocks.flatten ∧
      Diagnostic.AllAt n.span.position own ∧
      List.Forall₂ (fun i block => Diagnostic.AllAt i.span.position block) n.items blocks := by
  have hown : Diagnostic.AllAt n.span.position
      (ownSymbol (t.declareNetwork n.name n.span.position).symbol).diagnostics := by
    intro d hd
    unfold SymbolTable.declareNetwork at hd
    split at hd
    · obtain rfl := List.mem_singleton.mp hd
      exact ⟨by simp, by simp [Fault.category]⟩
    · cases hd
  obtain ⟨blocks, hitems, hblocks⟩ := addAll_blocks networks n
    ⟨{ name := n.name
       symbol := (ownSymbol (t.declareNetwork n.name n.span.position).symbol).value
       span := n.span },
      (t.declareNetwork n.name n.span.position).scope, 0,
      (t.declareNetwork n.name n.span.position).table⟩ n.items
  refine ⟨_, blocks, ?_, hown, hblocks⟩
  rw [network, diagnostics_bind, diagnostics_bind, hitems, diagnostics_pure, List.append_nil]

/-- The blocks of networks that are checked one after the other. -/
def networkReports (networks : List Network) : SymbolTable → List Network → List (List Diagnostic)
  | _, [] => []
  | t, n :: ns =>
    (network networks t n).diagnostics :: networkReports networks (network networks t n).value.2 ns

theorem networksFrom_diagnostics (networks : List Network) (t : SymbolTable) (ns : List Network) :
    (networksFrom networks t ns).diagnostics = (networkReports networks t ns).flatten := by
  induction ns generalizing t with
  | nil => rfl
  | cons n ns ih => simp [networksFrom, networkReports, ih]

theorem forall₂_networkReports {P : Network → List Diagnostic → Prop} {t : SymbolTable}
    {ns : List Network} (h : ∀ n ∈ ns, ∀ t, P n (network networks t n).diagnostics) :
    List.Forall₂ P ns (networkReports networks t ns) := by
  induction ns generalizing t with
  | nil => exact .nil
  | cons n ns ih =>
    exact .cons (h n (by simp) t) (ih fun m hm => h m (by simp [hm]))

/-- The forms of a network are gone through from the first to the last one. -/
theorem items_ordered (n : Network) : n.items.Pairwise fun i j => i.span.start ≤ j.span.start := by
  have h : n.items.Pairwise fun i j => decide (i.span.start ≤ j.span.start) = true :=
    List.pairwise_mergeSort (by simp; omega) (by simp; omega) _
  exact h.imp fun hij => of_decide_eq_true hij

theorem network_ordered (networks : List Network) (t : SymbolTable)
    (h : ∀ i ∈ n.items, n.span.start ≤ i.span.start) :
    (network networks t n).diagnostics.Pairwise Diagnostic.Before := by
  obtain ⟨own, blocks, hreports, hown, hblocks⟩ := network_blocks networks t n
  rw [hreports, List.pairwise_append]
  refine ⟨hown.ordered, pairwise_flatten hblocks (items_ordered n)
    (fun i block hi => hi.ordered) ?_, ?_⟩
  · intro i j block other hij hi hj d hd e he
    rw [Diagnostic.Before, (hi d hd).eq, (hj e he).eq]
    exact hij
  · intro d hd e he
    obtain ⟨block, hblock, he⟩ := List.mem_flatten.mp he
    obtain ⟨i, hi, hat⟩ := exists_of_mem_right hblocks hblock
    rw [Diagnostic.Before, (hown d hd).eq, (hat e he).eq]
    exact h i hi

/-! ## Conditions -/

theorem reports_occurrence (table : SymbolTable) (policy : LiteralPolicy) {root e : Expr}
    {place : Place} (h : root.Occurs place e) :
    ∃ before after, reports table policy .formula root =
      before ++ (reports table policy place e ++ after) := by
  induction h with
  | root => exact ⟨[], [], by simp⟩
  | @operand place e f _ hf ih =>
    obtain ⟨before, after, hroot⟩ := ih
    obtain ⟨left, right, hsplit⟩ := List.append_of_mem hf
    refine ⟨before ++ left.flatMap (reports table policy e.operandPlace),
      right.flatMap (reports table policy e.operandPlace) ++
        (formReports table policy e ++ misplaced table policy place e) ++ after, ?_⟩
    rw [hroot, reports_eq table policy place e, hsplit]
    simp

/-- The block of a condition, whatever occurs in it: the operands of an expression have reported
before its own check does, from left to right. -/
def OperandsFirst (table : SymbolTable) (policy : LiteralPolicy) (condition : Expr)
    (block : List Diagnostic) : Prop :=
  ∀ place e, condition.Occurs place e → ∃ before own after,
    block = before ++ (e.operands.flatMap (reports table policy e.operandPlace) ++ own ++ after) ∧
    reports table policy place e =
      e.operands.flatMap (reports table policy e.operandPlace) ++ own ∧
    ∀ d ∈ own, d.FoundAt (e.span.position :: e.operands.map fun f => f.span.position)

theorem reports_operandsFirst (table : SymbolTable) (policy : LiteralPolicy) (condition : Expr) :
    OperandsFirst table policy condition (reports table policy .formula condition) := by
  intro place e h
  obtain ⟨before, after, hblock⟩ := reports_occurrence table policy h
  rw [reports_eq table policy place e] at hblock
  refine ⟨before, _, after, hblock, reports_eq table policy place e, fun d hd => ?_⟩
  rcases List.mem_append.mp hd with hd | hd
  · exact formReports_found table policy e d hd
  · have hfound := misplaced_found table policy place e d hd
    exact ⟨by simp [hfound.eq], hfound.category⟩

end Typing

/-! ## Reports and tokens -/

theorem DerivesVersion.found {ts : List Token} {v : Version} (h : DerivesVersion ts v) :
    ∀ d ∈ (Typing.version v).diagnostics, ∃ t ∈ ts, d.FoundAt [t.span.position] := by
  intro d hd
  obtain ⟨t, ht, hpos⟩ := h.covers.first
  exact ⟨t, ht, hpos ▸ Typing.version_found v d hd⟩

theorem DerivesNetwork.found {ts : List Token} {n : Network} (h : DerivesNetwork ts n)
    (networks : List Network) (table : SymbolTable) :
    ∀ d ∈ (Typing.network networks table n).diagnostics, ∃ t ∈ ts, d.FoundAt [t.span.position] := by
  intro d hd
  obtain ⟨own, blocks, hreports, hown, hblocks⟩ := Typing.network_blocks networks table n
  rw [hreports, List.mem_append, List.mem_flatten] at hd
  rcases hd with hd | ⟨block, hblock, hd⟩
  · obtain ⟨t, ht, hpos⟩ := h.covers.first
    exact ⟨t, ht, hpos ▸ hown d hd⟩
  · obtain ⟨i, hi, hat⟩ := exists_of_mem_right hblocks hblock
    obtain ⟨t, ht, hpos⟩ := h.item_position hi
    exact ⟨t, ht, hpos ▸ hat d hd⟩

theorem DerivesAssertion.found {ts : List Token} {a : Assertion} (h : DerivesAssertion ts a)
    (table : SymbolTable) (policy : LiteralPolicy) :
    ∀ d ∈ Typing.reports table policy .formula a.condition,
      ∃ t ∈ ts, d.FoundAt [t.span.position] := by
  intro d hd
  cases h with
  | mk _ _ hexpr _ _ =>
    obtain ⟨f, hf, hfound⟩ := Typing.reports_found table policy .formula _ d hd
    obtain ⟨t, ht, hpos⟩ := hexpr.position hf
    exact ⟨t, by simp [ht], hpos ▸ hfound⟩

theorem Covers.contains_all {file : String} {ts : List Token} {s : Span} {ds : List Diagnostic}
    (h : Covers ts s) (hl : Laid file ts)
    (hds : ∀ d ∈ ds, ∃ t ∈ ts, d.FoundAt [t.span.position]) :
    ∀ d ∈ ds, s.Contains d.position := by
  intro d hd
  obtain ⟨t, ht, hfound⟩ := hds d hd
  rw [hfound.eq]
  exact h.contains hl ht

/-- Blocks of reports that keep to the places of their forms. -/
structure Query.InSourceOrder (q : Query) (version : List Diagnostic)
    (networks assertions : List (List Diagnostic)) : Prop where
  atVersion : ∀ d ∈ version, q.version.span.Contains d.position
  inNetworks : List.Forall₂ (fun n block => ∀ d ∈ block, n.span.Contains d.position)
    q.networks networks
  inAssertions : List.Forall₂ (fun a block => ∀ d ∈ block, a.span.Contains d.position)
    q.assertions assertions
  ordered : (version ++ networks.flatten).Pairwise Diagnostic.Before

/-- A block of reports in the order of their positions, all inside a span. -/
def Span.Orders (s : Span) (block : List Diagnostic) : Prop :=
  (∀ d ∈ block, s.Contains d.position) ∧ block.Pairwise Diagnostic.Before

theorem Span.Orders.flatten {spans : List Span} {blocks : List (List Diagnostic)}
    (h : List.Forall₂ Span.Orders spans blocks)
    (hspans : spans.Pairwise fun s t => s.stop ≤ t.start) :
    blocks.flatten.Pairwise Diagnostic.Before := by
  refine pairwise_flatten h hspans (fun s block hs => hs.2) ?_
  intro s t block other hst hs ht d hd e he
  have hbefore := (hs.1 d hd).stop
  have hbehind := (ht.1 e he).start
  unfold Diagnostic.Before
  omega

theorem DerivesNetwork.orders {file : String} {ts : List Token} {n : Network}
    (h : DerivesNetwork ts n) (hl : Laid file ts) (networks : List Network) (table : SymbolTable) :
    n.span.Orders (Typing.network networks table n).diagnostics := by
  refine ⟨h.covers.contains_all hl (h.found networks table),
    Typing.network_ordered networks table fun i hi => ?_⟩
  obtain ⟨t, ht, hpos⟩ := h.item_position hi
  rw [show i.span.start = t.span.start from congrArg Position.offset hpos]
  exact (h.covers.contains hl ht).start

theorem DerivesQuery.inSourceOrder {file file' : String} {ending : Token} {ts : List Token}
    {q : Query} (h : DerivesQuery file ending ts q) (hl : Laid file' ts) (table : SymbolTable)
    (policy : LiteralPolicy) :
    q.InSourceOrder (Typing.version q.version).diagnostics
      (Typing.networkReports q.networks .empty q.networks)
      (q.assertions.map fun a => Typing.reports table policy .formula a.condition) := by
  cases h with
  | @mk us v networks assertions hv hn ha =>
    have hversion : v.span.Orders (Typing.version v).diagnostics :=
      ⟨hv.covers.contains_all hl.left hv.found, (Typing.version_found v).ordered⟩
    have hnetworks : List.Forall₂ (fun n block => n.span.Orders block) (networks.map Prod.snd)
        (Typing.networkReports (networks.map Prod.snd) .empty (networks.map Prod.snd)) := by
      refine Typing.forall₂_networkReports fun n hmem table => ?_
      obtain ⟨p, hp, rfl⟩ := List.mem_map.mp hmem
      exact (hn p hp).orders (hl.right.left.part hp) _ table
    refine ⟨hversion.1, hnetworks.imp fun _ _ horders => horders.1, ?_, ?_⟩
    · rw [List.forall₂_map_right_iff, List.forall₂_same]
      intro a hmem
      obtain ⟨p, hp, rfl⟩ := List.mem_map.mp hmem
      exact (ha p hp).covers.contains_all (hl.right.right.part hp) ((ha p hp).found table policy)
    · have hforms : ∀ p ∈ (us, v.span) :: networks.map fun p => (p.1, p.2.span),
          Covers p.1 p.2 :=
        List.forall_mem_cons.mpr
          ⟨hv.covers, List.forall_mem_map.mpr fun p hp => (hn p hp).covers⟩
      have hrow : Laid file' (((us, v.span) :: networks.map fun p => (p.1, p.2.span)).flatMap
          Prod.fst) := by
        have hfront := hl.sublist ((List.Sublist.refl us).append
          (List.sublist_append_left (networks.flatMap Prod.fst) (assertions.flatMap Prod.fst)))
        simpa [List.flatMap_map] using hfront
      have hapart := Covers.apart hforms hrow
      rw [List.map_cons, List.map_map] at hapart
      refine Span.Orders.flatten (.cons hversion ?_) hapart
      rw [List.forall₂_map_left_iff] at hnetworks ⊢
      exact hnetworks

/-- The reports of a build are one block for the version, one for each network and one for each
assertion, in written order. In the block of an assertion operands have reported before their form
does. In a text of fewer than `2 ^ 32` bytes the reports of a block are inside the form it belongs
to, and those of the version and the networks are in the order of their positions. -/
theorem Build.diagnostics_inSourceOrder {source : String} {options : BuildOptions} {b : Build}
    (h : Build.ofText source options = .ok b) :
    ∃ tokens q, Token.tokenize source b.file = .ok tokens ∧ Query.ofTokens tokens b.file = .ok q ∧
      ∃ (version : List Diagnostic) (networks assertions : List (List Diagnostic)),
        b.diagnostics = version ++ (networks.flatten ++ assertions.flatten) ∧
        version = (Typing.version q.version).diagnostics ∧
        networks = Typing.networkReports q.networks .empty q.networks ∧
        List.Forall₂ (fun a block =>
          block = Typing.reports b.query.symbols options.policy .formula a.condition ∧
          Typing.OperandsFirst b.query.symbols options.policy a.condition block)
          q.assertions assertions ∧
        (Text.byteLength source.toList < UInt32.size →
          q.InSourceOrder version networks assertions) := by
  obtain ⟨tokens, q, htok, hparse, rfl⟩ := Build.ofSource_eq_ok_iff.mp h
  obtain ⟨row, span, rfl, _⟩ := Token.Scan.tokens_row htok
  have hderives := (Query.ofTokens_tokenize_iff htok).mp hparse
  refine ⟨_, q, htok, hparse, _, _, _, ?_, rfl, rfl, ?_, fun hsize =>
    hderives.inSourceOrder (Token.tokenize_laid htok hsize)
      (Typing.query options.policy q).value.symbols options.policy⟩
  · rw [Typing.query_diagnostics, Typing.networksFrom_diagnostics, List.flatMap_def]
    rfl
  · rw [List.forall₂_map_right_iff, List.forall₂_same]
    exact fun a _ => ⟨rfl, Typing.reports_operandsFirst _ _ a.condition⟩

/-- A source with faults in every form. -/
def Build.faultySource : String :=
  "(vnnlib-version <2>)(declare-network N(declare-output y float32[])(isometric-to M)" ++
    "(declare-input y float32[]))(assert (<= (+ z 1) w))"

theorem Build.faultySource_inSourceOrder :
    ∃ b q version networks assertions, Build.ofText Build.faultySource {} = .ok b ∧
      b.diagnostics.head? = some ⟨.invalidVersion "2", ⟨0, "<string>"⟩⟩ ∧
      b.diagnostics = version ++ (networks.flatten ++ assertions.flatten) ∧
      Query.InSourceOrder q version networks assertions := by
  have hfirst : (Build.ofText Build.faultySource {}).toOption.any (fun b =>
      b.diagnostics.head? == some ⟨.invalidVersion "2", ⟨0, "<string>"⟩⟩) = true := by
    rw [Build.ofText, Build.ofSource_eq]
    decide +kernel
  obtain ⟨b, h, hfirst⟩ := exists_ok_of_any hfirst
  obtain ⟨_, q, _, _, version, networks, assertions, hblocks, _, _, _, horder⟩ :=
    Build.diagnostics_inSourceOrder h
  exact ⟨b, q, version, networks, assertions, h, beq_iff_eq.mp hfirst, hblocks,
    horder (by decide +kernel)⟩

/-- A source with the two relations of a network on either side of byte `2 ^ 32`. -/
def Build.straddlingRelations : List (String × Nat) :=
  (["(", "vnnlib-version", "<", "2.0", ">", ")",
    "(", "declare-network", "N", "(", "equal-to", "N"].map fun word => (word, 1)) ++
  (")", UInt32.size - 57) ::
  ["(", "isometric-to", "M", ")", ")"].map fun word => (word, 1)

/-- Its network. The relation that is written last has the smallest offset. -/
def Network.straddling : Network where
  name := "N"
  relations := [⟨.equal, "N", ⟨"<string>", 47, 61⟩⟩, ⟨.isometric, "M", ⟨"<string>", 4, 22⟩⟩]
  span := ⟨"<string>", 27, 24⟩

theorem Network.straddling_items : straddling.items = straddling.grouped.reverse :=
  items_eq_of_perm (List.reverse_perm _).symm (by decide)

theorem Network.straddling_reports :
    Typing.networkReports [straddling] .empty [straddling] =
      [[⟨.networkNotDeclared "M", ⟨4, "<string>"⟩⟩, ⟨.selfRelation "N", ⟨47, "<string>"⟩⟩,
        ⟨.contradictoryRelations "N", ⟨47, "<string>"⟩⟩]] := by
  simp only [Typing.networkReports, Typing.network_eq, reports, straddling_items]
  decide

theorem Build.straddlingRelations_read :
    ∃ tokens q, Token.tokenize (Token.spaced straddlingRelations) "<string>" = .ok tokens ∧
      Query.ofTokens tokens "<string>" = .ok q ∧ q.version = ⟨"2.0", ⟨"<string>", 0, 26⟩⟩ ∧
      q.networks = [.straddling] ∧ q.assertions = [] :=
  Query.read_spaced _ _ _ _ (by decide +kernel) (by decide +kernel)

/-- The relation that is written last is reported first, and the reports of the other one are not
inside the span of the network, which ends at a smaller offset than it starts. -/
theorem Build.straddlingRelations_outOfOrder :
    ∃ b tokens q, Build.ofText (Token.spaced Build.straddlingRelations) {} = .ok b ∧
      Token.tokenize (Token.spaced Build.straddlingRelations) b.file = .ok tokens ∧
      Query.ofTokens tokens b.file = .ok q ∧
      b.diagnostics = [⟨.networkNotDeclared "M", ⟨4, "<string>"⟩⟩,
        ⟨.selfRelation "N", ⟨47, "<string>"⟩⟩, ⟨.contradictoryRelations "N", ⟨47, "<string>"⟩⟩] ∧
      ∀ version networks assertions,
        b.diagnostics = version ++ (networks.flatten ++ assertions.flatten) →
          ¬ q.InSourceOrder version networks assertions := by
  obtain ⟨tokens, q, htok, hq, hversion, hnetworks, hassertions⟩ := Build.straddlingRelations_read
  have hbuild : Build.ofText (Token.spaced Build.straddlingRelations) {} = .ok _ :=
    Build.ofSource_eq_ok_iff.mpr ⟨tokens, q, htok, hq, rfl⟩
  have hreports : (Typing.query .keep q).diagnostics = [⟨.networkNotDeclared "M", ⟨4, "<string>"⟩⟩,
      ⟨.selfRelation "N", ⟨47, "<string>"⟩⟩, ⟨.contradictoryRelations "N", ⟨47, "<string>"⟩⟩] := by
    rw [Typing.query_diagnostics, Typing.networksFrom_diagnostics, hversion, hnetworks,
      hassertions, Network.straddling_reports]
    decide
  refine ⟨_, tokens, q, hbuild, htok, hq, hreports, fun version networks assertions hblocks h => ?_⟩
  have hself : (⟨.selfRelation "N", ⟨47, "<string>"⟩⟩ : Diagnostic) ∈
      version ++ (networks.flatten ++ assertions.flatten) :=
    hblocks ▸ hreports ▸ by simp
  obtain ⟨hatVersion, hinNetworks, hinAssertions, _⟩ := h
  rw [hversion] at hatVersion
  rw [hnetworks] at hinNetworks
  rw [hassertions] at hinAssertions
  -- byte 47 is behind the version and behind the end of the network
  simp only [List.mem_append, List.mem_flatten] at hself
  rcases hself with hself | ⟨block, hblock, hself⟩ | ⟨block, hblock, _⟩
  · exact absurd (hatVersion _ hself).stop (by decide)
  · obtain ⟨n, hn, hinside⟩ := exists_of_mem_right hinNetworks hblock
    obtain rfl := List.mem_singleton.mp hn
    exact absurd (hinside _ hself).stop (by decide)
  · cases hinAssertions
    cases hblock

end NeuralQuery
