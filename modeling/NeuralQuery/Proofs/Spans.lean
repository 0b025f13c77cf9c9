import NeuralQuery.Proofs.Reparsing
import NeuralQuery.Proofs.Slicing

/-!
# NeuralQuery.Proofs.Spans

What the spans of a query say about its text (`Query.spans_faithful`).

Forms cover the tokens they are derived from, so that their spans lie inside each other and beside
each other as their tokens do (`Span.Splits`). A derivation does not depend on the places of its
tokens (`DerivesExpr.respan`). The text of the span of an expression has the tokens of the
expression, moved to the front, and is therefore read as the same expression, moved to the front.
-/

namespace NeuralQuery

/-! ## Expressions in other places -/

/-- The stretch with `n` more bytes before it. -/
def Span.raised (n : Nat) (s : Span) : Span :=
  ⟨s.file, s.start + n, s.stop + n⟩

theorem Span.raised_lowered {n : Nat} {s : Span} (hstart : n ≤ s.start) (hstop : n ≤ s.stop) :
    (s.lowered n).raised n = s := by
  simp [lowered, raised, Nat.sub_add_cancel hstart, Nat.sub_add_cancel hstop]

section
variable (g : Span → Span)

mutual

/-- The expression with other spans. -/
def Expr.respan : Expr → Expr
  | .var name indices s => .var name indices (g s)
  | .int lexeme value s => .int lexeme value (g s)
  | .float lexeme value s => .float lexeme value (g s)
  | .negate e s => .negate e.respan (g s)
  | .aggregate op es s => .aggregate op (Expr.respanAll es) (g s)
  | .minus h r s => .minus h.respan (Expr.respanAll r) (g s)
  | .compare op l r s => .compare op l.respan r.respan (g s)
  | .connective op es s => .connective op (Expr.respanAll es) (g s)

def Expr.respanAll : List Expr → List Expr
  | [] => []
  | e :: es => e.respan :: Expr.respanAll es

end

end

namespace Expr

variable {g : Span → Span}

theorem respanAll_eq_map (es : List Expr) : respanAll g es = es.map (respan g) := by
  induction es with
  | nil => rfl
  | cons e es ih => rw [respanAll, ih, List.map_cons]

theorem depths_respan {es : List Expr} (h : ∀ e ∈ es, (e.respan g).depth = e.depth) :
    depths (respanAll g es) = depths es := by
  induction es with
  | nil => rfl
  | cons e es ih =>
    obtain ⟨he, hes⟩ := List.forall_mem_cons.mp h
    rw [respanAll, depths, depths, he, ih hes]

theorem depth_respan (e : Expr) : (e.respan g).depth = e.depth := by
  induction e using Expr.inductOn with
  | var name indices s => rfl
  | int lexeme value s => rfl
  | float lexeme value s => rfl
  | negate e s ih => rw [respan, depth, depth, ih]
  | aggregate op es s ih => rw [respan, depth, depth, depths_respan ih]
  | minus h r s ihh ihr => rw [respan, depth, depth, ihh, depths_respan ihr]
  | compare op l r s ihl ihr => rw [respan, depth, depth, ihl, ihr]
  | connective op es s ih => rw [respan, depth, depth, depths_respan ih]

/-- A change of spans is undone by another one that undoes it for every span of the expression. -/
theorem respan_respan {k : Span → Span} {e : Expr}
    (h : ∀ f : Expr, f.Within e → k (g f.span) = f.span) : (e.respan g).respan k = e := by
  have hall {es : List Expr} (h : ∀ e ∈ es, (e.respan g).respan k = e) :
      respanAll k (respanAll g es) = es := by
    rw [respanAll_eq_map, respanAll_eq_map, List.map_map]
    exact (List.map_congr_left h).trans (List.map_id es)
  induction e using Expr.inductOn with
  | var name indices s => exact congrArg (Expr.var name indices) (h _ .refl)
  | int lexeme value s => exact congrArg (Expr.int lexeme value) (h _ .refl)
  | float lexeme value s => exact congrArg (Expr.float lexeme value) (h _ .refl)
  | negate e s ih =>
    rw [respan, respan, ih fun f hf => h f (.operand (by simp [operands]) hf),
      show k (g s) = s from h _ .refl]
  | aggregate op es s ih =>
    rw [respan, respan, hall fun e he => ih e he fun f hf => h f (.operand he hf),
      show k (g s) = s from h _ .refl]
  | minus e es s ihe ihes =>
    rw [respan, respan, ihe fun f hf => h f (.operand (by simp [operands]) hf),
      hall fun e' he => ihes e' he fun f hf => h f (.operand (by simp [operands, he]) hf),
      show k (g s) = s from h _ .refl]
  | compare op l r s ihl ihr =>
    rw [respan, respan, ihl fun f hf => h f (.operand (by simp [operands]) hf),
      ihr fun f hf => h f (.operand (by simp [operands]) hf), show k (g s) = s from h _ .refl]
  | connective op es s ih =>
    rw [respan, respan, hall fun e he => ih e he fun f hf => h f (.operand he hf),
      show k (g s) = s from h _ .refl]

end Expr

section
variable {g : Span → Span}

theorem IsInteger.respan {t : Token} {i : Int64} (h : IsInteger t i) : IsInteger (t.respan g) i :=
  ⟨h.kind, h.spells⟩

theorem DerivesRow.respan {ts : List Token} {is : List Int64} (h : DerivesRow ts is) :
    DerivesRow (ts.map (Token.respan g)) is := by
  induction h with
  | empty => exact .empty
  | last hi => exact .last hi.respan
  | cons hi hcomma _ hne ih => exact .cons hi.respan hcomma ih hne

theorem Applies.respan {s : Span} {k : Token.Kind} {es : List Expr} {e : Expr}
    (h : Applies s k es e) : Applies (g s) k (es.map (Expr.respan g)) (e.respan g) := by
  cases h with
  | aggregate op hne =>
    rw [Expr.respan, Expr.respanAll_eq_map]
    exact .aggregate op (by simpa using hne)
  | negate e => exact .negate (e.respan g)
  | @minus r h hne =>
    rw [Expr.respan, Expr.respanAll_eq_map]
    exact .minus (h.respan g) (by simpa using hne)
  | compare op l r => exact .compare op (l.respan g) (r.respan g)
  | connective op hne =>
    rw [Expr.respan, Expr.respanAll_eq_map]
    exact .connective op (by simpa using hne)

/-- A change of spans that keeps ends together can be made before or after parsing. -/
theorem DerivesExpr.respan (hg : ∀ a b : Span, g (a.upTo b) = (g a).upTo (g b)) {ts : List Token}
    {e : Expr} (h : DerivesExpr ts e) : DerivesExpr (ts.map (Token.respan g)) (e.respan g) := by
  induction h with
  | @name t hk => exact .name (t := t.respan g) hk
  | @indexed t left right ts is hk hleft hrow hright =>
    rw [Expr.respan, hg, List.map_cons, List.map_cons, List.map_append]
    exact @DerivesExpr.indexed (t.respan g) (left.respan g) (right.respan g) _ _ hk hleft
      hrow.respan hright
  | integer hf hi => exact .integer (t := Token.respan g _) hf hi.respan
  | fractional hf hk => exact .fractional (t := Token.respan g _) hf hk
  | @compound left op right e parts hleft _ hright happ ih =>
    have hparts : ∀ p ∈ parts.map (Prod.map (List.map (Token.respan g)) (Expr.respan g)),
        DerivesExpr p.1 p.2 := List.forall_mem_map.mpr ih
    have hrow : (parts.map (Prod.map (List.map (Token.respan g)) (Expr.respan g))).flatMap
        Prod.fst = (parts.flatMap Prod.fst).map (Token.respan g) := by
      rw [List.flatMap_map, List.map_flatMap]
      rfl
    have happ' := happ.respan (g := g)
    rw [hg] at happ'
    rw [List.map_cons, List.map_cons, List.map_append, ← hrow]
    refine @DerivesExpr.compound (left.respan g) (op.respan g) (right.respan g) _ _ hleft hparts
      hright ?_
    rw [List.map_map]
    rw [List.map_map] at happ'
    exact happ'

end

/-! ## Parts of a form -/

/-- Stretches inside this one, each behind those before it. -/
structure Span.Splits (s : Span) (parts : List Span) : Prop where
  inside : ∀ p ∈ parts, p.Inside s
  apart : parts.Pairwise fun p q => p.stop ≤ q.start

namespace Span.Splits

theorem nil {s : Span} : s.Splits [] :=
  ⟨fun _ hp => absurd hp List.not_mem_nil, .nil⟩

theorem of_parts {α : Type} {span : α → Span} {parts : List (List Token × α)}
    (h : ∀ p ∈ parts, Covers p.1 (span p.2)) {ts : List Token} {s : Span} (hs : Covers ts s)
    (hsub : (parts.flatMap Prod.fst).Sublist ts) {file : String} (hl : Laid file ts) :
    s.Splits ((parts.map Prod.snd).map span) := by
  constructor
  · intro t ht
    rw [List.map_map] at ht
    obtain ⟨p, hp, rfl⟩ := List.mem_map.mp ht
    exact (h p hp).inside hs ((infix_of_part hp).sublist.trans hsub) hl
  · have hrow : Laid file ((parts.map fun p => (p.1, span p.2)).flatMap Prod.fst) := by
      rw [List.flatMap_map]
      exact hl.sublist hsub
    have hapart := Covers.apart (List.forall_mem_map.mpr h) hrow
    simpa only [List.map_map, Function.comp_def] using hapart

/-- The parts start one behind the other. -/
theorem increasing {s : Span} {parts : List Span} (h : s.Splits parts) :
    parts.Pairwise fun p q => p.start < q.start :=
  h.apart.imp_of_mem fun hp _ hle => Nat.lt_of_lt_of_le (h.inside _ hp).filled hle

theorem widen {s t : Span} {parts : List Span} (h : s.Splits parts) (hfile : s.file = t.file)
    (hstart : t.start ≤ s.start) (hstop : s.stop ≤ t.stop) : t.Splits parts :=
  ⟨fun p hp => ⟨(h.inside p hp).file.trans hfile, (h.inside p hp).filled,
    Nat.le_trans hstart (h.inside p hp).start, Nat.le_trans (h.inside p hp).stop hstop⟩, h.apart⟩

end Span.Splits

section
variable {file : String} {ts : List Token}

theorem DerivesExpr.splits {e : Expr} (h : DerivesExpr ts e) (hl : Laid file ts) :
    e.span.Splits (e.operands.map Expr.span) := by
  have hcovers := h.covers
  cases h with
  | name _ => exact .nil
  | indexed _ _ _ _ => exact .nil
  | integer _ _ => exact .nil
  | fractional _ _ => exact .nil
  | @compound left op right _ parts _ hparts _ happ =>
    rw [happ.operands.1]
    refine .of_parts (fun p hp => (hparts p hp).covers) hcovers ?_ hl
    exact ((List.sublist_append_left _ _).cons op).cons left

/-- The network has these forms, and their tokens stand in the row in this order. -/
def Network.Lists (row : List Token) (n : Network) (items : List Network.Item) : Prop :=
  n = .ofItems n.name items n.span ∧ ∃ parts : List (List Token × Network.Item),
    (∀ p ∈ parts, DerivesItem p.1 p.2) ∧ parts.map Prod.snd = items ∧
      parts.flatMap Prod.fst <:+: row

theorem Network.Lists.mono {row : List Token} {n : Network} {items : List Network.Item}
    (h : n.Lists ts items) (hrow : ts <:+: row) : n.Lists row items := by
  obtain ⟨heq, parts, hparts, hitems, hsub⟩ := h
  exact ⟨heq, parts, hparts, hitems, hsub.trans hrow⟩

theorem DerivesNetwork.splits {n : Network} (h : DerivesNetwork ts n) (hl : Laid file ts) :
    n.Lists ts n.items ∧ n.span.Splits (n.items.map Network.Item.span) := by
  have hcovers := h.covers
  cases h with
  | @mk left keyword name right parts _ _ _ hparts _ =>
    have hsub : (parts.flatMap Prod.fst).Sublist
        (left :: keyword :: name :: (parts.flatMap Prod.fst ++ [right])) :=
      (((List.sublist_append_left _ _).cons name).cons keyword).cons left
    have hsplits := Span.Splits.of_parts (fun p hp => (hparts p hp).covers) hcovers hsub hl
    have hstarts := hsplits.increasing
    rw [List.pairwise_map] at hstarts
    have hitems := Network.items_ofItems name.value (left.span.upTo right.span) hstarts
    rw [hitems]
    exact ⟨⟨rfl, parts, hparts, rfl, [left, keyword, name], [right], by simp⟩, hsplits⟩

theorem DerivesAssertion.inside {a : Assertion} (h : DerivesAssertion ts a) (hl : Laid file ts) :
    a.condition.span.Inside a.span := by
  have hcovers := h.covers
  cases h with
  | @mk left keyword right us _ _ _ hcondition _ _ =>
    refine hcondition.covers.inside hcovers ?_ hl
    exact ((List.sublist_append_left us [right]).cons keyword).cons left

/-- Some span covers the tokens, if there are any. -/
theorem Covers.exists (h : ts ≠ []) : ∃ s, Covers ts s := by
  refine ⟨(ts.head h).span.upTo (ts.getLast h).span, h, fun t ht => ?_, fun t ht => ?_⟩
  · rw [List.head?_eq_some_head h] at ht
    obtain rfl := Option.some.inj ht
    rfl
  · rw [List.getLast?_eq_some_getLast h] at ht
    obtain rfl := Option.some.inj ht
    rfl

theorem DerivesQuery.splits {ending : Token} {q : Query} (h : DerivesQuery file ending ts q)
    (hl : Laid file ts) (hend : ∀ t ∈ ts, t.span.stop ≤ ending.span.start) :
    q.span.Splits
      (q.version.span :: (q.networks.map Network.span ++ q.assertions.map Assertion.span)) := by
  cases h with
  | @mk us v networks assertions hv hn ha =>
    let parts : List (List Token × Span) := (us, v.span) ::
      (networks.map (fun p => (p.1, p.2.span)) ++ assertions.map fun p => (p.1, p.2.span))
    have hparts : ∀ p ∈ parts, Covers p.1 (id p.2) :=
      List.forall_mem_cons.mpr ⟨hv.covers, List.forall_mem_append.mpr
        ⟨List.forall_mem_map.mpr fun p hp => (hn p hp).covers,
          List.forall_mem_map.mpr fun p hp => (ha p hp).covers⟩⟩
    have hrow : parts.flatMap Prod.fst =
        us ++ (networks.flatMap Prod.fst ++ assertions.flatMap Prod.fst) := by
      simp [parts, List.flatMap_map]
    obtain ⟨s, hs⟩ := Covers.exists (List.append_ne_nil_of_left_ne_nil hv.covers.ne_nil
      (networks.flatMap Prod.fst ++ assertions.flatMap Prod.fst))
    obtain ⟨t, ht, hstop⟩ := hs.last
    have hsplits := Span.Splits.of_parts hparts hs (hrow ▸ List.Sublist.refl _) hl
    have hall : (parts.map Prod.snd).map id = v.span ::
        ((networks.map Prod.snd).map Network.span ++
          (assertions.map Prod.snd).map Assertion.span) := by
      simp [parts, Function.comp_def]
    rw [hall] at hsplits
    exact hsplits.widen (hs.file_eq hl) (Nat.zero_le _) (hstop ▸ hend t ht)

theorem DerivesQuery.networks_split {ending : Token} {q : Query} (h : DerivesQuery file ending ts q)
    (hl : Laid file ts) : ∀ n ∈ q.networks,
      n.Lists ts n.items ∧ n.span.Splits (n.items.map Network.Item.span) := by
  cases h with
  | @mk us v networks assertions _ hn _ =>
    intro n hmem
    obtain ⟨p, hp, rfl⟩ := List.mem_map.mp hmem
    obtain ⟨hlists, hsplits⟩ := (hn p hp).splits (hl.right.left.part hp)
    have hrow : networks.flatMap Prod.fst <:+:
        us ++ (networks.flatMap Prod.fst ++ assertions.flatMap Prod.fst) :=
      ⟨us, assertions.flatMap Prod.fst, by rw [List.append_assoc]⟩
    exact ⟨hlists.mono ((infix_of_part hp).trans hrow), hsplits⟩

theorem DerivesQuery.conditions_inside {ending : Token} {q : Query}
    (h : DerivesQuery file ending ts q) (hl : Laid file ts) :
    ∀ a ∈ q.assertions, a.condition.span.Inside a.span := by
  cases h with
  | @mk us v networks assertions _ _ ha =>
    intro a hmem
    obtain ⟨p, hp, rfl⟩ := List.mem_map.mp hmem
    exact (ha p hp).inside (hl.right.right.part hp)

end

/-! ## Queries -/

/-- No token ends behind the end of the text. -/
theorem Token.tokenize_ending {source file : String} {row : List Token} {ending : Token}
    (h : Token.tokenize source file = .ok (row ++ [ending]))
    (hsize : Text.byteLength source.toList < UInt32.size) :
    ending.span.start = Text.byteLength source.toList ∧
      ∀ t ∈ row, t.span.stop ≤ ending.span.start := by
  obtain ⟨row', heq, hstand⟩ := Scan.tokens_stand h
  obtain ⟨rfl, hend⟩ := List.append_inj' heq rfl
  obtain rfl := List.singleton_inj.mp hend
  have hstart : (Scan.ofSource source file).ending.span.start = Text.byteLength source.toList :=
    (Position.wrap_of_lt (by simpa [Scan.ofSource] using hsize)).trans (Nat.zero_add _)
  refine ⟨hstart, fun t ht => ?_⟩
  obtain ⟨front, text, rest, _, hsource, _, _, hspan⟩ := (hstand t ht).span hsize
  rw [hstart, hspan, hsource, ← List.append_assoc, Text.byteLength_append (front ++ text)]
  exact Nat.le_add_right _ _

namespace Query.ReadFrom

variable {source file : String} {q : Query} {e : Expr}

theorem splits (h : q.ReadFrom source file)
    (hsize : Text.byteLength source.toList < UInt32.size) (he : e.In q) :
    e.span.Splits (e.operands.map Expr.span) := by
  obtain ⟨row, ending, ts, htok, hts, hderives, _⟩ := h.derives he
  exact hderives.splits ((Token.tokenize_laid htok hsize).sublist hts.sublist)

/-- The text of an expression is parsed as that expression, moved to the front of the text. -/
theorem slice (h : q.ReadFrom source file)
    (hsize : Text.byteLength source.toList < UInt32.size) (he : e.In q) :
    ∃ e', Expr.ParsedFrom (e.span.slice source) file e' ∧
      e'.respan (Span.raised e.span.start) = e := by
  obtain ⟨row, ending, ts, htok, hts, hderives, hdepth⟩ := h.derives he
  obtain ⟨ending', htok'⟩ := Token.tokenize_slice htok hsize hts hderives.covers
  have hlowered := hderives.respan (g := Span.lowered e.span.start) fun _ _ => rfl
  refine ⟨_, hlowered.parsedFrom (by rw [Expr.depth_respan]; exact hdepth) htok', ?_⟩
  -- nothing in the expression starts before it
  refine Expr.respan_respan fun f hf => ?_
  obtain ⟨us, hus, hf'⟩ := hderives.within hf
  have hinside := hf'.covers.inside hderives.covers hus.sublist
    ((Token.tokenize_laid htok hsize).sublist hts.sublist)
  have hstart := hinside.start
  have hfilled := hinside.filled
  exact Span.raised_lowered hstart (by omega)

end Query.ReadFrom

/-- In a text of fewer than `2 ^ 32` bytes every form lies inside the form around it, and the forms
inside it do not overlap and stand in written order. For the forms of a network that is the order of
their tokens. The text that an expression spans is parsed on its own as the same expression, with
the bytes before that text missing from every offset. -/
theorem Query.spans_faithful {source file : String} {q : Query} (h : q.ReadFrom source file)
    (hsize : Text.byteLength source.toList < UInt32.size) :
    q.span = ⟨file, 0, Text.byteLength source.toList⟩ ∧
      q.span.Splits
        (q.version.span :: (q.networks.map Network.span ++ q.assertions.map Assertion.span)) ∧
      (∃ row ending, Token.tokenize source file = .ok (row ++ [ending]) ∧ ∀ n ∈ q.networks,
        n.Lists row n.items ∧ n.span.Splits (n.items.map Network.Item.span)) ∧
      (∀ a ∈ q.assertions, a.condition.span.Inside a.span) ∧
      ∀ e : Expr, e.In q → e.span.Splits (e.operands.map Expr.span) ∧
        ∃ e', Expr.ParsedFrom (e.span.slice source) file e' ∧
          e'.respan (Span.raised e.span.start) = e := by
  have hread := h
  obtain ⟨tokens, htok, hparse⟩ := h
  obtain ⟨row, span, rfl, _⟩ := Token.Scan.tokens_row htok
  have hderives := (Query.ofTokens_tokenize_iff htok).mp hparse
  have hlaid := Token.tokenize_laid htok hsize
  obtain ⟨hending, hstops⟩ := Token.tokenize_ending htok hsize
  have hwhole : q.span = ⟨file, 0, Text.byteLength source.toList⟩ := by
    cases hderives
    rw [hending]
  exact ⟨hwhole, hderives.splits hlaid hstops, ⟨row, _, htok, hderives.networks_split hlaid⟩,
    hderives.conditions_inside hlaid, fun e he => ⟨hread.splits hsize he, hread.slice hsize he⟩⟩

/-- A network that declares its output first, and a comment in the middle of an expression. -/
def Query.spacedSource : String :=
  "(vnnlib-version<2.0>)(declare-network N(declare-output y float32[]\"\u00e9\")" ++
    "(declare-input x float32[2]))(assert(<=(- x ; \u00e9\n[1])1))"

theorem Query.spacedSource_spans :
    ∃ (q : Query) (e e' : Expr), q.ReadFrom Query.spacedSource "q" ∧ e.In q ∧
      e.span = ⟨"q", 110, 124⟩ ∧ e.span.slice Query.spacedSource = "(- x ; \u00e9\n[1])" ∧
      Expr.ParsedFrom "(- x ; \u00e9\n[1])" "q" e' ∧ e'.respan (Span.raised 110) = e ∧
      ∀ n ∈ q.networks, n.span.Splits (n.items.map Network.Item.span) := by
  have hspans : (Token.tokenize Query.spacedSource "q").toOption.any (fun tokens =>
      (Query.ofTokens tokens "q").toOption.any fun q =>
        q.assertions.flatMap (fun a => a.condition.operands.map fun e =>
          (e.span, e.span.slice Query.spacedSource)) ==
        [(⟨"q", 110, 124⟩, "(- x ; \u00e9\n[1])"), (⟨"q", 124, 125⟩, "1")]) = true := by
    decide +kernel
  obtain ⟨q, hread, hspans⟩ := Query.exists_readFrom hspans
  obtain ⟨_, _, ⟨_, _, _, hnetworks⟩, _, hexprs⟩ := Query.spans_faithful hread (by decide +kernel)
  have hmem : ((⟨"q", 110, 124⟩ : Span), "(- x ; \u00e9\n[1])") ∈ q.assertions.flatMap
      (fun a => a.condition.operands.map fun e => (e.span, e.span.slice Query.spacedSource)) := by
    rw [beq_iff_eq.mp hspans]
    exact List.mem_cons_self
  obtain ⟨a, ha, hoperand⟩ := List.mem_flatMap.mp hmem
  obtain ⟨e, he, hspan⟩ := List.mem_map.mp hoperand
  obtain ⟨hspan, hslice⟩ := Prod.mk.inj hspan
  have hin : e.In q := ⟨a, ha, .operand he .refl⟩
  obtain ⟨e', hparsed, hraised⟩ := (hexprs e hin).2
  rw [hslice] at hparsed
  rw [hspan] at hraised
  exact ⟨q, e, e', hread, hin, hspan, hslice, hparsed, hraised, fun n hn => (hnetworks n hn).2⟩

end NeuralQuery
