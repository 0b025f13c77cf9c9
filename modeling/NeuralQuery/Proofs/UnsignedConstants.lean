import NeuralQuery.Proofs.ConstantSigns
import NeuralQuery.Proofs.Reparsing
import NeuralQuery.Proofs.WalkOrder

/-!
# NeuralQuery.Proofs.UnsignedConstants

Constants among operands of an unsigned type (`Query.unsigned_constants`).

A constant that meets a tensor, or is one side of a comparison, is pinned only to a type that its
kind admits, so no such constant of an unsigned type counts as negative (`Typing.meets_admits`).
Whether its value is not negative either is up to its form (`Expr.KeepsSign`). Below it a literal
has the same type, whatever its own sign.
-/

namespace NeuralQuery

open Typed (Arith Formula Node)

/-! ## Types of operands -/

section
variable {networks : List Network} {e f : Expr} {t : ValueType}

/-- An operand of a form with an element type has that type or may adopt it; in a form of literals
there are literals only. -/
theorem HasType.operand (h : HasType networks e t) (hf : f ∈ e.operands) :
    ∃ u, HasType networks f u ∧
      (∀ v, t = .element v → u = .element v ∨ ∃ k, u = .literal k ∧ k.admits v = true) ∧
      ∀ k, t = .literal k → ∃ j, u = .literal j := by
  have hagrees : ∀ {es : List Expr} (type : Expr → ValueType), f ∈ es →
      (∀ e ∈ es, HasType networks e (type e)) → Agrees (es.map type) t →
      ∃ u, HasType networks f u ∧
        (∀ v, t = .element v → u = .element v ∨ ∃ k, u = .literal k ∧ k.admits v = true) ∧
        ∀ k, t = .literal k → ∃ j, u = .literal j := by
    intro es type hf htypes hagree
    refine ⟨type f, htypes f hf, ?_, ?_⟩
    · rintro v rfl
      cases hagree with
      | element _ _ hall => exact hall _ (List.mem_map_of_mem hf)
    · rintro k rfl
      cases hagree with
      | literal _ hall =>
        obtain ⟨j, hj, _⟩ := hall _ (List.mem_map_of_mem hf)
        exact ⟨j, hj⟩
  cases h with
  | var _ _ => cases hf
  | int _ => cases hf
  | float _ _ _ => cases hf
  | @negate e s u he _ =>
    rw [List.mem_singleton.mp hf]
    refine ⟨u, he, fun v hv => ?_, fun k hk => ?_⟩
    · cases u with
      | element w => exact .inl hv
      | literal k => cases hv
      | unknown => cases hv
    · cases u with
      | element w => cases hk
      | literal j => exact ⟨j, rfl⟩
      | unknown => cases hk
  | aggregate type htypes hagree => exact hagrees type hf htypes hagree
  | minus type htypes hagree => exact hagrees type hf htypes hagree

/-- In an expression with an element type there are that type and literals only. -/
theorem HasType.within (h : HasType networks e t) (hf : f.Within e) {v : ElementType}
    (ht : t = .element v ∨ ∃ k, t = .literal k) :
    ∃ u, HasType networks f u ∧ (u = .element v ∨ ∃ k, u = .literal k) := by
  induction hf generalizing t with
  | refl => exact ⟨t, h, ht⟩
  | operand hg _ ih =>
    obtain ⟨u, hu, helement, hliteral⟩ := h.operand hg
    refine ih hu ?_
    rcases ht with rfl | ⟨k, rfl⟩
    · rcases helement v rfl with hv | ⟨k, hk, _⟩
      · exact .inl hv
      · exact .inr ⟨k, hk⟩
    · exact .inr (hliteral k rfl)

/-- There is no tensor in an expression of literals. -/
theorem HasType.no_tensor
    (htypes : ∀ n ∈ networks, ∀ d ∈ n.declarations, ∃ t, d.type = .element t) {k : LiteralKind}
    (h : HasType networks e (.literal k)) (name : String) (indices : List Int64) (s : Span) :
    ¬ (Expr.var name indices s).Within e := by
  intro hw
  generalize hv : Expr.var name indices s = v at hw
  induction hw generalizing k with
  | refl =>
    subst hv
    generalize ht : ValueType.literal k = t at h
    cases h with
    | @var _ _ _ d href _ =>
      obtain ⟨n, hn, hd, _⟩ := href
      obtain ⟨u, hu⟩ := htypes n hn d hd
      rw [hu] at ht
      cases ht
  | operand hg _ ih =>
    obtain ⟨u, hu, _, hliteral⟩ := h.operand hg
    obtain ⟨j, rfl⟩ := hliteral k rfl
    exact ih hu

end

theorem Expr.IsConstant.built {e : Expr} (h : e.IsConstant) : e.Built := by
  induction h with
  | int _ => exact .int ..
  | negate _ ih => exact .compound (.negate _) (by simpa using ih)
  | aggregate hne _ ih => exact .compound (.aggregate _ hne) ih
  | minus hne _ ih => exact .compound (.minus _ hne) ih

/-! ## Trees of checked expressions -/

theorem Expr.eq_of_parts {e f : Expr} (hform : e.form = f.form) (hops : e.operands = f.operands)
    (hspan : e.span = f.span) : e = f := by
  cases e <;> cases f <;> simp_all [Expr.form, Expr.operands, Expr.span]

/-- An expression is known by its tree. -/
theorem Expr.tree_injective {e f : Expr} (h : e.tree = f.tree) : e = f := by
  induction e using Expr.operandsInduct generalizing f with
  | h e ih =>
    have hrow : ∀ es fs : List Expr, (∀ g ∈ es, g ∈ e.operands) →
        es.map Expr.tree = fs.map Expr.tree → es = fs := by
      intro es
      induction es with
      | nil => exact fun fs _ heq => (List.map_eq_nil_iff.mp heq.symm).symm
      | cons g es ihes =>
        intro fs hsub heq
        obtain ⟨g', gs, rfl, hg, hgs⟩ := List.map_eq_cons_iff.mp heq.symm
        obtain ⟨hmem, hes⟩ := List.forall_mem_cons.mp hsub
        rw [ih g hmem hg.symm, ihes gs hes hgs.symm]
    rw [e.tree_eq, f.tree_eq] at h
    obtain ⟨hform, hops, hspan⟩ := Tree.node.inj h
    exact Expr.eq_of_parts hform (hrow _ _ (fun _ hg => hg) hops) hspan

namespace Typed.Arith

/-- An operand of a checked expression has the tree of an operand of the expression. -/
theorem operand_tree {a b : Arith} {e : Expr} (h : a.tree = e.tree) (hb : b ∈ a.operands) :
    ∃ f ∈ e.operands, b.tree = f.tree := by
  have hmem : b.tree ∈ e.tree.operands := by
    rw [← h, operands_tree]
    exact List.mem_map_of_mem hb
  rw [e.tree_eq] at hmem
  obtain ⟨f, hf, heq⟩ := List.mem_map.mp hmem
  exact ⟨f, hf, heq.symm⟩

/-- A node within a checked expression has the tree of an expression within that expression. -/
theorem Within.source {a b : Arith} (hb : b.Within a) {e : Expr} (h : a.tree = e.tree) :
    ∃ f : Expr, f.Within e ∧ b.tree = f.tree := by
  induction hb generalizing e with
  | refl => exact ⟨e, .refl, h⟩
  | operand hc _ ih =>
    obtain ⟨g, hg, heq⟩ := operand_tree h hc
    obtain ⟨f, hf, hfb⟩ := ih heq
    exact ⟨f, .operand hg hf, hfb⟩

/-- There is a tensor in the expression. -/
def HasTensor (a : Arith) : Prop :=
  ∃ symbol name indices t s, (Arith.var symbol name indices t s).Within a

theorem HasTensor.source {a : Arith} (h : a.HasTensor) {e : Expr} (he : a.tree = e.tree) :
    ∃ name indices s, (Expr.var name indices s).Within e := by
  obtain ⟨symbol, name, indices, t, s, hw⟩ := h
  obtain ⟨f, hf, htree⟩ := hw.source he
  obtain rfl : Expr.var name indices s = f := Expr.tree_injective htree
  exact ⟨name, indices, s, hf⟩

/-- A whole side of a comparison, or an operand of a form in it that has a tensor. -/
def Meets (b side : Arith) : Prop :=
  b = side ∨ ∃ a : Arith, a.Within side ∧ a.HasTensor ∧ b ∈ a.operands

theorem Meets.within {b side : Arith} (h : b.Meets side) : b.Within side := by
  rcases h with rfl | ⟨a, ha, _, hb⟩
  · exact .refl
  · exact (Within.operand hb .refl).trans ha

end Typed.Arith

/-! ## Constants that are pinned -/

theorem LiteralKind.eq_positiveInt {k : LiteralKind} {t : ElementType} (h : k.admits t = true)
    (ht : t.isUnsigned = true) : k = .positiveInt := by
  cases t <;> cases ht <;> cases k <;> first | rfl | cases h

namespace Typing

open Checked

section
variable {table : SymbolTable} {policy : LiteralPolicy} {networks : List Network}
  (htypes : ∀ n ∈ networks, ∀ d ∈ n.declarations, ∃ t, d.type = .element t)
include htypes

theorem known_of_types : ∀ n ∈ networks, ∀ d ∈ n.declarations, d.type ≠ .unknown := by
  intro n hn d hd
  obtain ⟨t, ht⟩ := htypes n hn d hd
  simp [ht]

variable (hdesc : Describes table networks)
include hdesc

/-- A constant has its kind as its type and no other. -/
theorem constant_type {e : Expr} {t : ValueType} (he : e.IsConstant)
    (h : HasType networks e t) : t = .literal e.kind := by
  have htype := ((arith_iff .keep hdesc (known_of_types htypes) he.built t).mpr h).2
  rw [← htype]
  exact (arith_constant table .keep he).2

/-- A constant on a side that has an element type or may adopt it may adopt it too, if it meets a
tensor or is the whole side. -/
theorem meets_admits {e : Expr} {side b : Arith} {t : ValueType} {v : ElementType}
    (he : HasType networks e t)
    (ht : t = .element v ∨ ∃ k, t = .literal k ∧ k.admits v = true)
    (htree : side.tree = e.tree) (hb : b.Meets side) {c : Expr} (hc : c.IsConstant)
    (hcb : c.tree = b.tree) : c.kind.admits v = true := by
  rcases hb with rfl | ⟨a, ha, htensor, hb⟩
  · obtain rfl := Expr.tree_injective (hcb.trans htree)
    obtain rfl := constant_type htypes hdesc hc he
    rcases ht with ht | ⟨k, hk, hadmits⟩
    · cases ht
    · cases hk
      exact hadmits
  · -- the form around the constant has a tensor, and so an element type
    obtain ⟨g, hg, hga⟩ := ha.source htree
    obtain ⟨name, indices, s, hvar⟩ := htensor.source hga
    have hliteral : t = .element v ∨ ∃ k, t = .literal k :=
      ht.imp_right fun ⟨k, hk, _⟩ => ⟨k, hk⟩
    obtain ⟨u, hu, hcases⟩ := he.within hg hliteral
    obtain rfl : u = .element v := by
      rcases hcases with hcases | ⟨k, rfl⟩
      · exact hcases
      · exact absurd hvar (hu.no_tensor htypes name indices s)
    obtain ⟨f, hf, hfb⟩ := Arith.operand_tree hga hb
    obtain rfl := Expr.tree_injective (hcb.trans hfb)
    obtain ⟨w, hw, helement, _⟩ := hu.operand hf
    obtain rfl := constant_type htypes hdesc hc hw
    rcases helement v rfl with helement | ⟨k, hk, hadmits⟩
    · cases helement
    · cases hk
      exact hadmits

section
variable {tensor : String → Bool} (hfinds : FindsTensors table tensor) (hdecl : Declared table)
  {v : ElementType} {b : Arith} (hbt : b.type = .element v) {c : Expr} (hc : c.IsConstant)
  (hcb : c.tree = b.tree)
include hfinds hdecl hbt hc hcb

/-- A side that is pinned to a type pins no constant that may not adopt the type. -/
theorem side_admits {e : Expr} (hbuilt : e.Built) (hclean : reports table policy .arith e = [])
    {u : ElementType} (hu : (arith table policy e).value.type = .element u ∨
      ∃ k, (arith table policy e).value.type = .literal k ∧ k.admits u = true)
    (hb : b.Meets ((arith table policy e).value.pin u)) : c.kind.admits v = true := by
  have hpinned : (arith table policy e).value.Pinned := arith_pinned hdecl e
  have hsame := ((hpinned.pin u).1 _ .refl).element u (pin_type hpinned hu) b hb.within
  rw [hbt] at hsame
  cases hsame
  have htree : ((arith table policy e).value.pin v).tree = e.tree := by
    rw [Arith.tree_pin, arith_tree hfinds, prune_eq_self hfinds policy hclean]
  have htype := (arith_iff policy hdesc (known_of_types htypes) hbuilt _).mp ⟨hclean, rfl⟩
  exact meets_admits htypes hdesc htype hu htree hb hc hcb

/-- A comparison pins no constant that may not adopt the type. -/
theorem compare_admits {op : Comparison} {l r : Expr} {s : Span}
    (hbuilt : (Expr.compare op l r s).Built)
    (hclean : reports table policy .formula (.compare op l r s) = []) {lhs rhs : Arith}
    (hvalue : (lhs, rhs) = (reconcile policy (arith table policy l).value
      (arith table policy r).value s.position).value)
    (hb : b.Meets lhs ∨ b.Meets rhs) : c.kind.admits v = true := by
  have hknown := known_of_types htypes
  obtain ⟨hbl, hbr⟩ : l.Built ∧ r.Built := by
    cases hbuilt with
    | compound happ hes =>
      cases happ
      exact ⟨hes l (by simp), hes r (by simp)⟩
  have hcl : reports table policy .arith l = [] := reports_operand hclean List.mem_cons_self
  have hcr : reports table policy .arith r = [] :=
    reports_operand hclean (List.mem_cons_of_mem _ List.mem_cons_self)
  have hcomparable : Comparable policy (arith table policy l).value.type
      (arith table policy r).value.type := by
    cases (formula_iff hdesc hknown hbuilt).mp hclean with
    | compare hl hr hcomparable =>
      rwa [((arith_iff policy hdesc hknown hbl _).mpr hl).2,
        ((arith_iff policy hdesc hknown hbr _).mpr hr).2]
  rcases reconcile_pins (p := s.position) hcomparable with
    ⟨u, hpins, hl, hr⟩ | ⟨_, hkept, ⟨j, hj⟩, ⟨k, hk⟩⟩
  · rw [hpins] at hvalue
    cases hvalue
    rcases hb with hb | hb
    · exact side_admits htypes hdesc hfinds hdecl hbt hc hcb hbl hcl hl hb
    · exact side_admits htypes hdesc hfinds hdecl hbt hc hcb hbr hcr hr hb
  · -- literals that are kept have no element type
    rw [hkept] at hvalue
    cases hvalue
    have hliteral : b.IsLiteral := by
      rcases hb with hb | hb
      · exact (arith_pinned hdecl l _ .refl).literal j hj b hb.within
      · exact (arith_pinned hdecl r _ .refl).literal k hk b hb.within
    obtain ⟨i, hi⟩ := hliteral.type
    rw [hbt] at hi
    cases hi

end
end
end Typing

/-! ## Queries -/

/-- The integer literals of an expression that was read have the values that they spell. -/
theorem DerivesExpr.literal {ts : List Token} {e : Expr} (h : DerivesExpr ts e) {lexeme : String}
    {value : Int64} {s : Span} (hw : (Expr.int lexeme value s).Within e) :
    (Expr.int lexeme value s).IsConstant := by
  induction h with
  | name _ => cases hw with | operand hg _ => cases hg
  | indexed _ _ _ _ => cases hw with | operand hg _ => cases hg
  | fractional _ _ => cases hw with | operand hg _ => cases hg
  | integer _ hi =>
    cases hw with
    | refl => exact .int hi.spells
    | operand hg _ => cases hg
  | compound parts _ _ _ happ ih =>
    have hops := happ.operands.1
    cases hw with
    | refl => exact absurd hops.symm happ.ne_nil
    | operand hg hw =>
      rw [hops] at hg
      obtain ⟨p, hp, rfl⟩ := List.mem_map.mp hg
      exact ih p hp hw

theorem DerivesQuery.literal {file : String} {ending : Token} {ts : List Token} {q : Query}
    (h : DerivesQuery file ending ts q) {a : Assertion} (ha : a ∈ q.assertions) {lexeme : String}
    {value : Int64} {s : Span} (hw : (Expr.int lexeme value s).Within a.condition) :
    (Expr.int lexeme value s).IsConstant := by
  cases h with
  | mk networks assertions _ _ hassertions =>
    obtain ⟨⟨ts, a⟩, hp, rfl⟩ := List.mem_map.mp ha
    have hderives : DerivesAssertion ts a := hassertions _ hp
    cases hderives with
    | mk _ _ hexpr _ _ => exact hexpr.literal hw

/-- Nothing is reported of a constant, and its type is the kind that its operands give it. The kinds
in a constant tell the signs for all digits of its literals exactly if its forms keep the sign. In a
query without a report, a constant of an unsigned type that meets a tensor or is a whole side of a
comparison counts as positive; if it keeps the sign, it is not negative. -/
theorem Query.unsigned_constants {tokens : List Token} {file : String} {q : Query}
    (h : Query.ofTokens tokens file = .ok q) (options : BuildOptions) :
    (∀ e : Expr, e.IsConstant →
      (∀ table policy, (Typing.arith table policy e).diagnostics = [] ∧
        (Typing.arith table policy e).value.type = .literal e.kind) ∧
      (e.KeepsSign ↔ ∀ f : Expr, f.Within e → f.TellsSign)) ∧
    (∀ a ∈ q.assertions, ∀ lexeme value s, (Expr.int lexeme value s).Within a.condition →
      (Expr.int lexeme value s).IsConstant) ∧
    ((Typing.query options.policy q).diagnostics = [] →
      ∀ op l r s, .formula (.compare op l r s) ∈
          Node.descendants (.query (Typing.query options.policy q).value) →
        ∀ b : Arith, b.Meets l ∨ b.Meets r →
          ∀ t, b.type = .element t → t.isUnsigned = true →
            ∀ c : Expr, c.IsConstant → c.tree = b.tree →
              c.kind = .positiveInt ∧ (c.KeepsSign → 0 ≤ c.integer)) := by
  obtain ⟨_, _, _, hderives, _⟩ := Query.ofTokens_derives h
  have hq := hderives.proper
  refine ⟨fun e he => ⟨fun table policy => Typing.arith_constant table policy he,
    Expr.keepsSign_iff he⟩, fun a ha lexeme value s => hderives.literal ha, ?_⟩
  intro hclean op l r s hmem b hb t hbt ht c hc hcb
  obtain ⟨a, ha, hw⟩ := Typed.Query.formula_mem_descendants hmem
  obtain ⟨d, hd, hcondition⟩ := Typing.mem_query_assertions ha
  obtain ⟨hvalue, hdesc, hconditions⟩ := Typing.query_clean hclean
  have hdecl := hq.declared
  have hfinds : Typing.FindsTensors (Typing.networksFrom q.networks .empty q.networks).value.2
      q.isTensor := q.resolves_iff options.policy
  rw [hvalue] at hcondition hdecl hfinds
  rw [hcondition] at hw
  obtain ⟨e, hformula, hbuilt, hsub⟩ := Typing.formula_within d.condition hw
  obtain ⟨l', r', rfl, hsides⟩ := Typing.formula_eq_compare hformula
  have hadmits := Typing.compare_admits hq.types hdesc hfinds hdecl hbt hc hcb
    (hbuilt (hq.conditions d hd)) (hsub (hconditions d hd)) hsides hb
  have hkind := LiteralKind.eq_positiveInt hadmits ht
  refine ⟨hkind, fun hkeeps => ?_⟩
  have htells := hkeeps.tells hc
  rwa [hkind] at htells

/-- The query is checked without a report, and its one node with this text has this type. -/
def Query.settlesOn (q : Query) (text : String) (t : ElementType) : Bool :=
  (Typing.query .keep q).diagnostics.isEmpty &&
    ((Node.descendants (.query (Typing.query .keep q).value)).filter (·.text == text)).map
      Node.type? == [some (.element t)]

theorem Query.settlesOn_iff {q : Query} {text : String} {t : ElementType} :
    q.settlesOn text t = true ↔ (Typing.query .keep q).diagnostics = [] ∧
      ((Node.descendants (.query (Typing.query .keep q).value)).filter (·.text == text)).map
        Node.type? = [some (.element t)] := by
  rw [Query.settlesOn, Bool.and_eq_true, List.isEmpty_iff, beq_iff_eq]

/-- An unsigned tensor beside a negated literal. -/
def Query.negatedLiteral : String :=
  "(vnnlib-version <2.0>)(declare-network N (declare-input x uint8 []))(assert (<= x (- -1)))"

theorem Query.negatedLiteral_unsigned :
    ∃ q : Query, q.ReadFrom Query.negatedLiteral "q" ∧ q.settlesOn "(- -1)" .uint8 = true ∧
      ∀ op l r s, .formula (.compare op l r s) ∈
          Node.descendants (.query (Typing.query .keep q).value) →
        ∀ b : Arith, b.Meets l ∨ b.Meets r →
          ∀ t, b.type = .element t → t.isUnsigned = true →
            ∀ c : Expr, c.IsConstant → c.tree = b.tree →
              c.kind = .positiveInt ∧ (c.KeepsSign → 0 ≤ c.integer) := by
  have hfacts : (Token.tokenize Query.negatedLiteral "q").toOption.any (fun tokens =>
      (Query.ofTokens tokens "q").toOption.any fun q => q.settlesOn "(- -1)" .uint8) = true := by
    decide +kernel
  obtain ⟨q, ⟨tokens, htokens, hq⟩, hsettles⟩ := Query.exists_readFrom hfacts
  exact ⟨q, ⟨tokens, htokens, hq⟩, hsettles,
    (Query.unsigned_constants hq {}).2.2 (Query.settlesOn_iff.mp hsettles).1⟩

/-- One less two, and an unsigned tensor beside it. -/
def Query.oneLessTwo : Expr × String :=
  (.minus (.int "1" 1 .nowhere) [.int "2" 2 .nowhere] .nowhere,
    "(vnnlib-version <2.0>)(declare-network N (declare-input x uint8 []))(assert (<= x (- 1 2)))")

/-- A constant that counts as positive may have a negative value, and adopts an unsigned type all
the same. -/
theorem Query.oneLessTwo_unsigned :
    Query.oneLessTwo.1.IsConstant ∧ Query.oneLessTwo.1.integer = -1 ∧
      (∀ table policy, (Typing.arith table policy Query.oneLessTwo.1).value.type =
        .literal .positiveInt) ∧
      ∃ q : Query, q.ReadFrom Query.oneLessTwo.2 "q" ∧ (Typing.query .keep q).diagnostics = [] ∧
        ((Node.descendants (.query (Typing.query .keep q).value)).filter
          (·.text == Query.oneLessTwo.1.text)).map Node.type? = [some (.element .uint8)] := by
  have hone : (Expr.int "1" 1 .nowhere).IsConstant :=
    .int (Number.int64?_eq_some_iff.mp (by decide))
  have htwo : (Expr.int "2" 2 .nowhere).IsConstant :=
    .int (Number.int64?_eq_some_iff.mp (by decide))
  have hconstant : Query.oneLessTwo.1.IsConstant :=
    .minus (List.cons_ne_nil _ _) (by simp [hone, htwo])
  have hfacts : (Token.tokenize Query.oneLessTwo.2 "q").toOption.any (fun tokens =>
      (Query.ofTokens tokens "q").toOption.any fun q =>
        q.settlesOn Query.oneLessTwo.1.text .uint8) = true := by
    decide +kernel
  obtain ⟨q, hread, hsettles⟩ := Query.exists_readFrom hfacts
  exact ⟨hconstant, by decide, fun table policy => (Typing.arith_constant table policy hconstant).2,
    q, hread, Query.settlesOn_iff.mp hsettles⟩

end NeuralQuery
