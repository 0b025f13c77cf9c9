import NeuralQuery.Proofs.Derivation

/-!
# NeuralQuery.Proofs.ParserSound

What the parser accepts has a derivation.

A parser that succeeds leaves its cursor behind the tokens it read and changes nothing else, so
"it read the row `ts`" is the equation `c = c'.before ts` between the cursors before and after.
Every parser gets one lemma of that form: the row it read is a derivation of the tree it returns.
The rows of the parts then make up the row of the whole.

`query_sound` needs nothing of the tokens. They may be any row, with its end in the middle.
-/

namespace NeuralQuery

namespace Cursor

/-- The cursor with more tokens in front of those ahead. -/
def before (c : Cursor) (ts : List Token) : Cursor :=
  { c with ahead := ts ++ c.ahead }

@[simp] theorem before_nil (c : Cursor) : c.before [] = c := rfl

@[simp] theorem before_before (c : Cursor) (ts us : List Token) :
    (c.before ts).before us = c.before (us ++ ts) := by
  simp [before]

@[simp] theorem ahead_before (c : Cursor) (ts : List Token) :
    (c.before ts).ahead = ts ++ c.ahead := rfl

@[simp] theorem kind_before_cons (c : Cursor) (t : Token) (ts : List Token) :
    (c.before (t :: ts)).kind = t.kind := rfl

@[simp] theorem advance_before_cons (c : Cursor) (t : Token) (ts : List Token) :
    (c.before (t :: ts)).advance = c.before ts := rfl

theorem peek_zero (c : Cursor) : c.peek 0 = c.kind := by
  cases h : c.ahead <;> simp [peek, kind, current, h, Ending.token]

@[simp] theorem peek_before_cons (c : Cursor) (t : Token) (ts : List Token) :
    (c.before (t :: ts)).peek 1 = (c.before ts).kind := by
  rw [← peek_zero]
  rfl

/-- A cursor whose current token is not the end stands in front of that token. -/
theorem eq_before_of_kind {c : Cursor} (h : c.kind ≠ .eof) :
    c = c.advance.before [c.current] := by
  obtain ⟨file, ahead, ending, depth⟩ := c
  cases ahead with
  | nil => exact absurd rfl h
  | cons t ts => rfl

end Cursor

namespace Parser

variable {α β : Type}

/-! ## Steps -/

theorem bind_ok {p : Parser α} {f : α → Parser β} {c c' : Cursor} {b : β} :
    (p >>= f) c = .ok b c' ↔ ∃ a c₁, p c = .ok a c₁ ∧ f a c₁ = .ok b c' := by
  show EStateM.bind p f c = .ok b c' ↔ _
  unfold EStateM.bind
  constructor
  · intro h
    split at h
    · rename_i a c₁ hp
      exact ⟨a, c₁, hp, h⟩
    · cases h
  · rintro ⟨a, c₁, hp, hf⟩
    rw [hp]
    exact hf

theorem pure_ok {a b : α} {c c' : Cursor} :
    (pure a : Parser α) c = .ok b c' ↔ a = b ∧ c = c' := by
  show EStateM.Result.ok a c = .ok b c' ↔ _
  simp

theorem throw_ok {d : Diagnostic} {c c' : Cursor} {a : α} :
    ¬ (throw d : Parser α) c = .ok a c' := by
  intro h
  cases h

theorem kind_ok {c c' : Cursor} {k : Token.Kind} :
    kind c = .ok k c' ↔ c.kind = k ∧ c = c' := by
  simp [kind]

theorem peek_ok {c c' : Cursor} {n : Nat} {k : Token.Kind} :
    peek n c = .ok k c' ↔ c.peek n = k ∧ c = c' := by
  simp [peek]

theorem ahead_ok {c c' : Cursor} {ts : List Token} :
    ahead c = .ok ts c' ↔ c.ahead = ts ∧ c = c' := by
  simp [ahead]

/-- To advance from any token but the end is to read it. -/
theorem advance_ok {c c' : Cursor} {t : Token} {k : Token.Kind} (hc : c.kind = k)
    (hk : k ≠ .eof) (h : advance c = .ok t c') : c = c'.before [t] := by
  cases h
  exact Cursor.eq_before_of_kind (hc ▸ hk)

theorem expectElse_ok {k : Token.Kind} {d : Diagnostic} {c c' : Cursor} {t : Token}
    (hk : k ≠ .eof) : expectElse k d c = .ok t c' ↔ t.kind = k ∧ c = c'.before [t] := by
  unfold expectElse
  constructor
  · intro h
    split at h
    · rename_i hc
      obtain rfl := advance_ok hc hk h
      exact ⟨hc, rfl⟩
    · cases h
  · rintro ⟨ht, rfl⟩
    rw [if_pos (by simpa using ht)]
    rfl

theorem expect_ok {k : Token.Kind} {c c' : Cursor} {t : Token} (hk : k ≠ .eof) :
    expect k c = .ok t c' ↔ t.kind = k ∧ c = c'.before [t] :=
  expectElse_ok hk

theorem expectOr_ok {k : Token.Kind} {m : String} {c c' : Cursor} {t : Token} (hk : k ≠ .eof) :
    expectOr k m c = .ok t c' ↔ t.kind = k ∧ c = c'.before [t] :=
  expectElse_ok hk

/-- What a parser reads one level deeper it has also read from here. -/
theorem nested_ok {p : Parser α} {c c' : Cursor} {a : α} (h : nested p c = .ok a c') :
    ∃ d d', p d = .ok a d' ∧ d.ahead = c.ahead ∧ ∀ ts, d = d'.before ts → c = c'.before ts := by
  unfold nested at h
  split at h
  · cases h
  · rename_i d he
    simp only [Cursor.enter] at he
    split at he
    · cases he
    · cases he
      split at h
      · rename_i d' hp
        cases h
        refine ⟨_, d', hp, rfl, ?_⟩
        intro ts hd
        obtain ⟨file, ahead, ending, depth⟩ := c
        obtain ⟨file', ahead', ending', depth'⟩ := d'
        simp only [Cursor.before, Cursor.mk.injEq] at hd
        obtain ⟨rfl, rfl, rfl, rfl⟩ := hd
        rfl
      · cases h

/-! ## Integers and atoms -/

theorem integer_ok {c c' : Cursor} {i : Int64} :
    integer c = .ok i c' ↔ ∃ t, IsInteger t i ∧ c = c'.before [t] := by
  simp only [integer, bind_ok, expectOr_ok (k := .number) (by decide)]
  constructor
  · rintro ⟨t, c₁, ⟨hk, rfl⟩, h⟩
    cases hv : Number.int64? t.value with
    | some v =>
      rw [hv] at h
      obtain ⟨rfl, rfl⟩ := pure_ok.mp h
      exact ⟨t, ⟨hk, Number.int64?_eq_some_iff.mp hv⟩, rfl⟩
    | none =>
      rw [hv] at h
      simp only [] at h
      split at h <;> exact absurd h throw_ok
  · rintro ⟨t, ht, rfl⟩
    refine ⟨t, c', ⟨ht.kind, rfl⟩, ?_⟩
    rw [Number.int64?_eq_some_iff.mpr ht.spells]
    rfl

theorem integersWithin_sound {bound : List Token} {c c' : Cursor} {is : List Int64}
    (h : integersWithin bound c = .ok is c') :
    ∃ ts, DerivesRow ts is ∧ is ≠ [] ∧ c = c'.before ts := by
  induction bound generalizing c is with
  | nil =>
    simp only [integersWithin, bind_ok, integer_ok, pure_ok] at h
    obtain ⟨i, c₁, ⟨t, ht, rfl⟩, rfl, rfl⟩ := h
    exact ⟨[t], .last ht, by simp, rfl⟩
  | cons b bound ih =>
    simp only [integersWithin, bind_ok, integer_ok, kind_ok] at h
    obtain ⟨i, c₁, ⟨t, ht, rfl⟩, k, c₂, ⟨rfl, rfl⟩, h⟩ := h
    split at h
    · rename_i hk
      simp only [bind_ok, pure_ok] at h
      obtain ⟨comma, c₂, ha, js, c₃, hj, rfl, rfl⟩ := h
      obtain rfl := advance_ok hk (by decide) ha
      obtain ⟨us, hu, hne, rfl⟩ := ih hj
      exact ⟨t :: comma :: us, .cons ht hk hu hne, by simp, by simp⟩
    · obtain ⟨rfl, rfl⟩ := pure_ok.mp h
      exact ⟨[t], .last ht, by simp, rfl⟩

theorem integers_sound {c c' : Cursor} {is : List Int64} (h : integers c = .ok is c') :
    ∃ ts, DerivesRow ts is ∧ c = c'.before ts := by
  simp only [integers, bind_ok, kind_ok] at h
  obtain ⟨k, c₁, ⟨rfl, rfl⟩, h⟩ := h
  split at h
  · obtain ⟨rfl, rfl⟩ := pure_ok.mp h
    exact ⟨[], .empty, rfl⟩
  · simp only [bind_ok, ahead_ok] at h
    obtain ⟨bound, c₁, ⟨rfl, rfl⟩, h⟩ := h
    obtain ⟨ts, hts, _, rfl⟩ := integersWithin_sound h
    exact ⟨ts, hts, rfl⟩

theorem reference_sound {c c' : Cursor} {e : Expr} (hk : c.kind = .identifier)
    (h : reference c = .ok e c') : ∃ ts, DerivesExpr ts e ∧ e.depth = 0 ∧ c = c'.before ts := by
  simp only [reference, bind_ok, kind_ok] at h
  obtain ⟨t, c₁, ha, k, c₂, ⟨rfl, rfl⟩, h⟩ := h
  obtain rfl := advance_ok hk (by decide) ha
  rw [Cursor.kind_before_cons] at hk
  split at h
  · rename_i hb
    simp only [bind_ok, expectOr_ok (k := .closeBracket) (by decide), pure_ok] at h
    obtain ⟨left, c₂, hl, is, c₃, hi, right, c₄, ⟨hr, rfl⟩, rfl, rfl⟩ := h
    obtain rfl := advance_ok hb (by decide) hl
    obtain ⟨ts, hts, rfl⟩ := integers_sound hi
    exact ⟨t :: left :: (ts ++ [right]), .indexed hk hb hts hr, by simp [Expr.depth], by simp⟩
  · obtain ⟨rfl, rfl⟩ := pure_ok.mp h
    exact ⟨[t], .name hk, by simp [Expr.depth], rfl⟩

theorem number_sound {c c' : Cursor} {e : Expr} (hk : c.kind = .number)
    (h : number c = .ok e c') : ∃ ts, DerivesExpr ts e ∧ e.depth = 0 ∧ c = c'.before ts := by
  simp only [number, bind_ok] at h
  obtain ⟨t, c₁, ha, h⟩ := h
  obtain rfl := advance_ok hk (by decide) ha
  rw [Cursor.kind_before_cons] at hk
  split at h
  · rename_i hf
    cases hv : Number.binary64? t.value with
    | some v =>
      rw [hv] at h
      obtain ⟨rfl, rfl⟩ := pure_ok.mp h
      have hn : Number.nearest t.value = v := by simp [Number.nearest, hv]
      exact ⟨[t], hn ▸ .fractional hf hk, by simp [Expr.depth], rfl⟩
    | none =>
      rw [hv] at h
      exact absurd h throw_ok
  · rename_i hf
    cases hv : Number.int64? t.value with
    | some v =>
      rw [hv] at h
      obtain ⟨rfl, rfl⟩ := pure_ok.mp h
      exact ⟨[t], .integer (by simpa using hf) ⟨hk, Number.int64?_eq_some_iff.mp hv⟩,
        by simp [Expr.depth], rfl⟩
    | none =>
      rw [hv] at h
      exact absurd h throw_ok

/-! ## Compound expressions -/

/-- Whatever the parser accepts is an expression that nests less than `n` deep. -/
def ReadsExpr (p : Parser Expr) (n : Nat) : Prop :=
  ∀ {c c' : Cursor} {e : Expr}, p c = .ok e c' →
    ∃ ts, DerivesExpr ts e ∧ e.depth < n ∧ c = c'.before ts

theorem operandsWithin_sound {p : Parser Expr} {n : Nat} (hp : ReadsExpr p n)
    {bound : List Token} {c c' : Cursor} {es : List Expr}
    (h : operandsWithin p bound c = .ok es c') :
    ∃ parts : List (List Token × Expr), es = parts.map Prod.snd ∧
      (∀ q ∈ parts, DerivesExpr q.1 q.2) ∧ (∀ e ∈ es, e.depth < n) ∧
      c = c'.before (parts.flatMap Prod.fst) ∧ c'.kind = .closeParen := by
  induction bound generalizing c es with
  | nil => cases h
  | cons b bound ih =>
    simp only [operandsWithin, bind_ok, kind_ok] at h
    obtain ⟨k, c₁, ⟨rfl, rfl⟩, h⟩ := h
    split at h
    · rename_i hk
      obtain ⟨rfl, rfl⟩ := pure_ok.mp h
      exact ⟨[], rfl, by simp, by simp, rfl, hk⟩
    · simp only [bind_ok, pure_ok] at h
      obtain ⟨e, c₁, he, fs, c₂, hf, rfl, rfl⟩ := h
      obtain ⟨ts, hts, hd, rfl⟩ := hp he
      obtain ⟨parts, rfl, hparts, hds, rfl, hk⟩ := ih hf
      refine ⟨(ts, e) :: parts, rfl, ?_, ?_, by simp, hk⟩
      · intro q hq
        rcases List.mem_cons.mp hq with rfl | hq
        · exact hts
        · exact hparts q hq
      · intro f hf
        rcases List.mem_cons.mp hf with rfl | hf
        · exact hd
        · exact hds f hf

/-- The token of an operator decides the family of its form, and is decided by it where the family
has one operator. -/
theorem compound?_token {k : Token.Kind} {form : Grammar.CompoundForm}
    (h : Grammar.standard.compound? k = some form) :
    match form with
    | .sum => k = Aggregate.sum.token
    | .product => k = Aggregate.product.token
    | .difference => k = .dash
    | .comparison => k = (comparisonOf k).token
    | .connective => k = (connectiveOf k).token := by
  cases k <;> cases h <;> rfl

/-- An operator accepts its operands exactly if they have a tree. -/
theorem expr_ok {a : Application} {form : Grammar.CompoundForm} {e : Expr}
    (hf : Grammar.standard.compound? a.operator.kind = some form) :
    a.expr form = .ok e ↔ Applies a.span a.operator.kind a.operands e := by
  obtain ⟨⟨k, v, s⟩, es, span⟩ := a
  simp only at hf ⊢
  constructor
  · intro h
    have hk := compound?_token hf
    cases form with
    | sum =>
      simp only [Application.expr, List.isEmpty_iff] at h
      split at h
      · cases h
      · rename_i hne
        cases h
        exact hk ▸ .aggregate .sum hne
    | product =>
      simp only [Application.expr, List.isEmpty_iff] at h
      split at h
      · cases h
      · rename_i hne
        cases h
        exact hk ▸ .aggregate .product hne
    | difference =>
      obtain rfl : k = .dash := hk
      simp only [Application.expr] at h
      split at h
      · cases h
      · cases h
        exact .negate _
      · rename_i hr
        cases h
        exact .minus _ hr
    | comparison =>
      simp only [Application.expr] at h
      split at h
      · cases h
        have ha := Applies.compare (s := span) (comparisonOf k)
        rw [← (hk : k = _)] at ha
        exact ha _ _
      · cases h
    | connective =>
      simp only [Application.expr, List.isEmpty_iff] at h
      split at h
      · cases h
      · rename_i hne
        cases h
        have ha := Applies.connective (s := span) (connectiveOf k) hne
        rw [← (hk : k = _)] at ha
        exact ha
  · intro h
    cases h with
    | aggregate op hne => cases op <;> cases hf <;> simp [Application.expr, hne]
    | negate e => cases hf; rfl
    | minus h hr =>
      cases hf
      obtain ⟨x, xs, rfl⟩ := List.exists_cons_of_ne_nil hr
      rfl
    | compare op l r => cases op <;> cases hf <;> rfl
    | connective op hne =>
      cases op <;> cases hf <;> simp [Application.expr, hne, connectiveOf, Connective.token]

/-- A compound form nests one level deeper than its operands. -/
theorem formOf_sound {p : Parser Expr} {n : Nat} (hp : ReadsExpr p n) {c c' : Cursor} {e : Expr}
    {form : Grammar.CompoundForm} (hf : Grammar.standard.compound? (c.peek 1) = some form)
    (h : formOf p form c = .ok e c') :
    ∃ ts, DerivesExpr ts e ∧ e.depth < n + 1 ∧ c = c'.before ts := by
  simp only [formOf, application, bind_ok, expect_ok (k := .openParen) (by decide), ahead_ok,
    pure_ok] at h
  obtain ⟨a, c₁, ⟨left, c₂, ⟨hl, rfl⟩, op, c₃, hop, bound, c₄, ⟨rfl, rfl⟩, es, c₅, hes, right, c₆,
    hr, rfl, rfl⟩, h⟩ := h
  -- the operator is the token that the lookahead saw
  rw [Cursor.peek_before_cons, Cursor.before_nil] at hf
  have hne : c₂.kind ≠ .eof := by
    intro he
    rw [he] at hf
    cases hf
  obtain rfl := advance_ok rfl hne hop
  obtain ⟨parts, rfl, hparts, hd, rfl, hk⟩ := operandsWithin_sound hp hes
  obtain rfl := advance_ok hk (by decide) hr
  cases hx : Application.expr ⟨op, parts.map Prod.snd, left.span.upTo right.span⟩ form with
  | error d =>
    rw [hx] at h
    exact absurd h throw_ok
  | ok f =>
    rw [hx] at h
    obtain ⟨rfl, rfl⟩ := pure_ok.mp h
    have ha := (expr_ok hf).mp hx
    exact ⟨left :: op :: (parts.flatMap Prod.fst ++ [right]), .compound parts hl hparts hk ha,
      ha.depth_lt hd, by simp⟩

theorem compoundOf_sound {p : Parser Expr} {n : Nat} (hp : ReadsExpr p n) {c c' : Cursor}
    {e : Expr} (h : compoundOf .standard p c = .ok e c') :
    ∃ ts, DerivesExpr ts e ∧ e.depth < n + 1 ∧ c = c'.before ts := by
  simp only [compoundOf, bind_ok, peek_ok] at h
  obtain ⟨k, c₁, ⟨rfl, rfl⟩, h⟩ := h
  cases hf : Grammar.standard.compound? (c.peek 1) with
  | none =>
    rw [hf] at h
    obtain ⟨_, _, _, h⟩ := bind_ok.mp h
    cases h
  | some form =>
    rw [hf] at h
    obtain ⟨d, d', hd, ha, hback⟩ := nested_ok h
    have hpeek : d.peek 1 = c.peek 1 := by simp [Cursor.peek, ha]
    obtain ⟨ts, hts, hdepth, he⟩ := formOf_sound hp (hpeek ▸ hf) hd
    exact ⟨ts, hts, hdepth, hback ts he⟩

theorem exprOf_sound {p : Parser Expr} {n : Nat} (hp : ReadsExpr p n) :
    ReadsExpr (exprOf .standard p) (n + 1) := by
  intro c c' e h
  simp only [exprOf, bind_ok, kind_ok] at h
  obtain ⟨k, c₁, ⟨rfl, rfl⟩, h⟩ := h
  cases hk : c.kind <;> rw [hk] at h
  case number =>
    obtain ⟨ts, hts, hd, rfl⟩ := number_sound hk h
    exact ⟨ts, hts, by omega, rfl⟩
  case identifier =>
    obtain ⟨ts, hts, hd, rfl⟩ := reference_sound hk h
    exact ⟨ts, hts, by omega, rfl⟩
  case openParen => exact compoundOf_sound hp h
  all_goals cases h

theorem exprWithin_sound (n : Nat) : ReadsExpr (exprWithin .standard n) (n + 1) := by
  induction n with
  | zero =>
    refine exprOf_sound ?_
    intro c c' e h
    cases h
  | succ n ih => exact exprOf_sound ih

theorem expr_sound {c c' : Cursor} {e : Expr} (h : expr .standard c = .ok e c') :
    ∃ ts, DerivesExpr ts e ∧ e.depth ≤ maxNesting ∧ c = c'.before ts := by
  obtain ⟨ts, hts, hd, hc⟩ := exprWithin_sound maxNesting h
  exact ⟨ts, hts, by omega, hc⟩

/-! ## Networks -/

theorem item?_token {k : Token.Kind} {form : Grammar.ItemForm}
    (h : Grammar.standard.item? k = some form) :
    match form with
    | .relation => ∃ kind : RelationKind, k = kind.token
    | .tensor role => k = role.token := by
  cases k <;> cases h
  case isometricTo => exact ⟨.isometric, rfl⟩
  case equalTo => exact ⟨.equal, rfl⟩
  all_goals rfl

theorem relation_sound {c c' : Cursor} {r : Relation} {kind : RelationKind}
    (hk : c.peek 1 = kind.token) (h : relation c = .ok r c') :
    ∃ ts, DerivesRelation ts r ∧ c = c'.before ts := by
  simp only [relation, bind_ok, expect_ok (k := .openParen) (by decide),
    expect_ok (k := .closeParen) (by decide), expectOr_ok (k := .identifier) (by decide),
    pure_ok] at h
  obtain ⟨left, c₁, ⟨hl, rfl⟩, keyword, c₂, ha, target, c₃, ⟨ht, rfl⟩, right, c₄, ⟨hr, rfl⟩, rfl,
    rfl⟩ := h
  rw [Cursor.peek_before_cons, Cursor.before_nil] at hk
  obtain rfl := advance_ok hk (by cases kind <;> decide) ha
  rw [Cursor.kind_before_cons] at hk
  refine ⟨[left, keyword, target, right], ?_, by simp⟩
  have hd := DerivesRelation.mk hl hk ht hr
  cases kind <;> simpa [hk, RelationKind.token] using hd

theorem ofName?_eq_some_iff {text : String} {t : ElementType} :
    ElementType.ofName? text = some t ↔ text = t.name := by
  constructor
  · intro h
    have hn := List.find?_some h
    exact (beq_iff_eq.mp hn).symm
  · rintro rfl
    exact ElementType.ofName?_name t

theorem elementType_ok {c c' : Cursor} {t : ElementType} :
    elementType c = .ok t c' ↔
      ∃ tok : Token, tok.kind = .identifier ∧ tok.value = t.name ∧ c = c'.before [tok] := by
  simp only [elementType, bind_ok, expectOr_ok (k := .identifier) (by decide)]
  constructor
  · rintro ⟨tok, c₁, ⟨hk, rfl⟩, h⟩
    cases hn : ElementType.ofName? tok.value with
    | some s =>
      rw [hn] at h
      obtain ⟨rfl, rfl⟩ := pure_ok.mp h
      exact ⟨tok, hk, ofName?_eq_some_iff.mp hn, rfl⟩
    | none =>
      rw [hn] at h
      exact absurd h throw_ok
  · rintro ⟨tok, hk, hv, rfl⟩
    refine ⟨tok, c', ⟨hk, rfl⟩, ?_⟩
    rw [ofName?_eq_some_iff.mpr hv]
    rfl

theorem onnxName_sound {role : Role} {c c' : Cursor} {o : Option String}
    (h : onnxName role c = .ok o c') : ∃ ts, DerivesNode role ts o ∧ c = c'.before ts := by
  simp only [onnxName, bind_ok, kind_ok] at h
  obtain ⟨k, c₁, ⟨rfl, rfl⟩, h⟩ := h
  split at h
  · rename_i hk
    simp only [bind_ok, pure_ok] at h
    obtain ⟨t, c₁, ha, rfl, rfl⟩ := h
    obtain rfl := advance_ok hk (by decide) ha
    exact ⟨[t], .named hk, rfl⟩
  · split at h
    · cases h
    · rename_i hr
      obtain ⟨rfl, rfl⟩ := pure_ok.mp h
      exact ⟨[], .absent hr, rfl⟩

theorem declaration_sound {role : Role} {c c' : Cursor} {d : Declaration}
    (hk : c.peek 1 = role.token) (h : declaration role c = .ok d c') :
    ∃ ts, DerivesTensor role ts d ∧ c = c'.before ts := by
  simp only [declaration, shape, bind_ok, expect_ok (k := .openParen) (by decide),
    expect_ok (k := .closeParen) (by decide), expectOr_ok (k := .identifier) (by decide),
    expectOr_ok (k := .openBracket) (by decide), expectOr_ok (k := .closeBracket) (by decide),
    elementType_ok, pure_ok] at h
  obtain ⟨left, c₁, ⟨hl, rfl⟩, keyword, c₂, ha, name, c₃, ⟨hname, rfl⟩, t, c₄,
    ⟨type, htype, hval, rfl⟩, dims, c₅, ⟨squareL, c₆, ⟨hsl, rfl⟩, is, c₇, hi, squareR, c₈,
    ⟨hsr, rfl⟩, rfl, rfl⟩, o, c₉, ho, right, c₁₀, ⟨hr, rfl⟩, rfl, rfl⟩ := h
  rw [Cursor.peek_before_cons, Cursor.before_nil] at hk
  obtain rfl := advance_ok hk (by cases role <;> decide) ha
  obtain ⟨row, hrow, rfl⟩ := integers_sound hi
  obtain ⟨node, hnode, rfl⟩ := onnxName_sound ho
  exact ⟨left :: keyword :: name :: type :: squareL :: (row ++ squareR :: (node ++ [right])),
    .mk hl hk hname htype hval hsl hrow hsr hnode hr, by simp⟩

theorem item_sound {form : Grammar.ItemForm} {c c' : Cursor} {i : Network.Item}
    (hf : Grammar.standard.item? (c.peek 1) = some form) (h : item form c = .ok i c') :
    ∃ ts, DerivesItem ts i ∧ c = c'.before ts := by
  have hk := item?_token hf
  cases form with
  | relation =>
    simp only [item, bind_ok, pure_ok] at h
    obtain ⟨r, c₁, hr, rfl, rfl⟩ := h
    obtain ⟨kind, hk⟩ := hk
    obtain ⟨ts, hts, rfl⟩ := relation_sound hk hr
    exact ⟨ts, .relation hts, rfl⟩
  | tensor role =>
    simp only [item, bind_ok, pure_ok] at h
    obtain ⟨d, c₁, hd, rfl, rfl⟩ := h
    obtain ⟨ts, hts, rfl⟩ := declaration_sound hk hd
    exact ⟨ts, .tensor role hts, rfl⟩

theorem itemsWithin_sound {bound : List Token} {n n' : Network} {c c' : Cursor}
    (h : itemsWithin .standard bound n c = .ok n' c') :
    ∃ parts : List (List Token × Network.Item), n' = (parts.map Prod.snd).foldl Network.add n ∧
      (∀ p ∈ parts, DerivesItem p.1 p.2) ∧ c = c'.before (parts.flatMap Prod.fst) := by
  induction bound generalizing n c with
  | nil =>
    obtain ⟨rfl, rfl⟩ := pure_ok.mp h
    exact ⟨[], rfl, by simp, rfl⟩
  | cons b bound ih =>
    simp only [itemsWithin, bind_ok, kind_ok] at h
    obtain ⟨k, c₁, ⟨rfl, rfl⟩, h⟩ := h
    split at h
    · simp only [bind_ok, peek_ok] at h
      obtain ⟨k, c₁, ⟨rfl, rfl⟩, h⟩ := h
      cases hf : Grammar.standard.item? (c.peek 1) with
      | none =>
        rw [hf] at h
        obtain ⟨_, _, _, h⟩ := bind_ok.mp h
        cases h
      | some form =>
        rw [hf] at h
        obtain ⟨i, c₁, hi, hrest⟩ := bind_ok.mp h
        obtain ⟨ts, hts, rfl⟩ := item_sound hf hi
        obtain ⟨parts, rfl, hparts, rfl⟩ := ih hrest
        refine ⟨(ts, i) :: parts, rfl, ?_, by simp⟩
        intro p hp
        rcases List.mem_cons.mp hp with rfl | hp
        · exact hts
        · exact hparts p hp
    · obtain ⟨rfl, rfl⟩ := pure_ok.mp h
      exact ⟨[], rfl, by simp, rfl⟩

theorem network_sound {c c' : Cursor} {n : Network} (h : network .standard c = .ok n c') :
    ∃ ts, DerivesNetwork ts n ∧ c = c'.before ts := by
  simp only [network, bind_ok, expect_ok (k := .openParen) (by decide),
    expect_ok (k := .declareNetwork) (by decide), expectOr_ok (k := .identifier) (by decide),
    expectOr_ok (k := .closeParen) (by decide), ahead_ok, pure_ok] at h
  obtain ⟨left, c₁, ⟨hl, rfl⟩, keyword, c₂, ⟨hk, rfl⟩, name, c₃, ⟨hn, rfl⟩, bound, c₄, ⟨rfl, rfl⟩,
    m, c₅, hm, right, c₆, ⟨hr, rfl⟩, rfl, rfl⟩ := h
  obtain ⟨parts, rfl, hparts, rfl⟩ := itemsWithin_sound hm
  refine ⟨left :: keyword :: name :: (parts.flatMap Prod.fst ++ [right]), ?_, by simp⟩
  rw [Network.foldl_add]
  exact .mk parts hl hk hn hparts hr

/-! ## Queries -/

theorem version_sound {c c' : Cursor} {v : Version} (h : version c = .ok v c') :
    ∃ ts, DerivesVersion ts v ∧ c = c'.before ts := by
  simp only [version, bind_ok, expect_ok (k := .openParen) (by decide),
    expect_ok (k := .version) (by decide), expectOr_ok (k := .less) (by decide),
    expectOr_ok (k := .number) (by decide), expectOr_ok (k := .greater) (by decide),
    expect_ok (k := .closeParen) (by decide), pure_ok] at h
  obtain ⟨left, c₁, ⟨hl, rfl⟩, keyword, c₂, ⟨hk, rfl⟩, less, c₃, ⟨hless, rfl⟩, number, c₄,
    ⟨hn, rfl⟩, greater, c₅, ⟨hg, rfl⟩, right, c₆, ⟨hr, rfl⟩, rfl, rfl⟩ := h
  exact ⟨[left, keyword, less, number, greater, right], .mk hl hk hless hn hg hr, by simp⟩

theorem assertion_sound {c c' : Cursor} {a : Assertion}
    (h : assertion .standard c = .ok a c') : ∃ ts, DerivesAssertion ts a ∧ c = c'.before ts := by
  simp only [assertion, bind_ok, expect_ok (k := .openParen) (by decide),
    expect_ok (k := .assert) (by decide), expectOr_ok (k := .closeParen) (by decide),
    pure_ok] at h
  obtain ⟨left, c₁, ⟨hl, rfl⟩, keyword, c₂, ⟨hk, rfl⟩, e, c₃, he, right, c₄, ⟨hr, rfl⟩, rfl,
    rfl⟩ := h
  obtain ⟨ts, hts, hd, rfl⟩ := expr_sound he
  exact ⟨left :: keyword :: (ts ++ [right]), .mk hl hk hts hd hr, by simp⟩

/-- The row of a form at the top of a query. -/
def DerivesStatement (ts : List Token) : Statement → Prop
  | .version v => DerivesVersion ts v
  | .network n => DerivesNetwork ts n
  | .assertion a => DerivesAssertion ts a

theorem DerivesStatement.ne_nil {ts : List Token} {s : Statement} (h : DerivesStatement ts s) :
    ts ≠ [] := by
  cases s <;> cases h <;> simp

theorem statement_sound {c c' : Cursor} {s : Statement} (h : statement .standard c = .ok s c') :
    ∃ ts, DerivesStatement ts s ∧ c = c'.before ts := by
  simp only [statement, bind_ok, kind_ok] at h
  obtain ⟨k, c₁, ⟨rfl, rfl⟩, h⟩ := h
  split at h
  · simp only [bind_ok, peek_ok] at h
    obtain ⟨k, c₁, ⟨rfl, rfl⟩, h⟩ := h
    cases hf : Grammar.standard.statement? (c.peek 1) with
    | none =>
      rw [hf] at h
      cases h
    | some form =>
      rw [hf] at h
      cases form with
      | version =>
        simp only [statementOf, bind_ok, pure_ok] at h
        obtain ⟨v, c₁, hv, rfl, rfl⟩ := h
        exact version_sound hv
      | network =>
        simp only [statementOf, bind_ok, pure_ok] at h
        obtain ⟨n, c₁, hn, rfl, rfl⟩ := h
        exact network_sound hn
      | assertion =>
        simp only [statementOf, bind_ok, pure_ok] at h
        obtain ⟨a, c₁, ha, rfl, rfl⟩ := h
        exact assertion_sound ha
  · cases h

/-- The body ends where the text does, if its bound covers the tokens ahead. -/
theorem bodyWithin_sound {bound : List Token} {asserted : Bool} {c c' : Cursor}
    {ns : List Network} {as : List Assertion}
    (h : bodyWithin .standard bound asserted c = .ok (ns, as) c') :
    ∃ (networks : List (List Token × Network)) (assertions : List (List Token × Assertion)),
      ns = networks.map Prod.snd ∧ as = assertions.map Prod.snd ∧
      (∀ p ∈ networks, DerivesNetwork p.1 p.2) ∧ (∀ p ∈ assertions, DerivesAssertion p.1 p.2) ∧
      (asserted = true → networks = []) ∧
      c = c'.before (networks.flatMap Prod.fst ++ assertions.flatMap Prod.fst) ∧
      (c.ahead.length ≤ bound.length → c'.kind = .eof) := by
  induction bound generalizing asserted c ns as with
  | nil =>
    cases h
    refine ⟨[], [], rfl, rfl, by simp, by simp, by simp, rfl, ?_⟩
    intro hlen
    have hnil : c'.ahead = [] := List.length_eq_zero_iff.mp (Nat.le_zero.mp hlen)
    simp [Cursor.kind, Cursor.current, hnil, Ending.token]
  | cons b bound ih =>
    simp only [bodyWithin] at h
    split at h
    · cases hs : statement .standard c with
      | error d c₁ =>
        rw [hs] at h
        cases h
      | ok s c₁ =>
        rw [hs] at h
        obtain ⟨ts, hts, rfl⟩ := statement_sound hs
        have hpos := List.length_pos_iff.mpr hts.ne_nil
        cases s with
        | version v => cases h
        | network n =>
          simp only at h
          split at h
          · cases h
          · cases hb : bodyWithin .standard bound false c₁ with
            | error d c₂ =>
              rw [hb] at h
              cases h
            | ok r c₂ =>
              rw [hb] at h
              obtain ⟨ms, bs⟩ := r
              cases h
              obtain ⟨networks, assertions, rfl, rfl, hn, ha, _, rfl, hend⟩ := ih hb
              refine ⟨(ts, n) :: networks, assertions, rfl, rfl, ?_, ha, ?_, by simp, ?_⟩
              · intro p hp
                rcases List.mem_cons.mp hp with rfl | hp
                · exact hts
                · exact hn p hp
              · intro ht
                contradiction
              · intro hlen
                apply hend
                simp only [Cursor.ahead_before, List.length_append, List.length_cons] at hlen ⊢
                omega
        | assertion a =>
          simp only at h
          cases hb : bodyWithin .standard bound true c₁ with
          | error d c₂ =>
            rw [hb] at h
            cases h
          | ok r c₂ =>
            rw [hb] at h
            obtain ⟨ms, bs⟩ := r
            cases h
            obtain ⟨networks, assertions, rfl, rfl, hn, ha, hnil, rfl, hend⟩ := ih hb
            obtain rfl := hnil rfl
            refine ⟨[], (ts, a) :: assertions, rfl, rfl, by simp, ?_, by simp, by simp, ?_⟩
            · intro p hp
              rcases List.mem_cons.mp hp with rfl | hp
              · exact hts
              · exact ha p hp
            · intro hlen
              apply hend
              simp only [Cursor.ahead_before, List.length_append, List.length_cons] at hlen ⊢
              omega
    · rename_i ht
      cases h
      refine ⟨[], [], rfl, rfl, by simp, by simp, by simp, rfl, ?_⟩
      intro _
      simpa [Cursor.hasTokens] using ht

theorem query_sound {c c' : Cursor} {q : Query} (h : query c = .ok q c') :
    ∃ ts, DerivesQuery c.file c'.current ts q ∧ c = c'.before ts ∧ c'.kind = .eof := by
  simp only [query, leadingVersion, bind_ok, kind_ok, peek_ok, ahead_ok] at h
  obtain ⟨v, c₁, ⟨k, c₂, ⟨rfl, rfl⟩, k', c₃, ⟨rfl, rfl⟩, hv⟩, bound, c₄, ⟨rfl, rfl⟩, ⟨ns, as⟩, c₅,
    hb, c₆, c₇, hget, hret⟩ := h
  split at hv
  · obtain ⟨vs, hvs, rfl⟩ := version_sound hv
    obtain ⟨networks, assertions, rfl, rfl, hn, ha, _, rfl, hend⟩ := bodyWithin_sound hb
    cases hget
    obtain ⟨rfl, rfl⟩ := pure_ok.mp hret
    exact ⟨_, .mk networks assertions hvs hn ha, by simp, hend (Nat.le_refl _)⟩
  · cases hv

end Parser
end NeuralQuery
