import NeuralQuery.Proofs.ParserSound

/-!
# NeuralQuery.Proofs.ParserComplete

What has a derivation is accepted, with the tree of that derivation.

A parser that stands in front of a derived row reads exactly that row: `p (c.before ts) = .ok a c`.
For a row that another token could continue, the lemma says which tokens may not follow it. An
expression may not be followed by a bracket, a row of integers by neither a comma nor a number.
The bounds of the loops are never met, because every operand and every form has a token of its own.

`ofTokens_eq_ok_iff` puts both directions together.
-/

namespace NeuralQuery

/-- Every number among the tokens has the shape that tokenizing gives to numbers. -/
def NumbersShaped (ts : List Token) : Prop :=
  ∀ t ∈ ts, t.kind = .number → IsNumberText t.value.toList

theorem NumbersShaped.of_append {ts us : List Token} (h : NumbersShaped (ts ++ us)) :
    NumbersShaped ts ∧ NumbersShaped us :=
  ⟨fun t ht => h t (List.mem_append_left _ ht), fun t ht => h t (List.mem_append_right _ ht)⟩

theorem NumbersShaped.of_cons {t : Token} {ts : List Token} (h : NumbersShaped (t :: ts)) :
    NumbersShaped ts :=
  fun u hu => h u (List.mem_cons_of_mem _ hu)

/-- What an expression can start with. -/
theorem DerivesExpr.head {ts : List Token} {e : Expr} (h : DerivesExpr ts e) :
    ∃ t us, ts = t :: us ∧ (t.kind = .identifier ∨ t.kind = .number ∨ t.kind = .openParen) := by
  cases h with
  | name ht => exact ⟨_, _, rfl, .inl ht⟩
  | indexed ht => exact ⟨_, _, rfl, .inl ht⟩
  | integer _ ht => exact ⟨_, _, rfl, .inr (.inl ht.kind)⟩
  | fractional _ ht => exact ⟨_, _, rfl, .inr (.inl ht)⟩
  | compound _ hl => exact ⟨_, _, rfl, .inr (.inr hl)⟩

theorem DerivesRow.length_le {ts : List Token} {is : List Int64} (h : DerivesRow ts is) :
    is.length ≤ ts.length := by
  induction h with
  | empty => simp
  | last _ => simp
  | cons _ _ _ _ ih =>
    simp only [List.length_cons]
    omega

theorem Applies.form {s : Span} {k : Token.Kind} {es : List Expr} {e : Expr}
    (h : Applies s k es e) : ∃ form, Grammar.standard.compound? k = some form := by
  cases h with
  | aggregate op _ => cases op <;> exact ⟨_, rfl⟩
  | negate e => exact ⟨_, rfl⟩
  | minus h _ => exact ⟨_, rfl⟩
  | compare op l r => cases op <;> exact ⟨_, rfl⟩
  | connective op _ => cases op <;> exact ⟨_, rfl⟩

theorem length_le_flatMap {γ : Type} (parts : List (List Token × γ))
    (h : ∀ p ∈ parts, p.1 ≠ []) : parts.length ≤ (parts.flatMap Prod.fst).length := by
  induction parts with
  | nil => simp
  | cons p parts ih =>
    have hp := List.length_pos_iff.mpr (h p (by simp))
    have hrest := ih fun q hq => h q (by simp [hq])
    simp only [List.flatMap_cons, List.length_append, List.length_cons]
    omega

namespace Parser

variable {α β : Type}

/-! ## Steps -/

theorem bind_of_ok {p : Parser α} {f : α → Parser β} {c c₁ : Cursor} {a : α}
    (h : p c = .ok a c₁) : (p >>= f) c = f a c₁ := by
  show EStateM.bind p f c = f a c₁
  simp [EStateM.bind, h]

theorem expectElse_before {k : Token.Kind} {d : Diagnostic} {t : Token} {ts : List Token}
    {c : Cursor} (ht : t.kind = k) : expectElse k d (c.before (t :: ts)) = .ok t (c.before ts) := by
  unfold expectElse
  rw [if_pos (by simpa using ht)]
  rfl

theorem expect_before {k : Token.Kind} {t : Token} {ts : List Token} {c : Cursor}
    (ht : t.kind = k) : expect k (c.before (t :: ts)) = .ok t (c.before ts) :=
  expectElse_before ht

theorem expectOr_before {k : Token.Kind} {m : String} {t : Token} {ts : List Token} {c : Cursor}
    (ht : t.kind = k) : expectOr k m (c.before (t :: ts)) = .ok t (c.before ts) :=
  expectElse_before ht

theorem advance_before (t : Token) (ts : List Token) (c : Cursor) :
    advance (c.before (t :: ts)) = .ok t (c.before ts) := rfl

theorem kind_eq (c : Cursor) : kind c = .ok c.kind c := rfl

theorem peek_eq (n : Nat) (c : Cursor) : peek n c = .ok (c.peek n) c := rfl

theorem ahead_eq (c : Cursor) : ahead c = .ok c.ahead c := rfl

theorem nested_of_ok {p : Parser α} {c : Cursor} {ts : List Token} {a : α}
    (hd : c.depth < maxNesting)
    (h : p ({ c with depth := c.depth + 1 }.before ts) = .ok a { c with depth := c.depth + 1 }) :
    nested p (c.before ts) = .ok a c := by
  have he : (c.before ts).enter = .ok ({ c with depth := c.depth + 1 }.before ts) := by
    have hle : ¬ maxNesting ≤ (c.before ts).depth := Nat.not_le.mpr hd
    unfold Cursor.enter
    rw [if_neg hle]
    rfl
  unfold nested
  rw [he]
  simp only [h, Cursor.leave, Nat.add_sub_cancel]

/-! ## Integers and atoms -/

theorem integer_before {t : Token} {i : Int64} (h : IsInteger t i) (ts : List Token) (c : Cursor) :
    integer (c.before (t :: ts)) = .ok i (c.before ts) :=
  integer_ok.mpr ⟨t, h, by simp⟩

theorem integersWithin_complete {bound ts : List Token} {is : List Int64} {c : Cursor}
    (h : DerivesRow ts is) (hne : is ≠ []) (hk : c.kind ≠ .comma)
    (hlen : is.length ≤ bound.length + 1) : integersWithin bound (c.before ts) = .ok is c := by
  induction bound generalizing ts is with
  | nil =>
    cases h with
    | empty => contradiction
    | last hi =>
      rw [integersWithin, bind_of_ok (integer_before hi [] c)]
      rfl
    | cons hi hc hr hr' =>
      have := List.length_pos_iff.mpr hr'
      simp only [List.length_cons, List.length_nil] at hlen
      omega
  | cons b bound ih =>
    cases h with
    | empty => contradiction
    | last hi =>
      rw [integersWithin, bind_of_ok (integer_before hi [] c), bind_of_ok (kind_eq _),
        Cursor.before_nil, if_neg hk]
      rfl
    | @cons t comma i us js hi hc hr hr' =>
      have hrest := ih hr hr' (by simpa using hlen)
      rw [integersWithin, bind_of_ok (integer_before hi _ c), bind_of_ok (kind_eq _),
        Cursor.kind_before_cons, if_pos hc, bind_of_ok (advance_before _ _ _), bind_of_ok hrest]
      rfl

theorem integers_complete {ts : List Token} {is : List Int64} {c : Cursor} (h : DerivesRow ts is)
    (hk : c.kind = .closeBracket) : integers (c.before ts) = .ok is c := by
  cases is with
  | nil =>
    cases h
    rw [integers, bind_of_ok (kind_eq _), Cursor.before_nil, if_pos hk]
    rfl
  | cons i is =>
    have hfirst : (c.before ts).kind ≠ .closeBracket := by
      cases h with
      | last hi => simp [hi.kind]
      | cons hi _ _ _ => simp [hi.kind]
    have hlen := h.length_le
    rw [integers, bind_of_ok (kind_eq _), if_neg hfirst, bind_of_ok (ahead_eq _)]
    refine integersWithin_complete h (by simp) (by simp [hk]) ?_
    simp only [Cursor.ahead_before, List.length_append]
    omega

theorem reference_name {t : Token} {c : Cursor} (hk : c.kind ≠ .openBracket) :
    reference (c.before [t]) = .ok (.var t.value [] t.span) c := by
  rw [reference, bind_of_ok (advance_before _ _ _), bind_of_ok (kind_eq _), Cursor.before_nil,
    if_neg hk]
  rfl

theorem reference_indexed {t left right : Token} {ts : List Token} {is : List Int64} {c : Cursor}
    (hl : left.kind = .openBracket) (h : DerivesRow ts is) (hr : right.kind = .closeBracket) :
    reference (c.before (t :: left :: (ts ++ [right]))) =
      .ok (.var t.value is (t.span.upTo right.span)) c := by
  have hi : integers (c.before (ts ++ [right])) = .ok is (c.before [right]) := by
    rw [← Cursor.before_before]
    exact integers_complete h (by simpa using hr)
  rw [reference, bind_of_ok (advance_before _ _ _), bind_of_ok (kind_eq _),
    Cursor.kind_before_cons, if_pos hl, bind_of_ok (advance_before _ _ _), bind_of_ok hi,
    bind_of_ok (expectOr_before hr)]
  rfl

theorem number_integer {t : Token} {i : Int64} {c : Cursor}
    (hf : isFractional t.value = false) (h : IsInteger t i) :
    number (c.before [t]) = .ok (.int t.value i t.span) c := by
  rw [number, bind_of_ok (advance_before _ _ _), if_neg (by simp [hf]),
    Number.int64?_eq_some_iff.mpr h.spells]
  rfl

theorem number_fractional {t : Token} {c : Cursor} (hf : isFractional t.value = true)
    (h : IsNumberText t.value.toList) :
    number (c.before [t]) = .ok (.float t.value (Number.nearest t.value) t.span) c := by
  obtain ⟨v, hv⟩ := Number.binary64?_numberText h
  have hn : Number.nearest t.value = v := by simp [Number.nearest, hv]
  rw [number, bind_of_ok (advance_before _ _ _), if_pos hf, hv, hn]
  rfl

/-! ## Compound expressions -/

/-- In front of an expression that nests less than `n` deep the parser reads that expression, if so
many levels are left. -/
def AcceptsExpr (p : Parser Expr) (n : Nat) : Prop :=
  ∀ {ts : List Token} {e : Expr} {c : Cursor}, DerivesExpr ts e → NumbersShaped ts →
    e.depth < n → c.depth + n ≤ maxNesting + 1 → c.kind ≠ .openBracket →
    p (c.before ts) = .ok e c

theorem operandsWithin_complete {p : Parser Expr} {n : Nat} (hp : AcceptsExpr p n)
    {bound : List Token} {parts : List (List Token × Expr)} {c : Cursor}
    (h : ∀ q ∈ parts, DerivesExpr q.1 q.2) (hn : NumbersShaped (parts.flatMap Prod.fst))
    (hd : ∀ q ∈ parts, q.2.depth < n) (hc : c.depth + n ≤ maxNesting + 1)
    (hk : c.kind = .closeParen) (hlen : parts.length < bound.length) :
    operandsWithin p bound (c.before (parts.flatMap Prod.fst)) = .ok (parts.map Prod.snd) c := by
  induction bound generalizing parts with
  | nil => simp at hlen
  | cons b bound ih =>
    cases parts with
    | nil =>
      rw [operandsWithin, bind_of_ok (kind_eq _)]
      simp only [List.flatMap_nil, Cursor.before_nil]
      rw [if_pos hk]
      rfl
    | cons q parts =>
      obtain ⟨ts, e⟩ := q
      rw [List.flatMap_cons] at hn ⊢
      have hts : DerivesExpr ts e := h (ts, e) (by simp)
      obtain ⟨t, us, hcons, ht⟩ := hts.head
      have hfirst : (c.before (ts ++ parts.flatMap Prod.fst)).kind ≠ .closeParen := by
        rw [hcons, List.cons_append, Cursor.kind_before_cons]
        rcases ht with ht | ht | ht <;> simp [ht]
      -- behind the operand stands another one, or the closing parenthesis
      have hnext : (c.before (parts.flatMap Prod.fst)).kind ≠ .openBracket := by
        cases parts with
        | nil => simp [hk]
        | cons r parts =>
          obtain ⟨u, vs, hu, hku⟩ := (h r (by simp)).head
          rw [List.flatMap_cons, hu, List.cons_append, Cursor.kind_before_cons]
          rcases hku with hku | hku | hku <;> simp [hku]
      have he : p (c.before (ts ++ parts.flatMap Prod.fst)) =
          .ok e (c.before (parts.flatMap Prod.fst)) := by
        rw [← Cursor.before_before]
        exact hp hts hn.of_append.1 (hd (ts, e) (by simp)) hc hnext
      have hrest := ih (fun r hr => h r (by simp [hr])) hn.of_append.2
        (fun r hr => hd r (by simp [hr])) (by simpa using hlen)
      rw [operandsWithin, bind_of_ok (kind_eq _), if_neg hfirst, bind_of_ok he, bind_of_ok hrest]
      rfl

theorem formOf_complete {p : Parser Expr} {n : Nat} (hp : AcceptsExpr p n)
    {left op right : Token} {parts : List (List Token × Expr)} {e : Expr} {c : Cursor}
    {form : Grammar.CompoundForm} (hl : left.kind = .openParen)
    (h : ∀ q ∈ parts, DerivesExpr q.1 q.2) (hn : NumbersShaped (parts.flatMap Prod.fst))
    (hd : ∀ q ∈ parts, q.2.depth < n) (hc : c.depth + n ≤ maxNesting + 1)
    (hr : right.kind = .closeParen) (hf : Grammar.standard.compound? op.kind = some form)
    (ha : Applies (left.span.upTo right.span) op.kind (parts.map Prod.snd) e) :
    formOf p form (c.before (left :: op :: (parts.flatMap Prod.fst ++ [right]))) = .ok e c := by
  have hlen : parts.length < (c.before (parts.flatMap Prod.fst ++ [right])).ahead.length := by
    have hle := length_le_flatMap parts fun q hq => by
      obtain ⟨t, us, he, _⟩ := (h q hq).head
      simp [he]
    simp only [Cursor.ahead_before, List.length_append, List.length_singleton]
    omega
  have hes : operandsWithin p (c.before (parts.flatMap Prod.fst ++ [right])).ahead
      (c.before (parts.flatMap Prod.fst ++ [right])) =
        .ok (parts.map Prod.snd) (c.before [right]) := by
    have := operandsWithin_complete (c := c.before [right]) hp h hn hd hc (by simpa using hr) hlen
    rwa [Cursor.before_before] at this
  have happ : application p (c.before (left :: op :: (parts.flatMap Prod.fst ++ [right]))) =
      .ok ⟨op, parts.map Prod.snd, left.span.upTo right.span⟩ c := by
    rw [application, bind_of_ok (expect_before hl), bind_of_ok (advance_before _ _ _),
      bind_of_ok (ahead_eq _), bind_of_ok hes, bind_of_ok (advance_before _ _ _)]
    rfl
  have hx : Application.expr ⟨op, parts.map Prod.snd, left.span.upTo right.span⟩ form = .ok e :=
    (expr_ok hf).mpr ha
  rw [formOf, bind_of_ok happ, hx]
  rfl

theorem exprOf_complete {p : Parser Expr} {n : Nat} (hp : AcceptsExpr p n) :
    AcceptsExpr (exprOf .standard p) (n + 1) := by
  intro ts e c h hn hd hc hk
  cases h with
  | @name t ht =>
    rw [exprOf, bind_of_ok (kind_eq _), Cursor.kind_before_cons, ht]
    exact reference_name hk
  | @indexed t left right us is ht hl hi hr =>
    rw [exprOf, bind_of_ok (kind_eq _), Cursor.kind_before_cons, ht]
    exact reference_indexed hl hi hr
  | @integer t i hf ht =>
    rw [exprOf, bind_of_ok (kind_eq _), Cursor.kind_before_cons, ht.kind]
    exact number_integer hf ht
  | @fractional t hf ht =>
    rw [exprOf, bind_of_ok (kind_eq _), Cursor.kind_before_cons, ht]
    exact number_fractional hf (hn t (by simp) ht)
  | @compound left op right _ parts hl hparts hr ha =>
    obtain ⟨form, hform⟩ := ha.form
    -- the operands nest less deep than their form, so a level is left for it
    have hdepth := ha.depth
    have hds : ∀ f ∈ parts.map Prod.snd, f.depth < n := by
      intro f hf
      have hle := Expr.depths_le.mp (Nat.le_refl _) f hf
      omega
    obtain ⟨f, hf⟩ := List.exists_mem_of_ne_nil _ ha.ne_nil
    have hpos := hds f hf
    rw [exprOf, bind_of_ok (kind_eq _), Cursor.kind_before_cons, hl]
    show compoundOf .standard p _ = _
    rw [compoundOf, bind_of_ok (peek_eq _ _), Cursor.peek_before_cons, Cursor.kind_before_cons,
      hform]
    refine nested_of_ok (by omega) (formOf_complete hp hl hparts ?_ ?_ ?_ hr hform ha)
    · exact hn.of_cons.of_cons.of_append.1
    · intro q hq
      exact hds _ (List.mem_map_of_mem hq)
    · show c.depth + 1 + n ≤ _
      omega

theorem exprWithin_complete (n : Nat) : AcceptsExpr (exprWithin .standard n) (n + 1) := by
  induction n with
  | zero =>
    refine exprOf_complete ?_
    intro ts e c _ _ hd
    omega
  | succ n ih => exact exprOf_complete ih

theorem expr_complete {ts : List Token} {e : Expr} {c : Cursor} (h : DerivesExpr ts e)
    (hn : NumbersShaped ts) (hd : e.depth ≤ maxNesting) (hc : c.depth = 0)
    (hk : c.kind ≠ .openBracket) : expr .standard (c.before ts) = .ok e c :=
  exprWithin_complete maxNesting h hn (by omega) (by omega) hk

/-! ## Networks -/

theorem relation_complete {ts : List Token} {r : Relation} {c : Cursor}
    (h : DerivesRelation ts r) : relation (c.before ts) = .ok r c := by
  cases h with
  | @mk left keyword target right kind hl hk ht hr =>
    rw [relation, bind_of_ok (expect_before hl), bind_of_ok (advance_before _ _ _),
      bind_of_ok (expectOr_before ht), bind_of_ok (expect_before hr), hk]
    cases kind <;> rfl

theorem elementType_before {type : Token} {t : ElementType} {ts : List Token} {c : Cursor}
    (hk : type.kind = .identifier) (hv : type.value = t.name) :
    elementType (c.before (type :: ts)) = .ok t (c.before ts) :=
  elementType_ok.mpr ⟨type, hk, hv, by simp⟩

theorem onnxName_complete {role : Role} {ts : List Token} {o : Option String} {c : Cursor}
    (h : DerivesNode role ts o) (hk : c.kind ≠ .string) :
    onnxName role (c.before ts) = .ok o c := by
  cases h with
  | absent hr =>
    rw [onnxName, bind_of_ok (kind_eq _), Cursor.before_nil, if_neg hk, if_neg hr]
    rfl
  | named ht =>
    rw [onnxName, bind_of_ok (kind_eq _), Cursor.kind_before_cons, if_pos ht,
      bind_of_ok (advance_before _ _ _)]
    rfl

theorem declaration_complete {role : Role} {ts : List Token} {d : Declaration} {c : Cursor}
    (h : DerivesTensor role ts d) : declaration role (c.before ts) = .ok d c := by
  cases h with
  | @mk left keyword name type squareL squareR right t dims node is o hl hk hn ht hv hsl hi hsr ho
      hr =>
    have hdims : integers (c.before (dims ++ squareR :: (node ++ [right]))) =
        .ok is (c.before (squareR :: (node ++ [right]))) := by
      rw [← Cursor.before_before]
      exact integers_complete hi (by simpa using hsr)
    have hshape : shape (c.before (squareL :: (dims ++ squareR :: (node ++ [right])))) =
        .ok is (c.before (node ++ [right])) := by
      rw [shape, bind_of_ok (expectOr_before hsl), bind_of_ok hdims,
        bind_of_ok (expectOr_before hsr)]
      rfl
    have hnode : onnxName role (c.before (node ++ [right])) = .ok o (c.before [right]) := by
      rw [← Cursor.before_before]
      exact onnxName_complete ho (by simp [hr])
    rw [declaration, bind_of_ok (expect_before hl), bind_of_ok (advance_before _ _ _),
      bind_of_ok (expectOr_before hn), bind_of_ok (elementType_before ht hv), bind_of_ok hshape,
      bind_of_ok hnode, bind_of_ok (expect_before hr)]
    rfl

/-- Two tokens announce a form inside a network. -/
theorem item_complete {ts : List Token} {i : Network.Item} (h : DerivesItem ts i) :
    ∃ left keyword us form, ts = left :: keyword :: us ∧ left.kind = .openParen ∧
      Grammar.standard.item? keyword.kind = some form ∧
      ∀ c : Cursor, item form (c.before ts) = .ok i c := by
  cases h with
  | relation hr =>
    have hrel := fun c : Cursor => relation_complete (c := c) hr
    cases hr with
    | @mk left keyword target right kind hl hk ht hr =>
      refine ⟨left, keyword, _, .relation, rfl, hl, ?_, ?_⟩
      · rw [hk]
        cases kind <;> rfl
      · intro c
        rw [item, bind_of_ok (hrel c)]
        rfl
  | tensor role hd =>
    have hdec := fun c : Cursor => declaration_complete (c := c) hd
    cases hd with
    | @mk left keyword _ _ _ _ _ _ _ _ _ _ hl hk =>
      refine ⟨left, keyword, _, .tensor role, rfl, hl, ?_, ?_⟩
      · rw [hk]
        cases role <;> rfl
      · intro c
        rw [item, bind_of_ok (hdec c)]
        rfl

theorem itemsWithin_complete {bound : List Token} {parts : List (List Token × Network.Item)}
    {n : Network} {c : Cursor} (h : ∀ p ∈ parts, DerivesItem p.1 p.2) (hk : c.kind ≠ .openParen)
    (hlen : parts.length ≤ bound.length) :
    itemsWithin .standard bound n (c.before (parts.flatMap Prod.fst)) =
      .ok ((parts.map Prod.snd).foldl Network.add n) c := by
  induction bound generalizing parts n with
  | nil =>
    obtain rfl : parts = [] := List.length_eq_zero_iff.mp (Nat.le_zero.mp hlen)
    rfl
  | cons b bound ih =>
    cases parts with
    | nil =>
      rw [itemsWithin, bind_of_ok (kind_eq _), List.flatMap_nil, Cursor.before_nil, if_neg hk]
      rfl
    | cons p parts =>
      obtain ⟨ts, i⟩ := p
      have hts : DerivesItem ts i := h (ts, i) (by simp)
      obtain ⟨left, keyword, us, form, rfl, hl, hform, hitem⟩ := item_complete hts
      have hi := hitem (c.before (parts.flatMap Prod.fst))
      rw [Cursor.before_before, List.cons_append, List.cons_append] at hi
      have hrest := ih (n := n.add i) (fun q hq => h q (List.mem_cons_of_mem _ hq))
        (by simpa using hlen)
      rw [itemsWithin, bind_of_ok (kind_eq _), List.flatMap_cons, List.cons_append,
        Cursor.kind_before_cons, if_pos hl, bind_of_ok (peek_eq _ _), Cursor.peek_before_cons,
        List.cons_append, Cursor.kind_before_cons, hform]
      show (item form >>= _) _ = _
      rw [bind_of_ok hi, hrest]
      rfl

theorem network_complete {ts : List Token} {n : Network} {c : Cursor} (h : DerivesNetwork ts n) :
    network .standard (c.before ts) = .ok n c := by
  cases h with
  | @mk left keyword name right parts hl hk hn hparts hr =>
    have hlen : parts.length ≤ (c.before (parts.flatMap Prod.fst ++ [right])).ahead.length := by
      have hle := length_le_flatMap parts fun p hp => by
        obtain ⟨l, k, us, _, he, _⟩ := item_complete (hparts p hp)
        simp [he]
      simp only [Cursor.ahead_before, List.length_append]
      omega
    have hitems := itemsWithin_complete (n := { name := name.value, span := .nowhere })
      (c := c.before [right]) hparts (by simp [hr]) hlen
    rw [Cursor.before_before] at hitems
    rw [network, bind_of_ok (expect_before hl), bind_of_ok (expect_before hk),
      bind_of_ok (expectOr_before hn), bind_of_ok (ahead_eq _), bind_of_ok hitems,
      bind_of_ok (expectOr_before hr), Network.foldl_add]
    rfl

/-! ## Queries -/

theorem version_complete {ts : List Token} {v : Version} {c : Cursor} (h : DerivesVersion ts v) :
    leadingVersion (c.before ts) = .ok v c := by
  cases h with
  | @mk left keyword less number greater right hl hk hless hn hg hr =>
    rw [leadingVersion, bind_of_ok (kind_eq _), bind_of_ok (peek_eq _ _), Cursor.kind_before_cons,
      Cursor.peek_before_cons, Cursor.kind_before_cons, if_pos ⟨hl, hk⟩, version,
      bind_of_ok (expect_before hl), bind_of_ok (expect_before hk),
      bind_of_ok (expectOr_before hless), bind_of_ok (expectOr_before hn),
      bind_of_ok (expectOr_before hg), bind_of_ok (expect_before hr)]
    rfl

/-- Two tokens announce a statement, after which the parser of its form takes over. -/
theorem statement_before {left keyword : Token} {ts : List Token} {c : Cursor}
    (form : Grammar.StatementForm) (hl : left.kind = .openParen)
    (hf : Grammar.standard.statement? keyword.kind = some form) :
    statement .standard (c.before (left :: keyword :: ts)) =
      statementOf .standard form (c.before (left :: keyword :: ts)) := by
  rw [statement, bind_of_ok (kind_eq _), Cursor.kind_before_cons, if_pos hl,
    bind_of_ok (peek_eq _ _), Cursor.peek_before_cons, Cursor.kind_before_cons, hf]

theorem statement_network {ts : List Token} {n : Network} {c : Cursor}
    (h : DerivesNetwork ts n) : statement .standard (c.before ts) = .ok (.network n) c := by
  have hn := network_complete (c := c) h
  cases h with
  | mk parts hl hk =>
    rw [statement_before .network hl (by rw [hk]; rfl), statementOf, bind_of_ok hn]
    rfl

theorem statement_assertion {ts : List Token} {a : Assertion} {c : Cursor}
    (h : DerivesAssertion ts a) (hn : NumbersShaped ts) (hc : c.depth = 0) :
    statement .standard (c.before ts) = .ok (.assertion a) c := by
  cases h with
  | @mk left keyword right us e hl hk he hd hr =>
    have hexpr : expr .standard (c.before (us ++ [right])) = .ok e (c.before [right]) := by
      rw [← Cursor.before_before]
      exact expr_complete he hn.of_cons.of_cons.of_append.1 hd hc (by simp [hr])
    rw [statement_before .assertion hl (by rw [hk]; rfl), statementOf]
    show (assertion .standard >>= _) _ = _
    have ha : assertion .standard (c.before (left :: keyword :: (us ++ [right]))) =
        .ok ⟨e, left.span.upTo right.span⟩ c := by
      rw [assertion, bind_of_ok (expect_before hl), bind_of_ok (expect_before hk),
        bind_of_ok hexpr, bind_of_ok (expectOr_before hr)]
      rfl
    rw [bind_of_ok ha]
    rfl

theorem bodyWithin_complete {bound : List Token} {asserted : Bool}
    {networks : List (List Token × Network)} {assertions : List (List Token × Assertion)}
    {c : Cursor} (hn : ∀ p ∈ networks, DerivesNetwork p.1 p.2)
    (ha : ∀ p ∈ assertions, DerivesAssertion p.1 p.2)
    (hs : NumbersShaped (assertions.flatMap Prod.fst)) (hnil : asserted = true → networks = [])
    (hc : c.depth = 0) (hk : c.kind = .eof)
    (hlen : networks.length + assertions.length ≤ bound.length) :
    bodyWithin .standard bound asserted
        (c.before (networks.flatMap Prod.fst ++ assertions.flatMap Prod.fst)) =
      .ok (networks.map Prod.snd, assertions.map Prod.snd) c := by
  induction bound generalizing asserted networks assertions with
  | nil =>
    have hzero : networks.length + assertions.length = 0 := Nat.le_zero.mp hlen
    obtain rfl : networks = [] := List.length_eq_zero_iff.mp (by omega)
    obtain rfl : assertions = [] := List.length_eq_zero_iff.mp (by omega)
    rfl
  | cons b bound ih =>
    cases networks with
    | nil =>
      cases assertions with
      | nil => simp [bodyWithin, Cursor.hasTokens, hk]
      | cons p assertions =>
        obtain ⟨ts, a⟩ := p
        have hts : DerivesAssertion ts a := ha (ts, a) (by simp)
        rw [List.flatMap_cons] at hs
        have hfirst := statement_assertion (c := c.before (assertions.flatMap Prod.fst)) hts
          hs.of_append.1 hc
        have hrest := @ih true [] assertions hn (fun q hq => ha q (List.mem_cons_of_mem _ hq))
          hs.of_append.2 (fun _ => rfl) (by simpa using hlen)
        rw [Cursor.before_before] at hfirst
        have htok : (c.before (ts ++ assertions.flatMap Prod.fst)).hasTokens = true := by
          cases hts with
          | mk hl => simp [Cursor.hasTokens, hl]
        simp only [List.flatMap_nil, List.nil_append] at hrest
        simp only [bodyWithin, List.flatMap_nil, List.nil_append, List.flatMap_cons, htok, if_true,
          hfirst, hrest, List.map_cons, List.map_nil]
    | cons p networks =>
      obtain ⟨ts, n⟩ := p
      obtain rfl : asserted = false := by
        cases asserted with
        | false => rfl
        | true => exact absurd (hnil rfl) (by simp)
      have hts : DerivesNetwork ts n := hn (ts, n) (by simp)
      have hfirst := statement_network
        (c := c.before (networks.flatMap Prod.fst ++ assertions.flatMap Prod.fst)) hts
      have hrest := @ih false networks assertions (fun q hq => hn q (List.mem_cons_of_mem _ hq)) ha
        hs (by simp) (by simp only [List.length_cons] at hlen; omega)
      rw [Cursor.before_before] at hfirst
      have htok : (c.before (ts ++
          (networks.flatMap Prod.fst ++ assertions.flatMap Prod.fst))).hasTokens = true := by
        cases hts with
        | mk parts hl => simp [Cursor.hasTokens, hl]
      simp only [bodyWithin, List.flatMap_cons, List.append_assoc, htok, if_true, hfirst, hrest,
        List.map_cons, Bool.false_eq_true, if_false]

theorem query_complete {file : String} {ts : List Token} {q : Query} {c : Cursor}
    (h : DerivesQuery file c.current ts q) (hs : NumbersShaped ts) (hfile : c.file = file)
    (hc : c.depth = 0) (hk : c.kind = .eof) : query (c.before ts) = .ok q c := by
  cases h with
  | @mk vs v networks assertions hv hn ha =>
    have hlen : networks.length + assertions.length ≤
        (c.before (networks.flatMap Prod.fst ++ assertions.flatMap Prod.fst)).ahead.length := by
      have h₁ := length_le_flatMap networks fun p hp =>
        DerivesStatement.ne_nil (s := .network p.2) (hn p hp)
      have h₂ := length_le_flatMap assertions fun p hp =>
        DerivesStatement.ne_nil (s := .assertion p.2) (ha p hp)
      simp only [Cursor.ahead_before, List.length_append]
      omega
    have hversion := version_complete
      (c := c.before (networks.flatMap Prod.fst ++ assertions.flatMap Prod.fst)) hv
    rw [Cursor.before_before] at hversion
    have hbody : bodyWithin .standard _ false _ = _ :=
      bodyWithin_complete hn ha hs.of_append.2.of_append.2 (by simp) hc hk hlen
    rw [query, bind_of_ok hversion, bind_of_ok (ahead_eq _), bind_of_ok hbody, ← hfile]
    rfl

end Parser

/-! ## Both directions -/

theorem Cursor.ofTokens_append {row : List Token} {ending : Token} (he : ending.kind = .eof)
    (file : String) :
    Cursor.ofTokens (row ++ [ending]) file =
      Cursor.before ⟨file, [], ⟨ending.value, ending.span⟩, 0⟩ row := by
  simp [Cursor.ofTokens, Cursor.before, he]

theorem Query.ofTokens_ok {tokens : List Token} {file : String} {q : Query} :
    Query.ofTokens tokens file = .ok q ↔
      ∃ c, Parser.query (Cursor.ofTokens tokens file) = .ok q c := by
  unfold Query.ofTokens
  cases h : Parser.query (Cursor.ofTokens tokens file) with
  | ok r c => simp
  | error d c => simp

theorem Cursor.mem_of_mem_ahead {tokens : List Token} {file : String} {t : Token}
    (h : t ∈ (Cursor.ofTokens tokens file).ahead) : t ∈ tokens := by
  unfold Cursor.ofTokens at h
  split at h
  · cases h
  · split at h
    · exact (List.dropLast_sublist _).mem h
    · exact h

/-- Whatever the parser returns, from any row of tokens, has a derivation from tokens of that
row. -/
theorem Query.ofTokens_derives {tokens : List Token} {file : String} {q : Query}
    (h : Query.ofTokens tokens file = .ok q) :
    ∃ file ending ts, DerivesQuery file ending ts q ∧ ∀ t ∈ ts, t ∈ tokens := by
  obtain ⟨c, hc⟩ := Query.ofTokens_ok.mp h
  obtain ⟨ts, hts, hback, _⟩ := Parser.query_sound hc
  refine ⟨_, _, ts, hts, fun t ht => ?_⟩
  have hahead : t ∈ (Cursor.ofTokens tokens file).ahead := by simp [hback, ht]
  exact Cursor.mem_of_mem_ahead hahead

/-- A row that ends once, at its last token, is read as `q` exactly if `q` is the tree of a
derivation of it. -/
theorem Query.ofTokens_eq_ok_iff {row : List Token} {ending : Token} {file : String} {q : Query}
    (he : ending.kind = .eof) (hrow : ∀ t ∈ row, t.kind ≠ .eof) (hs : NumbersShaped row) :
    Query.ofTokens (row ++ [ending]) file = .ok q ↔ DerivesQuery file ending row q := by
  have hend : (⟨file, [], ⟨ending.value, ending.span⟩, 0⟩ : Cursor).current = ending := by
    obtain ⟨k, v, s⟩ := ending
    obtain rfl : k = .eof := he
    rfl
  rw [Query.ofTokens_ok, Cursor.ofTokens_append he]
  constructor
  · rintro ⟨c, hc⟩
    obtain ⟨ts, hts, hback, hk⟩ := Parser.query_sound hc
    -- no token of the row is an end, so the cursor stopped behind all of them
    obtain ⟨f, ahead, ending', depth⟩ := c
    simp only [Cursor.before, List.append_nil, Cursor.mk.injEq] at hback
    obtain ⟨rfl, rfl, rfl, rfl⟩ := hback
    cases ahead with
    | nil =>
      rw [hend] at hts
      rw [List.append_nil]
      exact hts
    | cons t us => exact absurd hk (hrow t (by simp))
  · intro h
    refine ⟨_, Parser.query_complete ?_ hs rfl rfl ?_⟩
    · rwa [hend]
    · rfl

/-- The parser accepts exactly the rows that have a derivation, and what it returns is the one tree
that the derivations of the row have. -/
theorem Query.ofTokens_accepts_grammar {row : List Token} {ending : Token} (file : String)
    (he : ending.kind = .eof) (hrow : ∀ t ∈ row, t.kind ≠ .eof) (hs : NumbersShaped row) :
    ((∃ q, Query.ofTokens (row ++ [ending]) file = .ok q) ↔
      ∃ q, DerivesQuery file ending row q) ∧
    ∀ q, Query.ofTokens (row ++ [ending]) file = .ok q ↔
      DerivesQuery file ending row q ∧ ∀ r, DerivesQuery file ending row r → r = q := by
  have hiff (q : Query) : Query.ofTokens (row ++ [ending]) file = .ok q ↔
      DerivesQuery file ending row q := Query.ofTokens_eq_ok_iff he hrow hs
  refine ⟨exists_congr hiff, fun q => ⟨fun hq => ⟨(hiff q).mp hq, ?_⟩, fun hq => (hiff q).mpr hq.1⟩⟩
  intro r hr
  have hboth := (hiff r).mpr hr
  rw [hq] at hboth
  exact (Except.ok.inj hboth).symm

/-- A network with one input `x` of two elements, and the condition that its second element is at
least -1.5. -/
def Token.lowerBound : List Token :=
  [(.openParen, "("), (.version, "vnnlib-version"), (.less, "<"), (.number, "2.0"), (.greater, ">"),
   (.closeParen, ")"),
   (.openParen, "("), (.declareNetwork, "declare-network"), (.identifier, "N"), (.openParen, "("),
   (.declareInput, "declare-input"), (.identifier, "x"), (.identifier, "float32"),
   (.openBracket, "["), (.number, "2"), (.closeBracket, "]"), (.closeParen, ")"),
   (.closeParen, ")"),
   (.openParen, "("), (.assert, "assert"), (.openParen, "("), (.lessEquals, "<="),
   (.openParen, "("), (.dash, "-"), (.identifier, "x"), (.openBracket, "["), (.number, "1"),
   (.closeBracket, "]"), (.closeParen, ")"), (.number, "1.5"), (.closeParen, ")"),
   (.closeParen, ")")].map fun t => ⟨t.1, t.2, .nowhere⟩

theorem Query.ofTokens_accepts_lowerBound :
    ∃ q, DerivesQuery "q" (Token.ending .nowhere) Token.lowerBound q ∧
      ∀ r, DerivesQuery "q" (Token.ending .nowhere) Token.lowerBound r → r = q := by
  have hd (c : Char) (hc : c.isDigit = true) : IsDigits [c] := by simp [IsDigits, hc]
  have hs : NumbersShaped Token.lowerBound := by
    intro t ht hk
    have hnumber : t.value ∈ ["2.0", "2", "1", "1.5"] := by
      revert t
      decide
    simp only [List.mem_cons, List.not_mem_nil, or_false] at hnumber
    rcases hnumber with h | h | h | h <;> rw [h]
    · exact .mk (.inl rfl) (hd '2' rfl) (.digits (hd '0' rfl)) .absent
    · exact .mk (.inl rfl) (hd '2' rfl) .absent .absent
    · exact .mk (.inl rfl) (hd '1' rfl) .absent .absent
    · exact .mk (.inl rfl) (hd '1' rfl) (.digits (hd '5' rfl)) .absent
  exact ⟨_, ((Query.ofTokens_accepts_grammar "q" rfl (by decide) hs).2 _).mp rfl⟩

end NeuralQuery
