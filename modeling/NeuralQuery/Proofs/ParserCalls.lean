import NeuralQuery.Proofs.Confinement

/-!
# NeuralQuery.Proofs.ParserCalls

What happens while a row of tokens is parsed, whatever the row is.

* `Call.Makes a b` : reading what the call `a` reads makes the call `b`. Calls are to read a
  statement, a form of a network or an expression.
* `Call.Made start a` : parsing from `start` makes the call `a`, directly or through other calls.

The recursion through operands comes to its end, because a call has fewer tokens ahead than the call
that makes it, and the bound on its levels decides nothing (`expr_eq`, `exprOf_eq_expr`). Each call
keeps to the row up to its first end (`Call.Kept`), and the tokens behind that end might as well be
missing (`ofTokens_upToEnd`).
-/

namespace NeuralQuery

/-! ## The row -/

/-- The tokens up to the first end, which is the last of them. -/
def Token.upToEnd : List Token → List Token
  | [] => []
  | t :: ts => if t.kind = .eof then [t] else t :: upToEnd ts

theorem Token.upToEnd_eq_self {ts : List Token} (h : ∀ t ∈ ts, t.kind ≠ .eof) :
    Token.upToEnd ts = ts := by
  induction ts with
  | nil => rfl
  | cons t ts ih =>
    rw [Token.upToEnd, if_neg (h t (by simp)), ih fun u hu => h u (by simp [hu])]

theorem Token.upToEnd_append {ts : List Token} (h : ∀ t ∈ ts, t.kind ≠ .eof) {e : Token}
    (he : e.kind = .eof) (rest : List Token) : Token.upToEnd (ts ++ e :: rest) = ts ++ [e] := by
  induction ts with
  | nil => simp [Token.upToEnd, he]
  | cons t ts ih =>
    simp [Token.upToEnd, h t (by simp), ih fun u hu => h u (by simp [hu])]

namespace Cursor

/-- The tokens from the current one on, the end included. -/
def row (c : Cursor) : List Token :=
  c.ahead ++ [c.ending.token]

/-- The second cursor stands at a token of the first one's row, and no end stands before it. -/
def Holds (c c' : Cursor) : Prop :=
  ∃ passed, (∀ t ∈ passed, t.kind ≠ .eof) ∧ c.row = passed ++ c'.row

theorem Holds.trans {c c' c'' : Cursor} (h : c.Holds c') (h' : c'.Holds c'') : c.Holds c'' := by
  obtain ⟨ts, hts, hrow⟩ := h
  obtain ⟨us, hus, hrow'⟩ := h'
  refine ⟨ts ++ us, fun t ht => ?_, by rw [hrow, hrow', List.append_assoc]⟩
  rcases List.mem_append.mp ht with ht | ht
  · exact hts t ht
  · exact hus t ht

theorem Leads.holds {c c' : Cursor} (h : c.Leads c') : c.Holds c' := by
  obtain ⟨ts, hts, rfl⟩ := h
  exact ⟨ts, hts, by simp [row, before]⟩

theorem Leads.depth_eq {c c' : Cursor} (h : c.Leads c') : c'.depth = c.depth := by
  obtain ⟨ts, _, rfl⟩ := h
  rfl

theorem Leads.behind {c c' : Cursor} {ts : List Token} (h : c.Leads c')
    (hts : ∀ t ∈ ts, t.kind ≠ .eof) (hne : ts ≠ []) :
    (c.before ts).Leads c' ∧ c'.ahead.length < (c.before ts).ahead.length := by
  refine ⟨Leads.trans ⟨ts, hts, rfl⟩ h, ?_⟩
  obtain ⟨us, _, rfl⟩ := h
  have hpos := List.length_pos_iff.mpr hne
  simp only [ahead_before, List.length_append]
  omega

/-- The row that is parsed is the given one, with an end if it has none. -/
theorem ofTokens_eq (tokens : List Token) (file : String) :
    ∃ ahead e, ofTokens tokens file = ⟨file, ahead, e, 0⟩ ∧
      (tokens = ahead ++ [e.token] ∨ tokens = ahead) := by
  unfold ofTokens
  split
  · rename_i h
    exact ⟨_, _, rfl, .inr (List.getLast?_eq_none_iff.mp h)⟩
  · rename_i t h
    split
    · rename_i ht
      obtain ⟨ts, rfl⟩ := List.getLast?_eq_some_iff.mp h
      obtain ⟨k, value, s⟩ := t
      obtain rfl : k = .eof := ht
      exact ⟨_, _, rfl, .inl (by simp [Ending.token])⟩
    · exact ⟨_, _, rfl, .inr rfl⟩

/-- Where the row has its first end, it is cut off. -/
theorem cut_eq {c : Cursor} {ts rest : List Token} {e : Token} (hrow : c.row = ts ++ e :: rest)
    (hts : ∀ t ∈ ts, t.kind ≠ .eof) (he : e.kind = .eof) :
    c.cut = { c with ahead := ts, ending := ⟨e.value, e.span⟩ } := by
  obtain ⟨file, ahead, ending, depth⟩ := c
  have htake (us : List Token) : (ts ++ us).takeWhile (fun t => t.kind != .eof) =
      ts ++ us.takeWhile (fun t => t.kind != .eof) :=
    List.takeWhile_append_of_pos (by simpa using hts)
  have hfind : ts.find? (fun t => t.kind == .eof) = none := by
    simpa using hts
  -- the first end is the ending of the cursor, or one among the tokens ahead
  rcases List.eq_nil_or_concat rest with rfl | ⟨us, last, rfl⟩
  · obtain ⟨rfl, hlast⟩ := List.append_inj' hrow rfl
    obtain rfl : ending.token = e := by simpa using hlast
    have hall := htake []
    simp only [List.append_nil, List.takeWhile_nil] at hall
    simp [cut, hall, hfind, Ending.token]
  · have hahead : ahead = ts ++ e :: us := by
      have hrow' : ahead ++ [ending.token] = (ts ++ e :: us) ++ [last] := by simpa [row] using hrow
      exact (List.append_inj' hrow' rfl).1
    subst hahead
    simp [cut, hfind, he, htake]

/-- A row that ends with its first end begins like the whole row, cut off there. -/
theorem ofTokens_upToEnd (tokens : List Token) (file : String) :
    ofTokens (Token.upToEnd tokens) file = (ofTokens tokens file).cut := by
  obtain ⟨ahead, e, hc, htokens⟩ := ofTokens_eq tokens file
  cases hfind : tokens.find? fun t => t.kind == .eof with
  | none =>
    have hts : ∀ t ∈ tokens, t.kind ≠ .eof := by simpa using hfind
    rcases htokens with rfl | rfl
    · exact absurd rfl (hts e.token (by simp))
    · rw [Token.upToEnd_eq_self hts, hc, cut_eq rfl hts rfl]
      rfl
  | some t =>
    obtain ⟨ht, ts, rest, rfl, hts⟩ := List.find?_eq_some_iff_append.mp hfind
    have ht : t.kind = .eof := by simpa using ht
    have hts : ∀ u ∈ ts, u.kind ≠ .eof := by simpa using hts
    have hrow : ∃ rest', (ofTokens (ts ++ t :: rest) file).row = ts ++ t :: rest' := by
      rw [hc]
      rcases htokens with h | h
      · exact ⟨rest, h.symm⟩
      · exact ⟨rest ++ [e.token], by simp [row, ← h]⟩
    obtain ⟨rest', hrow⟩ := hrow
    rw [Token.upToEnd_append hts ht, ofTokens_append ht, cut_eq hrow hts ht, hc]
    simp [before]

theorem eq_before_two {c : Cursor} (h : c.kind ≠ .eof) (h' : c.advance.kind ≠ .eof) :
    c = c.advance.advance.before [c.current, c.advance.current] := by
  calc c = c.advance.before [c.current] := eq_before_of_kind h
    _ = (c.advance.advance.before [c.advance.current]).before [c.current] := by
      rw [← eq_before_of_kind h']

theorem enter_ok {c c' : Cursor} (h : c.enter = .ok c') :
    c.depth < maxNesting ∧ c' = { c with depth := c.depth + 1 } := by
  unfold enter at h
  split at h
  · cases h
  · exact ⟨by omega, (Except.ok.inj h).symm⟩

end Cursor

namespace Parser

variable {α β : Type}

/-! ## Recursion through operands -/

/-- An operand is read at the second cursor when a compound form is read at the first. The parser of
operands has read those before it. -/
inductive OperandAt (p : Parser Expr) : Cursor → Cursor → Prop where
  | intro {c c₁ c₂ : Cursor} {left operator : Token} {form : Grammar.CompoundForm}
      {es : List Expr} :
      c.enter = .ok (c₁.before [left, operator]) → left.kind = .openParen →
      Grammar.standard.compound? operator.kind = some form →
      (operandLoop p).Runs (.ok [] c₁) (.ok es c₂) → c₂.kind ≠ .closeParen →
      OperandAt p c c₂

theorem bind_congr_at {p q : Parser α} {f : α → Parser β} {c : Cursor} (h : p c = q c) :
    (p >>= f) c = (q >>= f) c := by
  show EStateM.bind p f c = EStateM.bind q f c
  simp only [EStateM.bind, h]

/-- Two parsers of operands read the same if they agree wherever an operand is read. -/
theorem operandsWithin_congr {p q : Parser Expr} {bound : List Token} {c : Cursor}
    (es : List Expr)
    (h : ∀ es' c', (operandLoop q).Runs (.ok es c) (.ok es' c') → c'.kind ≠ .closeParen →
      p c' = q c') :
    operandsWithin p bound c = operandsWithin q bound c := by
  -- the operands read so far are generalized: the loop starts with none and goes round with more
  induction bound generalizing c es with
  | nil => rfl
  | cons t bound ih =>
    rw [operandsWithin, operandsWithin, bind_of_ok (kind_eq _), bind_of_ok (kind_eq _)]
    by_cases hk : c.kind = .closeParen
    · rw [if_pos hk, if_pos hk]
    · rw [if_neg hk, if_neg hk, bind_congr_at (h es c .refl hk)]
      cases he : q c with
      | error d c' => rw [bind_of_error he, bind_of_error he]
      | ok e c' =>
        have hround : (operandLoop q).round es c = .ok (es ++ [e]) c' := by
          show (q >>= fun e => pure (es ++ [e])) c = _
          rw [bind_of_ok he]
          rfl
        rw [bind_of_ok he, bind_of_ok he]
        refine bind_congr_at (ih (es ++ [e]) fun es' c'' hruns => h es' c'' ?_)
        exact .next (by simp [operandLoop, hk]) (hround ▸ hruns)

theorem application_congr {p q : Parser Expr} {c : Cursor} {left operator : Token}
    (hleft : left.kind = .openParen)
    (h : ∀ es c', (operandLoop q).Runs (.ok [] c) (.ok es c') → c'.kind ≠ .closeParen →
      p c' = q c') :
    application p (c.before [left, operator]) = application q (c.before [left, operator]) := by
  have hopen : expect .openParen (c.before [left, operator]) = .ok left (c.before [operator]) :=
    (expect_ok (by decide)).mpr ⟨hleft, rfl⟩
  have hoperator : advance (c.before [operator]) = .ok operator c := rfl
  rw [application, application, bind_of_ok hopen, bind_of_ok hopen, bind_of_ok hoperator,
    bind_of_ok hoperator, bind_of_ok (ahead_eq _), bind_of_ok (ahead_eq _)]
  exact bind_congr_at (operandsWithin_congr [] h)

theorem compoundOf_congr {p q : Parser Expr} {c : Cursor} (hk : c.kind = .openParen)
    (h : ∀ c', OperandAt q c c' → p c' = q c') :
    compoundOf .standard p c = compoundOf .standard q c := by
  rw [compoundOf, compoundOf, bind_of_ok (peek_eq _ _), bind_of_ok (peek_eq _ _)]
  cases hform : Grammar.standard.compound? (c.peek 1) with
  | none => rfl
  | some form =>
    show nested (formOf p form) c = nested (formOf q form) c
    cases henter : c.enter with
    | error d => simp only [nested, henter]
    | ok c₁ =>
      obtain ⟨_, hc₁⟩ := Cursor.enter_ok henter
      have hopen : c₁.current.kind = .openParen := by
        rw [hc₁]
        exact hk
      have hoperator : Grammar.standard.compound? c₁.advance.current.kind = some form := by
        rw [← hform, hc₁, Cursor.peek_one]
        rfl
      have hrow : c₁ = c₁.advance.advance.before [c₁.current, c₁.advance.current] :=
        Cursor.eq_before_two (by simp [Cursor.kind, hopen]) (compound?_ne_eof hoperator)
      have happ : application p c₁ = application q c₁ := by
        rw [hrow]
        refine application_congr hopen fun es c' hruns hc' => h c' ?_
        exact .intro (hrow ▸ henter) hopen hoperator hruns hc'
      have hread : formOf p form c₁ = formOf q form c₁ := bind_congr_at happ
      simp only [nested, henter, hread]

theorem exprOf_congr {p q : Parser Expr} {c : Cursor}
    (h : ∀ c', OperandAt q c c' → p c' = q c') :
    exprOf .standard p c = exprOf .standard q c := by
  rw [exprOf, exprOf, bind_of_ok (kind_eq _), bind_of_ok (kind_eq _)]
  cases hk : c.kind
  case openParen => exact compoundOf_congr hk h
  all_goals rfl

theorem OperandAt.depth_eq {p : Parser Expr} (hp : ∀ c, Confined p c) {c c' : Cursor}
    (h : OperandAt p c c') : c'.depth = c.depth + 1 := by
  obtain ⟨henter, _, _, hruns, _⟩ := h
  obtain ⟨_, hc⟩ := Cursor.enter_ok henter
  have hleads : Cursor.Leads _ c' := (hruns.confined (operandLoop_confined hp)).1
  rw [hleads.depth_eq]
  exact congrArg Cursor.depth hc

theorem OperandAt.depth_lt {p : Parser Expr} {c c' : Cursor} (h : OperandAt p c c') :
    c.depth < maxNesting := by
  obtain ⟨henter, _⟩ := h
  exact (Cursor.enter_ok henter).1

/-- Levels that the depth leaves no room for do not matter. -/
theorem exprWithin_eq {n m : Nat} {c : Cursor} (hn : maxNesting ≤ c.depth + n)
    (hm : maxNesting ≤ c.depth + m) : exprWithin .standard n c = exprWithin .standard m c := by
  induction n generalizing m c with
  | zero =>
    cases m with
    | zero => rfl
    | succ m =>
      -- no level is left, so the depth is reached and no operand is read at all
      exact exprOf_congr fun c' hc' => absurd hc'.depth_lt (by omega)
  | succ n ih =>
    cases m with
    | zero => exact exprOf_congr fun c' hc' => absurd hc'.depth_lt (by omega)
    | succ m =>
      -- an operand is one level deeper, with one level fewer to come
      refine exprOf_congr fun c' hc' => ?_
      have hdepth := hc'.depth_eq fun _ => exprWithin_confined m
      exact ih (by omega) (by omega)

/-- The recursion needs no bound on its levels. -/
theorem expr_eq (c : Cursor) : expr .standard c = exprOf .standard (expr .standard) c := by
  have hlevels : maxNesting ≤ c.depth + maxNesting := by omega
  exact exprWithin_eq (m := maxNesting + 1) hlevels (by omega)

/-! ## Calls -/

/-- What a call is to read. -/
inductive Task where
  | statement
  | item (form : Grammar.ItemForm)
  | expr

structure Call where
  task : Task
  cursor : Cursor

namespace Call

/-- How a call ends, without the tree that it returns. -/
def result : Call → Result Unit
  | ⟨.statement, c⟩ => Result.map (fun _ => ()) (statement .standard c)
  | ⟨.item form, c⟩ => Result.map (fun _ => ()) (item form c)
  | ⟨.expr, c⟩ => Result.map (fun _ => ()) (expr .standard c)

/-- One call makes another: for a form of a network, behind the forms before it, for the condition
of an assertion, or for an operand, behind the operands before it. -/
inductive Makes : Call → Call → Prop where
  | item {c c' : Cursor} {left keyword name : Token} {n : Network} {form : Grammar.ItemForm} :
      left.kind = .openParen → keyword.kind = .declareNetwork → name.kind = .identifier →
      itemLoop.Runs (.ok { name := name.value, span := .nowhere } c) (.ok n c') →
      c'.kind = .openParen → Grammar.standard.item? (c'.peek 1) = some form →
      Makes ⟨.statement, c.before [left, keyword, name]⟩ ⟨.item form, c'⟩
  | condition {c : Cursor} {left keyword : Token} :
      left.kind = .openParen → keyword.kind = .assert →
      Makes ⟨.statement, c.before [left, keyword]⟩ ⟨.expr, c⟩
  | operand {c c' : Cursor} : OperandAt (Parser.expr .standard) c c' → Makes ⟨.expr, c⟩ ⟨.expr, c'⟩

/-- The calls of a parse: for the version, for the statements behind it, and those that they
make. -/
inductive Made (start : Cursor) : Call → Prop where
  | version : start.kind = .openParen → start.peek 1 = .version → Made start ⟨.statement, start⟩
  | statement {c c' : Cursor} {v : Version} {b : List Network × List Assertion} :
      leadingVersion start = .ok v c → bodyLoop.Runs (.ok ([], []) c) (.ok b c') →
      c'.hasTokens = true → Made start ⟨.statement, c'⟩
  | sub {a b : Call} : Made start a → a.Makes b → Made start b

variable {start : Cursor} {a b : Call}

/-- A call reads on from where the one that makes it is, perhaps a level deeper. -/
theorem Makes.reads_on (h : a.Makes b) :
    ∃ c, (c = a.cursor ∨ a.cursor.enter = .ok c) ∧ c.Leads b.cursor ∧
      b.cursor.ahead.length < c.ahead.length := by
  cases h with
  | item hleft hkeyword hname hruns _ _ =>
    have hforms := (hruns.confined itemLoop_confined).1
    exact ⟨_, .inl rfl, hforms.behind (by simp [hleft, hkeyword, hname]) (by simp)⟩
  | @condition c left keyword hleft hkeyword =>
    exact ⟨_, .inl rfl, (Cursor.Leads.refl c).behind (by simp [hleft, hkeyword]) (by simp)⟩
  | operand h =>
    obtain ⟨henter, hleft, hform, hruns, _⟩ := h
    have hoperands := (hruns.confined (operandLoop_confined fun _ => exprWithin_confined _)).1
    have hoperator := compound?_ne_eof hform
    exact ⟨_, .inr henter, hoperands.behind (by simp [hleft, hoperator]) (by simp)⟩

theorem Makes.shorter (h : a.Makes b) : b.cursor.ahead.length < a.cursor.ahead.length := by
  obtain ⟨c, rfl | henter, _, hlt⟩ := h.reads_on
  · exact hlt
  · obtain ⟨_, rfl⟩ := Cursor.enter_ok henter
    exact hlt

/-- To read an expression it is enough to know how the operands are read for which it makes a
call. -/
theorem exprOf_eq_expr {p : Parser Expr} {c : Cursor}
    (h : ∀ c', Makes ⟨.expr, c⟩ ⟨.expr, c'⟩ → p c' = Parser.expr .standard c') :
    exprOf .standard p c = Parser.expr .standard c := by
  rw [expr_eq]
  exact exprOf_congr fun c' hc' => h c' (.operand hc')

/-- A call is made inside the row, at no more than the deepest nesting, and for a form of a network
only where one is announced. -/
structure Placed (start : Cursor) (a : Call) : Prop where
  inside : start.Holds a.cursor
  nesting : a.cursor.depth ≤ maxNesting
  announced : ∀ {form}, a.task = .item form → Grammar.standard.item? (a.cursor.peek 1) = some form

theorem Placed.makes (ha : a.Placed start) (h : a.Makes b) : b.Placed start := by
  obtain ⟨c, hc, hleads, _⟩ := h.reads_on
  have hrow : c.row = a.cursor.row ∧ c.depth ≤ maxNesting := by
    rcases hc with rfl | henter
    · exact ⟨rfl, ha.nesting⟩
    · obtain ⟨hdepth, rfl⟩ := Cursor.enter_ok henter
      exact ⟨rfl, hdepth⟩
  refine ⟨ha.inside.trans ?_, ?_, ?_⟩
  · exact Cursor.Holds.trans ⟨[], by simp, hrow.1.symm⟩ hleads.holds
  · rw [hleads.depth_eq]
    exact hrow.2
  · intro form hform
    cases h with
    | item _ _ _ _ _ hitem =>
      cases hform
      exact hitem
    | condition => cases hform
    | operand => cases hform

theorem Made.placed (hstart : start.depth ≤ maxNesting) (h : Made start a) : a.Placed start := by
  induction h with
  | version _ _ =>
    exact ⟨(Cursor.Leads.refl start).holds, hstart, fun hform => by cases hform⟩
  | @statement c c' v b hversion hruns _ =>
    have hleads : start.Leads c := by
      simpa [hversion, Result.cursor] using leadingVersion_confined (c := start).leads
    have hleads := hleads.trans (hruns.confined bodyLoop_confined).1
    refine ⟨hleads.holds, ?_, fun hform => by cases hform⟩
    exact Nat.le_trans (Nat.le_of_eq hleads.depth_eq) hstart
  | sub _ hmakes ih => exact ih.makes hmakes

theorem map_moves {p : Parser α} {c : Cursor} (hp : Confined p c)
    (hforward : ∀ {v c'}, p c = .ok v c' → c'.ahead.length < c.ahead.length) :
    c.Leads (Result.cursor (Result.map (fun _ => ()) (p c))) ∧
      ∀ {c'}, Result.map (fun _ => ()) (p c) = .ok () c' → c'.ahead.length < c.ahead.length := by
  obtain ⟨hleads, _⟩ := hp
  cases h : p c with
  | ok v c₁ =>
    rw [h] at hleads
    refine ⟨hleads, fun he => ?_⟩
    cases he
    exact hforward h
  | error d c₁ =>
    rw [h] at hleads
    exact ⟨hleads, fun he => by cases he⟩

theorem Placed.moves (h : a.Placed start) : a.cursor.Leads (Result.cursor a.result) ∧
    ∀ {c}, a.result = .ok () c → c.ahead.length < a.cursor.ahead.length := by
  obtain ⟨task, c⟩ := a
  cases task with
  | statement => exact map_moves statement_confined statement_forward
  | item form =>
    have hform := h.announced rfl
    exact map_moves (item_confined hform) (item_forward hform)
  | expr => exact map_moves (exprWithin_confined _) (exprWithin_progresses _).forward

/-- What holds of a call: it starts and ends inside the row, further on if it succeeds, and the
depth is in the end what it was. -/
structure Kept (start : Cursor) (a : Call) : Prop where
  starts : start.Holds a.cursor
  ends : start.Holds (Result.cursor a.result)
  forward : ∀ {c}, a.result = .ok () c → c.ahead.length < a.cursor.ahead.length
  depth : (Result.cursor a.result).depth = a.cursor.depth
  nesting : a.cursor.depth ≤ maxNesting

theorem Placed.kept (h : a.Placed start) : a.Kept start where
  starts := h.inside
  ends := h.inside.trans h.moves.1.holds
  forward := h.moves.2
  depth := h.moves.1.depth_eq
  nesting := h.nesting

end Call

/-- Whatever the tokens are, each loop of the parser ends, each call has fewer tokens ahead than the
call that makes it, and the bounds of loops and recursion decide nothing. All calls keep to the row,
which is that of the tokens with an end if they have none. The tokens behind the first end do not
matter. -/
theorem query_reads_to_first_end (tokens : List Token) (file : String) :
    (∀ c, integerLoop.Ends (Result.map (fun i => [i]) (integer c)) (integersWithin c.ahead c)) ∧
    (∀ c, (operandLoop (expr .standard)).Ends (.ok [] c)
      (operandsWithin (expr .standard) c.ahead c)) ∧
    (∀ n c, itemLoop.Ends (.ok n c) (itemsWithin .standard c.ahead n c)) ∧
    (∀ c, bodyLoop.Ends (.ok ([], []) c) (bodyWithin .standard c.ahead false c)) ∧
    (∀ a b : Call, a.Makes b → b.cursor.ahead.length < a.cursor.ahead.length) ∧
    (∀ (p : Parser Expr) (c : Cursor),
      (∀ c', Call.Makes ⟨.expr, c⟩ ⟨.expr, c'⟩ → p c' = expr .standard c') →
      exprOf .standard p c = expr .standard c) ∧
    ((Cursor.ofTokens tokens file).row = tokens ∨
      ∃ e : Ending, (Cursor.ofTokens tokens file).row = tokens ++ [e.token]) ∧
    (∀ a, Call.Made (Cursor.ofTokens tokens file) a → a.Kept (Cursor.ofTokens tokens file)) ∧
    (Cursor.ofTokens tokens file).Holds (Result.cursor (query (Cursor.ofTokens tokens file))) ∧
    Query.ofTokens tokens file = Query.ofTokens (Token.upToEnd tokens) file := by
  obtain ⟨ahead, e, hstart, htokens⟩ := Cursor.ofTokens_eq tokens file
  refine ⟨integersWithin_ends, operandsWithin_ends (exprWithin_progresses _), itemsWithin_ends,
    bodyWithin_ends, fun _ _ => Call.Makes.shorter, fun _ _ => Call.exprOf_eq_expr, ?_, ?_,
    query_confined.leads.holds, ?_⟩
  · rw [hstart]
    rcases htokens with rfl | rfl
    · exact .inl rfl
    · exact .inr ⟨e, rfl⟩
  · intro a ha
    exact (ha.placed (by simp [hstart])).kept
  · rw [Query.ofTokens, Query.ofTokens, Cursor.ofTokens_upToEnd, query_confined.cut]
    cases query (Cursor.ofTokens tokens file) <;> rfl

/-- A row with two ends. -/
def endedTwice : List Token :=
  Token.lowerBound ++ [Token.ending .nowhere, Token.ending .nowhere]

/-- The cursor at a place of that row, so many levels deep. -/
def endedTwiceAt (place depth : Nat) : Cursor :=
  ⟨"q", (Token.lowerBound ++ [Token.ending .nowhere]).drop place, ⟨"EOF", .nowhere⟩, depth⟩

/-- The first operand of the condition is a negation, whose operand is read two levels deep. -/
theorem endedTwice_reads_to_first_end :
    ∃ c, Call.Made (.ofTokens endedTwice "q") ⟨.expr, c⟩ ∧ c.depth = 2 ∧
      Call.Kept (.ofTokens endedTwice "q") ⟨.expr, c⟩ := by
  have hassertion : Call.Made (.ofTokens endedTwice "q") ⟨.statement, endedTwiceAt 18 0⟩ :=
    .statement (c := endedTwiceAt 6 0) rfl (.next rfl .refl) rfl
  have hcondition : Call.Made (.ofTokens endedTwice "q") ⟨.expr, endedTwiceAt 20 0⟩ :=
    .sub hassertion (.condition (c := endedTwiceAt 20 0) rfl rfl)
  have hnegation : Call.Made (.ofTokens endedTwice "q") ⟨.expr, endedTwiceAt 22 1⟩ :=
    .sub hcondition (.operand (.intro (c := endedTwiceAt 20 0) rfl rfl rfl .refl (by decide)))
  have hoperand : Call.Made (.ofTokens endedTwice "q") ⟨.expr, endedTwiceAt 24 2⟩ :=
    .sub hnegation (.operand (.intro (c := endedTwiceAt 22 1) rfl rfl rfl .refl (by decide)))
  obtain ⟨_, _, _, _, _, _, _, hkept, _⟩ := query_reads_to_first_end endedTwice "q"
  exact ⟨endedTwiceAt 24 2, hoperand, rfl, hkept _ hoperand⟩

end Parser
end NeuralQuery
