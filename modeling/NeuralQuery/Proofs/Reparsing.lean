import NeuralQuery.Proofs.Placement
import NeuralQuery.Proofs.RoundTrip

/-!
# NeuralQuery.Proofs.Reparsing

Expressions that are read on their own (`Expr.ParsedFrom`), apart from the query they stand in.

The tokens of an expression stand side by side in the row of its query (`ReadFrom.derives`), and
every row that an expression of the admitted nesting is derived from is parsed as that expression
(`DerivesExpr.parsedFrom`). So the text of an expression is parsed as the same expression in other
places, and no other expression has that text (`Expr.text_reparses`).
-/

namespace NeuralQuery

/-- The text is accepted, as this query. -/
def Query.ReadFrom (source file : String) (q : Query) : Prop :=
  ∃ tokens, Token.tokenize source file = .ok tokens ∧ Query.ofTokens tokens file = .ok q

/-- A text is read as a query if there is anything to compute from that query. -/
theorem Query.exists_readFrom {source file : String} {p : Query → Bool}
    (h : (Token.tokenize source file).toOption.any (fun tokens =>
      (Query.ofTokens tokens file).toOption.any p) = true) :
    ∃ q : Query, q.ReadFrom source file ∧ p q = true := by
  obtain ⟨tokens, htok, h⟩ := exists_ok_of_any h
  obtain ⟨q, hq, h⟩ := exists_ok_of_any h
  exact ⟨q, ⟨tokens, htok, hq⟩, h⟩

namespace Expr

/-- An expression of the query: a condition that it asserts, or one of those below. -/
def In (q : Query) (e : Expr) : Prop :=
  ∃ a ∈ q.assertions, e.Within a.condition

/-- The text has tokens, and they are parsed as this expression, up to the last of them. -/
def ParsedFrom (text file : String) (e : Expr) : Prop :=
  ∃ tokens c, Token.tokenize text file = .ok tokens ∧
    Parser.expr .standard (Cursor.ofTokens tokens file) = .ok e c ∧ c.ahead = []

theorem ParsedFrom.unique {text file : String} {e f : Expr} (he : ParsedFrom text file e)
    (hf : ParsedFrom text file f) : e = f := by
  obtain ⟨tokens, c, htok, hparse, _⟩ := he
  obtain ⟨tokens', c', htok', hparse', _⟩ := hf
  cases htok.symm.trans htok'
  cases hparse.symm.trans hparse'
  rfl

theorem depth_lt_of_mem_operands {e f : Expr} (h : f ∈ e.operands) : f.depth < e.depth := by
  have hlist : ∀ es : List Expr, f ∈ es → f.depth ≤ depths es := fun es hf =>
    depths_le.mp (Nat.le_refl _) f hf
  cases e with
  | var name indices s => cases h
  | int lexeme value s => cases h
  | float lexeme value s => cases h
  | negate e s =>
    obtain rfl := List.mem_singleton.mp h
    simp [depth]
  | aggregate op es s => exact Nat.lt_succ_of_le (hlist es h)
  | minus e es s => exact Nat.lt_succ_of_le (hlist (e :: es) h)
  | compare op l r s =>
    have := hlist [l, r] h
    simp only [depths, depth] at this ⊢
    omega
  | connective op es s => exact Nat.lt_succ_of_le (hlist es h)

theorem Within.depth_le {e f : Expr} (h : f.Within e) : f.depth ≤ e.depth := by
  induction h with
  | refl => exact Nat.le_refl _
  | operand hg _ ih => exact Nat.le_of_lt (Nat.lt_of_le_of_lt ih (depth_lt_of_mem_operands hg))

end Expr

/-- The row of an expression is parsed as that expression. -/
theorem DerivesExpr.parsedFrom {row : List Token} {ending : Token} {e : Expr}
    (h : DerivesExpr row e) (hdepth : e.depth ≤ maxNesting) {text file : String}
    (htok : Token.tokenize text file = .ok (row ++ [ending])) : Expr.ParsedFrom text file e := by
  obtain ⟨heof, hlexemes, _⟩ := Token.tokenize_row htok
  have hnumbers : NumbersShaped row := fun t ht => (hlexemes t ht).numberText
  have hend : (⟨file, [], ⟨ending.value, ending.span⟩, 0⟩ : Cursor).kind ≠ .openBracket := by
    show Token.Kind.eof ≠ .openBracket
    decide
  refine ⟨_, ⟨file, [], ⟨ending.value, ending.span⟩, 0⟩, htok, ?_, rfl⟩
  rw [Cursor.ofTokens_append heof]
  exact Parser.expr_complete h hnumbers hdepth rfl hend

theorem DerivesAssertion.within {ts : List Token} {a : Assertion} (h : DerivesAssertion ts a)
    {e : Expr} (he : e.Within a.condition) :
    ∃ us, us <:+: ts ∧ DerivesExpr us e ∧ e.depth ≤ maxNesting := by
  cases h with
  | @mk left keyword right ts _ _ _ hcondition hdepth _ =>
    obtain ⟨us, hus, hderives⟩ := hcondition.within he
    refine ⟨us, hus.trans ⟨[left, keyword], [right], by simp⟩, hderives, ?_⟩
    exact Nat.le_trans he.depth_le hdepth

/-- Every expression of a query is derived from tokens of its text that stand side by side. -/
theorem Query.ReadFrom.derives {source file : String} {q : Query} (h : q.ReadFrom source file)
    {e : Expr} (he : e.In q) :
    ∃ row ending ts, Token.tokenize source file = .ok (row ++ [ending]) ∧ ts <:+: row ∧
      DerivesExpr ts e ∧ e.depth ≤ maxNesting := by
  obtain ⟨tokens, htok, hparse⟩ := h
  obtain ⟨row, span, rfl, _⟩ := Token.Scan.tokens_row htok
  obtain ⟨a, ha, hwithin⟩ := he
  refine ⟨row, Token.ending span, ?_⟩
  cases (Query.ofTokens_tokenize_iff htok).mp hparse with
  | @mk us v networks assertions _ _ hassertions =>
    obtain ⟨p, hp, rfl⟩ := List.mem_map.mp ha
    obtain ⟨ts, hts, hderives, hdepth⟩ := (hassertions p hp).within hwithin
    refine ⟨ts, htok, hts.trans ((infix_of_part hp).trans ?_), hderives, hdepth⟩
    rw [← List.append_assoc]
    exact (List.suffix_append _ _).isInfix

theorem Query.ReadFrom.reparses {source file : String} {q : Query} (h : q.ReadFrom source file)
    {e : Expr} (he : e.In q) (name : String) :
    ∃ e', Expr.ParsedFrom e.text name e' ∧ e'.unplaced = e.unplaced := by
  obtain ⟨row, ending, ts, htok, hts, hderives, hdepth⟩ := h.derives he
  obtain ⟨_, hlexemes, _⟩ := Token.tokenize_row htok
  obtain ⟨row', span', ⟨e', hderives', hsame⟩, htok'⟩ :=
    (hderives.reads fun t ht => hlexemes t (hts.subset ht)).tokenize name
  have hdepth' : e'.depth ≤ maxNesting := by
    rw [← Expr.depth_unplaced, hsame, Expr.depth_unplaced]
    exact hdepth
  exact ⟨e', hderives'.parsedFrom hdepth' htok', hsame⟩

/-- The text of every expression of a query has tokens, which are parsed as that expression in other
places, up to the last of them. So an expression of any other query that has the same text is the
same expression in another place. -/
theorem Expr.text_reparses {source file : String} {q : Query} (h : q.ReadFrom source file)
    {e : Expr} (he : e.In q) :
    (∀ name, ∃ e', Expr.ParsedFrom e.text name e' ∧ e'.unplaced = e.unplaced) ∧
      ∀ (source' file' : String) (q' : Query) (f : Expr), q'.ReadFrom source' file' → f.In q' →
        f.text = e.text → f.unplaced = e.unplaced := by
  refine ⟨h.reparses he, ?_⟩
  intro source' file' q' f h' hf htext
  obtain ⟨e', he', hsame⟩ := h.reparses he ""
  obtain ⟨f', hf', hsame'⟩ := h'.reparses hf ""
  rw [htext] at hf'
  rw [← hsame, ← hsame', he'.unique hf']

/-- Signs of numbers and signs of operations, glued together. -/
def Query.signedSource : String :=
  "(vnnlib-version<2.0>)(assert(<=(-x[-9223372036854775808,007])(--1 1.50e3)))"

theorem Query.signedSource_reparses :
    ∃ (q : Query) (e e' : Expr), q.ReadFrom Query.signedSource "q" ∧ e.In q ∧
      e.text = "(<= (- x[-9223372036854775808,7]) (- -1 1.50e3))" ∧
      Expr.ParsedFrom e.text "q" e' ∧ e'.unplaced = e.unplaced := by
  have htexts : (Token.tokenize Query.signedSource "q").toOption.any (fun tokens =>
      (Query.ofTokens tokens "q").toOption.any fun q =>
        q.assertions.map (fun a => a.condition.text) ==
          ["(<= (- x[-9223372036854775808,7]) (- -1 1.50e3))"]) = true := by
    decide +kernel
  obtain ⟨q, hread, htexts⟩ := Query.exists_readFrom htexts
  obtain ⟨a, ha, htext⟩ := List.map_eq_singleton_iff.mp (beq_iff_eq.mp htexts)
  have hin : a.condition.In q := ⟨a, by simp [ha], .refl⟩
  obtain ⟨e', hparsed, hsame⟩ := (Expr.text_reparses hread hin).1 "q"
  exact ⟨q, a.condition, e', hread, hin, htext, hparsed, hsame⟩

end NeuralQuery
