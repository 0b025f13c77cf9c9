import NeuralQuery.Proofs.ParserComplete

/-!
# NeuralQuery.Proofs.Loops

The loops of the parser, taken without their bounds.

A loop goes round as long as its test holds of the cursor. It is over when the test fails or a round
does.

* `Loop.Runs l r r'` : finitely many rounds lead from one result to the other.
* `Loop.Ends l r r'` : they do, and the loop is over then. A loop that goes round forever ends
  nowhere.

The loops of the parser end, because every round that succeeds has read a token, and they end with
the result that they have within their bounds (`integersWithin_ends`, `operandsWithin_ends`,
`itemsWithin_ends`, `bodyWithin_ends`). So no bound ever decides anything.
-/

namespace NeuralQuery

theorem Cursor.kind_of_ahead_nil {c : Cursor} (h : c.ahead = []) : c.kind = .eof := by
  simp [Cursor.kind, Cursor.current, h, Ending.token]

namespace Parser

variable {α β : Type}

/-- What a parser gives back: a value or a diagnostic, and the cursor either way. -/
abbrev Result (α : Type) := EStateM.Result Diagnostic Cursor α

namespace Result

def cursor : Result α → Cursor
  | .ok _ c => c
  | .error _ c => c

def map (f : α → β) : Result α → Result β
  | .ok a c => .ok (f a) c
  | .error d c => .error d c

def ofExcept (c : Cursor) : Except Diagnostic α → Result α
  | .ok a => .ok a c
  | .error d => .error d c

theorem map_map {γ : Type} (f : α → β) (g : β → γ) (r : Result α) :
    map g (map f r) = map (g ∘ f) r := by
  cases r <;> rfl

@[simp] theorem map_id (r : Result α) : map (fun a => a) r = r := by
  cases r <;> rfl

end Result

theorem bind_of_error {p : Parser α} {f : α → Parser β} {c c₁ : Cursor} {d : Diagnostic}
    (h : p c = .error d c₁) : (p >>= f) c = .error d c₁ := by
  show EStateM.bind p f c = _
  simp [EStateM.bind, h]

theorem bind_return (p : Parser α) (f : α → β) (c : Cursor) :
    (p >>= fun a => pure (f a)) c = Result.map f (p c) := by
  cases h : p c with
  | ok a c' => rw [bind_of_ok h]; rfl
  | error d c' => rw [bind_of_error h]; rfl

/-! ## Loops -/

/-- A loop that carries a value from round to round. -/
structure Loop (α : Type) where
  going : Cursor → Bool
  round : α → Parser α

namespace Loop

variable (l : Loop α)

inductive Runs : Result α → Result α → Prop where
  | refl {r : Result α} : Runs r r
  | next {a : α} {c : Cursor} {r : Result α} :
      l.going c = true → Runs (l.round a c) r → Runs (.ok a c) r

/-- There is no next round. -/
def Over : Result α → Prop
  | .ok _ c => l.going c = false
  | .error _ _ => True

def Ends (r r' : Result α) : Prop :=
  l.Runs r r' ∧ l.Over r'

variable {l}

theorem Ends.next {a : α} {c : Cursor} {r : Result α} (hc : l.going c = true)
    (h : l.Ends (l.round a c) r) : l.Ends (.ok a c) r :=
  ⟨.next hc h.1, h.2⟩

theorem Ends.failed {d : Diagnostic} {c : Cursor} : l.Ends (.error d c) (.error d c) :=
  ⟨.refl, trivial⟩

theorem Ends.stopped {a : α} {c : Cursor} (hc : l.going c = false) : l.Ends (.ok a c) (.ok a c) :=
  ⟨.refl, hc⟩

/-- A loop has one end at most. -/
theorem Ends.unique {r r₁ r₂ : Result α} (h₁ : l.Ends r r₁) (h₂ : l.Ends r r₂) : r₁ = r₂ := by
  obtain ⟨hruns, hover⟩ := h₁
  obtain ⟨hruns', hover'⟩ := h₂
  induction hruns with
  | refl =>
    cases hruns' with
    | refl => rfl
    | next hc _ => exact absurd (hc.symm.trans hover) (by decide)
  | next hc _ ih =>
    cases hruns' with
    | refl => exact absurd (hc.symm.trans hover') (by decide)
    | next _ hruns' => exact ih hover hruns'

end Loop

/-- More integers, as long as a comma follows. -/
def integerLoop : Loop (List Int64) where
  going c := c.kind == .comma
  round is := do
    let _ ← advance
    let i ← integer
    return is ++ [i]

/-- Operands up to the closing parenthesis. -/
def operandLoop (operand : Parser Expr) : Loop (List Expr) where
  going c := c.kind != .closeParen
  round es := do
    let e ← operand
    return es ++ [e]

/-- Forms of a network, as long as a parenthesis opens. -/
def itemLoop : Loop Network where
  going c := c.kind == .openParen
  round n := do
    match Grammar.standard.item? (← peek 1) with
    | some form =>
      let i ← item form
      return n.add i
    | none =>
      let _ ← advance
      complain "expected a tensor declaration or network relation"

/-- Networks and assertions with one more form, which is no version and no network behind an
assertion. -/
def accept (b : List Network × List Assertion) (p : Position) :
    Statement → Except Diagnostic (List Network × List Assertion)
  | .version v => .error ⟨.unexpectedTokenDetailed v.lexeme "version declared more than once", p⟩
  | .network n =>
    if b.2.isEmpty then .ok (b.1 ++ [n], b.2)
    else .error ⟨.unexpectedTokenDetailed n.name "network declarations must precede assertions", p⟩
  | .assertion a => .ok (b.1, b.2 ++ [a])

/-- Networks and assertions up to the end of the text. -/
def bodyLoop : Loop (List Network × List Assertion) where
  going c := c.hasTokens
  round b := fun c =>
    match statement .standard c with
    | .error d c' => .error d c'
    | .ok s c' => Result.ofExcept c' (accept b c.position s)

/-! ## Bounds -/

theorem integersWithin_ends_from {bound : List Token} {c : Cursor} (is : List Int64)
    (hlen : c.ahead.length ≤ bound.length) :
    integerLoop.Ends (Result.map (fun i => is ++ [i]) (integer c))
      (Result.map (is ++ ·) (integersWithin bound c)) := by
  induction bound generalizing c is with
  | nil =>
    cases h : integer c with
    | ok i c' =>
      -- where the bound is used up no token is left that could be an integer
      obtain ⟨t, _, rfl⟩ := integer_ok.mp h
      simp at hlen
    | error d c' =>
      rw [integersWithin, bind_of_error h]
      exact .failed
  | cons b bound ih =>
    cases h : integer c with
    | error d c' =>
      rw [integersWithin, bind_of_error h]
      exact .failed
    | ok i c' =>
      obtain ⟨t, _, rfl⟩ := integer_ok.mp h
      rw [integersWithin, bind_of_ok h, bind_of_ok (kind_eq _)]
      by_cases hk : c'.kind = .comma
      · have hnext : advance c' = .ok c'.current c'.advance := rfl
        have hround : integerLoop.round (is ++ [i]) c' =
            Result.map (fun j => is ++ [i] ++ [j]) (integer c'.advance) := by
          rw [← bind_return]
          exact bind_of_ok hnext
        have hless : c'.advance.ahead.length ≤ bound.length := by
          simp only [Cursor.ahead_before, List.singleton_append, List.length_cons] at hlen
          simp only [Cursor.advance, List.length_tail]
          omega
        rw [if_pos hk, bind_of_ok hnext, bind_return, Result.map_map]
        refine .next (by simp [integerLoop, hk]) ?_
        rw [hround]
        simpa [Function.comp_def] using ih (is ++ [i]) hless
      · rw [if_neg hk]
        exact .stopped (by simp [integerLoop, hk])

theorem integersWithin_ends (c : Cursor) :
    integerLoop.Ends (Result.map (fun i => [i]) (integer c)) (integersWithin c.ahead c) := by
  have h := integersWithin_ends_from (c := c) [] (Nat.le_refl _)
  simpa using h

/-- A parser that refuses the end and has read something when it succeeds. -/
structure Progresses (p : Parser Expr) : Prop where
  forward : ∀ {c c' e}, p c = .ok e c' → c'.ahead.length < c.ahead.length
  ending : ∀ {c}, c.kind = .eof → p c = .error c.unexpected c

theorem unexpected_progresses : Progresses unexpected where
  forward h := by cases h
  ending _ := rfl

theorem exprOf_eof {p : Parser Expr} {c : Cursor} (h : c.kind = .eof) :
    exprOf .standard p c = .error c.unexpected c := by
  rw [exprOf, bind_of_ok (kind_eq _), h]
  rfl

theorem exprWithin_progresses (n : Nat) : Progresses (exprWithin .standard n) where
  forward h := by
    obtain ⟨ts, hts, _, rfl⟩ := exprWithin_sound n h
    obtain ⟨t, us, rfl, _⟩ := hts.head
    simp only [Cursor.ahead_before, List.length_append, List.length_cons]
    omega
  ending h := by
    cases n <;> exact exprOf_eof h

theorem operandsWithin_ends_from {p : Parser Expr} (hp : Progresses p) {bound : List Token}
    {c : Cursor} (es : List Expr) (hlen : c.ahead.length ≤ bound.length) :
    (operandLoop p).Ends (.ok es c) (Result.map (es ++ ·) (operandsWithin p bound c)) := by
  have hround (es : List Expr) (c : Cursor) :
      (operandLoop p).round es c = Result.map (fun e => es ++ [e]) (p c) := bind_return p _ c
  induction bound generalizing c es with
  | nil =>
    have hk := Cursor.kind_of_ahead_nil (List.length_eq_zero_iff.mp (Nat.le_zero.mp hlen))
    -- at the end the loop goes round once more, and the operand fails
    refine .next (by simp [operandLoop, hk]) ?_
    rw [hround, hp.ending hk]
    exact .failed
  | cons b bound ih =>
    rw [operandsWithin, bind_of_ok (kind_eq _)]
    by_cases hk : c.kind = .closeParen
    · have hnone : Result.map (es ++ ·) ((pure [] : Parser (List Expr)) c) = .ok es c := by
        show EStateM.Result.ok (es ++ []) c = _
        rw [List.append_nil]
      rw [if_pos hk, hnone]
      exact .stopped (by simp [operandLoop, hk])
    · rw [if_neg hk]
      refine .next (by simp [operandLoop, hk]) ?_
      rw [hround]
      cases h : p c with
      | error d c' =>
        rw [bind_of_error h]
        exact .failed
      | ok e c' =>
        have hless := hp.forward h
        rw [bind_of_ok h, bind_return, Result.map_map]
        simpa [Function.comp_def, Result.map] using
          ih (es ++ [e]) (by simp only [List.length_cons] at hlen; omega)

theorem operandsWithin_ends {p : Parser Expr} (hp : Progresses p) (c : Cursor) :
    (operandLoop p).Ends (.ok [] c) (operandsWithin p c.ahead c) := by
  have h := operandsWithin_ends_from hp (c := c) [] (Nat.le_refl _)
  simpa using h

theorem item_forward {form : Grammar.ItemForm} {c c' : Cursor} {i : Network.Item}
    (hf : Grammar.standard.item? (c.peek 1) = some form) (h : item form c = .ok i c') :
    c'.ahead.length < c.ahead.length := by
  obtain ⟨ts, hts, rfl⟩ := item_sound hf h
  obtain ⟨left, keyword, us, _, rfl, _⟩ := item_complete hts
  simp only [Cursor.ahead_before, List.length_append, List.length_cons]
  omega

theorem itemsWithin_ends_from {bound : List Token} {c : Cursor} (n : Network)
    (hlen : c.ahead.length ≤ bound.length) :
    itemLoop.Ends (.ok n c) (itemsWithin .standard bound n c) := by
  induction bound generalizing c n with
  | nil =>
    have hk := Cursor.kind_of_ahead_nil (List.length_eq_zero_iff.mp (Nat.le_zero.mp hlen))
    exact .stopped (by simp [itemLoop, hk])
  | cons b bound ih =>
    rw [itemsWithin, bind_of_ok (kind_eq _)]
    by_cases hk : c.kind = .openParen
    · rw [if_pos hk, bind_of_ok (peek_eq _ _)]
      refine .next (by simp [itemLoop, hk]) ?_
      show itemLoop.Ends ((peek 1 >>= _) c) _
      rw [bind_of_ok (peek_eq _ _)]
      cases hf : Grammar.standard.item? (c.peek 1) with
      | none => exact .failed
      | some form =>
        show itemLoop.Ends ((item form >>= fun i => pure (n.add i)) c)
          ((item form >>= fun i => itemsWithin .standard bound (n.add i)) c)
        cases h : item form c with
        | error d c' =>
          rw [bind_of_error h, bind_of_error h]
          exact .failed
        | ok i c' =>
          have hless := item_forward hf h
          rw [bind_of_ok h, bind_of_ok h]
          exact ih (n.add i) (by simp only [List.length_cons] at hlen; omega)
    · rw [if_neg hk]
      exact .stopped (by simp [itemLoop, hk])

theorem itemsWithin_ends (n : Network) (c : Cursor) :
    itemLoop.Ends (.ok n c) (itemsWithin .standard c.ahead n c) :=
  itemsWithin_ends_from n (Nat.le_refl _)

theorem statement_forward {c c' : Cursor} {s : Statement}
    (h : statement .standard c = .ok s c') : c'.ahead.length < c.ahead.length := by
  obtain ⟨ts, hts, rfl⟩ := statement_sound h
  have hpos := List.length_pos_iff.mpr hts.ne_nil
  simp only [Cursor.ahead_before, List.length_append]
  omega

theorem bodyLoop_round_error {b : List Network × List Assertion} {c c' : Cursor} {d : Diagnostic}
    (h : statement .standard c = .error d c') : bodyLoop.round b c = .error d c' := by
  simp only [bodyLoop, h]

theorem bodyLoop_round_ok {b : List Network × List Assertion} {c c' : Cursor} {s : Statement}
    (h : statement .standard c = .ok s c') :
    bodyLoop.round b c = Result.ofExcept c' (accept b c.position s) := by
  simp only [bodyLoop, h]

theorem bodyWithin_ends_from {bound : List Token} {c : Cursor}
    (b : List Network × List Assertion) (hlen : c.ahead.length ≤ bound.length) :
    bodyLoop.Ends (.ok b c) (Result.map (fun r => (b.1 ++ r.1, b.2 ++ r.2))
      (bodyWithin .standard bound (!b.2.isEmpty) c)) := by
  have hnone (b : List Network × List Assertion) (c : Cursor) :
      Result.map (fun r => (b.1 ++ r.1, b.2 ++ r.2)) (.ok ([], []) c) = .ok b c := by
    simp [Result.map]
  induction bound generalizing c b with
  | nil =>
    have hk := Cursor.kind_of_ahead_nil (List.length_eq_zero_iff.mp (Nat.le_zero.mp hlen))
    refine hnone b c ▸ .stopped ?_
    simp [bodyLoop, Cursor.hasTokens, hk]
  | cons t bound ih =>
    simp only [bodyWithin]
    cases hc : c.hasTokens with
    | false => exact hnone b c ▸ .stopped hc
    | true =>
      refine .next hc ?_
      cases h : statement .standard c with
      | error d c' =>
        rw [bodyLoop_round_error h]
        exact .failed
      | ok s c' =>
        have hless : c'.ahead.length ≤ bound.length := by
          have := statement_forward h
          simp only [List.length_cons] at hlen
          omega
        rw [bodyLoop_round_ok h]
        cases s with
        | version v => exact .failed
        | network n =>
          cases hb : b.2.isEmpty with
          | false =>
            rw [accept, hb]
            exact .failed
          | true =>
            have hrest := ih (b.1 ++ [n], b.2) hless
            rw [accept, hb]
            rw [hb] at hrest
            cases hbody : bodyWithin .standard bound false c' <;>
              simpa [Result.map, Result.ofExcept, hbody] using hrest
        | assertion a =>
          have hrest := ih (b.1, b.2 ++ [a]) hless
          rw [List.isEmpty_eq_false_iff.mpr (by simp : b.2 ++ [a] ≠ [])] at hrest
          cases hbody : bodyWithin .standard bound true c' <;>
            simpa [Result.map, Result.ofExcept, accept, hbody] using hrest

theorem bodyWithin_ends (c : Cursor) :
    bodyLoop.Ends (.ok ([], []) c) (bodyWithin .standard c.ahead false c) := by
  have h := bodyWithin_ends_from (c := c) ([], []) (Nat.le_refl _)
  simpa using h

end Parser
end NeuralQuery
