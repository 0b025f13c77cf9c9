import NeuralQuery.Proofs.Loops
import NeuralQuery.Proofs.Moving

/-!
# NeuralQuery.Proofs.Confinement

The parser never reads past the first end in a row of tokens.

`Confined p c` says two things of the parser `p` at the cursor `c`. Whether it succeeds or not, it
only passes tokens that are no end, and leaves all else of the cursor as it was, the depth included.
And it does the same where the row is cut off behind the first end (`Cursor.cut`).

The current token is passed only after a look at it, so the rules for the steps of a cursor ask that
it is no end. Rules for sequences and loops carry the property to the whole parser
(`query_confined`).
-/

namespace NeuralQuery

/-! ## Cursors -/

namespace Cursor

/-- The second cursor stands behind tokens of the first one, none of which is an end. -/
def Leads (c c' : Cursor) : Prop :=
  ∃ ts, (∀ t ∈ ts, t.kind ≠ .eof) ∧ c = c'.before ts

theorem Leads.refl (c : Cursor) : c.Leads c :=
  ⟨[], by simp, rfl⟩

theorem Leads.trans {c c' c'' : Cursor} (h : c.Leads c') (h' : c'.Leads c'') : c.Leads c'' := by
  obtain ⟨ts, hts, rfl⟩ := h
  obtain ⟨us, hus, rfl⟩ := h'
  refine ⟨ts ++ us, fun t ht => ?_, by simp⟩
  rcases List.mem_append.mp ht with ht | ht
  · exact hts t ht
  · exact hus t ht

theorem leads_advance {c : Cursor} (h : c.kind ≠ .eof) : c.Leads c.advance :=
  ⟨[c.current], fun _ ht => List.mem_singleton.mp ht ▸ h, eq_before_of_kind h⟩

/-- The row up to its first end. -/
def cut (c : Cursor) : Cursor :=
  { c with
    ahead := c.ahead.takeWhile fun t => t.kind != .eof
    ending :=
      ((c.ahead.find? fun t => t.kind == .eof).map fun t => ⟨t.value, t.span⟩).getD c.ending }

@[simp] theorem current_cut (c : Cursor) : c.cut.current = c.current := by
  obtain ⟨file, ahead, ending, depth⟩ := c
  cases ahead with
  | nil => rfl
  | cons t ts =>
    obtain ⟨k, value, s⟩ := t
    by_cases hk : k = .eof
    · simp [cut, current, hk, Ending.token]
    · simp [cut, current, hk]

@[simp] theorem kind_cut (c : Cursor) : c.cut.kind = c.kind := by
  simp [kind]

@[simp] theorem position_cut (c : Cursor) : c.cut.position = c.position := by
  simp [position]

theorem advance_cut {c : Cursor} (h : c.kind ≠ .eof) : c.cut.advance = c.advance.cut := by
  obtain ⟨file, ahead, ending, depth⟩ := c
  cases ahead with
  | nil => exact absurd rfl h
  | cons t ts =>
    have ht : t.kind ≠ .eof := h
    simp [cut, advance, ht]

theorem peek_one (c : Cursor) : c.peek 1 = c.advance.kind := by
  obtain ⟨file, ahead, ending, depth⟩ := c
  rcases ahead with _ | ⟨t, _ | ⟨u, ts⟩⟩ <;> rfl

theorem peek_cut {c : Cursor} (h : c.kind ≠ .eof) : c.cut.peek 1 = c.peek 1 := by
  rw [peek_one, peek_one, advance_cut h, kind_cut]

end Cursor

namespace Parser

variable {α β : Type}

/-! ## Steps, sequences and loops -/

/-- What a parser gives back where the row is cut off behind its first end. -/
def Result.cut : Result α → Result α
  | .ok a c => .ok a c.cut
  | .error d c => .error d c.cut

/-- The parser passes no end, and what stands behind the first one does not matter to it. -/
structure Confined (p : Parser α) (c : Cursor) : Prop where
  leads : c.Leads (Result.cursor (p c))
  cut : p c.cut = Result.cut (p c)

namespace Confined

variable {c : Cursor}

theorem pure (a : α) : Confined (Pure.pure a) c :=
  ⟨.refl c, rfl⟩

theorem throw (d : Diagnostic) : Confined (MonadExcept.throw d : Parser α) c :=
  ⟨.refl c, rfl⟩

theorem unexpected : Confined (unexpected : Parser α) c :=
  ⟨.refl c, by simp [Parser.unexpected, Result.cut, Cursor.unexpected]⟩

theorem complain (message : String) : Confined (complain message : Parser α) c :=
  ⟨.refl c, by simp [Parser.complain, Result.cut, Cursor.complaint]⟩

theorem bind {p : Parser α} {f : α → Parser β} (hp : Confined p c)
    (hf : ∀ a c', p c = .ok a c' → Confined (f a) c') : Confined (p >>= f) c := by
  obtain ⟨hleads, hcut⟩ := hp
  cases h : p c with
  | ok a c' =>
    rw [h] at hleads hcut
    obtain ⟨hleads', hcut'⟩ := hf a c' h
    constructor
    · rw [bind_of_ok h]
      exact hleads.trans hleads'
    · rw [bind_of_ok h, bind_of_ok hcut, hcut']
  | error d c' =>
    rw [h] at hleads hcut
    constructor
    · rw [bind_of_error h]
      exact hleads
    · rw [bind_of_error h, bind_of_error hcut]
      rfl

theorem kind_bind {f : Token.Kind → Parser β} (h : Confined (f c.kind) c) :
    Confined (kind >>= f) c := by
  refine bind ⟨.refl c, by simp [Parser.kind, Result.cut]⟩ fun k c' hk => ?_
  obtain ⟨rfl, rfl⟩ := kind_ok.mp hk
  exact h

theorem peek_bind {f : Token.Kind → Parser β} (hc : c.kind ≠ .eof)
    (h : Confined (f (c.peek 1)) c) : Confined (peek 1 >>= f) c := by
  refine bind ⟨.refl c, by simp [Parser.peek, Result.cut, Cursor.peek_cut hc]⟩ fun k c' hk => ?_
  obtain ⟨rfl, rfl⟩ := peek_ok.mp hk
  exact h

theorem advance (hc : c.kind ≠ .eof) : Confined advance c where
  leads := Cursor.leads_advance hc
  cut := by simp [Parser.advance, Result.cut, Cursor.advance_cut hc]

theorem advance_bind {f : Token → Parser β} (hc : c.kind ≠ .eof)
    (h : Confined (f c.current) c.advance) : Confined (Parser.advance >>= f) c := by
  refine (advance hc).bind fun t c' ht => ?_
  cases ht
  exact h

/-- The end is never expected. -/
theorem expectElse {k : Token.Kind} (hk : k ≠ .eof) {d : Cursor → Diagnostic}
    (hd : d c.cut = d c) : Confined (fun c => expectElse k (d c) c) c := by
  by_cases hc : c.kind = k
  · have hne : c.kind ≠ .eof := hc ▸ hk
    have hrun : Parser.expectElse k (d c) c = Parser.advance c := if_pos hc
    have hrun' : Parser.expectElse k (d c.cut) c.cut = Parser.advance c.cut := if_pos (by simpa)
    exact ⟨hrun ▸ (advance hne).leads, by simp only [hrun, hrun', (advance hne).cut]⟩
  · have hrun : Parser.expectElse k (d c) c = .error (d c) c := if_neg hc
    have hrun' : Parser.expectElse k (d c.cut) c.cut = .error (d c) c.cut := by
      rw [hd]
      exact if_neg (by simpa)
    exact ⟨hrun ▸ .refl c, by simp only [hrun, hrun', Result.cut]⟩

theorem expectElse_bind {k : Token.Kind} (hk : k ≠ .eof) {d : Cursor → Diagnostic}
    (hd : d c.cut = d c) {f : Token → Parser β}
    (h : c.kind = k → Confined (f c.current) c.advance) :
    Confined ((fun c => Parser.expectElse k (d c) c) >>= f) c := by
  refine (expectElse hk hd).bind fun t c' ht => ?_
  simp only [Parser.expectElse] at ht
  split at ht
  · rename_i hc
    cases ht
    exact h hc
  · cases ht

theorem expect_bind {k : Token.Kind} (hk : k ≠ .eof) {f : Token → Parser β}
    (h : c.kind = k → Confined (f c.current) c.advance) : Confined (expect k >>= f) c :=
  expectElse_bind hk (by simp [Cursor.unexpected]) h

theorem expectOr_bind {k : Token.Kind} (hk : k ≠ .eof) {message : String} {f : Token → Parser β}
    (h : c.kind = k → Confined (f c.current) c.advance) :
    Confined (expectOr k message >>= f) c :=
  expectElse_bind hk (by simp [Cursor.complaint]) h

/-- One level deeper the parser must be confined, too. The level is left again. -/
theorem nested {p : Parser α} (h : Confined p { c with depth := c.depth + 1 }) :
    Confined (nested p) c := by
  have hdepth : c.cut.depth = c.depth := rfl
  by_cases hfull : maxNesting ≤ c.depth
  · have hrun (c : Cursor) (hfull : maxNesting ≤ c.depth) :
        Parser.nested p c = .error (c.complaint "expression nested too deeply") c := by
      simp [Parser.nested, Cursor.enter, hfull]
    exact ⟨hrun c hfull ▸ .refl c,
      by simp [hrun c hfull, hrun c.cut hfull, Result.cut, Cursor.complaint]⟩
  · obtain ⟨hleads, hcut⟩ := h
    have hinner : { c.cut with depth := c.depth + 1 } =
        Cursor.cut { c with depth := c.depth + 1 } := rfl
    have hleave {c' : Cursor} (hl : Cursor.Leads { c with depth := c.depth + 1 } c') :
        c.Leads c'.leave := by
      obtain ⟨ts, hts, he⟩ := hl
      obtain ⟨file, ahead, ending, depth⟩ := c
      obtain ⟨file', ahead', ending', depth'⟩ := c'
      simp only [Cursor.before, Cursor.mk.injEq] at he
      obtain ⟨rfl, rfl, rfl, rfl⟩ := he
      exact ⟨ts, hts, rfl⟩
    constructor
    · simp only [Parser.nested, Cursor.enter, hfull, if_false]
      cases h : p { c with depth := c.depth + 1 } <;> rw [h] at hleads <;> exact hleave hleads
    · simp only [Parser.nested, Cursor.enter, hdepth, hfull, if_false, hinner, hcut]
      cases p { c with depth := c.depth + 1 } <;> rfl

/-- What was read with the tokens ahead as its bound, and what follows. -/
theorem ahead_bind {q : List Token → Parser α} {f : α → Parser β} (hq : Confined (ahead >>= q) c)
    (hf : ∀ a c', q c.ahead c = .ok a c' → Confined (f a) c') :
    Confined (ahead >>= fun bound => q bound >>= f) c := by
  rw [← bind_assoc]
  exact hq.bind hf

end Confined

/-- Each round of the loop is confined, and whether there is one does not depend on what stands
behind the first end. -/
structure Loop.Confined (l : Loop α) : Prop where
  going : ∀ c, l.going c.cut = l.going c
  round : ∀ a c, l.going c = true → Parser.Confined (l.round a) c

/-- In a row that is cut off a loop goes round as it does in the whole row. -/
theorem Loop.Runs.confined {l : Loop α} (hl : l.Confined) {r r' : Result α} (h : l.Runs r r') :
    (Result.cursor r).Leads (Result.cursor r') ∧ l.Runs (Result.cut r) (Result.cut r') := by
  induction h with
  | refl => exact ⟨.refl _, .refl⟩
  | @next a c r hc _ ih =>
    obtain ⟨hleads, hcut⟩ := hl.round a c hc
    rw [← hcut] at ih
    exact ⟨hleads.trans ih.1, .next ((hl.going c).trans hc) ih.2⟩

/-- A loop is confined where its start is, if it ends without its bound. -/
theorem Confined.loop {l : Loop α} (hl : l.Confined) {p q : Parser α} {c : Cursor}
    (hends : ∀ c, l.Ends (p c) (q c)) (hp : Confined p c) : Confined q c := by
  obtain ⟨hruns, hover⟩ := hends c
  obtain ⟨hleads, hruns'⟩ := hruns.confined hl
  have hover' : l.Over (Result.cut (q c)) := by
    cases h : q c with
    | ok a c' =>
      rw [h] at hover
      exact (hl.going c').trans hover
    | error d c' => trivial
  refine ⟨hp.leads.trans hleads, (hends c.cut).unique ?_⟩
  rw [hp.cut]
  exact ⟨hruns', hover'⟩

/-! ## Integers and atoms -/

section
variable {c : Cursor}

theorem number_confined (hc : c.kind ≠ .eof) : Confined number c := by
  refine .advance_bind hc ?_
  split
  · cases Number.binary64? c.current.value with
    | some value => exact .pure _
    | none => exact .throw _
  · cases Number.int64? c.current.value with
    | some value => exact .pure _
    | none => exact .throw _

theorem integer_confined : Confined integer c := by
  refine .expectOr_bind (by decide) fun _ => ?_
  cases Number.int64? c.current.value with
  | some value => exact .pure _
  | none =>
    simp only
    split <;> exact .throw _

theorem integerLoop_confined : integerLoop.Confined where
  going c := by simp [integerLoop]
  round is c hc := by
    have hk : c.kind = .comma := by simpa [integerLoop] using hc
    exact .advance_bind (by simp [hk]) (integer_confined.bind fun _ _ _ => .pure _)

theorem integersWithin_confined : Confined (ahead >>= integersWithin) c := by
  refine .loop integerLoop_confined (p := integer >>= fun i => pure [i]) (fun c => ?_) ?_
  · rw [bind_return]
    exact integersWithin_ends c
  · exact integer_confined.bind fun _ _ _ => .pure _

theorem integers_confined : Confined integers c := by
  refine .kind_bind ?_
  split
  · exact .pure _
  · exact integersWithin_confined

theorem reference_confined (hc : c.kind ≠ .eof) : Confined reference c := by
  refine .advance_bind hc (.kind_bind ?_)
  split
  · rename_i hopen
    refine .advance_bind (by simp [hopen]) (integers_confined.bind fun is c' _ => ?_)
    exact .expectOr_bind (by decide) fun _ => .pure _
  · exact .pure _

/-! ## Compound expressions -/

theorem operandLoop_confined {p : Parser Expr} (hp : ∀ c, Confined p c) :
    (operandLoop p).Confined where
  going c := by simp [operandLoop]
  round _ c _ := (hp c).bind fun _ _ _ => .pure _

theorem compound?_ne_eof {k : Token.Kind} {form : Grammar.CompoundForm}
    (h : Grammar.standard.compound? k = some form) : k ≠ .eof := by
  rintro rfl
  cases h

/-- Operands are followed by the parenthesis that closes their form. -/
theorem operandsWithin_stops {p : Parser Expr} (hp : Progresses p) {c' : Cursor} {es : List Expr}
    (h : operandsWithin p c.ahead c = .ok es c') : c'.kind = .closeParen := by
  have hover := (operandsWithin_ends hp c).2
  rw [h] at hover
  simpa [Loop.Over, operandLoop] using hover

section
variable {p : Parser Expr} (hp : ∀ c, Confined p c) (hprogress : Progresses p)
include hp hprogress

theorem operandsWithin_confined : Confined (ahead >>= operandsWithin p) c :=
  .loop (operandLoop_confined hp) (operandsWithin_ends hprogress) (.pure [])

theorem application_confined (hc : c.peek 1 ≠ .eof) : Confined (application p) c := by
  refine .expect_bind (by decide) fun _ => .advance_bind (by rwa [← Cursor.peek_one]) ?_
  refine .ahead_bind (operandsWithin_confined hp hprogress) fun es c' hes => ?_
  have hclose := operandsWithin_stops hprogress hes
  exact .advance_bind (by simp [hclose]) (.pure _)

theorem formOf_confined (form : Grammar.CompoundForm) (hc : c.peek 1 ≠ .eof) :
    Confined (formOf p form) c := by
  refine (application_confined hp hprogress hc).bind fun a c' _ => ?_
  cases a.expr form with
  | ok e => exact .pure _
  | error d => exact .throw _

theorem compoundOf_confined (hc : c.kind ≠ .eof) : Confined (compoundOf .standard p) c := by
  refine .peek_bind hc ?_
  cases hform : Grammar.standard.compound? (c.peek 1) with
  | some form => exact .nested (formOf_confined hp hprogress form (compound?_ne_eof hform))
  | none => exact .advance_bind hc (.complain _)

theorem exprOf_confined : Confined (exprOf .standard p) c := by
  refine .kind_bind ?_
  cases hk : c.kind
  case number => exact number_confined (by simp [hk])
  case identifier => exact reference_confined (by simp [hk])
  case openParen => exact compoundOf_confined hp hprogress (by simp [hk])
  all_goals exact .unexpected

end

theorem exprWithin_confined (n : Nat) : Confined (exprWithin .standard n) c := by
  induction n generalizing c with
  | zero => exact exprOf_confined (fun _ => .unexpected) unexpected_progresses
  | succ n ih => exact exprOf_confined (fun _ => ih) (exprWithin_progresses n)

/-! ## Networks -/

theorem shape_confined : Confined shape c := by
  refine .expectOr_bind (by decide) fun _ => integers_confined.bind fun dims c' _ => ?_
  exact .expectOr_bind (by decide) fun _ => .pure _

theorem relation_confined (hc : c.peek 1 ≠ .eof) : Confined relation c := by
  refine .expect_bind (by decide) fun _ => .advance_bind (by rwa [← Cursor.peek_one]) ?_
  refine .expectOr_bind (by decide) fun _ => ?_
  exact .expect_bind (by decide) fun _ => .pure _

theorem elementType_confined : Confined elementType c := by
  refine .expectOr_bind (by decide) fun _ => ?_
  cases ElementType.ofName? c.current.value with
  | some type => exact .pure _
  | none => exact .throw _

theorem onnxName_confined (role : Role) : Confined (onnxName role) c := by
  refine .kind_bind ?_
  split
  · rename_i hk
    exact .advance_bind (by simp [hk]) (.pure _)
  · split
    · exact .complain _
    · exact .pure _

theorem declaration_confined (role : Role) (hc : c.peek 1 ≠ .eof) :
    Confined (declaration role) c := by
  refine .expect_bind (by decide) fun _ => .advance_bind (by rwa [← Cursor.peek_one]) ?_
  refine .expectOr_bind (by decide) fun _ => elementType_confined.bind fun type c₁ _ => ?_
  refine shape_confined.bind fun dims c₂ _ => (onnxName_confined role).bind fun name c₃ _ => ?_
  exact .expect_bind (by decide) fun _ => .pure _

theorem item?_ne_eof {k : Token.Kind} {form : Grammar.ItemForm}
    (h : Grammar.standard.item? k = some form) : k ≠ .eof := by
  rintro rfl
  cases h

theorem item_confined {form : Grammar.ItemForm}
    (hf : Grammar.standard.item? (c.peek 1) = some form) : Confined (item form) c := by
  have hc := item?_ne_eof hf
  cases form with
  | relation => exact (relation_confined hc).bind fun _ _ _ => .pure _
  | tensor role => exact (declaration_confined role hc).bind fun _ _ _ => .pure _

theorem itemLoop_confined : itemLoop.Confined where
  going c := by simp [itemLoop]
  round n c hc := by
    have hk : c.kind = .openParen := by simpa [itemLoop] using hc
    refine .peek_bind (by simp [hk]) ?_
    cases hf : Grammar.standard.item? (c.peek 1) with
    | some form => exact (item_confined hf).bind fun _ _ _ => .pure _
    | none => exact .advance_bind (by simp [hk]) (.complain _)

theorem itemsWithin_confined (n : Network) :
    Confined (ahead >>= fun bound => itemsWithin .standard bound n) c :=
  .loop itemLoop_confined (itemsWithin_ends n) (.pure n)

theorem network_confined : Confined (network .standard) c := by
  refine .expect_bind (by decide) fun _ => .expect_bind (by decide) fun _ => ?_
  refine .expectOr_bind (by decide) fun _ => ?_
  refine .ahead_bind (itemsWithin_confined _) fun n c' _ => ?_
  exact .expectOr_bind (by decide) fun _ => .pure _

/-! ## Queries -/

theorem version_confined : Confined version c := by
  refine .expect_bind (by decide) fun _ => .expect_bind (by decide) fun _ => ?_
  refine .expectOr_bind (by decide) fun _ => .expectOr_bind (by decide) fun _ => ?_
  exact .expectOr_bind (by decide) fun _ => .expect_bind (by decide) fun _ => .pure _

theorem assertion_confined : Confined (assertion .standard) c := by
  refine .expect_bind (by decide) fun _ => .expect_bind (by decide) fun _ => ?_
  refine (exprWithin_confined maxNesting).bind fun e c' _ => ?_
  exact .expectOr_bind (by decide) fun _ => .pure _

theorem statement_confined : Confined (statement .standard) c := by
  refine .kind_bind ?_
  split
  · rename_i hk
    refine .peek_bind (by simp [hk]) ?_
    cases Grammar.standard.statement? (c.peek 1) with
    | none => exact .complain _
    | some form =>
      cases form with
      | version => exact version_confined.bind fun _ _ _ => .pure _
      | network => exact network_confined.bind fun _ _ _ => .pure _
      | assertion => exact assertion_confined.bind fun _ _ _ => .pure _
  · exact .complain _

theorem bodyLoop_confined : bodyLoop.Confined where
  going c := by simp [bodyLoop, Cursor.hasTokens]
  round b c _ := by
    obtain ⟨hleads, hcut⟩ := statement_confined (c := c)
    cases h : statement .standard c with
    | error d c' =>
      rw [h] at hleads hcut
      rw [Result.cut] at hcut
      constructor
      · rwa [bodyLoop_round_error h]
      · rw [bodyLoop_round_error h, bodyLoop_round_error hcut, Result.cut]
    | ok s c' =>
      rw [h] at hleads hcut
      rw [Result.cut] at hcut
      constructor
      · rw [bodyLoop_round_ok h]
        cases accept b c.position s <;> exact hleads
      · rw [bodyLoop_round_ok h, bodyLoop_round_ok hcut, Cursor.position_cut]
        cases accept b c.position s <;> rfl

theorem bodyWithin_confined :
    Confined (ahead >>= fun bound => bodyWithin .standard bound false) c :=
  .loop bodyLoop_confined bodyWithin_ends (.pure ([], []))

theorem leadingVersion_confined : Confined leadingVersion c := by
  by_cases hk : c.kind = .eof
  · -- the token behind the end is looked at, but it does not matter
    have hrun (c : Cursor) (hk : c.kind = .eof) : leadingVersion c =
        complain "expected `(vnnlib-version <major.minor>)` first" c := by
      rw [leadingVersion, bind_of_ok (kind_eq _), bind_of_ok (peek_eq _ _), if_neg (by simp [hk])]
    have hcomplaint := Confined.complain (α := Version) (c := c)
      "expected `(vnnlib-version <major.minor>)` first"
    exact ⟨hrun c hk ▸ hcomplaint.leads, by rw [hrun c hk, hrun c.cut (by simpa), hcomplaint.cut]⟩
  · refine .kind_bind (.peek_bind hk ?_)
    split
    · exact version_confined
    · exact .complain _

theorem parts_confined : Confined parts c := by
  refine leadingVersion_confined.bind fun v c' _ => ?_
  exact .ahead_bind bodyWithin_confined fun _ _ _ => .pure _

theorem query_confined : Confined query c := by
  rw [query_eq_parts]
  refine parts_confined.bind fun p c' _ => ⟨.refl c', ?_⟩
  show EStateM.Result.ok (⟨p.1, p.2.1, p.2.2, ⟨c'.file, 0, c'.cut.position.offset⟩⟩ : Query) _ = _
  rw [Cursor.position_cut]
  rfl

end

end Parser
end NeuralQuery
