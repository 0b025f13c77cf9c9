import NeuralQuery.Proofs.Layout

/-!
# NeuralQuery.Proofs.Slicing

Parts of a text, cut at the ends of lexemes.

The first lexeme of a text stays the first one if the text ends anywhere behind it
(`Shape.first?_truncate`): no shape fits only because of what stands further on. So tokens that
stand side by side are the tokens of a part of the text (`Scan.tokens_infix`), and a text whose scan
fails has tokens up to where it stops (`Scan.tokens_stuck`). With the bytes before a part taken away
its tokens move to the front, all by the same distance (`Token.tokenize_slice`).
-/

namespace NeuralQuery

theorem Stops.of_append {p : Char → Bool} {cs back : List Char} (h : Stops p (cs ++ back)) :
    Stops p cs := by
  intro c hc
  cases cs with
  | nil => cases hc
  | cons d ds => exact h c hc

/-- The stretch with `n` bytes fewer before it. -/
def Span.lowered (n : Nat) (s : Span) : Span :=
  ⟨s.file, s.start - n, s.stop - n⟩

/-- The token with another span. -/
def Token.respan (g : Span → Span) (t : Token) : Token :=
  { t with span := g t.span }

namespace Token

/-! ## Lexemes of a shorter text -/

namespace Shape

section
variable {cs back taken rest : List Char}

theorem run_eq_iff {p : Char → Bool} :
    Cut.run p (taken ++ rest) = ⟨taken, rest⟩ ↔ (∀ c ∈ taken, p c = true) ∧ Stops p rest := by
  constructor
  · intro h
    have htaken : (taken ++ rest).takeWhile p = taken := congrArg Cut.taken h
    have hrest : (taken ++ rest).dropWhile p = rest := congrArg Cut.rest h
    constructor
    · intro c hc
      rw [← htaken] at hc
      exact List.all_eq_true.mp List.all_takeWhile c hc
    · intro c hc
      have hnot := List.head?_dropWhile_not p (taken ++ rest)
      rw [hrest, hc] at hnot
      exact hnot
  · rintro ⟨hall, hstops⟩
    rw [Cut.run, takeWhile_of_stops hall hstops, dropWhile_of_stops hall hstops]

theorem run_truncate {p : Char → Bool} (h : Cut.run p (cs ++ back) = ⟨taken, rest ++ back⟩) :
    Cut.run p cs = ⟨taken, rest⟩ := by
  have happ := run_append p (cs ++ back)
  rw [h, ← List.append_assoc] at happ
  obtain rfl := List.append_cancel_right happ
  rw [List.append_assoc, run_eq_iff] at h
  exact run_eq_iff.mpr ⟨h.1, h.2.of_append⟩

/-- The longest front whose characters satisfy a test, if it is not empty. -/
def run? (p : Char → Bool) (cs : List Char) : Option Cut :=
  if (Cut.run p cs).taken.isEmpty then none else some (Cut.run p cs)

theorem run?_eq_none_iff {p : Char → Bool} : run? p cs = none ↔ Stops p cs := by
  cases cs with
  | nil => simp [run?, Cut.run, Stops]
  | cons c cs => cases hc : p c <;> simp [run?, Cut.run, Stops, hc]

theorem run?_truncate {p : Char → Bool} (h : run? p (cs ++ back) = some ⟨taken, rest ++ back⟩) :
    run? p cs = some ⟨taken, rest⟩ := by
  simp only [run?] at h ⊢
  split at h
  · cases h
  · rename_i hne
    have hrun := Option.some.inj h
    rw [hrun] at hne
    rw [run_truncate hrun, if_neg hne]

theorem digits?_eq_none_iff : digits? cs = none ↔ Stops Char.isDigit cs :=
  run?_eq_none_iff

theorem digits?_truncate (h : digits? (cs ++ back) = some ⟨taken, rest ++ back⟩) :
    digits? cs = some ⟨taken, rest⟩ :=
  run?_truncate h

theorem nil_of_append (h : taken ++ (rest ++ back) = [] ++ back) : taken = [] ∧ rest = [] := by
  rw [← List.append_assoc] at h
  exact List.append_eq_nil_iff.mp (List.append_cancel_right h)

theorem fraction_of_ne {c : Char} (h : c ≠ '.') (cs : List Char) :
    fraction (c :: cs) = ⟨[], c :: cs⟩ := by
  unfold fraction
  split
  · rename_i heq
    exact absurd (List.cons.inj heq).1 h
  · rfl

theorem fraction_truncate (h : fraction (cs ++ back) = ⟨taken, rest ++ back⟩) :
    fraction cs = ⟨taken, rest⟩ := by
  cases cs with
  | nil =>
    have happ := fraction_append ([] ++ back)
    rw [h] at happ
    obtain ⟨rfl, rfl⟩ := nil_of_append happ
    rfl
  | cons c ds =>
    by_cases hc : c = '.'
    · subst hc
      simp only [fraction, List.cons_append] at h ⊢
      cases hd : digits? (ds ++ back) with
      | none =>
        have hnone : digits? ds = none :=
          digits?_eq_none_iff.mpr (digits?_eq_none_iff.mp hd).of_append
        simp only [hd, Cut.mk.injEq, ← List.cons_append] at h
        rw [hnone, ← h.1, List.append_cancel_right h.2]
      | some d =>
        simp only [hd, Cut.behind, Cut.mk.injEq] at h
        have hdigits : digits? ds = some ⟨d.taken, rest⟩ := digits?_truncate (by rw [hd, ← h.2])
        rw [hdigits, ← h.1]
        rfl
    · rw [List.cons_append, fraction_of_ne hc, ← List.cons_append, Cut.mk.injEq] at h
      rw [fraction_of_ne hc, ← h.1, List.append_cancel_right h.2]

theorem sign_cons_append (c : Char) (ds back : List Char) :
    sign (c :: ds ++ back) = ⟨(sign (c :: ds)).taken, (sign (c :: ds)).rest ++ back⟩ := by
  by_cases hplus : c = '+'
  · subst hplus
    rfl
  by_cases hminus : c = '-'
  · subst hminus
    rfl
  simp [sign, hplus, hminus]

theorem sign_truncate (h : sign (cs ++ back) = ⟨taken, rest ++ back⟩) :
    sign cs = ⟨taken, rest⟩ := by
  cases cs with
  | nil =>
    have happ := sign_append ([] ++ back)
    rw [h] at happ
    obtain ⟨rfl, rfl⟩ := nil_of_append happ
    rfl
  | cons c ds =>
    rw [sign_cons_append, Cut.mk.injEq] at h
    rw [← h.1, ← List.append_cancel_right h.2]

theorem exponent_truncate (h : exponent (cs ++ back) = ⟨taken, rest ++ back⟩) :
    exponent cs = ⟨taken, rest⟩ := by
  cases cs with
  | nil =>
    have happ := exponent_append ([] ++ back)
    rw [h] at happ
    obtain ⟨rfl, rfl⟩ := nil_of_append happ
    rfl
  | cons e ds =>
    by_cases he : e = 'e' ∨ e = 'E'
    · simp only [exponent, List.cons_append, he, if_true] at h ⊢
      cases hd : digits? (sign (ds ++ back)).rest with
      | none =>
        have hnone : digits? (sign ds).rest = none := by
          cases ds with
          | nil => rfl
          | cons c ds =>
            rw [sign_cons_append] at hd
            exact digits?_eq_none_iff.mpr (digits?_eq_none_iff.mp hd).of_append
        simp only [hd, Cut.mk.injEq, ← List.cons_append] at h
        rw [hnone, ← h.1, List.append_cancel_right h.2]
      | some d =>
        simp only [hd, Cut.behind, Cut.mk.injEq] at h
        -- the digits end in the shorter text, and so does the sign before them
        have hrest : (sign (ds ++ back)).rest = d.taken ++ rest ++ back := by
          rw [← (digits?_of hd).2, h.2, List.append_assoc]
        have hsign : sign ds = ⟨(sign (ds ++ back)).taken, d.taken ++ rest⟩ :=
          sign_truncate (by rw [← hrest])
        have hlong : digits? (d.taken ++ rest ++ back) = some ⟨d.taken, rest ++ back⟩ := by
          rw [← hrest, hd, ← h.2]
        have hdigits := digits?_truncate hlong
        rw [hsign, hdigits, ← h.1]
        rfl
    · simp only [exponent, List.cons_append, he, if_false, Cut.mk.injEq] at h ⊢
      rw [← List.cons_append] at h
      exact ⟨h.1, List.append_cancel_right h.2⟩

theorem unsigned?_truncate (h : unsigned? (cs ++ back) = some ⟨taken, rest ++ back⟩) :
    unsigned? cs = some ⟨taken, rest⟩ := by
  cases hw : digits? (cs ++ back) with
  | none => simp [unsigned?, hw] at h
  | some whole =>
    obtain ⟨f, hf⟩ : ∃ f, fraction whole.rest = f := ⟨_, rfl⟩
    obtain ⟨x, hx⟩ : ∃ x, exponent f.rest = x := ⟨_, rfl⟩
    simp only [unsigned?, hw, hf, hx, Option.some.injEq, Cut.behind, Cut.mk.injEq] at h
    -- each part ends in the shorter text, because the last one does
    have hfrest : f.rest = x.taken ++ rest ++ back := by
      rw [← exponent_append f.rest, hx, h.2, List.append_assoc]
    have hwrest : whole.rest = f.taken ++ (x.taken ++ rest) ++ back := by
      rw [← fraction_append whole.rest, hf, hfrest, ← List.append_assoc f.taken]
    have hdigits : digits? cs = some ⟨whole.taken, f.taken ++ (x.taken ++ rest)⟩ :=
      digits?_truncate (by rw [hw, ← hwrest])
    have hfraction : fraction (f.taken ++ (x.taken ++ rest) ++ back) =
        ⟨f.taken, x.taken ++ rest ++ back⟩ := by
      rw [← hwrest, hf, ← hfrest]
    have hexponent : exponent (x.taken ++ rest ++ back) = ⟨x.taken, rest ++ back⟩ := by
      rw [← hfrest, hx, ← h.2]
    simp only [unsigned?, hdigits, fraction_truncate hfraction, exponent_truncate hexponent,
      Cut.behind, ← h.1]

theorem number?_of_ne {c : Char} (h : c ≠ '-') (cs : List Char) :
    number? (c :: cs) = unsigned? (c :: cs) := by
  unfold number?
  split
  · rename_i heq
    exact absurd (List.cons.inj heq).1 h
  · rfl

theorem number?_truncate (h : number? (cs ++ back) = some ⟨taken, rest ++ back⟩) :
    number? cs = some ⟨taken, rest⟩ := by
  cases cs with
  | nil =>
    obtain ⟨hne, happ⟩ := number?_of h
    exact absurd (nil_of_append happ).1 hne
  | cons c ds =>
    by_cases hc : c = '-'
    · subst hc
      obtain ⟨d, hd, heq⟩ := Option.map_eq_some_iff.mp (show (unsigned? (ds ++ back)).map
        (Cut.behind ['-']) = some ⟨taken, rest ++ back⟩ from h)
      simp only [Cut.behind, Cut.mk.injEq] at heq
      have hunsigned : unsigned? ds = some ⟨d.taken, rest⟩ :=
        unsigned?_truncate (by rw [hd, ← heq.2])
      show (unsigned? ds).map (Cut.behind ['-']) = _
      rw [hunsigned, ← heq.1]
      rfl
    · rw [List.cons_append, number?_of_ne hc, ← List.cons_append] at h
      rw [number?_of_ne hc]
      exact unsigned?_truncate h

theorem behind_run_truncate {p : Char → Bool} {c : Char}
    (h : (Cut.run p (cs ++ back)).behind [c] = ⟨taken, rest ++ back⟩) :
    (Cut.run p cs).behind [c] = ⟨taken, rest⟩ := by
  simp only [Cut.behind, Cut.mk.injEq] at h
  have hrun : Cut.run p cs = ⟨(Cut.run p (cs ++ back)).taken, rest⟩ := run_truncate (by rw [← h.2])
  rw [hrun, ← h.1]
  rfl

theorem closing?_truncate (h : closing? (cs ++ back) = some ⟨taken, rest ++ back⟩) :
    closing? cs = some ⟨taken, rest⟩ := by
  have happ := closing?_append h
  rw [← List.append_assoc] at happ
  rw [← List.append_cancel_right happ]
  exact closing?_again h rest

theorem after?_self (ms rest : List Char) : after? ms (ms ++ rest) = some rest := by
  induction ms with
  | nil => rfl
  | cons m ms ih => rw [List.cons_append, after?, if_pos rfl, ih]

theorem cut?_truncate {s : Shape} (hs : s ∈ all)
    (h : s.cut? (cs ++ back) = some ⟨taken, rest ++ back⟩) : s.cut? cs = some ⟨taken, rest⟩ := by
  obtain ⟨hne, happ⟩ := cut?_of hs h
  cases cs with
  | nil => exact absurd (nil_of_append happ).1 hne
  | cons c ds =>
    cases s with
    | blank => exact run?_truncate h
    | comment =>
      by_cases hc : c = ';'
      · subst hc
        exact congrArg some (behind_run_truncate (Option.some.inj h))
      · rw [List.cons_append, cut?_comment_eq_none hc] at h
        cases h
    | number => exact number?_truncate h
    | string =>
      by_cases hc : c = '"'
      · subst hc
        obtain ⟨d, hd, heq⟩ := Option.map_eq_some_iff.mp (show (closing? (ds ++ back)).map
          (Cut.behind ['"']) = some ⟨taken, rest ++ back⟩ from h)
        simp only [Cut.behind, Cut.mk.injEq] at heq
        have hclosing : closing? ds = some ⟨d.taken, rest⟩ :=
          closing?_truncate (by rw [hd, ← heq.2])
        simp only [cut?, hclosing, Option.map_some, Cut.behind, ← heq.1]
      · rw [List.cons_append, cut?_string_eq_none hc] at h
        cases h
    | word =>
      simp only [cut?, List.cons_append] at h ⊢
      split at h
      · rename_i hstart
        rw [if_pos hstart]
        exact congrArg some (behind_run_truncate (Option.some.inj h))
      · cases h
    | mark text kind =>
      obtain ⟨r, _, heq⟩ := Option.map_eq_some_iff.mp h
      obtain ⟨rfl, _⟩ := Cut.mk.inj heq
      have happ : text.toList ++ (rest ++ back) = c :: ds ++ back := happ
      rw [← List.append_assoc] at happ
      rw [← List.append_cancel_right happ, cut?, after?_self]
      rfl

theorem unsigned?_eq_none_iff : unsigned? cs = none ↔ Stops Char.isDigit cs := by
  rw [← digits?_eq_none_iff]
  cases h : digits? cs <;> simp [unsigned?, h]

theorem number?_eq_none_of_append (h : number? (cs ++ back) = none) : number? cs = none := by
  cases cs with
  | nil => rfl
  | cons c ds =>
    by_cases hc : c = '-'
    · subst hc
      have hstops := unsigned?_eq_none_iff.mp (Option.map_eq_none_iff.mp h)
      exact Option.map_eq_none_iff.mpr (unsigned?_eq_none_iff.mpr hstops.of_append)
    · rw [List.cons_append, number?_of_ne hc, unsigned?_eq_none_iff, ← List.cons_append] at h
      rw [number?_of_ne hc, unsigned?_eq_none_iff]
      exact h.of_append

theorem closing?_eq_none_of_append (h : closing? (cs ++ back) = none) : closing? cs = none := by
  cases hcut : closing? cs with
  | none => rfl
  | some c =>
    have hlonger := closing?_again hcut (c.rest ++ back)
    rw [← List.append_assoc, closing?_append hcut, h] at hlonger
    cases hlonger

/-- A shape that does not fit a text fits no shorter one. -/
theorem cut?_eq_none_of_append {s : Shape} (h : s.cut? (cs ++ back) = none) :
    s.cut? cs = none := by
  cases s with
  | blank => exact run?_eq_none_iff.mpr (run?_eq_none_iff.mp h).of_append
  | comment =>
    cases cs with
    | nil => rfl
    | cons c ds =>
      by_cases hc : c = ';'
      · subst hc
        cases h
      · exact cut?_comment_eq_none hc
  | number => exact number?_eq_none_of_append h
  | string =>
    cases cs with
    | nil => rfl
    | cons c ds =>
      by_cases hc : c = '"'
      · subst hc
        have hnone : closing? (ds ++ back) = none := Option.map_eq_none_iff.mp h
        exact Option.map_eq_none_iff.mpr (closing?_eq_none_of_append hnone)
      · exact cut?_string_eq_none hc
  | word =>
    cases cs with
    | nil => rfl
    | cons c ds =>
      simp only [cut?, List.cons_append, ite_eq_right_iff, reduceCtorEq, imp_false] at h ⊢
      exact h
  | mark text kind =>
    cases ha : after? text.toList cs with
    | none => simp [cut?, ha]
    | some r =>
      have hlonger := after?_self text.toList (r ++ back)
      rw [← List.append_assoc, after?_append ha, Option.map_eq_none_iff.mp h] at hlonger
      cases hlonger

/-- The first lexeme of a text stays the first if the text is cut off somewhere behind it. -/
theorem first?_truncate {shape : Shape}
    (h : first? (cs ++ back) = some (shape, ⟨taken, rest ++ back⟩)) :
    first? cs = some (shape, ⟨taken, rest⟩) := by
  obtain ⟨before, s, after, hall, hfits, hbefore⟩ := List.findSome?_eq_some_iff.mp h
  obtain ⟨c, hcut, heq⟩ := Option.map_eq_some_iff.mp hfits
  obtain ⟨rfl, rfl⟩ := Prod.mk.inj heq
  refine first?_of_cut hall (fun t ht => ?_) (cut?_truncate (by rw [hall]; simp) hcut)
  exact cut?_eq_none_of_append (Option.map_eq_none_iff.mp (hbefore t ht))

end

theorem token?_respan (g : Span → Span) (shape : Shape) (text : List Char) (span : Span) :
    (shape.token? text span).map (Token.respan g) = shape.token? text (g span) := by
  cases shape <;> rfl

end Shape

/-! ## Tokens of a part of a text -/

namespace Scan

theorem tokens_of_past {s : Scan} {shape : Shape} {c : Cut} {ts : List Token}
    (hf : Shape.first? s.ahead = some (shape, c)) (h : (s.past c).tokens = .ok ts) :
    s.tokens =
      .ok ((shape.token? c.taken (s.spanOf (Text.byteLength c.taken))).toList ++ ts) := by
  rw [tokens_of_some hf, h]
  rfl

/-- The scan with only these characters ahead. -/
def only (s : Scan) (cs : List Char) : Scan :=
  { s with ahead := cs }

/-- The text ahead is cut in two: a front with these tokens, which ends with the last of them, and
the rest with all later ones. -/
structure CutAt (s : Scan) (ts more : List Token) (mid post : List Char) : Prop where
  ahead : s.ahead = mid ++ post
  front : (s.only mid).tokens = .ok (ts ++ [(s.only mid).ending])
  rest : (s.past ⟨mid, post⟩).tokens = .ok more
  none : ts = [] → mid = []
  last : ∀ t ∈ ts.getLast?, t.span.stop = Position.wrap (s.offset + Text.byteLength mid)

namespace CutAt

theorem nil {s : Scan} {more : List Token} (h : s.tokens = .ok more) :
    s.CutAt [] more [] s.ahead where
  ahead := rfl
  front := tokens_of_nil rfl
  rest := h
  none _ := rfl
  last _ ht := by cases ht

theorem lexeme {s : Scan} {shape : Shape} {c : Cut} {ts more : List Token} {mid post : List Char}
    (hf : Shape.first? s.ahead = some (shape, c)) (h : (s.past c).CutAt ts more mid post)
    (hne : shape.token? c.taken (s.spanOf (Text.byteLength c.taken)) = Option.none → ts ≠ []) :
    s.CutAt ((shape.token? c.taken (s.spanOf (Text.byteLength c.taken))).toList ++ ts) more
      (c.taken ++ mid) post := by
  have happ : c.taken ++ (mid ++ post) = s.ahead := by
    rw [← (Shape.first?_of hf).2, ← h.ahead]
    rfl
  -- the lexeme is still the first one of the shorter text
  have hlong : Shape.first? (c.taken ++ mid ++ post) = some (shape, ⟨c.taken, mid ++ post⟩) := by
    rw [List.append_assoc, happ, hf, ← show c.rest = mid ++ post from h.ahead]
  have hfirst := Shape.first?_truncate hlong
  have hending : ((s.past c).only mid).ending = (s.only (c.taken ++ mid)).ending := by
    simp [ending, only, past, Nat.add_assoc]
  constructor
  · rw [List.append_assoc, happ]
  · have hfront : ((s.only (c.taken ++ mid)).past ⟨c.taken, mid⟩).tokens =
        .ok (ts ++ [((s.past c).only mid).ending]) := h.front
    rw [tokens_of_past (s := s.only (c.taken ++ mid)) hfirst hfront, hending, List.append_assoc]
    rfl
  · rw [← past_past s c.taken mid c.rest post]
    exact h.rest
  · intro hnil
    obtain ⟨htoken, hts⟩ := List.append_eq_nil_iff.mp hnil
    exact absurd hts (hne (by simpa using htoken))
  · intro t ht
    rw [Text.byteLength_append, ← Nat.add_assoc]
    by_cases hts : ts = []
    · subst hts
      rw [h.none rfl]
      have htoken : shape.token? c.taken (s.spanOf (Text.byteLength c.taken)) = some t := by
        simpa using List.mem_of_getLast? ht
      rw [Shape.token?_span htoken]
      rfl
    · rw [List.getLast?_append_of_ne_nil _ hts] at ht
      exact h.last t ht

end CutAt

/-- Tokens that stand before others are those of a front of the text. -/
theorem tokens_cut {s : Scan} {ts more : List Token} (h : s.tokens = .ok (ts ++ more))
    (hmore : more ≠ []) : ∃ mid post, s.CutAt ts more mid post := by
  refine (tokens_induct (P := fun s tokens => s.tokens = .ok tokens ∧
    ∀ ts more, tokens = ts ++ more → more ≠ [] → ∃ mid post, s.CutAt ts more mid post)
    ?_ ?_ _ rfl h).2 ts more rfl hmore
  · intro s hs
    refine ⟨tokens_of_nil hs, fun ts more heq hmore => ?_⟩
    obtain ⟨rfl, rfl⟩ : ts = [] ∧ more = [Token.ending (s.spanOf 0)] := by
      rcases ts with _ | ⟨t, ts⟩
      · exact ⟨rfl, heq.symm⟩
      · simp_all
    exact ⟨[], s.ahead, .nil (tokens_of_nil hs)⟩
  · rintro s shape c tokens hf ⟨hrest, ih⟩
    have htokens := tokens_of_past hf hrest
    refine ⟨htokens, fun ts more heq hmore => ?_⟩
    rcases ts with _ | ⟨u, ts⟩
    · rw [heq] at htokens
      exact ⟨[], s.ahead, .nil htokens⟩
    · cases htoken : shape.token? c.taken (s.spanOf (Text.byteLength c.taken)) with
      | none =>
        rw [htoken] at heq
        obtain ⟨mid, post, hcut⟩ := ih (u :: ts) more heq hmore
        have hlexeme := hcut.lexeme hf fun _ => List.cons_ne_nil u ts
        rw [htoken] at hlexeme
        exact ⟨_, _, hlexeme⟩
      | some t =>
        rw [htoken] at heq
        obtain ⟨rfl, htail⟩ := List.cons.inj heq
        obtain ⟨mid, post, hcut⟩ := ih ts more htail hmore
        have hlexeme := hcut.lexeme hf fun hnone => by
          rw [hnone] at htoken
          cases htoken
        rw [htoken] at hlexeme
        exact ⟨_, _, hlexeme⟩

/-- In front of the first token there is nothing but a gap. -/
theorem tokens_skip {s : Scan} {t : Token} {more : List Token} (h : s.tokens = .ok (t :: more))
    (hmore : more ≠ []) :
    ∃ gap rest, s.ahead = gap ++ rest ∧ (s.past ⟨gap, rest⟩).tokens = .ok (t :: more) ∧
      t.span.start = Position.wrap (s.offset + Text.byteLength gap) := by
  refine (tokens_induct (P := fun s tokens => s.tokens = .ok tokens ∧
    ∀ t more, tokens = t :: more → more ≠ [] → ∃ gap rest, s.ahead = gap ++ rest ∧
      (s.past ⟨gap, rest⟩).tokens = .ok (t :: more) ∧
      t.span.start = Position.wrap (s.offset + Text.byteLength gap))
    ?_ ?_ _ rfl h).2 t more rfl hmore
  · intro s hs
    refine ⟨tokens_of_nil hs, fun t more heq hmore => ?_⟩
    exact absurd (List.cons.inj heq).2.symm hmore
  · rintro s shape c tokens hf ⟨hrest, ih⟩
    have htokens := tokens_of_past hf hrest
    refine ⟨htokens, fun t more heq hmore => ?_⟩
    cases htoken : shape.token? c.taken (s.spanOf (Text.byteLength c.taken)) with
    | none =>
      rw [htoken] at heq
      obtain ⟨gap, rest, hahead, hgap, hstart⟩ := ih t more heq hmore
      refine ⟨c.taken ++ gap, rest, ?_, ?_, ?_⟩
      · rw [List.append_assoc, ← hahead]
        exact (Shape.first?_of hf).2.symm
      · rw [← past_past s c.taken gap c.rest rest]
        exact hgap
      · rw [Text.byteLength_append, ← Nat.add_assoc]
        exact hstart
    | some u =>
      rw [heq] at htokens
      rw [htoken] at heq
      obtain ⟨rfl, _⟩ := List.cons.inj heq
      refine ⟨[], s.ahead, rfl, htokens, ?_⟩
      rw [Shape.token?_span htoken]
      rfl

/-- Tokens that stand side by side are those of a part of the text, from the start of the first to
the end of the last. -/
theorem tokens_infix {s : Scan} {front ts back : List Token}
    (h : s.tokens = .ok (front ++ (ts ++ back))) (hts : ts ≠ []) (hback : back ≠ []) :
    ∃ pre mid post, s.ahead = pre ++ (mid ++ post) ∧
      ((s.past ⟨pre, mid ++ post⟩).only mid).tokens =
        .ok (ts ++ [((s.past ⟨pre, mid ++ post⟩).only mid).ending]) ∧
      (∀ t ∈ ts.head?, t.span.start = Position.wrap (s.offset + Text.byteLength pre)) ∧
      ∀ t ∈ ts.getLast?, t.span.stop = Position.wrap (s.offset + Text.byteLength (pre ++ mid)) := by
  obtain ⟨lead, _, hlead⟩ := tokens_cut h (List.append_ne_nil_of_left_ne_nil hts back)
  obtain ⟨t, more, rfl⟩ := List.exists_cons_of_ne_nil hts
  obtain ⟨gap, _, hahead, hgap, hstart⟩ := tokens_skip hlead.rest
    (List.append_ne_nil_of_right_ne_nil more hback)
  rw [past_past] at hgap
  obtain ⟨mid, post, hcut⟩ := tokens_cut (show _ = Except.ok ((t :: more) ++ back) from hgap) hback
  obtain rfl := hcut.ahead
  refine ⟨lead ++ gap, mid, post, ?_, hcut.front, ?_, ?_⟩
  · rw [hlead.ahead, List.append_assoc, ← hahead]
    rfl
  · intro u hu
    obtain rfl := Option.some.inj hu
    rw [Text.byteLength_append, ← Nat.add_assoc]
    exact hstart
  · intro u hu
    rw [Text.byteLength_append, ← Nat.add_assoc]
    exact hcut.last u hu

/-- A scan that fails stops at a character with which no lexeme starts. The text up to there has
tokens without the rest. -/
theorem tokens_stuck {s : Scan} {d : Diagnostic} (h : s.tokens = .error d) :
    ∃ front c rest, s.ahead = front ++ c :: rest ∧
      d = ⟨.unrecognisedToken (String.singleton c),
        .ofBytes s.file (s.offset + Text.byteLength front)⟩ ∧
      Shape.first? (c :: rest) = none ∧ ∃ ts, (s.only front).tokens = .ok ts := by
  refine error_induct (P := fun s d => ∃ front c rest, s.ahead = front ++ c :: rest ∧
    d = ⟨.unrecognisedToken (String.singleton c),
      .ofBytes s.file (s.offset + Text.byteLength front)⟩ ∧
    Shape.first? (c :: rest) = none ∧ ∃ ts, (s.only front).tokens = .ok ts) ?_ ?_ _ rfl h
  · intro s c rest hs hf
    exact ⟨[], c, rest, hs, rfl, hs ▸ hf, _, tokens_of_nil rfl⟩
  · rintro s shape cut d hf ⟨front, c, rest, hahead, rfl, hnone, ts, hts⟩
    have hrest : cut.rest = front ++ c :: rest := hahead
    have happ : (cut.taken ++ front) ++ c :: rest = s.ahead := by
      rw [List.append_assoc, ← hrest]
      exact (Shape.first?_of hf).2
    refine ⟨cut.taken ++ front, c, rest, happ.symm, ?_, hnone, ?_⟩
    · simp [past, Nat.add_assoc]
    · -- the first lexeme ends before the character at which the scan stops
      have hcut : cut = ⟨cut.taken, front ++ c :: rest⟩ := by rw [← hrest]
      rw [← happ, hcut] at hf
      exact ⟨_, tokens_of_past (s := s.only (cut.taken ++ front)) (Shape.first?_truncate hf) hts⟩

/-- The scan with `n` bytes fewer before it. -/
def lowered (n : Nat) (s : Scan) : Scan :=
  { s with offset := s.offset - n }

theorem spanOf_lowered {s : Scan} {n k : Nat} (hn : n ≤ s.offset)
    (hb : s.offset + k < UInt32.size) : (s.lowered n).spanOf k = (s.spanOf k).lowered n := by
  have hstop : s.offset - n + k = s.offset + k - n := by omega
  simp only [spanOf, lowered, Span.ofBytes, Span.lowered, hstop]
  rw [Position.wrap_of_lt (by omega), Position.wrap_of_lt (by omega),
    Position.wrap_of_lt (by omega), Position.wrap_of_lt (by omega)]

theorem past_lowered {s : Scan} {n : Nat} (hn : n ≤ s.offset) (c : Cut) :
    (s.lowered n).past c = (s.past c).lowered n := by
  simp only [lowered, past, Scan.mk.injEq, and_true, true_and]
  omega

/-- With `n` bytes fewer before a text its tokens stand `n` bytes earlier. -/
theorem tokens_lowered {s : Scan} {ts : List Token} (h : s.tokens = .ok ts)
    (hb : s.offset + Text.byteLength s.ahead < UInt32.size) {n : Nat} (hn : n ≤ s.offset) :
    (s.lowered n).tokens = .ok (ts.map (Token.respan (Span.lowered n))) := by
  refine tokens_induct (P := fun s ts => s.offset + Text.byteLength s.ahead < UInt32.size →
    n ≤ s.offset → (s.lowered n).tokens = .ok (ts.map (Token.respan (Span.lowered n))))
    ?_ ?_ _ rfl h hb hn
  · intro s hs hb hn
    rw [tokens_of_nil (s := s.lowered n) hs, spanOf_lowered hn (by omega)]
    rfl
  · intro s shape c ts hf ih hb hn
    have hbytes : Text.byteLength s.ahead = Text.byteLength c.taken + Text.byteLength c.rest := by
      rw [← (Shape.first?_of hf).2, Text.byteLength_append]
    have hrest := ih (by simp only [past]; omega) (Nat.le_add_right_of_le hn)
    rw [tokens_of_some (s := s.lowered n) hf, past_lowered hn, hrest,
      spanOf_lowered hn (by omega), ← Shape.token?_respan, List.map_append]
    cases shape.token? c.taken (s.spanOf (Text.byteLength c.taken)) <;> rfl

end Scan

end Token

/-! ## Slices -/

/-- The stretch of a text. -/
def Span.slice (source : String) (s : Span) : String :=
  String.ofList (Text.takeBytes (s.stop - s.start) (Text.dropBytes s.start source.toList))

/-- Tokens that stand side by side are those of the text that they cover, with all bytes before that
text taken away. -/
theorem Token.tokenize_slice {source file : String} {row ts : List Token} {ending : Token}
    (h : Token.tokenize source file = .ok (row ++ [ending]))
    (hsize : Text.byteLength source.toList < UInt32.size) (hts : ts <:+: row) {s : Span}
    (hs : Covers ts s) :
    ∃ ending', Token.tokenize (s.slice source) file =
      .ok (ts.map (Token.respan (Span.lowered s.start)) ++ [ending']) := by
  obtain ⟨front, back, rfl⟩ := hts
  have h : (Scan.ofSource source file).tokens = .ok (front ++ (ts ++ (back ++ [ending]))) := by
    rw [← List.append_assoc, ← List.append_assoc]
    exact h
  obtain ⟨pre, mid, post, hahead, hmid, hfirst, hlast⟩ := Scan.tokens_infix h hs.ne_nil (by simp)
  have hahead : source.toList = pre ++ (mid ++ post) := hahead
  have hoffset : (Scan.ofSource source file).offset = 0 := rfl
  rw [hahead, Text.byteLength_append, Text.byteLength_append] at hsize
  have hstart : s.start = Text.byteLength pre := by
    have hposition := hs.start _ (List.head?_eq_some_head hs.ne_nil)
    have hwrap := hfirst _ (List.head?_eq_some_head hs.ne_nil)
    rw [hoffset, Nat.zero_add, Position.wrap_of_lt (by omega)] at hwrap
    exact (congrArg Position.offset hposition).trans hwrap
  have hstop : s.stop = Text.byteLength pre + Text.byteLength mid := by
    have hwrap := hlast _ (List.getLast?_eq_some_getLast hs.ne_nil)
    rw [hoffset, Nat.zero_add, Text.byteLength_append, Position.wrap_of_lt (by omega)] at hwrap
    exact (hs.stop _ (List.getLast?_eq_some_getLast hs.ne_nil)).trans hwrap
  have hslice : s.slice source = String.ofList mid := by
    rw [Span.slice, hstart, hstop, Nat.add_sub_cancel_left, hahead, Text.dropBytes_append,
      Text.takeBytes_append]
  have hlowered := Scan.tokens_lowered hmid
    (by simp only [Scan.only, Scan.past, hoffset]; omega) (n := Text.byteLength pre)
    (Nat.le_add_left ..)
  rw [List.map_append] at hlowered
  have hscan : ((((Scan.ofSource source file).past ⟨pre, mid ++ post⟩).only mid).lowered
      (Text.byteLength pre)) = Scan.ofSource (String.ofList mid) file := by
    simp [Scan.ofSource, Scan.past, Scan.only, Scan.lowered]
  rw [hscan] at hlowered
  rw [hslice, hstart]
  exact ⟨_, hlowered⟩

end NeuralQuery
