import NeuralQuery.Proofs.Display
import NeuralQuery.Proofs.Reports

/-!
# NeuralQuery.Proofs.Placement

Where tokens stand in their text, and where forms stand among their tokens.

* `Token.StandsIn s t` : the token is the one for a lexeme of the text ahead of `s`, and its span
  covers the bytes of that lexeme.
* `Laid file ts`       : tokens of one file, each of some length, one behind the other.
* `Covers ts s`        : the span goes from the first of these tokens to the last one.

The tokens of a text of fewer than `2 ^ 32` bytes are laid so (`tokenize_laid`). In such a row every
expression and every form starts where a token does, spans lie inside each other as the tokens do
that they cover (`Covers.inside`), and forms do not overlap (`Covers.apart`).
-/

namespace NeuralQuery

namespace Token

/-! ## Tokens in a text -/

/-- The token of a lexeme ahead, with the span of that lexeme. -/
def StandsIn (s : Scan) (t : Token) : Prop :=
  ∃ (front text rest : List Char) (shape : Shape), s.ahead = front ++ (text ++ rest) ∧
    Shape.first? (text ++ rest) = some (shape, ⟨text, rest⟩) ∧ shape.token? text t.span = some t ∧
    t.span = .ofBytes s.file (s.offset + Text.byteLength front)
      (s.offset + Text.byteLength (front ++ text))

theorem StandsIn.past {s : Scan} {shape : Shape} {c : Cut} {t : Token}
    (hf : Shape.first? s.ahead = some (shape, c)) (h : t.StandsIn (s.past c)) : t.StandsIn s := by
  obtain ⟨front, text, rest, shape', hs, hfirst, htoken, hspan⟩ := h
  refine ⟨c.taken ++ front, text, rest, shape', ?_, hfirst, htoken, ?_⟩
  · rw [List.append_assoc, ← hs]
    exact (Shape.first?_of hf).2.symm
  · rw [hspan]
    simp [Scan.past, Nat.add_assoc]

/-- In a text of fewer than `2 ^ 32` bytes a span tells the bytes before a lexeme and up to its
end. -/
theorem StandsIn.span {source file : String} {t : Token} (h : t.StandsIn (.ofSource source file))
    (hsize : Text.byteLength source.toList < UInt32.size) :
    ∃ (front text rest : List Char) (shape : Shape), source.toList = front ++ (text ++ rest) ∧
      Shape.first? (text ++ rest) = some (shape, ⟨text, rest⟩) ∧
      shape.token? text t.span = some t ∧
      t.span = ⟨file, Text.byteLength front, Text.byteLength (front ++ text)⟩ := by
  obtain ⟨front, text, rest, shape, hahead, hfirst, htoken, hspan⟩ := h
  have hahead : source.toList = front ++ (text ++ rest) := hahead
  refine ⟨front, text, rest, shape, hahead, hfirst, htoken, ?_⟩
  rw [hahead, ← List.append_assoc, Text.byteLength_append, Text.byteLength_append] at hsize
  have hstart : Position.wrap (0 + Text.byteLength front) = Text.byteLength front := by
    rw [Nat.zero_add, Position.wrap_of_lt (by omega)]
  have hstop : Position.wrap (0 + Text.byteLength (front ++ text)) =
      Text.byteLength (front ++ text) := by
    rw [Nat.zero_add, Text.byteLength_append, Position.wrap_of_lt (by omega)]
  rw [hspan]
  simp only [Span.ofBytes, Scan.ofSource, hstart, hstop]

/-- The end of the text ahead. -/
def Scan.ending (s : Scan) : Token :=
  Token.ending (.ofBytes s.file (s.offset + Text.byteLength s.ahead)
    (s.offset + Text.byteLength s.ahead))

theorem Scan.ending_past {s : Scan} {c : Cut} (h : c.taken ++ c.rest = s.ahead) :
    (s.past c).ending = s.ending := by
  simp [ending, past, ← h, Nat.add_assoc]

/-- The tokens of a text are those of its lexemes, each with the span of its lexeme, and one for its
end. -/
theorem Scan.tokens_stand {s : Scan} {ts : List Token} (h : s.tokens = .ok ts) :
    ∃ row, ts = row ++ [s.ending] ∧ ∀ t ∈ row, t.StandsIn s := by
  refine tokens_induct (P := fun s ts => ∃ row, ts = row ++ [s.ending] ∧ ∀ t ∈ row, t.StandsIn s)
    ?_ ?_ _ rfl h
  · intro s hs
    exact ⟨[], by simp [ending, hs, spanOf], by simp⟩
  · rintro s shape c _ hf ⟨row, rfl, hrow⟩
    have happ := (Shape.first?_of hf).2
    refine ⟨_, by rw [ending_past happ, List.append_assoc], fun t ht => ?_⟩
    rcases List.mem_append.mp ht with ht | ht
    · have htoken : shape.token? c.taken (s.spanOf (Text.byteLength c.taken)) = some t := by
        simpa using ht
      have hspan := Shape.token?_span htoken
      exact ⟨[], c.taken, c.rest, shape, happ.symm, happ ▸ hf, hspan ▸ htoken, hspan⟩
    · exact (hrow t ht).past hf

end Token

/-- The tokens of a part stand side by side. -/
theorem infix_of_part {α : Type} {parts : List (List Token × α)} {p : List Token × α}
    (hp : p ∈ parts) : p.1 <:+: parts.flatMap Prod.fst := by
  rw [List.flatMap_def]
  exact List.infix_of_mem_flatten (List.mem_map_of_mem hp)

/-- Tokens of one file, each of some length and one behind the other. -/
structure Laid (file : String) (ts : List Token) : Prop where
  file : ∀ t ∈ ts, t.span.file = file
  filled : ∀ t ∈ ts, t.span.start < t.span.stop
  apart : ts.Pairwise fun t u => t.span.stop ≤ u.span.start

namespace Laid

variable {file : String} {ts us : List Token}

theorem sublist (h : Laid file ts) (hs : us.Sublist ts) : Laid file us :=
  ⟨fun t ht => h.file t (hs.mem ht), fun t ht => h.filled t (hs.mem ht), h.apart.sublist hs⟩

theorem left (h : Laid file (ts ++ us)) : Laid file ts :=
  h.sublist (List.sublist_append_left ..)

theorem right (h : Laid file (ts ++ us)) : Laid file us :=
  h.sublist (List.sublist_append_right ..)

theorem part {α : Type} {parts : List (List Token × α)} {p : List Token × α}
    (h : Laid file (parts.flatMap Prod.fst)) (hp : p ∈ parts) : Laid file p.1 :=
  h.sublist (infix_of_part hp).sublist

end Laid

theorem Token.tokenize_laid {source file : String} {row : List Token} {ending : Token}
    (h : Token.tokenize source file = .ok (row ++ [ending]))
    (hb : Text.byteLength source.toList < UInt32.size) : Laid file row := by
  obtain ⟨row', heq, hstand⟩ := Scan.tokens_stand h
  obtain ⟨rfl, hend⟩ := List.append_inj' heq rfl
  have hall := (Scan.tokens_ordered h (by simpa [Scan.ofSource] using hb)).1
  obtain ⟨hrow, _, hlast⟩ := List.pairwise_append.mp hall
  refine ⟨fun t ht => ?_, fun t ht => (hlast t ht ending (by simp)).1, hrow.imp And.right⟩
  obtain ⟨_, _, _, _, _, _, _, hspan⟩ := hstand t ht
  rw [hspan]
  rfl

/-! ## Forms among tokens -/

/-- The position is inside the span. -/
structure Span.Contains (s : Span) (p : Position) : Prop where
  file : p.file = s.file
  start : s.start ≤ p.offset
  stop : p.offset < s.stop

/-- A stretch of some length inside another one. -/
structure Span.Inside (s t : Span) : Prop where
  file : s.file = t.file
  filled : s.start < s.stop
  start : t.start ≤ s.start
  stop : s.stop ≤ t.stop

/-- From the first of these tokens to the last one, which may be the same. -/
structure Covers (ts : List Token) (s : Span) : Prop where
  ne_nil : ts ≠ []
  start : ∀ t ∈ ts.head?, s.position = t.span.position
  stop : ∀ t ∈ ts.getLast?, s.stop = t.span.stop

namespace Covers

variable {file : String} {ts us : List Token} {s u : Span}

theorem single (t : Token) : Covers [t] t.span where
  ne_nil := List.cons_ne_nil t []
  start v hv := by
    obtain rfl := Option.some.inj hv
    rfl
  stop v hv := by
    obtain rfl := Option.some.inj hv
    rfl

theorem ends (left right : Token) (ts : List Token) :
    Covers (left :: (ts ++ [right])) (left.span.upTo right.span) where
  ne_nil := List.cons_ne_nil _ _
  start t ht := by
    obtain rfl := Option.some.inj ht
    rfl
  stop t ht := by
    rw [← List.cons_append, List.getLast?_concat] at ht
    obtain rfl := Option.some.inj ht
    rfl

theorem first (h : Covers ts s) : ∃ t ∈ ts, s.position = t.span.position :=
  ⟨_, List.head_mem h.ne_nil, h.start _ (List.head?_eq_some_head h.ne_nil)⟩

theorem last (h : Covers ts s) : ∃ t ∈ ts, s.stop = t.span.stop :=
  ⟨_, List.getLast_mem h.ne_nil, h.stop _ (List.getLast?_eq_some_getLast h.ne_nil)⟩

theorem start_le (h : Covers ts s) (hl : Laid file ts) {t : Token} (ht : t ∈ ts) :
    s.start ≤ t.span.start := by
  obtain ⟨first, more, rfl⟩ := List.exists_cons_of_ne_nil h.ne_nil
  have hstart : s.start = first.span.start := congrArg Position.offset (h.start first rfl)
  rcases List.mem_cons.mp ht with rfl | ht
  · omega
  · have hfirst := (List.pairwise_cons.mp hl.apart).1 t ht
    have hfilled := hl.filled first (by simp)
    omega

theorem le_stop (h : Covers ts s) (hl : Laid file ts) {t : Token} (ht : t ∈ ts) :
    t.span.stop ≤ s.stop := by
  have hstop := h.stop _ (List.getLast?_eq_some_getLast h.ne_nil)
  have hfilled := hl.filled _ (List.getLast_mem h.ne_nil)
  have hapart := hl.apart
  rw [← List.dropLast_append_getLast h.ne_nil] at ht hapart
  rcases List.mem_append.mp ht with ht | ht
  · have hlast := (List.pairwise_append.mp hapart).2.2 t ht _ (List.mem_singleton_self _)
    omega
  · obtain rfl := List.mem_singleton.mp ht
    exact Nat.le_of_eq hstop.symm

theorem file_eq (h : Covers ts s) (hl : Laid file ts) : s.file = file := by
  obtain ⟨t, ht, hposition⟩ := h.first
  exact (congrArg Position.file hposition).trans (hl.file t ht)

/-- Tokens that are among others cover no more than these. -/
theorem inside (hus : Covers us s) (hts : Covers ts u) (hsub : us.Sublist ts)
    (hl : Laid file ts) : s.Inside u := by
  have hlus := hl.sublist hsub
  obtain ⟨t, ht, hposition⟩ := hus.first
  have hstart : s.start = t.span.start := congrArg Position.offset hposition
  obtain ⟨v, hv, hstop⟩ := hus.last
  have hfilled := hl.filled t (hsub.mem ht)
  have hlong := hus.le_stop hlus ht
  refine ⟨(hus.file_eq hlus).trans (hts.file_eq hl).symm, by omega, ?_, ?_⟩
  · rw [hstart]
    exact hts.start_le hl (hsub.mem ht)
  · rw [hstop]
    exact hts.le_stop hl (hsub.mem hv)

theorem contains (h : Covers ts s) (hl : Laid file ts) {t : Token} (ht : t ∈ ts) :
    s.Contains t.span.position := by
  exact ⟨(hl.file t ht).trans (h.file_eq hl).symm, h.start_le hl ht,
    Nat.lt_of_lt_of_le (hl.filled t ht) (h.le_stop hl ht)⟩

/-- Forms that stand one behind the other do not overlap. -/
theorem apart {parts : List (List Token × Span)} (h : ∀ p ∈ parts, Covers p.1 p.2)
    (hl : Laid file (parts.flatMap Prod.fst)) :
    (parts.map Prod.snd).Pairwise fun s t => s.stop ≤ t.start := by
  induction parts with
  | nil => exact .nil
  | cons p parts ih =>
    obtain ⟨hp, hparts⟩ := List.forall_mem_cons.mp h
    rw [List.flatMap_cons] at hl
    obtain ⟨_, _, hacross⟩ := List.pairwise_append.mp hl.apart
    rw [List.map_cons, List.pairwise_cons]
    refine ⟨fun s hs => ?_, ih hparts hl.right⟩
    obtain ⟨q, hq, rfl⟩ := List.mem_map.mp hs
    obtain ⟨t, ht, hstop⟩ := hp.last
    obtain ⟨u, hu, hstart⟩ := (hparts q hq).first
    rw [hstop, show q.2.start = u.span.start from congrArg Position.offset hstart]
    exact hacross t ht u (List.mem_flatMap.mpr ⟨q, hq, hu⟩)

end Covers

theorem DerivesVersion.covers {ts : List Token} {v : Version} (h : DerivesVersion ts v) :
    Covers ts v.span := by
  cases h with
  | @mk left keyword less number greater right =>
    exact .ends left right [keyword, less, number, greater]

theorem DerivesNetwork.covers {ts : List Token} {n : Network} (h : DerivesNetwork ts n) :
    Covers ts n.span := by
  cases h with
  | @mk left keyword name right parts =>
    exact .ends left right (keyword :: name :: parts.flatMap Prod.fst)

theorem DerivesAssertion.covers {ts : List Token} {a : Assertion} (h : DerivesAssertion ts a) :
    Covers ts a.span := by
  cases h with
  | @mk left keyword right ts => exact .ends left right (keyword :: ts)

theorem DerivesItem.covers {ts : List Token} {i : Network.Item} (h : DerivesItem ts i) :
    Covers ts i.span := by
  cases h with
  | relation hr =>
    cases hr with
    | @mk left keyword target right => exact .ends left right [keyword, target]
  | tensor role hd =>
    cases hd with
    | @mk left keyword name type squareL squareR right _ dims node =>
      have hends := Covers.ends left right
        (keyword :: name :: type :: squareL :: (dims ++ squareR :: node))
      simp only [List.cons_append, List.append_assoc] at hends
      exact hends

theorem DerivesNetwork.item_position {ts : List Token} {n : Network} (h : DerivesNetwork ts n)
    {i : Network.Item} (hi : i ∈ n.items) : ∃ t ∈ ts, i.span.position = t.span.position := by
  cases h with
  | @mk left keyword name right parts _ _ _ hparts _ =>
    have hperm := (Network.items_perm _).trans (Network.grouped_ofItems_perm name.value
      (parts.map Prod.snd) (left.span.upTo right.span))
    obtain ⟨p, hp, rfl⟩ := List.mem_map.mp (hperm.mem_iff.mp hi)
    obtain ⟨t, ht, hpos⟩ := (hparts p hp).position
    have := List.mem_flatMap.mpr ⟨p, hp, ht⟩
    exact ⟨t, by simp [this], hpos⟩

theorem Applies.operands {s : Span} {k : Token.Kind} {es : List Expr} {e : Expr}
    (h : Applies s k es e) : e.operands = es ∧ e.span = s := by
  cases h <;> exact ⟨rfl, rfl⟩

/-- An operand is derived from tokens that stand side by side. -/
theorem DerivesExpr.operands {ts : List Token} {e f : Expr} (h : DerivesExpr ts e)
    (hf : f ∈ e.operands) : ∃ us, us <:+: ts ∧ DerivesExpr us f := by
  cases h with
  | name _ => cases hf
  | indexed _ _ _ _ => cases hf
  | integer _ _ => cases hf
  | fractional _ _ => cases hf
  | @compound left op right _ parts _ hparts _ happ =>
    rw [happ.operands.1] at hf
    obtain ⟨p, hp, rfl⟩ := List.mem_map.mp hf
    exact ⟨p.1, (infix_of_part hp).trans ⟨[left, op], [right], by simp⟩, hparts p hp⟩

theorem DerivesExpr.within {ts : List Token} {e f : Expr} (h : DerivesExpr ts e)
    (hf : f.Within e) : ∃ us, us <:+: ts ∧ DerivesExpr us f := by
  induction hf generalizing ts with
  | refl => exact ⟨ts, List.infix_refl ts, h⟩
  | operand hg _ ih =>
    obtain ⟨us, hus, hderives⟩ := h.operands hg
    obtain ⟨vs, hvs, hderives'⟩ := ih hderives
    exact ⟨vs, hvs.trans hus, hderives'⟩

theorem DerivesExpr.covers {ts : List Token} {e : Expr} (h : DerivesExpr ts e) :
    Covers ts e.span := by
  cases h with
  | name _ => exact .single _
  | @indexed t left right ts => exact .ends t right (left :: ts)
  | integer _ _ => exact .single _
  | fractional _ _ => exact .single _
  | @compound left op right _ parts _ _ _ happ =>
    rw [happ.operands.2]
    exact .ends left right (op :: parts.flatMap Prod.fst)

/-- Every expression inside a condition starts where a token does. -/
theorem DerivesExpr.position {ts : List Token} {e f : Expr} (h : DerivesExpr ts e)
    (hf : f.Within e) : ∃ t ∈ ts, f.span.position = t.span.position := by
  obtain ⟨us, hus, hderives⟩ := h.within hf
  obtain ⟨t, ht, hpos⟩ := hderives.covers.first
  exact ⟨t, hus.subset ht, hpos⟩

end NeuralQuery
