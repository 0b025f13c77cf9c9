import NeuralQuery.Proofs.Reading
import NeuralQuery.Proofs.Unplaced
import NeuralQuery.Proofs.WellTyped
import NeuralQuery.Typed.Query

/-!
# NeuralQuery.Proofs.Written

A query that was read from a text can be written out and read again. What is read the second time
is the same query in other places (`DerivesQuery.reads`): the forms of each network come in the
order relations, inputs, hidden, outputs, empty brackets behind a name are left out, and the
version is given in its shortest form.
-/

namespace NeuralQuery

open Token

/-! ## Names -/

namespace Token

/-- A name is read back as a name. -/
theorem IsLexeme.lexes_name {t : Token} (h : t.IsLexeme) (hk : t.kind = .identifier) :
    Lexes Fenced t.value .identifier t.value := by
  rcases h.sorts with ⟨hn, _⟩ | hs | ⟨hw, hword⟩ | hm
  · cases hk.symm.trans hn
  · cases hk.symm.trans hs
  · rw [← hk, hw]
    exact lexes_word hword
  · simp [hk, Kind.marks] at hm

end Token

/-- The name of an element type is no reserved word. -/
theorem ElementType.lexes_name (t : ElementType) : Lexes Fenced t.name .identifier t.name := by
  have hname : Kind.ofWord t.name = .identifier := by cases t <;> decide
  have hall : t.name.toList ≠ [] ∧ (t.name.toList.take 1).all Shape.isWordStart = true ∧
      (t.name.toList.drop 1).all Shape.isWordRest = true := by cases t <;> decide
  obtain ⟨hne, hstart, hrest⟩ := hall
  exact hname ▸ lexes_word (.of_all hne hstart hrest)

/-! ## The same again -/

/-- The row is one of something that equals `a` when seen through `f`. -/
def Again {α β : Type} (D : List Token → α → Prop) (f : α → β) (a : α) (row : List Token) : Prop :=
  ∃ b, D row b ∧ f b = f a

section
variable {α β : Type} {D : List Token → α → Prop} {f : α → β} {as : List α}

theorem reads_all {text : α → String} (h : ∀ a ∈ as, Reads Fenced (text a) (Again D f a)) :
    List.Forall₂ (Reads Fenced) (as.map text) (as.map (Again D f)) := by
  rw [List.forall₂_map_left_iff, List.forall₂_map_right_iff]
  exact List.forall₂_same.mpr h

theorem exists_parts {rows : List (List Token)}
    (h : List.Forall₂ (fun P ts => P ts) (as.map (Again D f)) rows) :
    ∃ parts : List (List Token × α), (∀ p ∈ parts, D p.1 p.2) ∧
      rows.flatten = parts.flatMap Prod.fst ∧ (parts.map Prod.snd).map f = as.map f := by
  induction as generalizing rows with
  | nil =>
    cases h
    exact ⟨[], by simp, rfl, rfl⟩
  | cons a as ih =>
    cases h with
    | @cons _ ts _ rows ha has =>
      obtain ⟨b, hb, hf⟩ := ha
      obtain ⟨parts, hparts, hrows, hmap⟩ := ih has
      exact ⟨(ts, b) :: parts, List.forall_mem_cons.mpr ⟨hb, hparts⟩, by simp [hrows],
        by simp [hf, hmap]⟩

end

/-! ## Expressions -/

theorem Applies.text {s : Span} {k : Kind} {es : List Expr} {e : Expr} (h : Applies s k es e) :
    ∃ head, e.text = Text.form head (es.map Expr.text) ∧ Lexes Fenced head k head := by
  cases h with
  | aggregate op _ =>
    refine ⟨op.symbol, by rw [Expr.text, Expr.texts_eq_map], ?_⟩
    cases op with
    | sum => exact lexes_mark (m := ("+", .plus)) (by decide)
    | product => exact lexes_mark (m := ("*", .star)) (by decide)
  | negate e => exact ⟨"-", rfl, lexes_mark (m := ("-", .dash)) (by decide)⟩
  | minus h _ =>
    exact ⟨"-", by rw [Expr.text, Expr.texts_eq_map]; rfl,
      lexes_mark (m := ("-", .dash)) (by decide)⟩
  | compare op l r =>
    refine ⟨op.symbol, rfl, ?_⟩
    cases op with
    | greater => exact lexes_mark (m := (">", .greater)) (by decide)
    | less => exact lexes_mark (m := ("<", .less)) (by decide)
    | greaterEqual => exact lexes_mark (m := (">=", .greaterEquals)) (by decide)
    | lessEqual => exact lexes_mark (m := ("<=", .lessEquals)) (by decide)
    | equal => exact lexes_mark (m := ("==", .equals)) (by decide)
    | notEqual => exact lexes_mark (m := ("!=", .notEquals)) (by decide)
  | connective op _ =>
    refine ⟨op.symbol, by rw [Expr.text, Expr.texts_eq_map], ?_⟩
    cases op with
    | and => exact lexes_reserved (m := ("and", .and)) (by decide)
    | or => exact lexes_reserved (m := ("or", .or)) (by decide)

/-- An operator over the same operands gives the same form. -/
theorem Applies.again {s : Span} {k : Kind} {es es' : List Expr} {e : Expr}
    (h : Applies s k es e) (he : es'.map Expr.unplaced = es.map Expr.unplaced) (s' : Span) :
    ∃ e', Applies s' k es' e' ∧ e'.unplaced = e.unplaced := by
  have hne : es' ≠ [] := by
    rintro rfl
    exact h.ne_nil (List.map_eq_nil_iff.mp he.symm)
  cases h with
  | aggregate op _ =>
    exact ⟨_, .aggregate op hne, by simp [Expr.unplaced, Expr.unplacedAll_eq_map, he]⟩
  | negate e =>
    obtain ⟨e', rfl, hsame⟩ := List.map_eq_singleton_iff.mp he
    exact ⟨_, .negate e', by simp [Expr.unplaced, hsame]⟩
  | @minus r h hr =>
    obtain ⟨h', r', rfl, hh, hr'⟩ := List.map_eq_cons_iff.mp he
    have hr' : r'.map Expr.unplaced = r.map Expr.unplaced := hr'
    have hne' : r' ≠ [] := by
      rintro rfl
      exact hr (List.map_eq_nil_iff.mp hr'.symm)
    exact ⟨_, .minus h' hne', by simp [Expr.unplaced, Expr.unplacedAll_eq_map, hh, hr']⟩
  | compare op l r =>
    obtain ⟨l', rest, rfl, hl, hrest⟩ := List.map_eq_cons_iff.mp he
    obtain ⟨r', rfl, hr⟩ := List.map_eq_singleton_iff.mp hrest
    exact ⟨_, .compare op l' r', by simp [Expr.unplaced, hl, hr]⟩
  | connective op _ =>
    exact ⟨_, .connective op hne, by simp [Expr.unplaced, Expr.unplacedAll_eq_map, he]⟩

theorem DerivesExpr.reads {ts : List Token} {e : Expr} (h : DerivesExpr ts e) :
    (∀ t ∈ ts, t.IsLexeme) → Reads Fenced e.text (Again DerivesExpr Expr.unplaced e) := by
  induction h with
  | @name t hk =>
    intro hl
    have hname := ((hl t (by simp)).lexes_name hk).reads
    have htext : (Expr.var t.value [] t.span).text = t.value := by
      simp [Expr.text, Text.subscript]
    rw [htext]
    refine hname.imp ?_
    rintro _ ⟨span, rfl⟩
    exact ⟨_, .name rfl, rfl⟩
  | @indexed t left right ts is hk _ _ _ =>
    intro hl
    have hname := ((hl t (by simp)).lexes_name hk).reads
    by_cases his : is = []
    · subst his
      have htext : (Expr.var t.value [] (t.span.upTo right.span)).text = t.value := by
        simp [Expr.text, Text.subscript]
      rw [htext]
      refine hname.imp ?_
      rintro _ ⟨span, rfl⟩
      exact ⟨_, .name rfl, rfl⟩
    · have htext : (Expr.var t.value is (t.span.upTo right.span)).text =
          t.value ++ Text.bracketed is := by
        simp [Expr.text, Text.subscript, his]
      rw [htext]
      have hboth := hname.append (reads_bracketed is) fun rest _ => bracketed_fenced is rest
      refine (hboth.imp ?_).before fun _ _ => trivial
      rintro _ ⟨_, _, rfl, ⟨span, rfl⟩, ⟨hleft, hrow, hright⟩⟩
      exact ⟨_, .indexed rfl hleft hrow hright, rfl⟩
  | @integer t i hf hi =>
    intro hl
    refine (lexes_number ((hl t (by simp)).numberText hi.kind)).reads.imp ?_
    rintro _ ⟨span, rfl⟩
    exact ⟨_, .integer hf ⟨rfl, hi.spells⟩, rfl⟩
  | @fractional t hf hk =>
    intro hl
    refine (lexes_number ((hl t (by simp)).numberText hk)).reads.imp ?_
    rintro _ ⟨span, rfl⟩
    exact ⟨_, .fractional hf rfl, rfl⟩
  | @compound left op right e parts _ _ _ happ ih =>
    intro hl
    have hparts : ∀ f ∈ parts.map Prod.snd,
        Reads Fenced f.text (Again DerivesExpr Expr.unplaced f) := by
      intro f hf
      obtain ⟨p, hp, rfl⟩ := List.mem_map.mp hf
      refine ih p hp fun t ht => hl t ?_
      have hmem := List.mem_flatMap.mpr ⟨p, hp, ht⟩
      simp [hmem]
    obtain ⟨head, htext, hhead⟩ := happ.text
    rw [htext]
    refine ((reads_form hhead (reads_all hparts)).imp ?_).before fun _ _ => trivial
    rintro _ ⟨hleft, hop, hrows, hright⟩
    obtain ⟨parts', hderives, hflat, hsame⟩ := exists_parts hrows
    obtain ⟨e', happ', he'⟩ := happ.again hsame _
    rw [hflat]
    exact ⟨e', .compound parts' hleft hderives hright (hop ▸ happ'), he'⟩

/-! ## Networks -/

namespace Network

/-- The text of a form inside a network. That of a tensor depends neither on the number of its
symbol nor on its network. -/
def Item.text : Item → String
  | .relation r => Text.form r.kind.keyword [r.target]
  | .tensor role d =>
    (Typed.Definition.ofSymbol ⟨0⟩ (.ofDeclaration d (.tensor role) "") d.span).text

/-- The text of a network, with each of its forms on an indented line. -/
def text (n : Network) : String :=
  "(declare-network " ++ n.name ++ Text.led "\n  " (n.grouped.map Item.text) ++ ")"

end Network

/-- The name of the node can be written so that it is read back. -/
def Declaration.Survives (d : Declaration) : Prop :=
  ∀ name ∈ d.onnxName, ∀ c ∈ name.toList, Text.Survives c

theorem DerivesRelation.reads {ts : List Token} {r : Relation} (h : DerivesRelation ts r)
    (hl : ∀ t ∈ ts, t.IsLexeme) :
    Reads Anything (Network.Item.relation r).text
      (Again DerivesItem Network.Item.unplaced (.relation r)) := by
  cases h with
  | @mk left keyword target right kind _ _ hk _ =>
    have hkeyword : (kind.keyword, kind.token) ∈ Kind.reserved := by cases kind <;> decide
    have hname := ((hl target (by simp)).lexes_name hk).reads
    refine (reads_form (lexes_reserved hkeyword) (.cons hname .nil)).imp ?_
    rintro _ ⟨hleft, hhead, hrows, hright⟩
    simp only [List.forall₂_cons_left_iff, List.forall₂_nil_left_iff] at hrows
    obtain ⟨_, _, ⟨span, rfl⟩, rfl, rfl⟩ := hrows
    exact ⟨_, .relation (.mk hleft hhead rfl hright), rfl⟩

theorem Role.keyword_reserved (role : Role) {d : Typed.Definition} (h : d.kind = .tensor role) :
    (d.keyword, role.token) ∈ Kind.reserved := by
  cases role <;> simp [Typed.Definition.keyword, h, Role.token, Kind.reserved]

theorem DerivesTensor.of_texts {role : Role} {left keyword squareL squareR right : Token}
    {dims node : List Token} {shape : List Int64} {onnxName : Option String} (name : String)
    (t : ElementType) (a b : Span) (hleft : left.kind = .openParen)
    (hkeyword : keyword.kind = role.token) (hopen : squareL.kind = .openBracket)
    (hrow : DerivesRow dims shape) (hclose : squareR.kind = .closeBracket)
    (hnode : DerivesNode role node onnxName) (hright : right.kind = .closeParen) :
    DerivesTensor role
      (left :: keyword :: ⟨.identifier, name, a⟩ :: ⟨.identifier, t.name, b⟩ :: squareL ::
        (dims ++ squareR :: (node ++ [right])))
      ⟨name, .element t, shape, onnxName, left.span.upTo right.span⟩ :=
  .mk hleft hkeyword rfl rfl rfl hopen hrow hclose hnode hright

theorem DerivesTensor.reads {role : Role} {ts : List Token} {d : Declaration}
    (h : DerivesTensor role ts d) (hl : ∀ t ∈ ts, t.IsLexeme) (hs : d.Survives) :
    Reads Anything (Network.Item.tensor role d).text
      (Again DerivesItem Network.Item.unplaced (.tensor role d)) := by
  cases h with
  | @mk left keyword name type squareL squareR right t dims node shape onnxName
      _ _ hk _ _ _ _ _ hnode _ =>
    have hhead := lexes_reserved (role.keyword_reserved
      (d := .ofSymbol ⟨0⟩ (.ofDeclaration ⟨name.value, .element t, shape, onnxName,
        left.span.upTo right.span⟩ (.tensor role) "") (left.span.upTo right.span)) rfl)
    have hname := ((hl name (by simp)).lexes_name hk).reads
    have htype := t.lexes_name.reads
    have hshape := (reads_bracketed shape).before
      fun (rest : List Char) (_ : Fenced rest) => trivial
    cases hnode with
    | absent hrole =>
      refine (reads_form hhead (.cons hname (.cons htype (.cons hshape .nil)))).imp ?_
      rintro _ ⟨hleft, hhead, hrows, hright⟩
      simp only [List.forall₂_cons_left_iff, List.forall₂_nil_left_iff] at hrows
      obtain ⟨_, _, ⟨a, rfl⟩, ⟨_, _, ⟨b, rfl⟩, ⟨_, _, ⟨hopen, hrow, hclose⟩, rfl, rfl⟩, rfl⟩,
        rfl⟩ := hrows
      have hderives := DerivesTensor.of_texts name.value t a b hleft hhead hopen hrow hclose
        (.absent hrole) hright
      simp only [List.flatten_cons, List.flatten_nil, List.cons_append, List.nil_append,
        List.append_assoc]
      exact ⟨_, .tensor role hderives, rfl⟩
    | @named node hnode =>
      have hquote := (lexes_surviving (hs node.value rfl)).reads.before
        fun (rest : List Char) (_ : Fenced rest) => trivial
      refine (reads_form hhead
        (.cons hname (.cons htype (.cons hshape (.cons hquote .nil))))).imp ?_
      rintro _ ⟨hleft, hhead, hrows, hright⟩
      simp only [List.forall₂_cons_left_iff, List.forall₂_nil_left_iff] at hrows
      obtain ⟨_, _, ⟨a, rfl⟩, ⟨_, _, ⟨b, rfl⟩, ⟨_, _, ⟨hopen, hrow, hclose⟩,
        ⟨_, _, ⟨c, rfl⟩, rfl, rfl⟩, rfl⟩, rfl⟩, rfl⟩ := hrows
      have hnode : DerivesNode role [⟨.string, node.value, c⟩] (some node.value) := .named rfl
      have hderives := DerivesTensor.of_texts name.value t a b hleft hhead hopen hrow hclose
        hnode hright
      simp only [List.flatten_cons, List.flatten_nil, List.cons_append, List.nil_append,
        List.append_assoc]
      exact ⟨_, .tensor role hderives, rfl⟩

theorem DerivesNetwork.reads {ts : List Token} {n : Network} (h : DerivesNetwork ts n)
    (hl : ∀ t ∈ ts, t.IsLexeme) (hs : ∀ d ∈ n.declarations, d.Survives) :
    Reads Fenced n.text (Again DerivesNetwork Network.unplaced n) := by
  have hitems : ∀ i ∈ n.grouped,
      Reads Fenced i.text (Again DerivesItem Network.Item.unplaced i) := by
    cases h with
    | @mk left keyword name right parts _ _ _ hparts _ =>
      intro i hi
      obtain ⟨⟨us, j⟩, hp, rfl⟩ := List.mem_map.mp
        ((Network.grouped_ofItems_perm ..).mem_iff.mp hi)
      have hlp : ∀ t ∈ us, t.IsLexeme := by
        intro t ht
        have hmem : t ∈ parts.flatMap Prod.fst := List.mem_flatMap.mpr ⟨(us, j), hp, ht⟩
        exact hl t (by simp [hmem])
      refine Reads.before ?_ fun _ _ => trivial
      have hitem : DerivesItem us j := hparts _ hp
      cases hitem with
      | relation hr => exact hr.reads hlp
      | @tensor d role hd =>
        refine hd.reads hlp (hs d ?_)
        have hmem := hi
        cases role <;> simp [Network.grouped] at hmem <;> simp [Network.declarations, hmem]
  have hname : Reads Fenced n.name (IsToken .identifier n.name) := by
    cases h with
    | @mk left keyword name right parts _ _ hk _ _ =>
      exact ((hl name (by simp)).lexes_name hk).reads
  have hlead : IsLead "\n  " := ⟨by decide, by decide⟩
  have hblank : IsLead " " := ⟨by decide, by decide⟩
  have hkeyword := (lexes_reserved (m := ("declare-network", .declareNetwork)) (by decide)).reads
  have hforms := hname.append (reads_led hlead (reads_all hitems)) fun _ hr => led_fenced hlead _ hr
  have hrest := hkeyword.append (hblank.reads.append hforms fun _ _ => trivial)
    fun _ _ => by rw [String.toList_append, List.append_assoc]; exact hblank.fenced _
  have hwhole := (reads_open.append hrest fun _ _ => trivial).append reads_close
    fun _ _ => fenced_cons (by decide)
  have htext : n.text = "(" ++ ("declare-network" ++ (" " ++ (n.name ++
      Text.led "\n  " (n.grouped.map Network.Item.text)))) ++ ")" := by
    have hopen : "(declare-network " = "(" ++ ("declare-network" ++ " ") := rfl
    unfold Network.text
    rw [hopen]
    simp only [String.append_assoc]
  rw [htext]
  refine (hwhole.imp ?_).before fun _ _ => trivial
  rintro _ ⟨_, _, rfl, ⟨_, _, rfl, ⟨a, rfl⟩, _, _, rfl, ⟨b, rfl⟩, _, _, rfl, rfl, _, _, rfl,
    ⟨c, rfl⟩, rows, rfl, hrows⟩, d, rfl⟩
  obtain ⟨parts, hparts, hflat, hsame⟩ := exists_parts hrows
  have hunplaced :
      (Network.ofItems n.name (parts.map Prod.snd) (a.upTo d)).unplaced = n.unplaced := by
    rw [Network.ofItems_unplaced, hsame, ← Network.ofItems_unplaced _ _ n.span,
      Network.ofItems_grouped]
  refine ⟨_, ?_, hunplaced⟩
  rw [hflat]
  exact @DerivesNetwork.mk ⟨.openParen, "(", a⟩ ⟨.declareNetwork, "declare-network", b⟩
    ⟨.identifier, n.name, c⟩ ⟨.closeParen, ")", d⟩ parts rfl rfl rfl hparts rfl

/-! ## Queries -/

def Assertion.text (a : Assertion) : String :=
  Text.form "assert" [a.condition.text]

theorem DerivesAssertion.reads {ts : List Token} {a : Assertion} (h : DerivesAssertion ts a)
    (hl : ∀ t ∈ ts, t.IsLexeme) :
    Reads Fenced a.text (Again DerivesAssertion Assertion.unplaced a) := by
  cases h with
  | @mk left keyword right us e _ _ hexpr hdepth _ =>
    have hhead := lexes_reserved (m := ("assert", .assert)) (by decide)
    have hcondition := hexpr.reads fun t ht => hl t (by simp [ht])
    refine ((reads_form hhead (.cons hcondition .nil)).imp ?_).before fun _ _ => trivial
    rintro _ ⟨hleft, hhead, hrows, hright⟩
    simp only [List.forall₂_cons_left_iff, List.forall₂_nil_left_iff] at hrows
    obtain ⟨vs, _, ⟨e', hexpr', hsame⟩, rfl, rfl⟩ := hrows
    have hdepth' : e'.depth ≤ maxNesting := by
      rw [← e'.depth_unplaced, hsame, e.depth_unplaced]
      exact hdepth
    have hderives := DerivesAssertion.mk hleft hhead hexpr' hdepth' hright
    simp only [List.flatten_cons, List.flatten_nil, List.append_nil]
    exact ⟨_, hderives, by simp [Assertion.unplaced, hsame]⟩

/-- A version in its shortest form. -/
def versionLexeme (major minor : UInt32) : String :=
  major.toNat.repr ++ "." ++ minor.toNat.repr

theorem reads_less : Reads (fun rest => ∃ d ∈ rest.head?, d.isDigit = true) "<"
    (IsToken .less "<") := by
  refine Lexes.reads fun rest hr => ?_
  obtain ⟨d, hd, hdigit⟩ := hr
  have hstops : Stops (· == '=') rest := by
    intro c hc
    obtain rfl : d = c := Option.mem_unique hd hc
    simp only [beq_eq_false_iff_ne]
    rintro rfl
    cases hdigit
  exact ⟨_, Shape.first?_less hstops, fun span => rfl⟩

theorem reads_version (major minor : UInt32) (s : Span) :
    Reads Fenced (Typed.Version.mk major minor s).text
      (fun row => ∃ v, DerivesVersion row v ∧ v.lexeme = versionLexeme major minor) := by
  have hblank : IsLead " " := ⟨by decide, by decide⟩
  have hkeyword := (lexes_reserved (m := ("vnnlib-version", .version)) (by decide)).reads
  have hgreater := (lexes_mark (m := (">", .greater)) (by decide)).reads
  have hnumber : IsNumberText (versionLexeme major minor).toList := by
    have := IsNumberText.mk (.inl rfl) (repr_isDigits major.toNat)
      (.digits (repr_isDigits minor.toNat)) .absent
    simpa [versionLexeme] using this
  have hdigit : ∀ rest, ∃ d ∈ ((versionLexeme major minor ++ ">").toList ++ rest).head?,
      d.isDigit = true := by
    intro rest
    obtain ⟨hne, hall⟩ := repr_isDigits major.toNat
    obtain ⟨d, ds, hd⟩ := List.exists_cons_of_ne_nil hne
    exact ⟨d, by simp [versionLexeme, hd], hall d (by simp [hd])⟩
  have hvalue := (lexes_number hnumber).reads.append hgreater fun _ _ => fenced_cons (by decide)
  have hangle := reads_less.append hvalue fun rest _ => hdigit rest
  have hinner := hkeyword.append (hblank.reads.append hangle fun _ _ => trivial)
    fun _ _ => by rw [String.toList_append, List.append_assoc]; exact hblank.fenced _
  have hwhole := (reads_open.append hinner fun _ _ => trivial).append reads_close
    fun _ _ => fenced_cons (by decide)
  have htext : (Typed.Version.mk major minor s).text = "(" ++ ("vnnlib-version" ++ (" " ++
      ("<" ++ (versionLexeme major minor ++ ">")))) ++ ")" := by
    have hopen : "(vnnlib-version <" = "(" ++ ("vnnlib-version" ++ (" " ++ "<")) := rfl
    have hclose : ">)" = ">" ++ ")" := rfl
    unfold Typed.Version.text versionLexeme
    rw [hopen, hclose]
    simp only [String.append_assoc]
  rw [htext]
  refine (hwhole.imp ?_).before fun _ _ => trivial
  rintro _ ⟨_, _, rfl, ⟨_, _, rfl, ⟨a, rfl⟩, _, _, rfl, ⟨b, rfl⟩, _, _, rfl, rfl, _, _, rfl,
    ⟨c, rfl⟩, _, _, rfl, ⟨d, rfl⟩, ⟨e, rfl⟩⟩, f, rfl⟩
  exact ⟨_, .mk rfl rfl rfl rfl rfl rfl, rfl⟩

namespace Query

/-- The text of a query of this version: the version, then networks and assertions, each on a new
line. -/
def text (q : Query) (major minor : UInt32) : String :=
  (Typed.Version.mk major minor q.version.span).text ++
    Text.led "\n" (q.networks.map Network.text) ++ Text.led "\n" (q.assertions.map Assertion.text)

/-- The same networks and assertions in other places. -/
structure Alike (q q' : Query) : Prop where
  networks : q'.networks.map Network.unplaced = q.networks.map Network.unplaced
  assertions : q'.assertions.map Assertion.unplaced = q.assertions.map Assertion.unplaced

end Query

theorem DerivesQuery.reads {file : String} {ending : Token} {ts : List Token} {q : Query}
    (h : DerivesQuery file ending ts q) (hl : ∀ t ∈ ts, t.IsLexeme)
    (hs : ∀ n ∈ q.networks, ∀ d ∈ n.declarations, d.Survives) (major minor : UInt32) :
    Reads Fenced (q.text major minor) (fun row => ∀ file ending, ∃ q',
      DerivesQuery file ending row q' ∧ q'.version.lexeme = versionLexeme major minor ∧
        q.Alike q') := by
  cases h with
  | @mk us v networks assertions hversion hnetworks hassertions =>
    have hlead : IsLead "\n" := ⟨by decide, by decide⟩
    have hn : ∀ n ∈ networks.map Prod.snd,
        Reads Fenced n.text (Again DerivesNetwork Network.unplaced n) := by
      intro n hn
      obtain ⟨p, hp, rfl⟩ := List.mem_map.mp hn
      refine (hnetworks p hp).reads (fun t ht => hl t ?_) (hs p.2 hn)
      have hmem := List.mem_flatMap.mpr ⟨p, hp, ht⟩
      simp [hmem]
    have ha : ∀ a ∈ assertions.map Prod.snd,
        Reads Fenced a.text (Again DerivesAssertion Assertion.unplaced a) := by
      intro a ha
      obtain ⟨p, hp, rfl⟩ := List.mem_map.mp ha
      refine (hassertions p hp).reads fun t ht => hl t ?_
      have hmem := List.mem_flatMap.mpr ⟨p, hp, ht⟩
      simp [hmem]
    have hboth := (reads_version major minor v.span).append (reads_led hlead (reads_all hn))
      fun _ hr => led_fenced hlead _ hr
    refine (hboth.append (reads_led hlead (reads_all ha)) fun _ hr => led_fenced hlead _ hr).imp ?_
    rintro _ ⟨_, _, rfl, ⟨_, _, rfl, ⟨v', hversion', hlexeme⟩, rows, rfl, hrows⟩, rows', rfl,
      hrows'⟩ file ending
    obtain ⟨networks', hnetworks', hflat, hsame⟩ := exists_parts hrows
    obtain ⟨assertions', hassertions', hflat', hsame'⟩ := exists_parts hrows'
    rw [hflat, hflat', List.append_assoc]
    exact ⟨_, .mk networks' assertions' hversion' hnetworks' hassertions', hlexeme, hsame, hsame'⟩

end NeuralQuery
