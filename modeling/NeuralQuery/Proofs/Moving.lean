import NeuralQuery.Proofs.ParserComplete

/-!
# NeuralQuery.Proofs.Moving

The parser decides by kinds and values of tokens only. Places it hands on.

So whatever is done to the positions of all tokens, it does the same to the positions of what the
parser returns: `Moves f m p p'` says that `p'` does with moved tokens what `p` does with the tokens
themselves, moved by `m`. The rules for sequences and choices carry this from the steps of a cursor
to the whole parser (`Query.ofTokens_moved`).

Every position that the parser reports is one of a token (`Query.ofTokens_error`): it has to stay
where it is under every map that leaves the tokens where they are.
-/

namespace NeuralQuery

/-! ## Moved trees -/

section
variable (f : Position → Position)

/-- A span from another position on. Where it ended is lost. -/
def Span.moved (s : Span) : Span :=
  ⟨(f s.position).file, (f s.position).offset, 0⟩

def Token.moved (t : Token) : Token :=
  { t with span := t.span.moved f }

def Cursor.moved (c : Cursor) : Cursor :=
  { c with
    ahead := c.ahead.map (Token.moved f)
    ending := { c.ending with span := c.ending.span.moved f } }

def Diagnostic.moved (d : Diagnostic) : Diagnostic :=
  { d with position := f d.position }

mutual

def Expr.moved : Expr → Expr
  | .var name indices s => .var name indices (s.moved f)
  | .int lexeme value s => .int lexeme value (s.moved f)
  | .float lexeme value s => .float lexeme value (s.moved f)
  | .negate e s => .negate e.moved (s.moved f)
  | .aggregate op es s => .aggregate op (Expr.movedAll es) (s.moved f)
  | .minus h r s => .minus h.moved (Expr.movedAll r) (s.moved f)
  | .compare op l r s => .compare op l.moved r.moved (s.moved f)
  | .connective op es s => .connective op (Expr.movedAll es) (s.moved f)

def Expr.movedAll : List Expr → List Expr
  | [] => []
  | e :: es => e.moved :: Expr.movedAll es

end

def Version.moved (v : Version) : Version :=
  { v with span := v.span.moved f }

def Relation.moved (r : Relation) : Relation :=
  { r with span := r.span.moved f }

def Declaration.moved (d : Declaration) : Declaration :=
  { d with span := d.span.moved f }

def Network.Item.moved : Network.Item → Network.Item
  | .relation r => .relation (r.moved f)
  | .tensor role d => .tensor role (d.moved f)

/-- The network with its forms moved, in its own place. -/
def Network.movedForms (n : Network) : Network where
  name := n.name
  relations := n.relations.map (Relation.moved f)
  inputs := n.inputs.map (Declaration.moved f)
  hidden := n.hidden.map (Declaration.moved f)
  outputs := n.outputs.map (Declaration.moved f)
  span := n.span

def Network.moved (n : Network) : Network :=
  { n.movedForms f with span := n.span.moved f }

def Assertion.moved (a : Assertion) : Assertion :=
  ⟨a.condition.moved f, a.span.moved f⟩

def Statement.moved : Statement → Statement
  | .version v => .version (v.moved f)
  | .network n => .network (n.moved f)
  | .assertion a => .assertion (a.moved f)

theorem Expr.movedAll_eq_map (es : List Expr) : Expr.movedAll f es = es.map (Expr.moved f) := by
  induction es with
  | nil => rfl
  | cons e es ih => rw [movedAll, ih, List.map_cons]

theorem Network.movedForms_add (n : Network) (i : Network.Item) :
    (n.add i).movedForms f = (n.movedForms f).add (i.moved f) := by
  cases i with
  | relation r => simp [add, movedForms, Item.moved]
  | tensor role d => cases role <;> simp [add, movedForms, Item.moved]

end

/-! ## Cursors -/

namespace Cursor

variable (f : Position → Position) (c : Cursor)

@[simp] theorem current_moved : (c.moved f).current = c.current.moved f := by
  cases h : c.ahead <;> simp [moved, current, h, Ending.token, Token.moved]

@[simp] theorem kind_moved : (c.moved f).kind = c.kind := by
  simp [kind, Token.moved]

@[simp] theorem position_moved : (c.moved f).position = f c.position := by
  simp [position, Token.moved, Span.moved, Span.position]

@[simp] theorem hasTokens_moved : (c.moved f).hasTokens = c.hasTokens := by
  simp [hasTokens]

@[simp] theorem peek_moved (n : Nat) : (c.moved f).peek n = c.peek n := by
  cases h : c.ahead[n]? <;> simp [moved, peek, h, Token.moved]

@[simp] theorem advance_moved : (c.moved f).advance = c.advance.moved f := by
  simp [moved, advance]

@[simp] theorem unexpected_moved : (c.moved f).unexpected = c.unexpected.moved f := by
  simp [unexpected, Diagnostic.moved, Token.moved]

@[simp] theorem complaint_moved (message : String) :
    (c.moved f).complaint message = (c.complaint message).moved f := by
  simp [complaint, Diagnostic.moved, Token.moved]

end Cursor

/-! ## Parsers -/

namespace Parser

variable {α β : Type} {f : Position → Position}

/-- The result of a parser with everything moved. -/
def movedResult (f : Position → Position) (m : α → α) :
    EStateM.Result Diagnostic Cursor α → EStateM.Result Diagnostic Cursor α
  | .ok a c => .ok (m a) (c.moved f)
  | .error d c => .error (d.moved f) (c.moved f)

/-- The second parser does with moved tokens what the first one does, moved. What it refuses, it
refuses as a fault of parsing. -/
structure Moves (f : Position → Position) (m : α → α) (p p' : Parser α) : Prop where
  run : ∀ c, p' (c.moved f) = movedResult f m (p c)
  parsing : ∀ {c d c'}, p c = .error d c' → d.fault.category = .parsing

namespace Moves

variable {m : α → α} {n : β → β}

theorem pure (a : α) : Moves f m (Pure.pure a) (Pure.pure (m a)) :=
  ⟨fun _ => rfl, fun h => nomatch h⟩

theorem throw {d : Diagnostic} (hd : d.fault.category = .parsing) :
    Moves f m (MonadExcept.throw d) (MonadExcept.throw (d.moved f)) := by
  refine ⟨fun _ => rfl, fun h => ?_⟩
  cases h
  exact hd

theorem bind {p p' : Parser α} {k k' : α → Parser β} (hp : Moves f m p p')
    (hk : ∀ a, Moves f n (k a) (k' (m a))) : Moves f n (p >>= k) (p' >>= k') := by
  constructor
  · intro c
    show EStateM.bind p' k' (c.moved f) = movedResult f n (EStateM.bind p k c)
    unfold EStateM.bind
    rw [hp.run c]
    cases p c with
    | ok a c => exact (hk a).run c
    | error d c => rfl
  · intro c d c' h
    replace h : EStateM.bind p k c = .error d c' := h
    unfold EStateM.bind at h
    split at h
    · exact (hk _).parsing h
    · rename_i hrun
      cases h
      exact hp.parsing hrun

theorem ite {b : Prop} [Decidable b] {p p' q q' : Parser α} (hp : Moves f m p p')
    (hq : Moves f m q q') : Moves f m (if b then p else q) (if b then p' else q') := by
  split
  · exact hp
  · exact hq

theorem kind : Moves f id kind Parser.kind :=
  ⟨fun c => by simp [Parser.kind, movedResult], fun h => nomatch h⟩

theorem peek (i : Nat) : Moves f id (peek i) (Parser.peek i) :=
  ⟨fun c => by simp [Parser.peek, movedResult], fun h => nomatch h⟩

theorem ahead : Moves f (List.map (Token.moved f)) ahead Parser.ahead :=
  ⟨fun _ => rfl, fun h => nomatch h⟩

theorem advance : Moves f (Token.moved f) advance Parser.advance :=
  ⟨fun c => by simp [Parser.advance, movedResult], fun h => nomatch h⟩

theorem unexpected : Moves f m unexpected Parser.unexpected := by
  refine ⟨fun c => by simp [Parser.unexpected, movedResult], fun h => ?_⟩
  cases h
  rfl

theorem complain (message : String) : Moves f m (complain message) (Parser.complain message) := by
  refine ⟨fun c => by simp [Parser.complain, movedResult], fun h => ?_⟩
  cases h
  rfl

theorem expectElse (k : Token.Kind) {d : Cursor → Diagnostic}
    (hd : ∀ c, d (c.moved f) = (d c).moved f) (hp : ∀ c, (d c).fault.category = .parsing) :
    Moves f (Token.moved f) (fun c => Parser.expectElse k (d c) c)
      (fun c => Parser.expectElse k (d c) c) := by
  constructor
  · intro c
    simp only [Parser.expectElse, Cursor.kind_moved, hd]
    split
    · exact advance.run c
    · rfl
  · intro c e c' h
    simp only [Parser.expectElse] at h
    split at h
    · cases h
    · cases h
      exact hp c

theorem expect (k : Token.Kind) : Moves f (Token.moved f) (expect k) (Parser.expect k) :=
  expectElse k (Cursor.unexpected_moved f) fun _ => rfl

theorem expectOr (k : Token.Kind) (message : String) :
    Moves f (Token.moved f) (expectOr k message) (Parser.expectOr k message) :=
  expectElse k (fun c => Cursor.complaint_moved f c message) fun _ => rfl

theorem nested {p p' : Parser α} (hp : Moves f m p p') : Moves f m (nested p) (nested p') := by
  constructor
  · intro c
    have hdepth : (c.moved f).depth = c.depth := rfl
    by_cases hfull : maxNesting ≤ c.depth
    · simp [Parser.nested, Cursor.enter, hdepth, hfull, movedResult]
    · have hinner : { c.moved f with depth := c.depth + 1 } =
          Cursor.moved f { c with depth := c.depth + 1 } := rfl
      simp only [Parser.nested, Cursor.enter, hdepth, hfull, if_false, hinner, hp.run]
      cases p { c with depth := c.depth + 1 } with
      | ok a c => rfl
      | error d c => rfl
  · intro c d c' h
    by_cases hfull : maxNesting ≤ c.depth
    · simp only [Parser.nested, Cursor.enter, hfull, if_true] at h
      cases h
      rfl
    · simp only [Parser.nested, Cursor.enter, hfull, if_false] at h
      split at h
      · cases h
      · rename_i hrun
        cases h
        exact hp.parsing hrun

end Moves

/-! ## Integers and atoms -/

theorem number_moves : Moves f (Expr.moved f) number number := by
  refine Moves.advance.bind fun t => .ite ?_ ?_
  · simp only [Token.moved]
    cases Number.binary64? t.value with
    | some value => exact .pure (Expr.float t.value value t.span)
    | none => exact .throw rfl
  · simp only [Token.moved]
    cases Number.int64? t.value with
    | some value => exact .pure (Expr.int t.value value t.span)
    | none => exact .throw rfl

theorem integer_moves : Moves f id integer integer := by
  refine (Moves.expectOr .number _).bind fun t => ?_
  simp only [Token.moved]
  cases Number.int64? t.value with
  | some value => exact .pure value
  | none => exact .ite (.throw rfl) (.throw rfl)

theorem integersWithin_moves (bound : List Token) :
    Moves f id (integersWithin bound) (integersWithin (bound.map (Token.moved f))) := by
  induction bound with
  | nil => exact integer_moves.bind fun i => .pure [i]
  | cons b bound ih =>
    refine integer_moves.bind fun i => Moves.kind.bind fun k => .ite ?_ (.pure [i])
    exact Moves.advance.bind fun _ => ih.bind fun is => .pure (i :: is)

theorem integers_moves : Moves f id integers integers :=
  Moves.kind.bind fun _ =>
    .ite (.pure []) (Moves.ahead.bind fun bound => integersWithin_moves bound)

theorem reference_moves : Moves f (Expr.moved f) reference reference := by
  refine Moves.advance.bind fun t => Moves.kind.bind fun _ => ?_
  refine .ite ?_ (.pure (Expr.var t.value [] t.span))
  refine Moves.advance.bind fun _ => integers_moves.bind fun is => ?_
  exact (Moves.expectOr .closeBracket _).bind fun close =>
    .pure (Expr.var t.value is (t.span.upTo close.span))

/-! ## Compound expressions -/

theorem operandsWithin_moves {p p' : Parser Expr} (hp : Moves f (Expr.moved f) p p')
    (bound : List Token) :
    Moves f (List.map (Expr.moved f)) (operandsWithin p bound)
      (operandsWithin p' (bound.map (Token.moved f))) := by
  induction bound with
  | nil => exact .unexpected
  | cons b bound ih =>
    refine Moves.kind.bind fun _ => .ite (.pure []) ?_
    exact hp.bind fun e => ih.bind fun es => .pure (e :: es)

def Application.moved (f : Position → Position) (a : Application) : Application :=
  ⟨a.operator.moved f, a.operands.map (Expr.moved f), a.span.moved f⟩

theorem application_moves {p p' : Parser Expr} (hp : Moves f (Expr.moved f) p p') :
    Moves f (Application.moved f) (application p) (application p') := by
  refine (Moves.expect .openParen).bind fun start => Moves.advance.bind fun operator => ?_
  refine Moves.ahead.bind fun bound => (operandsWithin_moves hp bound).bind fun operands => ?_
  exact Moves.advance.bind fun close =>
    .pure (⟨operator, operands, start.span.upTo close.span⟩ : Application)

theorem Application.expr_moved (a : Application) (form : Grammar.CompoundForm) :
    (a.moved f).expr form =
      ((a.expr form).map (Expr.moved f)).mapError (Diagnostic.moved f) := by
  obtain ⟨operator, operands, s⟩ := a
  have hall : ∀ es : List Expr, es.map (Expr.moved f) = Expr.movedAll f es := fun es =>
    (Expr.movedAll_eq_map f es).symm
  cases form with
  | sum =>
    cases operands with
    | nil => rfl
    | cons e es =>
      exact congrArg (fun es => Except.ok (Expr.aggregate .sum es (s.moved f))) (hall (e :: es))
  | product =>
    cases operands with
    | nil => rfl
    | cons e es =>
      exact congrArg (fun es => Except.ok (Expr.aggregate .product es (s.moved f))) (hall (e :: es))
  | difference =>
    rcases operands with _ | ⟨h, _ | ⟨e, es⟩⟩
    · rfl
    · rfl
    · exact congrArg (fun es => Except.ok (Expr.minus (h.moved f) es (s.moved f))) (hall (e :: es))
  | comparison =>
    rcases operands with _ | ⟨l, _ | ⟨r, _ | ⟨e, es⟩⟩⟩
    · rfl
    · rfl
    · rfl
    · rfl
  | connective =>
    cases operands with
    | nil => rfl
    | cons e es =>
      exact congrArg (fun es => Except.ok
        (Expr.connective (connectiveOf operator.kind) es (s.moved f))) (hall (e :: es))

theorem Application.expr_error {a : Application} {form : Grammar.CompoundForm} {d : Diagnostic}
    (h : a.expr form = .error d) : d.fault.category = .parsing := by
  cases form <;> simp only [expr] at h <;> split at h <;> cases h <;> rfl

theorem formOf_moves {p p' : Parser Expr} (hp : Moves f (Expr.moved f) p p')
    (form : Grammar.CompoundForm) : Moves f (Expr.moved f) (formOf p form) (formOf p' form) := by
  refine (application_moves hp).bind fun a => ?_
  rw [Application.expr_moved]
  cases h : a.expr form with
  | ok e => exact .pure e
  | error d => exact .throw (Application.expr_error h)

section
variable (g : Grammar)

theorem compoundOf_moves {p p' : Parser Expr} (hp : Moves f (Expr.moved f) p p') :
    Moves f (Expr.moved f) (compoundOf g p) (compoundOf g p') := by
  refine (Moves.peek 1).bind fun k => ?_
  simp only [id]
  cases g.compound? k with
  | some form => exact (formOf_moves hp form).nested
  | none => exact Moves.advance.bind fun _ => .complain _

theorem exprOf_moves {p p' : Parser Expr} (hp : Moves f (Expr.moved f) p p') :
    Moves f (Expr.moved f) (exprOf g p) (exprOf g p') := by
  refine Moves.kind.bind fun k => ?_
  simp only [id]
  match g.operand? k with
  | some .number => exact number_moves
  | some .reference => exact reference_moves
  | some .compound => exact compoundOf_moves g hp
  | none => exact .unexpected

theorem exprWithin_moves (levels : Nat) :
    Moves f (Expr.moved f) (exprWithin g levels) (exprWithin g levels) := by
  induction levels with
  | zero => exact exprOf_moves g .unexpected
  | succ levels ih => exact exprOf_moves g ih

end

/-! ## Networks -/

theorem shape_moves : Moves f id shape shape := by
  refine (Moves.expectOr .openBracket _).bind fun _ => integers_moves.bind fun dims => ?_
  exact (Moves.expectOr .closeBracket _).bind fun _ => .pure dims

theorem version_moves : Moves f (Version.moved f) version version := by
  refine (Moves.expect .openParen).bind fun start => (Moves.expect .version).bind fun _ => ?_
  refine (Moves.expectOr .less _).bind fun _ => (Moves.expectOr .number _).bind fun number => ?_
  exact (Moves.expectOr .greater _).bind fun _ => (Moves.expect .closeParen).bind fun close =>
    .pure (⟨number.value, start.span.upTo close.span⟩ : Version)

theorem relation_moves : Moves f (Relation.moved f) relation relation := by
  refine (Moves.expect .openParen).bind fun start => Moves.advance.bind fun keyword => ?_
  refine (Moves.expectOr .identifier _).bind fun target => ?_
  exact (Moves.expect .closeParen).bind fun close =>
    .pure (⟨if keyword.kind = .equalTo then .equal else .isometric, target.value,
      start.span.upTo close.span⟩ : Relation)

theorem elementType_moves : Moves f id elementType elementType := by
  refine (Moves.expectOr .identifier _).bind fun t => ?_
  simp only [Token.moved]
  cases ElementType.ofName? t.value with
  | some type => exact .pure type
  | none => exact .throw rfl

theorem onnxName_moves (role : Role) : Moves f id (onnxName role) (onnxName role) :=
  Moves.kind.bind fun _ => .ite (Moves.advance.bind fun t => .pure (some t.value))
    (.ite (.complain _) (.pure none))

theorem declaration_moves (role : Role) :
    Moves f (Declaration.moved f) (declaration role) (declaration role) := by
  refine (Moves.expect .openParen).bind fun start => Moves.advance.bind fun _ => ?_
  refine (Moves.expectOr .identifier _).bind fun name => elementType_moves.bind fun type => ?_
  refine shape_moves.bind fun shape => (onnxName_moves role).bind fun onnxName => ?_
  exact (Moves.expect .closeParen).bind fun close =>
    .pure (⟨name.value, .element type, shape, onnxName, start.span.upTo close.span⟩ : Declaration)

theorem item_moves (form : Grammar.ItemForm) :
    Moves f (Network.Item.moved f) (item form) (item form) := by
  cases form with
  | relation => exact relation_moves.bind fun r => .pure (Network.Item.relation r)
  | tensor role => exact (declaration_moves role).bind fun d => .pure (Network.Item.tensor role d)

section
variable (g : Grammar)

theorem itemsWithin_moves (bound : List Token) (n : Network) :
    Moves f (Network.movedForms f) (itemsWithin g bound n)
      (itemsWithin g (bound.map (Token.moved f)) (n.movedForms f)) := by
  induction bound generalizing n with
  | nil => exact .pure n
  | cons b bound ih =>
    refine Moves.kind.bind fun _ => .ite ((Moves.peek 1).bind fun k => ?_) (.pure n)
    simp only [id]
    cases g.item? k with
    | some form =>
      refine (item_moves form).bind fun i => ?_
      rw [← Network.movedForms_add]
      exact ih (n.add i)
    | none => exact Moves.advance.bind fun _ => .complain _

theorem network_moves : Moves f (Network.moved f) (network g) (network g) := by
  refine (Moves.expect .openParen).bind fun start => (Moves.expect .declareNetwork).bind fun _ => ?_
  refine (Moves.expectOr .identifier _).bind fun name => Moves.ahead.bind fun bound => ?_
  refine (itemsWithin_moves g bound { name := name.value, span := .nowhere }).bind fun n => ?_
  exact (Moves.expectOr .closeParen _).bind fun close =>
    .pure { n with span := start.span.upTo close.span }

/-! ## Queries -/

theorem assertion_moves : Moves f (Assertion.moved f) (assertion g) (assertion g) := by
  refine (Moves.expect .openParen).bind fun start => (Moves.expect .assert).bind fun _ => ?_
  refine (exprWithin_moves g maxNesting).bind fun e => ?_
  exact (Moves.expectOr .closeParen _).bind fun close =>
    .pure (⟨e, start.span.upTo close.span⟩ : Assertion)

theorem statementOf_moves (form : Grammar.StatementForm) :
    Moves f (Statement.moved f) (statementOf g form) (statementOf g form) := by
  cases form with
  | version => exact version_moves.bind fun v => .pure (Statement.version v)
  | network => exact (network_moves g).bind fun n => .pure (Statement.network n)
  | assertion => exact (assertion_moves g).bind fun a => .pure (Statement.assertion a)

theorem statement_moves : Moves f (Statement.moved f) (statement g) (statement g) := by
  refine Moves.kind.bind fun _ => .ite ((Moves.peek 1).bind fun k => ?_) (.complain _)
  simp only [id]
  cases g.statement? k with
  | some form => exact statementOf_moves g form
  | none => exact .complain _

def movedBody (f : Position → Position) (body : List Network × List Assertion) :
    List Network × List Assertion :=
  (body.1.map (Network.moved f), body.2.map (Assertion.moved f))

theorem bodyWithin_moves (bound : List Token) (asserted : Bool) :
    Moves f (movedBody f) (bodyWithin g bound asserted)
      (bodyWithin g (bound.map (Token.moved f)) asserted) := by
  induction bound generalizing asserted with
  | nil => exact .pure ([], [])
  | cons b bound ih =>
    -- a form that is out of place is reported where the cursor stood before it
    constructor
    · intro c
      simp only [List.map_cons, bodyWithin, Cursor.hasTokens_moved, (statement_moves g).run,
        Cursor.position_moved]
      split
      · cases statement g c with
        | error d c' => rfl
        | ok form c' =>
          cases form with
          | version v => rfl
          | network n =>
            cases asserted with
            | true => rfl
            | false =>
              simp only [movedResult, Statement.moved, Bool.false_eq_true, if_false, (ih false).run]
              cases bodyWithin g bound false c' <;> rfl
          | assertion a =>
            simp only [movedResult, Statement.moved, (ih true).run]
            cases bodyWithin g bound true c' <;> rfl
      · rfl
    · intro c d c' h
      simp only [bodyWithin] at h
      split at h
      · split at h
        · rename_i hform
          cases h
          exact (statement_moves (f := id) g).parsing hform
        · cases h
          rfl
        · split at h
          · cases h
            rfl
          · split at h
            · cases h
            · rename_i hrest
              cases h
              exact (ih false).parsing hrest
        · split at h
          · cases h
          · rename_i hrest
            cases h
            exact (ih true).parsing hrest
      · cases h

end

theorem leadingVersion_moves : Moves f (Version.moved f) leadingVersion leadingVersion :=
  Moves.kind.bind fun _ => (Moves.peek 1).bind fun _ => .ite version_moves (.complain _)

/-- What a query consists of, without its span. -/
def parts : Parser (Version × List Network × List Assertion) := do
  let version ← leadingVersion
  let body ← bodyWithin .standard (← ahead) false
  return (version, body)

theorem parts_moves : Moves f (fun p => (p.1.moved f, movedBody f p.2)) parts parts := by
  refine leadingVersion_moves.bind fun v => Moves.ahead.bind fun bound => ?_
  exact (bodyWithin_moves .standard bound false).bind fun body => .pure (v, body)

theorem query_eq_parts : query = (do
    let p ← parts
    let c ← get
    return ⟨p.1, p.2.1, p.2.2, ⟨c.file, 0, c.position.offset⟩⟩) := by
  simp [query, parts]

end Parser

/-! ## Queries -/

/-- The same query in other places, apart from its own span. -/
structure Query.Moved (f : Position → Position) (q q' : Query) : Prop where
  version : q'.version = q.version.moved f
  networks : q'.networks = q.networks.map (Network.moved f)
  assertions : q'.assertions = q.assertions.map (Assertion.moved f)

theorem Cursor.ofTokens_moved (f : Position → Position) (row : List Token) {ending : Token}
    (he : ending.kind = .eof) (file : String) :
    Cursor.ofTokens ((row ++ [ending]).map (Token.moved f)) file =
      (Cursor.ofTokens (row ++ [ending]) file).moved f := by
  have he' : (ending.moved f).kind = .eof := he
  rw [List.map_append, List.map_singleton, Cursor.ofTokens_append he, Cursor.ofTokens_append he']
  simp [Cursor.before, Cursor.moved, Token.moved]

theorem Query.ofTokens_of_parts {tokens : List Token} {file : String} {c : Cursor}
    {p : Version × List Network × List Assertion}
    (h : Parser.parts (Cursor.ofTokens tokens file) = .ok p c) :
    Query.ofTokens tokens file = .ok ⟨p.1, p.2.1, p.2.2, ⟨c.file, 0, c.position.offset⟩⟩ := by
  rw [Query.ofTokens, Parser.query_eq_parts, Parser.bind_of_ok h]
  rfl

theorem Query.ofTokens_of_error {tokens : List Token} {file : String} {c : Cursor} {d : Diagnostic}
    (h : Parser.parts (Cursor.ofTokens tokens file) = .error d c) :
    Query.ofTokens tokens file = .error d := by
  have hquery : Parser.query (Cursor.ofTokens tokens file) = .error d c := by
    rw [Parser.query_eq_parts]
    simp only [bind, EStateM.bind, h]
  rw [Query.ofTokens, hquery]

/-- Moved tokens are read as the moved query, or refused with the moved diagnostic. -/
theorem Query.ofTokens_moved (f : Position → Position) (row : List Token) {ending : Token}
    (he : ending.kind = .eof) (file : String) :
    (∀ q, Query.ofTokens (row ++ [ending]) file = .ok q →
      ∃ q', Query.ofTokens ((row ++ [ending]).map (Token.moved f)) file = .ok q' ∧ q.Moved f q') ∧
    ∀ d, Query.ofTokens (row ++ [ending]) file = .error d →
      Query.ofTokens ((row ++ [ending]).map (Token.moved f)) file = .error (d.moved f) := by
  have hrun := Parser.parts_moves.run (f := f) (Cursor.ofTokens (row ++ [ending]) file)
  rw [← Cursor.ofTokens_moved f row he file] at hrun
  cases hparts : Parser.parts (Cursor.ofTokens (row ++ [ending]) file) with
  | ok p c =>
    rw [hparts] at hrun
    have hmoved := Query.ofTokens_of_parts hrun
    rw [Query.ofTokens_of_parts hparts]
    refine ⟨fun q hq => ?_, fun d hd => nomatch hd⟩
    cases hq
    exact ⟨_, hmoved, rfl, rfl, rfl⟩
  | error d c =>
    rw [hparts] at hrun
    have hmoved := Query.ofTokens_of_error hrun
    rw [Query.ofTokens_of_error hparts]
    refine ⟨fun q hq => (nomatch hq), fun d' hd => ?_⟩
    cases hd
    exact hmoved

/-- What the parser refuses, it refuses as a fault of parsing at the start of a token. -/
theorem Query.ofTokens_error {row : List Token} {ending : Token} (he : ending.kind = .eof)
    {file : String} {d : Diagnostic} (h : Query.ofTokens (row ++ [ending]) file = .error d) :
    d.fault.category = .parsing ∧ ∃ t ∈ row ++ [ending], d.position = t.span.position := by
  constructor
  · cases hparts : Parser.parts (Cursor.ofTokens (row ++ [ending]) file) with
    | ok p c =>
      rw [Query.ofTokens_of_parts hparts] at h
      cases h
    | error d' c =>
      rw [Query.ofTokens_of_error hparts] at h
      cases h
      exact (Parser.parts_moves (f := id)).parsing hparts
  · refine Classical.byContradiction fun hnone => ?_
    -- move what is reported and nothing else
    let away (p : Position) : Position :=
      if p = d.position then ⟨p.offset + 1, p.file⟩ else p
    have hstay : (row ++ [ending]).map (Token.moved away) =
        (row ++ [ending]).map (Token.moved id) := by
      refine List.map_congr_left fun t ht => ?_
      have hne : t.span.position ≠ d.position := fun heq => hnone ⟨t, ht, heq.symm⟩
      simp [Token.moved, Span.moved, away, hne]
    have haway := (Query.ofTokens_moved away row he file).2 d h
    rw [hstay, (Query.ofTokens_moved id row he file).2 d h] at haway
    have hoffset : d.position.offset = (away d.position).offset :=
      congrArg (fun d => d.position.offset) (Except.error.inj haway)
    simp only [away, if_true] at hoffset
    omega

end NeuralQuery
