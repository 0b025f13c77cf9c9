import NeuralQuery.Build
import NeuralQuery.Proofs.Pass
import NeuralQuery.Proofs.Retyping
import NeuralQuery.Proofs.Spacing

/-!
# NeuralQuery.Proofs.RoundTrip

Building the text of a well-typed query gives the query back (`Build.roundTrip`).

The way there has three parts. The text of the query is the query written out
(`Typing.query_text`). Reading it gives the same query in other places (`DerivesQuery.reads`). And
a check does not depend on places (`Typing.query_again`), provided that the forms of each network
stay in order, for which offsets must not wrap around.
-/

namespace NeuralQuery

/-- A build in terms of the check that has the table in hand. -/
theorem Build.ofSource_eq (source file : String) (policy : LiteralPolicy) :
    Build.ofSource source file policy =
      (Token.tokenize source file).bind fun tokens => (Query.ofTokens tokens file).map fun q =>
        ⟨(Typing.query policy q).value, (Typing.query policy q).diagnostics, source, file⟩ := by
  unfold Build.ofSource
  cases Token.tokenize source file with
  | error d => rfl
  | ok tokens =>
    dsimp only [Except.bind]
    cases Query.ofTokens tokens file with
    | error d => rfl
    | ok q =>
      dsimp only
      rw [Checker.check_eq]
      rfl

theorem Build.ofSource_eq_ok_iff {source file : String} {policy : LiteralPolicy} {b : Build} :
    Build.ofSource source file policy = .ok b ↔
      ∃ tokens q, Token.tokenize source file = .ok tokens ∧ Query.ofTokens tokens file = .ok q ∧
        b = ⟨(Typing.query policy q).value, (Typing.query policy q).diagnostics, source, file⟩ := by
  rw [Build.ofSource_eq]
  cases ht : Token.tokenize source file with
  | error d => simp [Except.bind]
  | ok tokens =>
    cases hq : Query.ofTokens tokens file with
    | error d => simp [Except.bind, Except.map, hq]
    | ok q => simp [Except.bind, Except.map, hq, eq_comm]

theorem Build.ofSource_eq_error_iff {source file : String} {policy : LiteralPolicy}
    {d : Diagnostic} :
    Build.ofSource source file policy = .error d ↔
      Token.tokenize source file = .error d ∨
        ∃ tokens, Token.tokenize source file = .ok tokens ∧
          Query.ofTokens tokens file = .error d := by
  rw [Build.ofSource_eq]
  cases ht : Token.tokenize source file with
  | error d => simp [Except.bind]
  | ok tokens =>
    cases hq : Query.ofTokens tokens file with
    | error d => simp [Except.bind, Except.map, hq]
    | ok q => simp [Except.bind, Except.map, hq]

/-- The tokens of a text of fewer than `2 ^ 32` bytes start one behind the other. -/
theorem Token.tokenize_inSequence {source file : String} {tokens : List Token}
    (h : Token.tokenize source file = .ok tokens)
    (hsize : Text.byteLength source.toList < UInt32.size) : InSequence tokens :=
  (Scan.tokens_ordered h (by simpa [Scan.ofSource] using hsize)).1.imp fun hlt =>
    Nat.lt_of_lt_of_le hlt.1 hlt.2

/-- The tokens of a text without the one for its end. -/
theorem Token.tokenize_row {source file : String} {row : List Token} {ending : Token}
    (h : Token.tokenize source file = .ok (row ++ [ending])) :
    ending.kind = .eof ∧ (∀ t ∈ row, t.IsLexeme) ∧
      (Text.byteLength source.toList < UInt32.size → InSequence row) := by
  obtain ⟨row', span, heq, hlexemes⟩ := Scan.tokens_row h
  obtain ⟨rfl, hend⟩ := List.append_inj' heq rfl
  obtain rfl := List.singleton_inj.mp hend
  exact ⟨rfl, hlexemes, fun hb =>
    (Token.tokenize_inSequence h hb).sublist (List.sublist_append_left ..)⟩

/-- Reading the tokens of a text is finding its derivation. -/
theorem Query.ofTokens_tokenize_iff {source file : String} {row : List Token} {ending : Token}
    (h : Token.tokenize source file = .ok (row ++ [ending])) {q : Query} :
    Query.ofTokens (row ++ [ending]) file = .ok q ↔ DerivesQuery file ending row q := by
  obtain ⟨heof, hlexemes, _⟩ := Token.tokenize_row h
  exact Query.ofTokens_eq_ok_iff heof (fun t ht => (hlexemes t ht).ne_eof)
    fun t ht => (hlexemes t ht).numberText

/-- The names of nodes are those of the typed query. -/
theorem TypedAs.onnxNames {symbols : List Symbol} {n : Network} {m : Typed.Network}
    (h : TypedAs symbols n m) {d : Declaration} (hd : d ∈ n.declarations) :
    ∃ typed ∈ m.definitions, typed.onnxName = d.onnxName := by
  have hrow : ∀ {role ds ms}, List.Forall₂ (Defines symbols n role) ds ms → d ∈ ds →
      ∃ typed ∈ ms, typed.onnxName = d.onnxName := by
    intro role ds ms hds hmem
    obtain ⟨typed, htyped, _, heq⟩ := exists_of_mem_left hds hmem
    exact ⟨typed, htyped, by rw [heq]; rfl⟩
  simp only [Network.declarations, List.mem_append] at hd
  simp only [Typed.Network.definitions, List.mem_append]
  rcases hd with (hd | hd) | hd
  · obtain ⟨typed, hmem, heq⟩ := hrow h.inputs hd
    exact ⟨typed, .inl (.inl hmem), heq⟩
  · obtain ⟨typed, hmem, heq⟩ := hrow h.hidden hd
    exact ⟨typed, .inl (.inr hmem), heq⟩
  · obtain ⟨typed, hmem, heq⟩ := hrow h.outputs hd
    exact ⟨typed, .inr hmem, heq⟩

/-- Building the text of a query that has nothing wrong with it succeeds, finds nothing wrong with
it either, and gives the same query up to spans and the numbering of symbols, with the same text.
The characters of the names of nodes must have an escape that is read back, if they have one, and
both texts must be short enough for offsets of 32 bits: where these wrap around, the forms of a
network are no longer taken in the order in which they are written. -/
theorem Build.roundTrip {source : String} {options : BuildOptions} {b : Build}
    (h : Build.ofText source options = .ok b) (hclean : b.diagnostics = [])
    (hnames : ∀ n ∈ b.query.networks, ∀ d ∈ n.definitions, ∀ name ∈ d.onnxName,
      ∀ c ∈ name.toList, Text.Survives c)
    (hsource : Text.byteLength source.toList < UInt32.size)
    (htext : Text.byteLength b.query.text.toList < UInt32.size) :
    ∃ b', Build.ofText b.query.text options = .ok b' ∧ b'.diagnostics = [] ∧
      (∃ σ, b.query.Renumbered σ b'.query) ∧ b'.query.text = b.query.text := by
  obtain ⟨tokens, q, htok, hparse, rfl⟩ := Build.ofSource_eq_ok_iff.mp h
  obtain ⟨row, span, rfl, _⟩ := Token.Scan.tokens_row htok
  obtain ⟨_, hlexemes, hsequence⟩ := Token.tokenize_row htok
  have hderives := (Query.ofTokens_tokenize_iff htok).mp hparse
  have horder := hderives.inOrder (hsequence hsource)
  have hsurvive : ∀ n ∈ q.networks, ∀ d ∈ n.declarations, d.Survives := by
    intro n hn d hd name hname
    have htyped : List.Forall₂ (TypedAs (SymbolTable.ofNetworks q.networks).symbols) q.networks
        (Network.typedFrom 0 q.networks) := Network.typedFrom_typedAs horder .empty
    obtain ⟨m, hm, hnm⟩ := exists_of_mem_left htyped hn
    obtain ⟨typed, hmem, heq⟩ := hnm.onnxNames hd
    have hm' : m ∈ (Typing.query options.policy q).value.networks := by
      rw [Typing.query_value hclean]
      exact hm
    exact hnames m hm' typed hmem name (heq ▸ hname)
  -- write the query out and read it again
  have hwritten := Typing.query_text hclean horder
  obtain ⟨row', span', hagain, htok'⟩ := (hderives.reads hlexemes hsurvive
    (Typing.query options.policy q).value.version.major
    (Typing.query options.policy q).value.version.minor).tokenize (options.fileName.getD "<string>")
  rw [← hwritten] at htok'
  obtain ⟨q', hderives', hversion, halike⟩ :=
    hagain (options.fileName.getD "<string>") (Token.ending span')
  have hparse' := (Query.ofTokens_tokenize_iff htok').mpr hderives'
  have horder' := hderives'.inOrder ((Token.tokenize_row htok').2.2 htext)
  -- check it again
  obtain ⟨hclean', σ, hrenumbered⟩ := Typing.query_again hclean halike horder horder' hversion
  exact ⟨_, Build.ofSource_eq_ok_iff.mpr ⟨_, q', htok', hparse', rfl⟩, hclean', ⟨σ, hrenumbered⟩,
    hrenumbered.text⟩

/-- A source that is not written the way queries are written out. -/
def Build.unevenSource : String :=
  "; one input\n( vnnlib-version < 02.00 >)(declare-network N(declare-input x float32[ 2 ]\"a\\\\b\"))" ++
    "(assert(<= (- x[01])1.50))"

theorem Build.roundTrip_unevenSource :
    ∃ b b', Build.ofText Build.unevenSource {} = .ok b ∧ b.query.text ≠ Build.unevenSource ∧
      Build.ofText b.query.text {} = .ok b' ∧ b'.diagnostics = [] ∧
      (∃ σ, b.query.Renumbered σ b'.query) ∧ b'.query.text = b.query.text := by
  have hcheck : (match Build.ofText Build.unevenSource {} with
      | .ok b => b.diagnostics.isEmpty && b.query.text != Build.unevenSource &&
          decide (Text.byteLength b.query.text.toList < UInt32.size) &&
          b.query.networks.all fun n => n.definitions.all fun d => d.onnxName.all fun name =>
            name.toList.all fun c => decide (Text.Survives c)
      | .error _ => false) = true := by
    decide +kernel
  cases h : Build.ofText Build.unevenSource {} with
  | error d => simp [h] at hcheck
  | ok b =>
    simp only [h, Bool.and_eq_true, List.isEmpty_iff, bne_iff_ne, decide_eq_true_eq,
      List.all_eq_true, Option.all_eq_true] at hcheck
    obtain ⟨⟨⟨hclean, hne⟩, htext⟩, hnames⟩ := hcheck
    obtain ⟨b', hb'⟩ := Build.roundTrip h hclean hnames (by decide +kernel) htext
    exact ⟨b, b', rfl, hne, hb'⟩

/-- A source with the two inputs of `N` on either side of byte `2 ^ 32`. -/
def Build.straddlingInputs : List (String × Nat) :=
  (["(", "vnnlib-version", "<", "2.0", ">", ")",
    "(", "declare-network", "M", "(", "isometric-to", "N", ")",
    "(", "declare-input", "c", "float32", "[", "]", ")",
    "(", "declare-input", "d", "int8", "[", "]", ")", ")",
    "(", "declare-network", "N",
    "(", "declare-input", "a", "float32", "[", "]"].map fun word => (word, 1)) ++
  (")", UInt32.size - 176) ::
  ["(", "declare-input", "b", "int8", "[", "]", ")", ")"].map fun word => (word, 1)

/-- The networks of that source. The offset of `b` is smaller than that of `a`. -/
def Build.straddled : Network × Network :=
  ({ name := "M"
     relations := [⟨.isometric, "N", ⟨"<string>", 47, 65⟩⟩]
     inputs := [⟨"c", .element .float32, [], none, ⟨"<string>", 66, 97⟩⟩,
       ⟨"d", .element .int8, [], none, ⟨"<string>", 98, 126⟩⟩]
     span := ⟨"<string>", 27, 128⟩ },
   { name := "N"
     inputs := [⟨"a", .element .float32, [], none, ⟨"<string>", 149, 180⟩⟩,
       ⟨"b", .element .int8, [], none, ⟨"<string>", 4, 32⟩⟩]
     span := ⟨"<string>", 129, 34⟩ })

/-- The source written out, with `b` before `a`. -/
def Build.straddledText : String :=
  "(vnnlib-version <2.0>)\n(declare-network M\n  (isometric-to N)\n" ++
    "  (declare-input c float32 [])\n  (declare-input d int8 []))\n(declare-network N\n" ++
    "  (declare-input b int8 [])\n  (declare-input a float32 []))"

theorem Build.straddled_items :
    straddled.1.items = straddled.1.grouped ∧ straddled.2.items = straddled.2.grouped.reverse :=
  ⟨Network.items_eq_of_perm (.refl _) (by decide),
    Network.items_eq_of_perm (List.reverse_perm _).symm (by decide)⟩

theorem Build.straddled_clean :
    (Typing.networksFrom [straddled.1, straddled.2] .empty [straddled.1, straddled.2]).diagnostics =
      [] := by
  have hsound : ∀ n ∈ [straddled.1, straddled.2], Typing.Sound [straddled.1, straddled.2] n :=
    List.forall_mem_cons.mpr ⟨⟨by decide, by decide, by decide⟩,
      List.forall_mem_singleton.mpr ⟨by decide, by decide, by decide⟩⟩
  exact Typing.networksFrom_iff.mpr ⟨by decide, by decide, hsound⟩

theorem Build.straddled_text (symbols : SymbolTable) (s : Span) :
    Typed.Query.text ⟨(Typing.version ⟨"2.0", ⟨"<string>", 0, 26⟩⟩).value,
      Network.typedFrom 0 [straddled.1, straddled.2], [], symbols, s⟩ = straddledText := by
  simp only [Typed.Query.text, Network.typedFrom, Network.typed, Network.tensors, straddled_items]
  decide +kernel

theorem Build.straddled_unnamed : ∀ n ∈ Network.typedFrom 0 [straddled.1, straddled.2],
    ∀ d ∈ n.definitions, d.onnxName = none := by
  simp only [Network.typedFrom, Network.typed, Network.tensors, straddled_items]
  decide +kernel

theorem Build.straddlingInputs_built :
    ∃ b, Build.ofText (Token.spaced straddlingInputs) {} = .ok b ∧ b.diagnostics = [] ∧
      b.query.text = straddledText ∧
      ∀ n ∈ b.query.networks, ∀ d ∈ n.definitions, d.onnxName = none := by
  obtain ⟨tokens, q, htok, hq, hversion, hnetworks, hassertions⟩ :=
    Query.read_spaced straddlingInputs "<string>" ⟨"2.0", ⟨"<string>", 0, 26⟩⟩
      [straddled.1, straddled.2] (by decide +kernel) (by decide +kernel)
  have hclean : (Typing.query .keep q).diagnostics = [] := by
    rw [Typing.query_diagnostics_iff, hversion, hnetworks, hassertions]
    exact ⟨by decide, straddled_clean, by simp⟩
  have hvalue := Typing.query_value hclean
  rw [hversion, hnetworks, hassertions, List.map_nil] at hvalue
  have hbuild : Build.ofText (Token.spaced straddlingInputs) {} = .ok _ :=
    Build.ofSource_eq_ok_iff.mpr ⟨tokens, q, htok, hq, rfl⟩
  have htyped : (Typing.query .keep q).value.networks =
      Network.typedFrom 0 [straddled.1, straddled.2] := congrArg Typed.Query.networks hvalue
  exact ⟨_, hbuild, hclean, (congrArg Typed.Query.text hvalue).trans (straddled_text _ _),
    htyped.symm ▸ straddled_unnamed⟩

theorem Build.straddledText_mismatch :
    ∃ b, Build.ofText straddledText {} = .ok b ∧ b.diagnostics ≠ [] := by
  have hread : (Token.tokenize straddledText "<string>").toOption.any (fun tokens =>
      (Query.ofTokens tokens "<string>").toOption.any fun q => q.networks.any fun n =>
        n.relations.any fun r => (Typing.relation q.networks n r).diagnostics != []) = true := by
    decide +kernel
  obtain ⟨tokens, htok, hread⟩ := exists_ok_of_any hread
  obtain ⟨q, hq, hmismatch⟩ := exists_ok_of_any hread
  refine ⟨_, Build.ofSource_eq_ok_iff.mpr ⟨tokens, q, htok, hq, rfl⟩, fun hclean => ?_⟩
  obtain ⟨_, hnetworks, _⟩ := Typing.query_diagnostics_iff.mp hclean
  obtain ⟨_, _, hsound⟩ := Typing.networksFrom_iff.mp hnetworks
  simp only [List.any_eq_true, bne_iff_ne] at hmismatch
  obtain ⟨n, hn, r, hr, hne⟩ := hmismatch
  exact hne ((hsound n hn).relations r hr)

/-- The source has nothing wrong with it. But it is written out with the inputs of `N` turned
around, and then `M` is no longer isometric to `N`. -/
theorem Build.straddlingInputs_not_rebuilt :
    ∃ b b', Build.ofText (Token.spaced Build.straddlingInputs) {} = .ok b ∧ b.diagnostics = [] ∧
      (∀ n ∈ b.query.networks, ∀ d ∈ n.definitions, d.onnxName = none) ∧
      Build.ofText b.query.text {} = .ok b' ∧ b'.diagnostics ≠ [] := by
  obtain ⟨b, hbuild, hclean, htext, hnames⟩ := Build.straddlingInputs_built
  obtain ⟨b', hbuild', hne⟩ := Build.straddledText_mismatch
  exact ⟨b, b', hbuild, hclean, hnames, htext ▸ hbuild', hne⟩

end NeuralQuery
