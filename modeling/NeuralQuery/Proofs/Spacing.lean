import NeuralQuery.Proofs.Reading

/-!
# NeuralQuery.Proofs.Spacing

Texts in which every lexeme has some blanks behind it, and the places of their tokens
(`Token.tokenize_spaced`).

The blanks are counted and not written out, so that texts of more than `2 ^ 32` bytes can be given.
Offsets start again from zero there (`Position.wrap`), and tokens further on may have smaller ones.
-/

namespace NeuralQuery

namespace Text

/-- So many blanks. -/
def blanks (n : Nat) : String :=
  String.ofList (List.replicate n ' ')

theorem isBlank_of_mem_blanks {n : Nat} : ∀ c ∈ (blanks n).toList, isBlank c = true := by
  intro c hc
  rw [blanks, String.toList_ofList] at hc
  rw [List.eq_of_mem_replicate hc]
  rfl

theorem byteLength_blanks (n : Nat) : byteLength (blanks n).toList = n := by
  rw [blanks, String.toList_ofList]
  induction n with
  | zero => rfl
  | succ n ih =>
    rw [List.replicate_succ, byteLength_cons, ih]
    exact Nat.add_comm 1 n

end Text

namespace Token

/-- No lexeme goes on in blanks. -/
theorem parted_blanks {n : Nat} (hn : n ≠ 0) (rest : List Char) :
    Parted ((Text.blanks n).toList ++ rest) := by
  obtain ⟨k, rfl⟩ := Nat.exists_eq_succ_of_ne_zero hn
  intro c hc
  rw [Text.blanks, String.toList_ofList, List.replicate_succ] at hc
  obtain rfl := Option.some.inj hc
  rfl

/-- The token that a text is by itself, in no place yet. -/
def lexeme? (text : String) : Option Token :=
  (Shape.first? text.toList).bind fun p =>
    if p.2.rest = [] then p.1.token? p.2.taken .nowhere else none

theorem lexes_of_lexeme? {text : String} {t : Token} (h : lexeme? text = some t) :
    Lexes Parted text t.kind t.value := by
  obtain ⟨⟨shape, cut⟩, hfirst, h⟩ := Option.bind_eq_some_iff.mp h
  split at h
  · rename_i hrest
    have htext : text.toList = cut.taken := by
      have happend := (Shape.first?_of hfirst).2
      rw [hrest, List.append_nil] at happend
      exact happend.symm
    intro rest hr
    rw [htext]
    exact ⟨shape, Shape.first?_again hfirst h hr, Shape.token?_content h⟩
  · cases h

/-- Texts one after the other, each with so many blanks behind it. -/
def spaced (words : List (String × Nat)) : String :=
  String.join (words.map fun p => p.1 ++ Text.blanks p.2)

/-- The tokens of such texts, from byte `n` on. -/
def placed (file : String) : Nat → List (String × Nat) → List Token
  | n, [] => [ending (.ofBytes file n n)]
  | n, (text, gap) :: words =>
    ((lexeme? text).map fun t =>
      { t with span := .ofBytes file n (n + Text.byteLength text.toList) }).toList ++
      placed file (n + Text.byteLength text.toList + gap) words

/-- One lexeme after the other is read where the ones before it end. -/
theorem Scan.tokens_spaced {words : List (String × Nat)}
    (h : ∀ p ∈ words, (lexeme? p.1).isSome = true ∧ p.2 ≠ 0) {s : Scan}
    (hs : s.ahead = (spaced words).toList) : s.tokens = .ok (placed s.file s.offset words) := by
  induction words generalizing s with
  | nil => exact tokens_of_nil hs
  | cons p words ih =>
    obtain ⟨text, gap⟩ := p
    obtain ⟨⟨hsome, hgap⟩, h⟩ := List.forall_mem_cons.mp h
    obtain ⟨t, ht⟩ := Option.isSome_iff_exists.mp hsome
    have hahead : s.ahead =
        text.toList ++ ((Text.blanks gap).toList ++ (spaced words).toList) := by
      simpa [spaced, String.join_cons] using hs
    obtain ⟨shape, hfirst, htoken⟩ := lexes_of_lexeme? ht _ (parted_blanks hgap _)
    rw [tokens_of_some (hahead ▸ hfirst), tokens_blanks rfl Text.isBlank_of_mem_blanks, ih h rfl,
      htoken]
    simp only [past, placed, ht, Text.byteLength_blanks]
    rfl

/-- A text with blanks behind its lexemes has these tokens, whatever its length. -/
theorem tokenize_spaced {words : List (String × Nat)}
    (h : ∀ p ∈ words, (lexeme? p.1).isSome = true ∧ p.2 ≠ 0) (file : String) :
    tokenize (spaced words) file = .ok (placed file 0 words) :=
  Scan.tokens_spaced h rfl

end Token

/-! ## Queries -/

/-- There is a result if there is anything to compute from it. -/
theorem exists_ok_of_any {ε α : Type} {result : Except ε α} {p : α → Bool}
    (h : result.toOption.any p = true) : ∃ a, result = .ok a ∧ p a = true := by
  cases result with
  | error e => cases h
  | ok a => exact ⟨a, rfl, h⟩

/-- A text with blanks behind its lexemes is read as a query with these networks and without
assertions, if its tokens are. -/
theorem Query.read_spaced (words : List (String × Nat)) (file : String) (v : Version)
    (ns : List Network) (hwords : ∀ p ∈ words, (Token.lexeme? p.1).isSome = true ∧ p.2 ≠ 0)
    (h : (Query.ofTokens (Token.placed file 0 words) file).toOption.any (fun q =>
      q.version == v && (q.networks == ns && q.assertions.isEmpty)) = true) :
    ∃ tokens q, Token.tokenize (Token.spaced words) file = .ok tokens ∧
      Query.ofTokens tokens file = .ok q ∧
      q.version = v ∧ q.networks = ns ∧ q.assertions = [] := by
  obtain ⟨q, hq, hfacts⟩ := exists_ok_of_any h
  simp only [Bool.and_eq_true, beq_iff_eq, List.isEmpty_iff] at hfacts
  exact ⟨_, q, Token.tokenize_spaced hwords file, hq, hfacts⟩

end NeuralQuery
