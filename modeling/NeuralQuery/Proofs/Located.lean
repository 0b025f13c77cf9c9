import NeuralQuery.Proofs.Moving
import NeuralQuery.Proofs.Slicing
import NeuralQuery.Proofs.SourceOrder

/-!
# NeuralQuery.Proofs.Located

Where faults are reported, and of what kind they are (`Build.faults_located`).

A text that cannot be tokenized is reported at the character where that fails
(`Token.Scan.tokens_stuck`). All else is reported at the start of a token: by the parser, which only
hands places on (`Query.ofTokens_error`), and by the checks, which report at the starts of forms and
expressions (`DerivesQuery.found`).
-/

namespace NeuralQuery

/-- The text has tokens, and one of them starts at the position. The token for the end of the text
starts behind all of it. -/
def StartsToken (source file : String) (p : Position) : Prop :=
  ∃ tokens t front rest, Token.tokenize source file = .ok tokens ∧ t ∈ tokens ∧
    p = t.span.position ∧ p.file = file ∧ source.toList = front ++ rest ∧
    p.offset = Text.byteLength front ∧ (t.kind = .eof → rest = [])

theorem Token.tokenize_starts {source file : String} {tokens : List Token} {t : Token}
    (h : Token.tokenize source file = .ok tokens)
    (hsize : Text.byteLength source.toList < UInt32.size) (ht : t ∈ tokens) :
    StartsToken source file t.span.position := by
  obtain ⟨row, rfl, hstand⟩ := Scan.tokens_stand h
  rcases List.mem_append.mp ht with hrow | hend
  · obtain ⟨front, text, rest, shape, hsource, hfirst, htoken, hspan⟩ := (hstand t hrow).span hsize
    have hlexeme : t.IsLexeme := ⟨shape, _, _, _, hfirst, htoken⟩
    refine ⟨_, t, front, text ++ rest, h, ht, rfl, by rw [hspan]; rfl, hsource, by rw [hspan]; rfl,
      fun heof => absurd heof hlexeme.ne_eof⟩
  · obtain rfl := List.mem_singleton.mp hend
    refine ⟨_, _, source.toList, [], h, ht, rfl, rfl, by simp, ?_, fun _ => rfl⟩
    exact (Position.wrap_of_lt (by simpa [Scan.ofSource] using hsize)).trans (Nat.zero_add _)

theorem DerivesQuery.found {file : String} {ending : Token} {ts : List Token} {q : Query}
    (h : DerivesQuery file ending ts q) (policy : LiteralPolicy) :
    ∀ d ∈ (Typing.query policy q).diagnostics, ∃ t ∈ ts, d.FoundAt [t.span.position] := by
  cases h with
  | @mk us v networks assertions hv hn ha =>
    intro d hd
    rw [Typing.query_diagnostics, Typing.networksFrom_diagnostics, List.mem_append,
      List.mem_append, List.mem_flatten, List.mem_flatMap] at hd
    rcases hd with hd | ⟨block, hblock, hd⟩ | ⟨a, hmem, hd⟩
    · obtain ⟨t, ht, hfound⟩ := hv.found d hd
      exact ⟨t, by simp [ht], hfound⟩
    · have hblocks : List.Forall₂ (fun _ block => ∀ d ∈ block,
          ∃ t ∈ networks.flatMap Prod.fst, d.FoundAt [t.span.position]) (networks.map Prod.snd)
          (Typing.networkReports (networks.map Prod.snd) .empty (networks.map Prod.snd)) := by
        refine Typing.forall₂_networkReports fun n hmem table d hd => ?_
        obtain ⟨p, hp, rfl⟩ := List.mem_map.mp hmem
        obtain ⟨t, ht, hfound⟩ := (hn p hp).found _ table d hd
        exact ⟨t, List.mem_flatMap.mpr ⟨p, hp, ht⟩, hfound⟩
      obtain ⟨n, _, hall⟩ := exists_of_mem_right hblocks hblock
      obtain ⟨t, ht, hfound⟩ := hall d hd
      exact ⟨t, by simp only [List.mem_append, ht, true_or, or_true], hfound⟩
    · obtain ⟨p, hp, rfl⟩ := List.mem_map.mp hmem
      obtain ⟨t, ht, hfound⟩ := (ha p hp).found _ policy d hd
      have hrow := List.mem_flatMap.mpr ⟨p, hp, ht⟩
      exact ⟨t, by simp only [List.mem_append, hrow, or_true], hfound⟩

/-- A build fails with a fault of parsing, and reports only faults of other kinds when it succeeds.
In a text of fewer than `2 ^ 32` bytes a failure to tokenize it is reported at one of its
characters, and everything else at the start of one of its tokens, all in the file of the build. -/
theorem Build.faults_located (source : String)
    (hsize : Text.byteLength source.toList < UInt32.size) (options : BuildOptions) :
    (∀ d, Build.ofText source options = .error d → d.fault.category = .parsing ∧
      ((Token.tokenize source (options.fileName.getD "<string>") = .error d ∧
          d.position.file = options.fileName.getD "<string>" ∧
          ∃ front c rest, source.toList = front ++ c :: rest ∧
            d.position.offset = Text.byteLength front) ∨
        StartsToken source (options.fileName.getD "<string>") d.position)) ∧
    ∀ b, Build.ofText source options = .ok b → ∀ d ∈ b.diagnostics,
      d.fault.category ∈ [.naming, .typing, .shape, .structural] ∧
        StartsToken source (options.fileName.getD "<string>") d.position := by
  constructor
  · intro d h
    rcases Build.ofSource_eq_error_iff.mp h with htok | ⟨tokens, htok, hparse⟩
    · obtain ⟨front, c, rest, hahead, rfl, _⟩ := Token.Scan.tokens_stuck htok
      have hahead : source.toList = front ++ c :: rest := hahead
      refine ⟨rfl, .inl ⟨htok, rfl, front, c, rest, hahead, ?_⟩⟩
      rw [hahead, Text.byteLength_append] at hsize
      exact (Position.wrap_of_lt (by simp [Token.Scan.ofSource]; omega)).trans (Nat.zero_add _)
    · obtain ⟨row, rfl, _⟩ := Token.Scan.tokens_stand htok
      obtain ⟨hparsing, t, ht, hpos⟩ := Query.ofTokens_error rfl hparse
      rw [hpos]
      exact ⟨hparsing, .inr (Token.tokenize_starts htok hsize ht)⟩
  · intro b h d hd
    obtain ⟨tokens, q, htok, hparse, rfl⟩ := Build.ofSource_eq_ok_iff.mp h
    obtain ⟨row, span, rfl, _⟩ := Token.Scan.tokens_row htok
    obtain ⟨t, ht, hfound⟩ :=
      ((Query.ofTokens_tokenize_iff htok).mp hparse).found options.policy d hd
    rw [hfound.eq]
    exact ⟨hfound.category, Token.tokenize_starts htok hsize (by simp [ht])⟩

/-- A text that ends inside a form fails to build, and one with faults in every form does not. -/
theorem Build.faults_located_faultySource :
    (∃ d, Build.ofText "(vnnlib-version <2.0>" {} = .error d ∧ d.fault.category = .parsing) ∧
      ∃ b d, Build.ofText Build.faultySource {} = .ok b ∧ d ∈ b.diagnostics ∧
        StartsToken Build.faultySource "<string>" d.position := by
  have hunclosed := Build.faults_located "(vnnlib-version <2.0>" (by decide +kernel) {}
  have hfaulty := Build.faults_located Build.faultySource (by decide +kernel) {}
  have hrefused : (Build.ofText "(vnnlib-version <2.0>" {}).toOption.isNone = true := by
    decide +kernel
  have hreported : (Build.ofText Build.faultySource {}).toOption.any (fun b =>
      b.diagnostics.head?.isSome) = true := by
    rw [Build.ofText, Build.ofSource_eq]
    decide +kernel
  constructor
  · cases h : Build.ofText "(vnnlib-version <2.0>" {} with
    | error d => exact ⟨d, rfl, (hunclosed.1 d h).1⟩
    | ok b =>
      rw [h] at hrefused
      cases hrefused
  · cases h : Build.ofText Build.faultySource {} with
    | error d =>
      rw [h] at hreported
      cases hreported
    | ok b =>
      rw [h, Except.toOption, Option.any_some] at hreported
      obtain ⟨d, hd⟩ := Option.isSome_iff_exists.mp hreported
      exact ⟨b, d, rfl, List.mem_of_head? hd, (hfaulty.2 b h d (List.mem_of_head? hd)).2⟩

end NeuralQuery
