import NeuralQuery.Proofs.Slicing

/-!
# NeuralQuery.Proofs.Spelling

The texts that each shape of lexeme has (`Shape.Spells`). What a shape takes off a text is one of
its texts (`Shape.spells_of_cut?`), and each of its texts is taken whole where nothing stands behind
it (`Shape.Spells.cut?`). So if no shape fits a text, no front of it is spelled by any of them
(`Shape.not_spells_of_first?`).
-/

namespace NeuralQuery

/-- What stands between quotes. A backslash takes the next character with it, if that is on the same
line. -/
inductive IsQuoted : List Char → Prop where
  | nil : IsQuoted []
  | plain {c : Char} {w : List Char} : Text.IsPlain c → IsQuoted w → IsQuoted (c :: w)
  | escape {c : Char} {w : List Char} : c ≠ '\n' → IsQuoted w → IsQuoted ('\\' :: c :: w)

namespace Token
namespace Shape

/-- A text is one of those that a shape stands for. -/
inductive Spells : Shape → List Char → Prop where
  | blank {w : List Char} : w ≠ [] → (∀ c ∈ w, Text.isBlank c = true) → Spells .blank w
  | comment {body : List Char} : '\n' ∉ body → Spells .comment (';' :: body)
  | number {w : List Char} : IsNumberText w → Spells .number w
  | string {inner : List Char} : IsQuoted inner → Spells .string ('"' :: (inner ++ ['"']))
  | word {w : List Char} : IsWord w → Spells .word w
  | mark {text : String} {kind : Kind} :
      (text, kind) ∈ Kind.marks → Spells (.mark text kind) text.toList

/-! ## What a shape takes -/

theorem closing?_isQuoted {cs : List Char} {c : Cut} (h : closing? cs = some c) :
    ∃ inner, IsQuoted inner ∧ c.taken = inner ++ ['"'] := by
  fun_induction closing? cs generalizing c with
  | case1 => cases h
  | case2 =>
    cases h
    exact ⟨[], .nil, rfl⟩
  | case3 => cases h
  | case4 =>
    cases h
    exact ⟨[], .nil, rfl⟩
  | case5 => cases h
  | case6 d cs hd _ ih =>
    obtain ⟨e, he, rfl⟩ := Option.map_eq_some_iff.mp h
    obtain ⟨inner, hinner, htaken⟩ := ih he
    exact ⟨'\\' :: d :: inner, .escape hd hinner, by simp [Cut.behind, htaken]⟩
  | case7 x d cs hq hb ih =>
    obtain ⟨e, he, rfl⟩ := Option.map_eq_some_iff.mp h
    obtain ⟨inner, hinner, htaken⟩ := ih he
    exact ⟨x :: inner, .plain ⟨hq, hb⟩ hinner, by simp [Cut.behind, htaken]⟩

theorem not_mem_takeWhile (cs : List Char) : '\n' ∉ cs.takeWhile (· != '\n') := by
  intro hmem
  have := List.all_eq_true.mp List.all_takeWhile '\n' hmem
  simp at this

/-- What a shape takes off a text is one of its own texts. -/
theorem spells_of_cut? {s : Shape} (hs : s ∈ all) {cs : List Char} {c : Cut}
    (h : s.cut? cs = some c) : s.Spells c.taken := by
  cases s with
  | blank =>
    simp only [cut?] at h
    split at h
    · cases h
    · rename_i hne
      cases h
      exact .blank (by simpa using hne) fun d hd => List.all_eq_true.mp List.all_takeWhile d hd
  | comment =>
    rcases cs with _ | ⟨d, ds⟩
    · simp [cut?] at h
    · by_cases hd : d = ';'
      · subst hd
        simp only [cut?, Option.some.injEq] at h
        subst h
        exact .comment (not_mem_takeWhile ds)
      · rw [cut?_comment_eq_none hd] at h
        cases h
  | number => exact .number (number?_numberText h)
  | string =>
    rcases cs with _ | ⟨d, ds⟩
    · simp [cut?] at h
    · by_cases hd : d = '"'
      · subst hd
        obtain ⟨e, he, rfl⟩ := Option.map_eq_some_iff.mp (show (closing? ds).map _ = some c from h)
        obtain ⟨inner, hinner, htaken⟩ := closing?_isQuoted he
        rw [Cut.behind, htaken]
        exact .string hinner
      · rw [cut?_string_eq_none hd] at h
        cases h
  | word => exact .word (cut?_word_isWord h)
  | mark text kind =>
    obtain ⟨rest, _, rfl⟩ := Option.map_eq_some_iff.mp h
    exact .mark (by simpa [all] using hs)

theorem spells_of_first? {cs : List Char} {s : Shape} {c : Cut} (h : first? cs = some (s, c)) :
    s.Spells c.taken := by
  obtain ⟨hs, hcut⟩ := mem_of_first? h
  exact spells_of_cut? hs hcut

/-! ## Texts that are taken whole -/

theorem run_whole {p : Char → Bool} {cs : List Char} (h : ∀ c ∈ cs, p c = true) :
    Cut.run p cs = ⟨cs, []⟩ := by
  have hrun : Cut.run p (cs ++ []) = ⟨cs, []⟩ := by
    refine run_eq_iff.mpr ⟨h, ?_⟩
    intro c hc
    cases hc
  rwa [List.append_nil] at hrun

theorem closing?_of_isQuoted {inner : List Char} (h : IsQuoted inner) :
    closing? (inner ++ ['"']) = some ⟨inner ++ ['"'], []⟩ := by
  induction h with
  | nil => rfl
  | plain hc _ ih => simp [closing?_cons hc.1 hc.2, ih, Cut.behind]
  | escape hc _ ih => simp [closing?, hc, ih, Cut.behind]

theorem Spells.mem_all {s : Shape} {text : List Char} (h : s.Spells text) : s ∈ all := by
  cases h with
  | mark hm => simpa [all] using hm
  | _ => simp [all]

theorem Spells.cut? {s : Shape} {text : List Char} (h : s.Spells text) :
    s.cut? text = some ⟨text, []⟩ := by
  cases h with
  | blank hne hall => simp [Shape.cut?, run_whole hall, hne]
  | @comment body hb =>
    have hall : ∀ c ∈ body, (c != '\n') = true := by
      intro c hc
      rw [bne_iff_ne]
      rintro rfl
      exact hb hc
    simp [Shape.cut?, run_whole hall, Cut.behind]
  | number hn =>
    have hparted : Parted [] := by
      intro c hc
      cases hc
    simpa [Shape.cut?] using number?_append hn hparted
  | string hq => simp [Shape.cut?, closing?_of_isQuoted hq, Cut.behind]
  | word hw =>
    obtain ⟨c, ds, rfl, hc, hds⟩ := hw
    simp [Shape.cut?, hc, run_whole hds, Cut.behind]
  | @mark t _ _ =>
    have hafter := after?_self t.toList []
    rw [List.append_nil] at hafter
    simp [Shape.cut?, hafter]

/-- If no shape fits, nothing that stands in front of the text is spelled by one. -/
theorem not_spells_of_first? {cs : List Char} (h : first? cs = none) {text : List Char}
    (ht : text <+: cs) (s : Shape) : ¬ s.Spells text := by
  intro hs
  obtain ⟨rest, rfl⟩ := ht
  have hnone : s.cut? (text ++ rest) = none := by
    simpa using List.findSome?_eq_none_iff.mp h s hs.mem_all
  have hwhole := hs.cut?
  rw [cut?_eq_none_of_append hnone] at hwhole
  cases hwhole

/-- No lexeme but white space starts with the end of a line. -/
theorem not_spells_newline {s : Shape} (hs : s ≠ .blank) (w : List Char) :
    ¬ s.Spells ('\n' :: w) := by
  intro h
  have hnone : s.cut? ('\n' :: w) = none := by
    have hmem := h.mem_all
    simp only [all, Kind.marks, List.map_cons, List.map_nil, List.cons_append, List.nil_append,
      List.mem_cons, List.not_mem_nil, or_false, hs, false_or] at hmem
    casesm* _ ∨ _
    all_goals
      subst s
      rfl
  have hcut := h.cut?
  rw [hnone] at hcut
  cases hcut

end Shape
end Token
end NeuralQuery
