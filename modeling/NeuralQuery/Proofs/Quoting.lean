import NeuralQuery.Proofs.Reading
import NeuralQuery.Typed.Query

/-!
# NeuralQuery.Proofs.Quoting

Names of nodes are written in quotes and read as strings. Any text can be such a name
(`Token.isString_spelled`). Writing and reading do not know the same escapes: what is read back is a
string again, but a character whose escape is not known to the reader comes back as that escape
(`Token.quote_reread`).
-/

namespace NeuralQuery

namespace Text

/-- A character in quotes, escaped only where it would end the text or start an escape. -/
def spell (c : Char) : List Char :=
  if c = '"' ∨ c = '\\' then ['\\', c] else [c]

theorem unescape_spell (cs : List Char) : unescape (cs.flatMap spell) = cs := by
  induction cs with
  | nil => rfl
  | cons c cs ih =>
    rw [List.flatMap_cons]
    by_cases hc : c = '"' ∨ c = '\\'
    · rw [spell, if_pos hc]
      rcases hc with rfl | rfl
      all_goals simp [unescape, ih]
    · rw [spell, if_neg hc, List.singleton_append, unescape_cons (fun hb => hc (.inr hb)), ih]

/-- A character that does not survive comes back as more than one. -/
theorem length_reread (c : Char) :
    1 ≤ (reread c).length ∧ (¬Survives c → 2 ≤ (reread c).length) := by
  by_cases hc : Survives c
  · simp [reread, hc]
  · obtain ⟨d, ds, hescape, _⟩ := escape_of_not_survives hc
    simp [reread, hc, hescape]

theorem length_le_flatMap_reread (cs : List Char) : cs.length ≤ (cs.flatMap reread).length := by
  induction cs with
  | nil => exact Nat.le_refl _
  | cons c cs ih =>
    have hc := (length_reread c).1
    rw [List.flatMap_cons, List.length_append, List.length_cons]
    omega

theorem flatMap_reread_eq_self_iff {cs : List Char} :
    cs.flatMap reread = cs ↔ ∀ c ∈ cs, Survives c := by
  refine ⟨fun h => ?_, flatMap_reread⟩
  induction cs with
  | nil => simp
  | cons c cs ih =>
    by_cases hc : Survives c
    · rw [List.flatMap_cons, reread, if_pos hc, List.singleton_append] at h
      exact List.forall_mem_cons.mpr ⟨hc, ih (List.cons.inj h).2⟩
    · -- nothing makes up for the length of the escape
      have hlong := (length_reread c).2 hc
      have hrest := length_le_flatMap_reread cs
      have hlength := congrArg List.length h
      rw [List.flatMap_cons, List.length_append, List.length_cons] at hlength
      omega

end Text

theorem Typed.Definition.text_named (d : Typed.Definition) (name : String) :
    { d with onnxName := some name }.text =
      Text.form d.keyword [d.name, d.type.name, Text.bracketed d.shape, Text.quote name] := by
  simp only [text, keyword, List.cons_append, List.nil_append]

namespace Token

/-- The text is one string, and nothing else. -/
def IsString (file text value : String) : Prop :=
  ∃ span span', tokenize text file = .ok [⟨.string, value, span⟩, Token.ending span']

theorem IsString.unique {file text value value' : String} (h : IsString file text value)
    (h' : IsString file text value') : value = value' := by
  obtain ⟨_, _, htok⟩ := h
  obtain ⟨_, _, htok'⟩ := h'
  cases htok.symm.trans htok'
  rfl

theorem Lexes.isString {text value : String} (h : Lexes Anything text .string value)
    (file : String) : IsString file text value := by
  obtain ⟨row, span, ⟨span', rfl⟩, htok⟩ := (h.reads.before fun _ _ => trivial).tokenize file
  exact ⟨span', span, htok⟩

theorem Shape.closing?_spell (cs rest : List Char) :
    closing? (cs.flatMap Text.spell ++ '"' :: rest) =
      some ⟨cs.flatMap Text.spell ++ ['"'], rest⟩ := by
  induction cs with
  | nil => cases rest <;> rfl
  | cons c cs ih =>
    rw [List.flatMap_cons, List.append_assoc]
    by_cases hc : c = '"' ∨ c = '\\'
    · rw [Text.spell, if_pos hc]
      rcases hc with rfl | rfl
      all_goals simp [closing?, ih, Cut.behind]
    · obtain ⟨hq, hb⟩ := not_or.mp hc
      rw [Text.spell, if_neg hc, List.singleton_append, closing?_cons hq hb, ih]
      rfl

/-- Every text is the value of a string. -/
theorem isString_spelled (file value : String) :
    IsString file (String.ofList ('"' :: (value.toList.flatMap Text.spell ++ ['"']))) value := by
  refine Lexes.isString (fun rest _ => ⟨.string, ?_, fun span => ?_⟩) file
  · have hclosing : Shape.closing? ((value.toList.flatMap Text.spell ++ ['"']) ++ rest) =
        some ⟨value.toList.flatMap Text.spell ++ ['"'], rest⟩ := by
      simpa using Shape.closing?_spell value.toList rest
    simpa using Shape.first?_string hclosing
  · simp [Shape.token?, Text.unescape_spell]

/-- Any text can be the name of a node. A tensor is written with that name in quotes, which is read
as one string; and the string is the name exactly if all characters of the name survive. Those that
do not come back as the escapes they are written by. -/
theorem quote_reread (file name : String) :
    (∃ text, IsString file text name) ∧
      (∀ d : Typed.Definition, { d with onnxName := some name }.text =
        Text.form d.keyword [d.name, d.type.name, Text.bracketed d.shape, Text.quote name]) ∧
      IsString file (Text.quote name) (String.ofList (name.toList.flatMap Text.reread)) ∧
      (IsString file (Text.quote name) name ↔ ∀ c ∈ name.toList, Text.Survives c) := by
  have hread := (lexes_quote name).isString file
  refine ⟨⟨_, isString_spelled file name⟩, fun d => d.text_named name, hread, ?_⟩
  rw [← Text.flatMap_reread_eq_self_iff, ← String.ofList_inj, String.ofList_toList]
  constructor
  · intro h
    exact hread.unique h
  · intro h
    rwa [h] at hread

/-- A carriage return can stand in a name, and is written as a backslash with an `r`. The reader
takes these for two characters. -/
theorem carriageReturn_not_reread :
    IsString "q" "\"\r\"" "\r" ∧ Text.quote "\r" = "\"\\r\"" ∧ IsString "q" "\"\\r\"" "\\r" ∧
      ¬IsString "q" (Text.quote "\r") "\r" := by
  have hquote : Text.quote "\r" = "\"\\r\"" := by decide +kernel
  have hreread : IsString "q" "\"\\r\"" "\\r" := by
    have hvalue : String.ofList ("\r".toList.flatMap Text.reread) = "\\r" := by decide +kernel
    rw [← hquote, ← hvalue]
    exact (lexes_quote "\r").isString "q"
  refine ⟨isString_spelled "q" "\r", hquote, hreread, ?_⟩
  intro h
  rw [hquote] at h
  exact absurd (hreread.unique h) (by decide)

end Token
end NeuralQuery
