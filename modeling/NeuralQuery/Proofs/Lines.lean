import NeuralQuery.Text.Line

/-!
# NeuralQuery.Proofs.Lines

Offsets and the lines that hold them (`Text.offset_on_line`).

* `Text.IsCut` : the pieces of a text that is cut after each newline.
* `Text.bytes` : the UTF-8 encoding of a text. An offset counts these bytes, and a newline is one of
  them that no other character has among its own.

The search for an offset takes the length of one piece after the other off it. What a step leaves is
the same search behind the piece, so the number of the line grows by one for each piece that is
passed over, and each of those ends in the only newline it has.
-/

namespace NeuralQuery
namespace Text

/-! ## Pieces -/

/-- Every piece but the last ends in a newline, and there is no newline anywhere else but at the end
of the last one. -/
inductive IsCut : List (List Char) → Prop where
  | nil : IsCut []
  | last {p : List Char} : p ≠ [] → '\n' ∉ p.dropLast → IsCut [p]
  | line {w q : List Char} {ps : List (List Char)} :
      '\n' ∉ w → IsCut (q :: ps) → IsCut ((w ++ ['\n']) :: q :: ps)

theorem IsCut.emptyLine {ps : List (List Char)} (h : IsCut ps) : IsCut (['\n'] :: ps) := by
  cases ps with
  | nil => exact .last (by simp) (by simp)
  | cons q ps => exact .line (w := []) (by simp) h

theorem IsCut.cons {c : Char} (hc : c ≠ '\n') {p : List Char} {ps : List (List Char)}
    (h : IsCut (p :: ps)) : IsCut ((c :: p) :: ps) := by
  cases h with
  | last hne hp =>
    refine .last (by simp) ?_
    rw [List.dropLast_cons_of_ne_nil hne, List.mem_cons, not_or]
    exact ⟨hc.symm, hp⟩
  | line hw hq =>
    rw [← List.cons_append]
    exact .line (by simpa using ⟨hc.symm, hw⟩) hq

theorem pieces_isCut (cs : List Char) : IsCut (pieces cs) := by
  induction cs with
  | nil => exact .nil
  | cons c cs ih =>
    simp only [pieces]
    split
    · rename_i hc
      rw [hc]
      exact ih.emptyLine
    · rename_i hc
      split
      · exact .last (by simp) (by simp)
      · rename_i p ps hps
        rw [hps] at ih
        exact ih.cons hc

theorem pieces_eq_nil_iff {cs : List Char} : pieces cs = [] ↔ cs = [] := by
  constructor
  · intro h
    rw [← pieces_flatten cs, h, List.flatten_nil]
  · rintro rfl
    rfl

theorem IsCut.tail {p : List Char} {ps : List (List Char)} (h : IsCut (p :: ps)) : IsCut ps := by
  cases h with
  | last _ _ => exact .nil
  | line _ h => exact h

/-- A piece that others follow has a newline at its end and nowhere else. -/
theorem IsCut.ends {p : List Char} {ps : List (List Char)} (h : IsCut (p :: ps)) (hps : ps ≠ []) :
    ∃ w, p = w ++ ['\n'] ∧ '\n' ∉ w := by
  cases h with
  | last _ _ => exact absurd rfl hps
  | line hw _ => exact ⟨_, rfl, hw⟩

theorem IsCut.mem {front back : List (List Char)} {p : List Char}
    (h : IsCut (front ++ p :: back)) : p ≠ [] ∧ '\n' ∉ p.dropLast := by
  induction front with
  | nil =>
    cases h with
    | last hne hp => exact ⟨hne, hp⟩
    | line hw _ => exact ⟨by simp, by simpa using hw⟩
  | cons q front ih => exact ih h.tail

/-- What stands before the first newline goes into the first piece. -/
theorem pieces_append_of_notMem {w cs p : List Char} {ps : List (List Char)} (hw : '\n' ∉ w)
    (h : pieces cs = p :: ps) : pieces (w ++ cs) = (w ++ p) :: ps := by
  induction w with
  | nil => exact h
  | cons c w ih =>
    rw [List.mem_cons, not_or] at hw
    rw [List.cons_append, pieces, if_neg (Ne.symm hw.1), ih hw.2]
    rfl

/-- Behind the end of a line the pieces are cut as if nothing stood before. -/
theorem pieces_append {cs : List Char} (h : ∀ c ∈ cs.getLast?, c = '\n') (ds : List Char) :
    pieces (cs ++ ds) = pieces cs ++ pieces ds := by
  induction cs with
  | nil => rfl
  | cons c cs ih =>
    cases cs with
    | nil =>
      obtain rfl := h c rfl
      simp [pieces]
    | cons d cs =>
      have hrest := ih (by simpa using h)
      rw [List.cons_append, pieces, pieces, hrest]
      split
      · rfl
      · obtain ⟨p, ps, hps⟩ :=
          List.exists_cons_of_ne_nil (mt pieces_eq_nil_iff.mp (List.cons_ne_nil d cs))
        rw [hps]
        rfl

theorem pieces_line {w : List Char} (hw : '\n' ∉ w) : pieces (w ++ ['\n']) = [w ++ ['\n']] :=
  pieces_append_of_notMem hw rfl

/-! ## Bytes -/

/-- The UTF-8 encoding of a text. -/
def bytes (cs : List Char) : List UInt8 :=
  cs.flatMap String.utf8EncodeChar

@[simp] theorem bytes_append (cs ds : List Char) : bytes (cs ++ ds) = bytes cs ++ bytes ds :=
  List.flatMap_append

theorem length_bytes (cs : List Char) : (bytes cs).length = byteLength cs := by
  induction cs with
  | nil => rfl
  | cons c cs ih =>
    rw [← List.singleton_append, bytes_append, List.length_append, ih, byteLength_append]
    simp [bytes]

/-- The byte of a newline. -/
def newline : UInt8 :=
  10

theorem bytes_newline : bytes ['\n'] = [newline] := rfl

/-- The bytes of a longer encoding have their highest bit set. -/
theorem eq_newline_of_mem {c : Char} (h : newline ∈ String.utf8EncodeChar c) : c = '\n' := by
  have hbyte : ∀ {n : Nat}, newline = UInt8.ofNat n → n % 256 = 10 := by
    intro n hn
    simpa [newline] using (congrArg UInt8.toNat hn).symm
  delta String.utf8EncodeChar at h
  dsimp only at h
  split at h
  · have hten := hbyte (List.mem_singleton.mp h)
    have hval : c.val.toNat = 10 := by omega
    exact Char.ext (UInt32.toNat_inj.mp hval)
  · exfalso
    split at h
    · simp only [List.mem_cons, List.not_mem_nil, or_false] at h
      rcases h with h | h <;> have := hbyte h <;> omega
    · split at h <;> simp only [List.mem_cons, List.not_mem_nil, or_false] at h
      · rcases h with h | h | h <;> have := hbyte h <;> omega
      · rcases h with h | h | h | h <;> have := hbyte h <;> omega

theorem newline_mem_bytes {cs : List Char} : newline ∈ bytes cs ↔ '\n' ∈ cs := by
  rw [bytes, List.mem_flatMap]
  constructor
  · rintro ⟨c, hc, h⟩
    rwa [← eq_newline_of_mem h]
  · intro h
    exact ⟨'\n', h, by decide⟩

/-- The pieces in front of another one have as many newlines as they are. -/
theorem IsCut.count_newline {front back : List (List Char)} {p : List Char}
    (h : IsCut (front ++ p :: back)) : (bytes front.flatten).count newline = front.length := by
  induction front with
  | nil => rfl
  | cons q front ih =>
    obtain ⟨w, rfl, hw⟩ := IsCut.ends h (by simp)
    have hnone : (bytes w).count newline = 0 :=
      List.count_eq_zero.mpr fun hmem => hw (newline_mem_bytes.mp hmem)
    rw [List.flatten_cons, bytes_append, bytes_append, bytes_newline, List.count_append,
      List.count_append, hnone, ih h.tail, List.length_cons, List.count_singleton_self,
      Nat.zero_add, Nat.add_comm]

/-- A newline is no other byte of its piece than the last. -/
theorem count_newline_take {p : List Char} (hne : p ≠ []) (hp : '\n' ∉ p.dropLast) {o : Nat}
    (ho : o < byteLength p) : ((bytes p).take o).count newline = 0 := by
  rw [List.count_eq_zero]
  intro hmem
  have hsplit := List.dropLast_concat_getLast hne
  generalize p.dropLast = w at hp hsplit
  generalize p.getLast hne = c at hsplit
  rw [← hsplit, byteLength_append] at ho
  rw [← hsplit, bytes_append, List.take_append, List.mem_append, length_bytes] at hmem
  rcases hmem with hmem | hmem
  · exact hp (newline_mem_bytes.mp (List.mem_of_mem_take hmem))
  · obtain rfl : '\n' = c := by simpa using newline_mem_bytes.mp (List.mem_of_mem_take hmem)
    have hnone : o - byteLength w = 0 := by
      have hone : byteLength ['\n'] = 1 := rfl
      omega
    rw [hnone] at hmem
    cases hmem

/-! ## The search for an offset -/

/-- An offset inside the pieces is an offset inside one of them. -/
theorem exists_piece {ps : List (List Char)} {position : Nat}
    (h : position < byteLength ps.flatten) :
    ∃ front p back o, ps = front ++ p :: back ∧ position = byteLength front.flatten + o ∧
      o < byteLength p := by
  induction ps generalizing position with
  | nil => simp at h
  | cons p ps ih =>
    rw [List.flatten_cons, byteLength_append] at h
    by_cases hp : position < byteLength p
    · exact ⟨[], p, ps, position, rfl, by simp, hp⟩
    · have hrest : position - byteLength p < byteLength ps.flatten := by omega
      obtain ⟨front, q, back, o, rfl, hpos, ho⟩ := ih hrest
      refine ⟨p :: front, q, back, o, rfl, ?_, ho⟩
      rw [List.flatten_cons, byteLength_append]
      omega

/-- The search passes over the pieces in front and takes their length off the offset. -/
theorem Line.within_append {p : List Char} {o : Nat} (ho : o < byteLength p) (number : Nat)
    (front back : List (List Char)) :
    Line.within number (byteLength front.flatten + o) (front ++ p :: back) =
      ⟨number + front.length, p, o⟩ := by
  induction front generalizing number with
  | nil => cases back <;> simp [Line.within, ho]
  | cons q front ih =>
    obtain ⟨r, rs, hr⟩ : ∃ r rs, front ++ p :: back = r :: rs :=
      List.exists_cons_of_ne_nil (by simp)
    have hstep := ih (number + 1)
    rw [hr] at hstep
    rw [List.cons_append, hr, Line.within, List.flatten_cons, byteLength_append,
      if_neg (by omega), Nat.add_assoc, Nat.add_sub_cancel_left, hstep, List.length_cons,
      Nat.add_right_comm, Nat.add_assoc]

/-- An offset behind all pieces is put behind what can be seen of the last one. -/
theorem Line.within_of_ge {front : List (List Char)} {last : List Char} {position : Nat}
    (h : byteLength (front ++ [last]).flatten ≤ position) (number : Nat) :
    Line.within number position (front ++ [last]) =
      ⟨number + front.length, last, byteLength (trimEnd last)⟩ := by
  induction front generalizing number position with
  | nil =>
    have hlast : ¬ position < byteLength last := by simpa using h
    simp [Line.within, hlast]
  | cons p front ih =>
    rw [List.cons_append, List.flatten_cons, byteLength_append] at h
    obtain ⟨q, qs, hq⟩ : ∃ q qs, front ++ [last] = q :: qs :=
      List.exists_cons_of_ne_nil (by simp)
    have hrest : byteLength (front ++ [last]).flatten ≤ position - byteLength p := by omega
    have hstep := ih hrest (number + 1)
    rw [hq] at hstep
    rw [List.cons_append, hq, Line.within, if_neg (by omega), hstep, List.length_cons,
      Nat.add_right_comm, Nat.add_assoc]

/-- What trimming leaves and the white space behind it. -/
theorem trimEnd_split (cs : List Char) :
    ∃ gap, cs = trimEnd cs ++ gap ∧ (∀ c ∈ gap, isBlank c = true) ∧
      ∀ c ∈ (trimEnd cs).getLast?, isBlank c = false := by
  refine ⟨(cs.reverse.takeWhile isBlank).reverse, ?_, ?_, ?_⟩
  · rw [trimEnd, ← List.reverse_append, List.takeWhile_append_dropWhile, List.reverse_reverse]
  · intro c hc
    exact List.all_eq_true.mp List.all_takeWhile c (List.mem_reverse.mp hc)
  · intro c hc
    rw [trimEnd, List.getLast?_reverse] at hc
    have hnot := List.head?_dropWhile_not isBlank cs.reverse
    rw [hc] at hnot
    exact hnot

/-- An offset is found in the piece that holds its byte, which has the number of newlines before the
offset and one more as its number. An offset at the end or behind it is found in the last piece, if
there is one, behind what can be seen of it. -/
theorem offset_on_line (content : List Char) (position : Nat) :
    (pieces content).flatten = content ∧ IsCut (pieces content) ∧
    (position < byteLength content → ∃ front p back o,
      pieces content = front ++ p :: back ∧ position = byteLength front.flatten + o ∧
      o < byteLength p ∧
      Line.ofOffset content position =
        ⟨1 + ((bytes content).take position).count newline, p, o⟩) ∧
    (byteLength content ≤ position → content ≠ [] → ∃ front visible gap,
      pieces content = front ++ [visible ++ gap] ∧ (∀ c ∈ gap, isBlank c = true) ∧
      (∀ c ∈ visible.getLast?, isBlank c = false) ∧
      Line.ofOffset content position =
        ⟨(pieces content).length, visible ++ gap, byteLength visible⟩) ∧
    (content = [] → Line.ofOffset content position = ⟨1, [], 0⟩) := by
  refine ⟨pieces_flatten content, pieces_isCut content, fun h => ?_, fun h hne => ?_, ?_⟩
  · rw [← pieces_flatten content] at h
    obtain ⟨front, p, back, o, heq, hpos, ho⟩ := exists_piece h
    refine ⟨front, p, back, o, heq, hpos, ho, ?_⟩
    have hcut : IsCut (front ++ p :: back) := heq ▸ pieces_isCut content
    obtain ⟨hne, hp⟩ := hcut.mem
    -- the bytes before the offset are those of the pieces in front and some of its own piece
    have hbytes : (bytes content).take position = bytes front.flatten ++ (bytes p).take o := by
      have hcontent : content = front.flatten ++ (p ++ back.flatten) := by
        rw [← pieces_flatten content, heq, List.flatten_append, List.flatten_cons]
      rw [hcontent, bytes_append, bytes_append, hpos, ← length_bytes, List.take_length_add_append,
        List.take_append_of_le_length]
      rw [length_bytes]
      exact Nat.le_of_lt ho
    rw [hbytes, List.count_append, hcut.count_newline, count_newline_take hne hp ho, Line.ofOffset,
      heq, hpos]
    exact Line.within_append ho 1 front back
  · rw [← pieces_flatten content] at h
    obtain ⟨front, last, heq⟩ : ∃ front last, pieces content = front ++ [last] :=
      ⟨_, _, (List.dropLast_concat_getLast (mt pieces_eq_nil_iff.mp hne)).symm⟩
    obtain ⟨gap, hlast, hgap, hvisible⟩ := trimEnd_split last
    rw [heq] at h
    have hline := Line.within_of_ge h 1
    rw [← heq] at hline
    refine ⟨front, trimEnd last, gap, by rw [heq, ← hlast], hgap, hvisible, ?_⟩
    rw [← hlast, Line.ofOffset, hline, heq, List.length_append, List.length_singleton,
      Nat.add_comm]
  · rintro rfl
    rfl

end Text
end NeuralQuery
