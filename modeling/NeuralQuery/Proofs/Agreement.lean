import NeuralQuery.Proofs.WellTyped
import NeuralQuery.Typing.Expr

/-!
# NeuralQuery.Proofs.Agreement

The running type of a row of operands against the type they have in common.

`agree` looks at one operand after the other and keeps one type; `Agrees` does not know an order.
One step extends what the operands so far agree on by one more type (`Agrees.snoc`), and a whole
run without a report ends with the common type (`agree_iff`). A form settles on a known type
exactly if its operands agree on it (`settle_iff`).
-/

namespace NeuralQuery

/-! ## Literal kinds -/

namespace LiteralKind

theorem eq_of_rank {j k : LiteralKind} (h : j.rank = k.rank) : j = k := by
  cases j <;> cases k <;> simp_all [rank]

/-- What the more demanding kind may adopt, the other one may adopt too. -/
theorem admits_of_rank_le {j k : LiteralKind} {t : ElementType} (h : j.rank ≤ k.rank)
    (hk : k.admits t = true) : j.admits t = true := by
  cases j <;> cases k <;> simp_all [rank, admits, ElementType.isInteger]
  rcases hk with hk | hk <;> simp [hk]

theorem join_eq_or (j k : LiteralKind) : j.join k = j ∨ j.join k = k := by
  unfold join
  split <;> simp

theorem rank_join_left (j k : LiteralKind) : j.rank ≤ (j.join k).rank := by
  unfold join
  split <;> omega

theorem rank_join_right (j k : LiteralKind) : k.rank ≤ (j.join k).rank := by
  unfold join
  split <;> omega

end LiteralKind

/-! ## Agreement -/

namespace Agrees

variable {types : List ValueType} {t u v : ValueType}

theorem ne_unknown (h : Agrees types t) : t ≠ .unknown := by
  cases h <;> simp

theorem mem_ne_unknown (h : Agrees types t) (hv : v ∈ types) : v ≠ .unknown := by
  cases h with
  | element _ _ hall =>
    rcases hall v hv with rfl | ⟨k, rfl, _⟩ <;> simp
  | literal _ hall =>
    obtain ⟨k, rfl, _⟩ := hall v hv
    simp

theorem mem (h : Agrees types t) : t ∈ types := by
  cases h <;> assumption

theorem ne_nil (h : Agrees types t) : types ≠ [] :=
  List.ne_nil_of_mem h.mem

theorem isNumeric (h : Agrees types t) (hv : v ∈ types) : v.isNumeric = true := by
  cases h with
  | element hn _ hall =>
    rcases hall v hv with rfl | ⟨k, rfl, _⟩
    · exact hn
    · rfl
  | literal _ hall =>
    obtain ⟨k, rfl, _⟩ := hall v hv
    rfl

/-- Literals alone always agree. -/
theorem of_literals (hne : types ≠ []) (hall : ∀ v ∈ types, ∃ k, v = .literal k) :
    ∃ k, Agrees types (.literal k) := by
  induction types with
  | nil => exact absurd rfl hne
  | cons v vs ih =>
    obtain ⟨j, rfl⟩ := hall v (by simp)
    by_cases hvs : vs = []
    · subst hvs
      exact ⟨j, .literal (by simp) (by simp)⟩
    · obtain ⟨k, hk⟩ := ih hvs fun v hv => hall v (by simp [hv])
      cases hk with
      | literal hmem hle =>
        -- the larger of the first literal and the most demanding one of the rest
        rcases Nat.le_total j.rank k.rank with hjk | hkj
        · refine ⟨k, .literal (by simp [hmem]) ?_⟩
          rintro v (_ | ⟨_, hv⟩)
          · exact ⟨j, rfl, hjk⟩
          · exact hle v hv
        · refine ⟨j, .literal (by simp) ?_⟩
          rintro v (_ | ⟨_, hv⟩)
          · exact ⟨j, rfl, Nat.le_refl _⟩
          · obtain ⟨i, rfl, hi⟩ := hle v hv
            exact ⟨i, rfl, by omega⟩

/-- Some of the operands that agree agree among themselves. -/
theorem of_subset {some : List ValueType} (hne : some ≠ []) (hsub : some ⊆ types)
    (h : Agrees types t) : ∃ u, Agrees some u := by
  cases h with
  | @element e hn _ hall =>
    by_cases he : .element e ∈ some
    · exact ⟨_, .element hn he fun v hv => hall v (hsub hv)⟩
    · obtain ⟨k, hk⟩ := of_literals hne fun v hv => by
        rcases hall v (hsub hv) with rfl | ⟨k, rfl, _⟩
        · exact absurd hv he
        · exact ⟨k, rfl⟩
      exact ⟨_, hk⟩
  | literal _ hall =>
    obtain ⟨k, hk⟩ := of_literals hne fun v hv => by
      obtain ⟨j, rfl, _⟩ := hall v (hsub hv)
      exact ⟨j, rfl⟩
    exact ⟨_, hk⟩

theorem unique (ht : Agrees types t) (hu : Agrees types u) : t = u := by
  cases ht with
  | element _ hmem hall =>
    cases hu with
    | element _ _ hall' => simpa using hall' _ hmem
    | literal _ hall' => simpa using hall' _ hmem
  | @literal j hmem hall =>
    cases hu with
    | element _ hmem' _ => simpa using hall _ hmem'
    | @literal k hmem' hall' =>
      have hjk : j.rank ≤ k.rank := by simpa using hall' _ hmem
      have hkj : k.rank ≤ j.rank := by simpa using hall _ hmem'
      rw [LiteralKind.eq_of_rank (Nat.le_antisymm hjk hkj)]

theorem singleton_iff : Agrees [v] t ↔ v.isNumeric = true ∧ v = t := by
  constructor
  · intro h
    exact ⟨h.isNumeric (by simp), (List.mem_singleton.mp h.mem).symm⟩
  · rintro ⟨hn, rfl⟩
    cases v with
    | element e => exact .element hn (by simp) (by simp)
    | literal k => exact .literal (by simp) (by simp)
    | unknown => cases hn

/-- Behind operands with an element type, another one has it or may adopt it. -/
theorem snoc_element {e : ElementType} (h : Agrees types (.element e)) (hv : v ≠ .unknown) :
    Agrees (types ++ [v]) u ↔ v.isNumeric = true ∧ (ValueType.element e).unify v = some u := by
  cases h with
  | element hn hmem hall =>
  have hfit : Agrees (types ++ [v]) u ↔
      .element e = u ∧ (v = .element e ∨ ∃ k, v = .literal k ∧ k.admits e = true) := by
    constructor
    · intro h
      cases h with
      | element _ _ hall' =>
        have he := hall' (.element e) (by simp [hmem])
        have hv := hall' v (by simp)
        simp_all
      | literal _ hall' => simpa using hall' (.element e) (by simp [hmem])
    · rintro ⟨rfl, hv⟩
      refine .element hn (by simp [hmem]) fun w hw => ?_
      rcases List.mem_append.mp hw with hw | hw
      · exact hall w hw
      · rw [List.mem_singleton.mp hw]
        exact hv
  rw [hfit]
  cases v with
  | unknown => exact absurd rfl hv
  | element f =>
    by_cases hef : e = f
    · subst hef
      simp [ValueType.isNumeric, ValueType.unify, hn]
    · simp [ValueType.unify, hef, Ne.symm hef]
  | literal k =>
    by_cases hk : k.admits e = true
    · simp [ValueType.isNumeric, ValueType.unify, hk]
    · simp [ValueType.unify, hk]

/-- Behind literals, an element type has to be admitted by the most demanding of them. -/
theorem snoc_literal_element {j : LiteralKind} {f : ElementType}
    (h : Agrees types (.literal j)) :
    Agrees (types ++ [.element f]) u ↔
      f.isNumeric = true ∧ j.admits f = true ∧ .element f = u := by
  cases h with
  | literal hmem hall =>
  constructor
  · intro h
    cases h with
    | element hg _ hall' =>
      have hj := hall' (.literal j) (by simp [hmem])
      have hf := hall' (.element f) (by simp)
      simp_all
    | literal _ hall' => simpa using hall' (.element f) (by simp)
  · rintro ⟨hf, hj, rfl⟩
    refine .element hf (by simp) fun w hw => ?_
    rcases List.mem_append.mp hw with hw | hw
    · obtain ⟨i, rfl, hi⟩ := hall w hw
      exact .inr ⟨i, rfl, LiteralKind.admits_of_rank_le hi hj⟩
    · exact .inl (List.mem_singleton.mp hw)

/-- Behind literals, one more literal leaves the more demanding kind. -/
theorem snoc_literal_literal {j k : LiteralKind} (h : Agrees types (.literal j)) :
    Agrees (types ++ [.literal k]) u ↔ .literal (j.join k) = u := by
  have hl := LiteralKind.rank_join_left j k
  have hr := LiteralKind.rank_join_right j k
  have hor := LiteralKind.join_eq_or j k
  cases h with
  | literal hmem hall =>
  constructor
  · intro h
    cases h with
    | element _ hg _ =>
      rcases List.mem_append.mp hg with hg | hg
      · simpa using hall _ hg
      · simp at hg
    | @literal m hm hall' =>
      -- the join is one of two kinds that `m` bounds, and it bounds whatever `m` can be
      have hj : j.rank ≤ m.rank := by simpa using hall' (.literal j) (by simp [hmem])
      have hk : k.rank ≤ m.rank := by simpa using hall' (.literal k) (by simp)
      have hmax : m.rank ≤ (j.join k).rank := by
        rcases List.mem_append.mp hm with hm | hm
        · have hmj : m.rank ≤ j.rank := by simpa using hall _ hm
          omega
        · obtain rfl : m = k := by simpa using hm
          exact hr
      have heq : m.rank = (j.join k).rank := by
        rcases hor with h | h <;> rw [h] at hmax ⊢ <;> omega
      rw [LiteralKind.eq_of_rank heq]
  · rintro rfl
    refine .literal ?_ fun w hw => ?_
    · rcases hor with h | h <;> rw [h]
      · exact List.mem_append_left _ hmem
      · simp
    · rcases List.mem_append.mp hw with hw | hw
      · obtain ⟨i, rfl, hi⟩ := hall w hw
        exact ⟨i, rfl, by omega⟩
      · exact ⟨k, List.mem_singleton.mp hw, hr⟩

/-- One more operand: it has to be a number whose type unifies with the common one. -/
theorem snoc (h : Agrees types t) (hv : v ≠ .unknown) :
    Agrees (types ++ [v]) u ↔ v.isNumeric = true ∧ t.unify v = some u := by
  cases t with
  | unknown => exact absurd rfl h.ne_unknown
  | element e => exact snoc_element h hv
  | literal j =>
    cases v with
    | unknown => exact absurd rfl hv
    | element f =>
      rw [snoc_literal_element h]
      by_cases hj : j.admits f = true
      · simp [ValueType.isNumeric, ValueType.unify, hj]
      · simp [ValueType.unify, hj]
    | literal k =>
      rw [snoc_literal_literal h]
      simp [ValueType.isNumeric, ValueType.unify]

end Agrees

/-! ## The running type -/

namespace Typing

open Typed

/-- The operands so far have the types `seen`, on which they agree. The run goes on without a report
exactly if all of them agree. -/
theorem agree_some_iff {operands : List Arith} (hknown : ∀ a ∈ operands, a.type ≠ .unknown) :
    ∀ {seen : List ValueType} {t u : ValueType}, Agrees seen t →
      ((agree (some t) operands).diagnostics = [] ∧ (agree (some t) operands).value = some u ↔
        Agrees (seen ++ operands.map Arith.type) u) := by
  induction operands with
  | nil =>
    intro seen t u h
    simp only [agree, Checked.diagnostics_pure, Checked.value_pure, true_and, Option.some.injEq,
      List.map_nil, List.append_nil]
    constructor
    · rintro rfl
      exact h
    · exact h.unique
  | cons a operands ih =>
    intro seen t u h
    have ha : a.type ≠ .unknown := hknown a (by simp)
    have hrest : ∀ b ∈ operands, b.type ≠ .unknown := fun b hb => hknown b (by simp [hb])
    rw [List.map_cons, List.append_cons]
    by_cases hn : a.type.isNumeric = true
    · cases hu : t.unify a.type with
      | some w =>
        have hstep : Agrees (seen ++ [a.type]) w := (h.snoc ha).mpr ⟨hn, hu⟩
        simp only [agree, hn, hu, Bool.not_true, Bool.false_eq_true, and_false, if_false]
        exact ih hrest hstep
      | none =>
        simp only [agree, hn, hu, Bool.not_true, Bool.false_eq_true, and_false, if_false,
          Checked.diagnostics_bind, Checked.diagnostics_note]
        constructor
        · rintro ⟨h, _⟩
          cases h
        · intro hall
          obtain ⟨w, hw⟩ := Agrees.of_subset (by simp) (List.subset_append_left ..) hall
          have := ((h.snoc ha).mp hw).2
          simp [hu] at this
    · simp only [agree, ha, hn, ne_eq, not_false_eq_true, Bool.not_false, and_self, if_true,
        Checked.diagnostics_bind, Checked.diagnostics_note]
      constructor
      · rintro ⟨h, _⟩
        cases h
      · intro hall
        exact absurd (hall.isNumeric (by simp)) hn

/-- A row of known types is gone through without a report exactly if they agree. -/
theorem agree_iff {operands : List Arith} {t : ValueType}
    (hknown : ∀ a ∈ operands, a.type ≠ .unknown) :
    (agree none operands).diagnostics = [] ∧ (agree none operands).value = some t ↔
      Agrees (operands.map Arith.type) t := by
  cases operands with
  | nil =>
    simp only [agree, Checked.value_pure, List.map_nil]
    exact ⟨fun h => by simp at h, fun h => absurd rfl h.ne_nil⟩
  | cons a operands =>
    have ha : a.type ≠ .unknown := hknown a (by simp)
    have hrest : ∀ b ∈ operands, b.type ≠ .unknown := fun b hb => hknown b (by simp [hb])
    by_cases hn : a.type.isNumeric = true
    · simp only [agree, hn, Bool.not_true, Bool.false_eq_true, and_false, if_false]
      exact agree_some_iff hrest (Agrees.singleton_iff.mpr ⟨hn, rfl⟩)
    · simp only [agree, ha, hn, ne_eq, not_false_eq_true, Bool.not_false, and_self, if_true,
        Checked.diagnostics_bind, Checked.diagnostics_note]
      constructor
      · rintro ⟨h, _⟩
        cases h
      · intro hall
        exact absurd (hall.isNumeric (by simp)) hn

theorem settle_diagnostics (operands : List Arith) :
    (settle operands).diagnostics = (agree none operands).diagnostics := by
  simp only [settle]
  split <;> rfl

theorem settle_type (operands : List Arith) :
    (settle operands).value.type = commonType operands (agree none operands) := by
  simp only [settle]
  split <;> simp_all

/-- Operands settle on a known type without a report exactly if they agree on it. -/
theorem settle_iff {operands : List Arith} {t : ValueType} :
    (settle operands).diagnostics = [] ∧ (settle operands).value.type = t ∧ t ≠ .unknown ↔
      Agrees (operands.map Arith.type) t := by
  rw [settle_diagnostics, settle_type]
  by_cases hknown : ∀ a ∈ operands, a.type ≠ .unknown
  · have hall : operands.all (fun a => a.type != .unknown) = true := by simpa using hknown
    rw [← agree_iff hknown]
    refine and_congr_right fun hd => ?_
    simp only [commonType, hd, hall, List.isEmpty_nil, Bool.and_self, if_true]
    cases hv : (agree none operands).value with
    | none => simp [eq_comm]
    | some u =>
      have hu : u ≠ .unknown := ((agree_iff hknown).mp ⟨hd, hv⟩).ne_unknown
      simp only [Option.getD_some, Option.some.injEq]
      exact ⟨And.left, fun h => ⟨h, h ▸ hu⟩⟩
  · have hall : operands.all (fun a => a.type != .unknown) = false := by
      simpa [← Bool.not_eq_true] using hknown
    simp only [commonType, hall, Bool.and_false, Bool.false_eq_true, if_false]
    constructor
    · rintro ⟨_, rfl, h⟩
      exact absurd rfl h
    · intro h
      exact absurd (fun a ha => h.mem_ne_unknown (List.mem_map_of_mem ha)) hknown

/-- A run that has a type keeps one. -/
theorem agree_value (t : ValueType) (operands : List Arith) :
    ∃ u, (agree (some t) operands).value = some u := by
  induction operands generalizing t with
  | nil => exact ⟨t, rfl⟩
  | cons a operands ih =>
    simp only [agree]
    split
    · exact ih t
    · split
      · exact ih _
      · exact ih t

/-- Known operands that are gone through without a report settle on a known type. -/
theorem settle_known {operands : List Arith} (hne : operands ≠ [])
    (hknown : ∀ a ∈ operands, a.type ≠ .unknown) (hd : (settle operands).diagnostics = []) :
    (settle operands).value.type ≠ .unknown := by
  have hclean := hd
  rw [settle_diagnostics] at hclean
  obtain ⟨u, hu⟩ : ∃ u, (agree none operands).value = some u := by
    cases operands with
    | nil => exact absurd rfl hne
    | cons a operands =>
      simp only [agree] at hclean ⊢
      split at hclean
      · simp at hclean
      · rename_i hn
        rw [if_neg hn]
        exact agree_value a.type operands
  have hset := settle_iff.mpr ((agree_iff hknown).mp ⟨hclean, hu⟩)
  rw [hset.2.1]
  exact hset.2.2

end Typing
end NeuralQuery
