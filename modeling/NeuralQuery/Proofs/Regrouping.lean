import NeuralQuery.Proofs.FailureReports
import NeuralQuery.Proofs.Reparsing

/-!
# NeuralQuery.Proofs.Regrouping

Sums and products are typed the same in any order of their operands and with any grouping of them
(`Query.aggregates_regroup`), but for groups that are left without a type and without a report.

Operands are gone through from left to right with a running type. But the type on which they settle
is the largest one among theirs, in an order with the literals below the element types that admit
them (`agrees_iff`), so it depends neither on their order nor on which of them were settled first
(`Agrees.group_iff`). Operands without a type are passed over: there is nothing to report exactly if
the others agree (`settle_clean_iff`).
-/

namespace NeuralQuery

open Typed (Arith)

/-! ## The order of types -/

/-- An operand of the first type goes into a form of the second one. -/
inductive ValueType.Fits : ValueType → ValueType → Prop where
  | same (t : ElementType) : Fits (.element t) (.element t)
  | adopts {k : LiteralKind} {t : ElementType} : k.admits t = true → Fits (.literal k) (.element t)
  | literal {j k : LiteralKind} : j.rank ≤ k.rank → Fits (.literal j) (.literal k)

theorem ValueType.Fits.trans {t u v : ValueType} (htu : t.Fits u) (huv : u.Fits v) : t.Fits v := by
  cases huv with
  | same e => exact htu
  | adopts hk =>
    cases htu with
    | literal hjk => exact .adopts (LiteralKind.admits_of_rank_le hjk hk)
  | literal hkl =>
    cases htu with
    | literal hjk => exact .literal (Nat.le_trans hjk hkl)

theorem ValueType.Fits.antisymm {t u : ValueType} (htu : t.Fits u) (hut : u.Fits t) : t = u := by
  cases htu with
  | same e => rfl
  | adopts hk => cases hut
  | literal hjk =>
    cases hut with
    | literal hkj => rw [LiteralKind.eq_of_rank (Nat.le_antisymm hjk hkj)]

/-- What operands agree on is the largest of their types, if that is a type of numbers. -/
theorem agrees_iff {types : List ValueType} {t : ValueType} :
    Agrees types t ↔ t.isNumeric = true ∧ t ∈ types ∧ ∀ v ∈ types, v.Fits t := by
  constructor
  · intro h
    refine ⟨h.isNumeric h.mem, h.mem, fun v hv => ?_⟩
    cases h with
    | element _ _ hall =>
      rcases hall v hv with rfl | ⟨k, rfl, hk⟩
      · exact .same _
      · exact .adopts hk
    | literal _ hall =>
      obtain ⟨j, rfl, hj⟩ := hall v hv
      exact .literal hj
  · rintro ⟨hn, hmem, hall⟩
    cases t with
    | unknown => cases hn
    | element e =>
      refine .element hn hmem fun v hv => ?_
      cases hall v hv with
      | same _ => exact .inl rfl
      | adopts hk => exact .inr ⟨_, rfl, hk⟩
    | literal k =>
      refine .literal hmem fun v hv => ?_
      cases hall v hv with
      | literal hj => exact ⟨_, rfl, hj⟩

namespace Agrees

variable {types types' group rest : List ValueType} {t u : ValueType}

theorem perm_iff (h : types.Perm types') : Agrees types t ↔ Agrees types' t := by
  simp only [agrees_iff, h.mem_iff]

/-- A group counts as the type that it agrees on. -/
theorem group_iff (h : Agrees group u) : Agrees (group ++ rest) t ↔ Agrees (u :: rest) t := by
  obtain ⟨_, hu, hall⟩ := agrees_iff.mp h
  simp only [agrees_iff, List.mem_append, List.mem_cons]
  refine and_congr_right fun _ => ?_
  constructor
  · rintro ⟨hmem, hfit⟩
    refine ⟨?_, ?_⟩
    · rcases hmem with hmem | hmem
      · exact .inl ((hall t hmem).antisymm (hfit u (.inl hu)))
      · exact .inr hmem
    · rintro v (rfl | hv)
      · exact hfit v (.inl hu)
      · exact hfit v (.inr hv)
  · rintro ⟨hmem, hfit⟩
    refine ⟨?_, ?_⟩
    · rcases hmem with rfl | hmem
      · exact .inl hu
      · exact .inr hmem
    · rintro v (hv | hv)
      · exact (hall v hv).trans (hfit u (.inl rfl))
      · exact hfit v (.inr hv)

end Agrees

/-! ## Operands without a type -/

namespace Typing

open Checked

/-- The operands that have a type. -/
def known (operands : List Arith) : List Arith :=
  operands.filter fun a => a.type != .unknown

theorem type_of_mem_known {operands : List Arith} {a : Arith} (h : a ∈ known operands) :
    a.type ≠ .unknown := by
  simpa using (List.mem_filter.mp h).2

theorem known_eq_self {operands : List Arith} (h : ∀ a ∈ operands, a.type ≠ .unknown) :
    known operands = operands := by
  exact List.filter_eq_self.mpr fun a ha => by simpa using h a ha

theorem agree_unknown (operands : List Arith) :
    (agree (some .unknown) operands).diagnostics = (agree none operands).diagnostics := by
  induction operands with
  | nil => rfl
  | cons a operands ih =>
    simp only [agree, ValueType.unify]
    split
    · simp only [diagnostics_bind, ih]
    · rfl

/-- Operands without a type are passed over. -/
theorem agree_known (running : Option ValueType) (operands : List Arith) :
    (agree running operands).diagnostics = (agree running (known operands)).diagnostics := by
  induction operands generalizing running with
  | nil => rfl
  | cons a operands ih =>
    by_cases ha : a.type = .unknown
    · have hskip : known (a :: operands) = known operands := by simp [known, ha]
      rw [hskip, ← ih]
      cases running with
      | none => simpa [agree, ha] using agree_unknown operands
      | some t =>
        have ht : t.unify .unknown = some t := by cases t <;> rfl
        simp [agree, ha, ht]
    · have hkeep : known (a :: operands) = a :: known operands := by simp [known, ha]
      rw [hkeep]
      simp only [agree]
      split
      · simp only [diagnostics_bind, ih]
      · cases running with
        | none => exact ih _
        | some t =>
          cases hu : t.unify a.type with
          | some u => simp only [hu, ih]
          | none => simp only [hu, diagnostics_bind, ih]

/-- Operands have nothing to report exactly if those of them that have a type agree. -/
theorem settle_clean_iff {operands : List Arith} :
    (settle operands).diagnostics = [] ↔
      known operands = [] ∨ ∃ t, Agrees ((known operands).map Arith.type) t := by
  rw [settle_diagnostics, agree_known, ← settle_diagnostics]
  constructor
  · intro hclean
    by_cases hne : known operands = []
    · exact .inl hne
    · exact .inr ⟨_, settle_agrees (settle_known hne (fun _ => type_of_mem_known) hclean)⟩
  · rintro (hnil | ⟨t, ht⟩)
    · rw [hnil]
      rfl
    · exact (settle_iff.mpr ht).1

theorem settle_clean_of_subset {operands some : List Arith} (hsub : some ⊆ operands)
    (h : (settle operands).diagnostics = []) : (settle some).diagnostics = [] := by
  rw [settle_clean_iff] at h ⊢
  by_cases hne : known some = []
  · exact .inl hne
  · have hknown : known some ⊆ known operands := List.filter_subset _ hsub
    rcases h with hnil | ⟨t, ht⟩
    · rw [hnil] at hknown
      exact absurd (List.subset_nil.mp hknown) hne
    · refine .inr (ht.of_subset ?_ (List.map_subset _ hknown))
      simpa using hne

/-! ## Order and grouping -/

theorem settle_type_congr {as bs : List Arith}
    (h : ∀ t, Agrees (as.map Arith.type) t ↔ Agrees (bs.map Arith.type) t) :
    (settle as).value.type = (settle bs).value.type := by
  by_cases ha : (settle as).value.type = .unknown
  · by_cases hb : (settle bs).value.type = .unknown
    · rw [ha, hb]
    · exact (settle_iff.mpr ((h _).mpr (settle_agrees hb))).2.1
  · exact (settle_iff.mpr ((h _).mp (settle_agrees ha))).2.1.symm

section
variable {as bs : List Arith} (h : as.Perm bs)
include h

theorem settle_type_perm : (settle as).value.type = (settle bs).value.type :=
  settle_type_congr fun _ => Agrees.perm_iff (h.map _)

theorem settle_clean_perm : (settle as).diagnostics = [] ↔ (settle bs).diagnostics = [] :=
  ⟨settle_clean_of_subset h.symm.subset, settle_clean_of_subset h.subset⟩

end

section
variable {group rest : List Arith} {a : Arith} (ha : a.type = (settle group).value.type)
include ha

theorem settle_type_group (hne : group ≠ []) :
    (settle (group ++ rest)).value.type = (settle (a :: rest)).value.type := by
  refine settle_type_congr fun t => ?_
  rw [List.map_append, List.map_cons]
  by_cases hu : a.type = .unknown
  · -- neither the row nor the group alone can agree on a type
    refine iff_of_false (fun h => ?_) fun h => ?_
    · obtain ⟨u, hgroup⟩ := h.of_subset (by simpa using hne) (List.subset_append_left _ _)
      have hsettled := settle_iff.mpr hgroup
      exact hsettled.2.2 (hsettled.2.1 ▸ ha ▸ hu)
    · exact h.mem_ne_unknown (List.mem_cons_self) hu
  · have hgroup := settle_agrees (ha ▸ hu)
    rw [← ha] at hgroup
    exact hgroup.group_iff

/-- A group with a type leaves as much to report as its operands do. -/
theorem settle_clean_group_iff (hu : a.type ≠ .unknown) :
    (settle (group ++ rest)).diagnostics = [] ↔ (settle (a :: rest)).diagnostics = [] := by
  have hgroup := settle_agrees (ha ▸ hu)
  rw [← ha] at hgroup
  have hsplit : known (group ++ rest) = group ++ known rest := by
    rw [known, List.filter_append]
    congr 1
    exact known_eq_self fun b hb => hgroup.mem_ne_unknown (List.mem_map_of_mem hb)
  have hcons : known (a :: rest) = a :: known rest := by simp [known, hu]
  rw [settle_clean_iff, settle_clean_iff, hsplit, hcons, List.map_append, List.map_cons]
  have hne : group ++ known rest ≠ [] := by
    have := hgroup.ne_nil
    simp_all
  simp only [hne, List.cons_ne_nil, false_or, hgroup.group_iff]

/-- If there is nothing to report of a row, there is nothing to report of a group in it and of the
row with that group settled. -/
theorem settle_clean_group (h : (settle (group ++ rest)).diagnostics = []) :
    (settle group).diagnostics = [] ∧ (settle (a :: rest)).diagnostics = [] := by
  refine ⟨settle_clean_of_subset (List.subset_append_left _ _) h, ?_⟩
  by_cases hu : a.type = .unknown
  · have hrest := settle_clean_of_subset (List.subset_append_right _ _) h
    have hskip : known (a :: rest) = known rest := by simp [known, hu]
    rw [settle_clean_iff] at hrest ⊢
    rwa [hskip]
  · exact (settle_clean_group_iff ha hu).mp h

end

/-! ## Expressions -/

variable {table : SymbolTable} {policy : LiteralPolicy}

variable (table policy) in
/-- Two expressions get the same type, and nothing is reported of one exactly if nothing is of the
other. -/
structure TypedAlike (e f : Expr) : Prop where
  type : (arith table policy e).value.type = (arith table policy f).value.type
  clean : (arith table policy e).diagnostics = [] ↔ (arith table policy f).diagnostics = []

theorem TypedAlike.trans {e f g : Expr} (hef : TypedAlike table policy e f)
    (hfg : TypedAlike table policy f g) : TypedAlike table policy e g :=
  ⟨hef.type.trans hfg.type, hef.clean.trans hfg.clean⟩

variable (table policy) in
theorem aggregate_type (op : Aggregate) (es : List Expr) (s : Span) :
    (arith table policy (.aggregate op es s)).value.type =
      (settle (es.map fun e => (arith table policy e).value)).value.type := by
  simp [arith_aggregate, aggregation, ariths_value, Arith.type]

theorem aggregate_clean_iff {op : Aggregate} {es : List Expr} {s : Span} :
    (arith table policy (.aggregate op es s)).diagnostics = [] ↔
      (∀ e ∈ es, (arith table policy e).diagnostics = []) ∧
        (settle (es.map fun e => (arith table policy e).value)).diagnostics = [] := by
  simp [arith_aggregate, aggregation, ariths_value, ariths_diagnostics]

theorem typedAlike_perm (op : Aggregate) {es fs : List Expr} (h : fs.Perm es) (s s' : Span) :
    TypedAlike table policy (.aggregate op es s) (.aggregate op fs s') := by
  have hvalues := (h.map fun e => (arith table policy e).value).symm
  constructor
  · rw [aggregate_type, aggregate_type]
    exact settle_type_perm hvalues
  · rw [aggregate_clean_iff, aggregate_clean_iff, settle_clean_perm hvalues]
    simp only [h.mem_iff]

variable (table policy) in
/-- An expression has a type if nothing is reported of it. -/
def Accounted (e : Expr) : Prop :=
  (arith table policy e).diagnostics = [] → (arith table policy e).value.type ≠ .unknown

/-- A sum or product is accounted for if no expression in it lacks operands. -/
theorem accounted_of_filled (hbinds : table.Binds) (htyped : table.TensorsTyped) (op : Aggregate)
    {group : List Expr} (hne : group ≠ []) (hfilled : ∀ e ∈ group, e.Filled) (s : Span) :
    Accounted table policy (.aggregate op group s) := by
  refine arith_known hbinds htyped fun op' s' hw => ?_
  cases hw with
  | refl => exact hne rfl
  | operand hf hw => exact hfilled _ hf op' s' hw

/-! Operands that stand in front are put into an inner sum or product. -/

section
variable (op : Aggregate) {group rest : List Expr} (s inner s' : Span)

theorem aggregate_type_front (hne : group ≠ []) :
    (arith table policy (.aggregate op (group ++ rest) s)).value.type =
      (arith table policy (.aggregate op (.aggregate op group inner :: rest) s')).value.type := by
  rw [aggregate_type, aggregate_type, List.map_append, List.map_cons]
  exact settle_type_group (aggregate_type table policy op group inner) (by simpa using hne)

theorem aggregate_clean_front
    (h : (arith table policy (.aggregate op (group ++ rest) s)).diagnostics = []) :
    (arith table policy (.aggregate op (.aggregate op group inner :: rest) s')).diagnostics =
      [] := by
  simp only [aggregate_clean_iff, List.map_append, List.map_cons, List.forall_mem_append,
    List.forall_mem_cons] at h ⊢
  obtain ⟨⟨hgroup, hrest⟩, hclean⟩ := h
  obtain ⟨hinner, houter⟩ := settle_clean_group (aggregate_type table policy op group inner) hclean
  exact ⟨⟨⟨hgroup, hinner⟩, hrest⟩, houter⟩

/-- The group passes for its operands if it has a type. Without one it is passed over, and so is
what its operands would have to report next to the others. -/
theorem typedAlike_front (hne : group ≠ [])
    (hgroup : Accounted table policy (.aggregate op group inner)) :
    TypedAlike table policy (.aggregate op (group ++ rest) s)
      (.aggregate op (.aggregate op group inner :: rest) s') := by
  refine ⟨aggregate_type_front op s inner s' hne, aggregate_clean_front op s inner s', ?_⟩
  intro h
  obtain ⟨hall, houter⟩ := aggregate_clean_iff.mp h
  obtain ⟨hinner, hrest⟩ := List.forall_mem_cons.mp hall
  have hflat := (settle_clean_group_iff (aggregate_type table policy op group inner)
    (hgroup hinner)).mpr houter
  rw [aggregate_clean_iff, List.map_append, List.forall_mem_append]
  exact ⟨⟨(aggregate_clean_iff.mp hinner).1, hrest⟩, hflat⟩

end

end Typing

/-- Sums and products are typed alike in every order of their operands. With any group of operands
put into a sum or product of its own, they keep their type and stay without reports. If nothing is
reported then, nothing was reported before, unless the group is left without a type and without a
report; and that needs a sum or product without operands. The table may be that of all networks of
a query or of some. -/
theorem Query.aggregates_regroup {tokens : List Token} {file : String} {q : Query}
    (h : Query.ofTokens tokens file = .ok q) {ns : List Network} (hns : ns ⊆ q.networks)
    (policy : LiteralPolicy) (op : Aggregate) :
    let table := (Typing.networksFrom q.networks .empty ns).value.2
    (∀ (es fs : List Expr) (s s' : Span), fs.Perm es →
      Typing.TypedAlike table policy (.aggregate op es s) (.aggregate op fs s')) ∧
    (∀ (front group back : List Expr) (s inner s' : Span), group ≠ [] →
      let flat := Typing.arith table policy (.aggregate op (front ++ (group ++ back)) s)
      let nested := Typing.arith table policy
        (.aggregate op (front ++ .aggregate op group inner :: back) s')
      flat.value.type = nested.value.type ∧ (flat.diagnostics = [] → nested.diagnostics = []) ∧
        (Typing.Accounted table policy (.aggregate op group inner) →
          nested.diagnostics = [] → flat.diagnostics = [])) ∧
    ∀ (group : List Expr) (inner : Span), group ≠ [] → (∀ e ∈ group, e.Filled) →
      Typing.Accounted table policy (.aggregate op group inner) := by
  intro table
  refine ⟨fun es fs s s' hp => Typing.typedAlike_perm op hp s s', ?_, ?_⟩
  · intro front group back s inner s' hne
    -- the group is moved to the front, wrapped there and moved back
    have hout : (group ++ (front ++ back)).Perm (front ++ (group ++ back)) := by
      rw [← List.append_assoc, ← List.append_assoc]
      exact List.perm_append_comm.append_right back
    have hback : (front ++ Expr.aggregate op group inner :: back).Perm
        (.aggregate op group inner :: (front ++ back)) := List.perm_middle
    have hflat : Typing.TypedAlike table policy _ _ := Typing.typedAlike_perm op hout s s
    have hnested : Typing.TypedAlike table policy _ _ := Typing.typedAlike_perm op hback s s'
    refine ⟨?_, fun hclean => ?_, fun hgroup hclean => ?_⟩
    · exact hflat.type.trans ((Typing.aggregate_type_front op s inner s hne).trans hnested.type)
    · exact hnested.clean.mp (Typing.aggregate_clean_front op s inner s (hflat.clean.mp hclean))
    · refine hflat.clean.mpr ((Typing.typedAlike_front op s inner s hne hgroup).clean.mpr ?_)
      exact hnested.clean.mpr hclean
  · intro group inner hne hfilled
    obtain ⟨_, _, _, hderives, _⟩ := Query.ofTokens_derives h
    exact Typing.accounted_of_filled (Typing.networksFrom_binds q.networks ns)
      (hderives.proper.tensorsTyped hns) op hne hfilled inner

/-- A literal, and the second element of `x` with another literal. -/
def Expr.threeTerms : List Expr × List Expr :=
  ([.int "1" 1 .nowhere], [.var "x" [1] .nowhere, .int "2" 2 .nowhere])

theorem Query.lowerBound_regroup :
    ∃ q table, Query.ofTokens (Token.lowerBound ++ [Token.ending .nowhere]) "q" = .ok q ∧
      table = (Typing.networksFrom q.networks .empty q.networks).value.2 ∧
      (∀ e ∈ Expr.threeTerms.2, e.Filled) ∧
      Typing.Accounted table .keep (.aggregate .sum Expr.threeTerms.2 .nowhere) ∧
      (Typing.arith table .keep (.aggregate .sum (Expr.threeTerms.1 ++
        [.aggregate .sum Expr.threeTerms.2 .nowhere]) .nowhere)).value.type =
          .element .float32 := by
  have hfacts : (Query.ofTokens (Token.lowerBound ++ [Token.ending .nowhere]) "q").toOption.any
      (fun q => (Typing.arith (Typing.networksFrom q.networks .empty q.networks).value.2 .keep
        (.aggregate .sum (Expr.threeTerms.1 ++ Expr.threeTerms.2) .nowhere)).value.type ==
          .element .float32) = true := by
    decide +kernel
  obtain ⟨q, hq, hfacts⟩ := exists_ok_of_any hfacts
  have hfilled : ∀ e ∈ Expr.threeTerms.2, e.Filled := by
    intro e he op s hw
    simp only [Expr.threeTerms, List.mem_cons, List.not_mem_nil, or_false] at he
    rcases he with rfl | rfl <;> cases hw with | operand hf _ => cases hf
  have hne : Expr.threeTerms.2 ≠ [] := by simp [Expr.threeTerms]
  obtain ⟨_, hgrouping, haccounted⟩ := Query.aggregates_regroup hq (List.Subset.refl _) .keep .sum
  obtain ⟨htype, _, _⟩ :=
    hgrouping Expr.threeTerms.1 Expr.threeTerms.2 [] .nowhere .nowhere .nowhere hne
  rw [List.append_nil] at htype
  exact ⟨q, _, hq, rfl, hfilled, haccounted _ .nowhere hne hfilled,
    htype.symm.trans (beq_iff_eq.mp hfacts)⟩

/-- A sum without operands and a literal with a fraction. -/
def Expr.untypedGroup : List Expr :=
  [.aggregate .sum [] .nowhere, .float "1.5" ⟨0x3ff8000000000000⟩ .nowhere]

/-- The fraction does not go with a byte. But in a group with the empty sum it is passed over, and
with it what is to report. -/
theorem Query.untypedGroup_hides_mismatch :
    ∃ (q : Query) (table : SymbolTable),
      q.ReadFrom "(vnnlib-version <2.0>)(declare-network N(declare-input x int8[]))" "q" ∧
      table = (Typing.networksFrom q.networks .empty q.networks).value.2 ∧
      (Typing.arith table .keep
        (.aggregate .sum (Expr.untypedGroup ++ [.var "x" [] .nowhere]) .nowhere)).diagnostics ≠
          [] ∧
      (Typing.arith table .keep (.aggregate .sum
        [.aggregate .sum Expr.untypedGroup .nowhere, .var "x" [] .nowhere] .nowhere)).diagnostics =
          [] := by
  have hfacts : (Token.tokenize
      "(vnnlib-version <2.0>)(declare-network N(declare-input x int8[]))" "q").toOption.any
        (fun tokens => (Query.ofTokens tokens "q").toOption.any fun q =>
          let table := (Typing.networksFrom q.networks .empty q.networks).value.2
          (Typing.arith table .keep (.aggregate .sum
            (Expr.untypedGroup ++ [.var "x" [] .nowhere]) .nowhere)).diagnostics != [] &&
          (Typing.arith table .keep (.aggregate .sum [.aggregate .sum Expr.untypedGroup .nowhere,
            .var "x" [] .nowhere] .nowhere)).diagnostics == []) = true := by
    decide +kernel
  obtain ⟨q, hread, hfacts⟩ := Query.exists_readFrom hfacts
  obtain ⟨hflat, hnested⟩ := Bool.and_eq_true_iff.mp hfacts
  exact ⟨q, _, hread, rfl, bne_iff_ne.mp hflat, beq_iff_eq.mp hnested⟩

end NeuralQuery
