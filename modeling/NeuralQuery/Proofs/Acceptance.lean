import NeuralQuery.Proofs.ParserComplete
import NeuralQuery.Proofs.Resolution
import NeuralQuery.Typing.Query

/-!
# NeuralQuery.Proofs.Acceptance

A query that the parser returns is checked without a report exactly if it is well typed.

What the parser adds to the picture is small: tensors are declared with element types, and every
form of a condition has operands (`Query.Proper`). The version, the relations and the tables of the
networks are checked one by one against the conditions of `WellTyped`.
-/

namespace NeuralQuery

theorem IsU32.no_point {cs : List Char} (h : IsU32 cs) : '.' ∉ cs := by
  obtain ⟨ds, hcs, hd, _⟩ := h
  have hds : '.' ∉ ds := fun hmem => absurd (hd.2 '.' hmem) (by decide)
  rcases hcs with rfl | rfl
  · exact hds
  · simpa using hds

namespace Typing

/-! ## Relations -/

theorem tensorMismatch?_eq_none_iff (role : String) (place : Nat) {a b : Declaration} :
    tensorMismatch? role place a b = none ↔ (a.type, a.shape) = (b.type, b.shape) := by
  unfold tensorMismatch?
  split
  · simp_all
  · split <;> simp_all

theorem firstMismatch?_eq_none_iff (role : String) (place : Nat) {ours theirs : List Declaration}
    (hlen : ours.length = theirs.length) :
    firstMismatch? role place ours theirs = none ↔ signature ours = signature theirs := by
  induction ours generalizing theirs place with
  | nil =>
    obtain rfl : theirs = [] := List.eq_nil_of_length_eq_zero hlen.symm
    simp [firstMismatch?]
  | cons a ours ih =>
    cases theirs with
    | nil => simp at hlen
    | cons b theirs =>
      have hlen : ours.length = theirs.length := by simpa using hlen
      rw [firstMismatch?]
      simp only [signature, List.map_cons, List.cons.injEq]
      rw [← signature, ← signature, ← ih (place + 1) hlen,
        ← tensorMismatch?_eq_none_iff role place]
      cases tensorMismatch? role place a b <;> simp

theorem sideMismatch?_eq_none_iff (role : String) {ours theirs : List Declaration} :
    sideMismatch? role ours theirs = none ↔ signature ours = signature theirs := by
  unfold sideMismatch?
  split
  · rename_i hlen
    constructor
    · intro h
      cases h
    · intro h
      exact absurd (by simpa [signature] using congrArg List.length h) hlen
  · rename_i hlen
    exact firstMismatch?_eq_none_iff role 0 (not_not.mp hlen)

theorem signatureMismatch?_eq_none_iff {n m : Network} :
    signatureMismatch? n m = none ↔
      signature n.inputs = signature m.inputs ∧ signature n.outputs = signature m.outputs := by
  unfold signatureMismatch?
  rw [← sideMismatch?_eq_none_iff "input", ← sideMismatch?_eq_none_iff "output"]
  cases sideMismatch? "input" n.inputs m.inputs <;> simp

theorem declared?_eq_some_iff {networks : List Network} (hn : (networks.map Network.name).Nodup)
    {name : String} {m : Network} :
    declared? networks name = some m ↔ m ∈ networks ∧ m.name = name := by
  unfold declared?
  constructor
  · intro h
    exact ⟨List.mem_of_find?_eq_some h, by simpa using List.find?_some h⟩
  · rintro ⟨hm, rfl⟩
    cases h : networks.find? fun n => n.name == m.name with
    | none => simpa using List.find?_eq_none.mp h m hm
    | some m' =>
      have hname : m'.name = m.name := by simpa using List.find?_some h
      rw [List.inj_on_of_nodup_map hn (List.mem_of_find?_eq_some h) hm hname]

theorem relation_iff {networks : List Network} (hn : (networks.map Network.name).Nodup)
    {n : Network} {r : Relation} :
    (relation networks n r).diagnostics = [] ↔ Relates networks n r := by
  unfold relation
  constructor
  · intro h
    split at h
    · simp at h
    · rename_i hself
      split at h
      · simp at h
      · rename_i m hm
        obtain ⟨hmem, hname⟩ := (declared?_eq_some_iff hn).mp hm
        split at h
        · simp at h
        · rename_i hsig
          exact ⟨m, hmem, hname, hname ▸ hself, signatureMismatch?_eq_none_iff.mp hsig⟩
  · rintro ⟨m, hmem, hname, hself, hsig⟩
    rw [hname] at hself
    simp [hself, (declared?_eq_some_iff hn).mpr ⟨hmem, hname⟩,
      signatureMismatch?_eq_none_iff.mpr hsig]

/-! ## Versions -/

theorem uint32?_eq_some_iff {cs : List Char} {u : UInt32} :
    Number.uint32? cs = some u ↔
      ∃ ds, (cs = ds ∨ cs = '+' :: ds) ∧ IsDigits ds ∧ Nat.ofDigitChars 10 ds 0 = u.toNat := by
  have hread : ∀ ds, Number.uint32? cs = ((Number.natural? ds).bind fun n =>
      if n < UInt32.size then some (UInt32.ofNat n) else none) →
        (Number.uint32? cs = some u ↔ IsDigits ds ∧ Nat.ofDigitChars 10 ds 0 = u.toNat) := by
    intro ds heq
    rw [heq, Option.bind_eq_some_iff]
    constructor
    · rintro ⟨n, hn, h⟩
      obtain ⟨hd, rfl⟩ := Number.natural?_eq_some_iff.mp hn
      split at h
      · rename_i hlt
        cases h
        exact ⟨hd, (Nat.mod_eq_of_lt hlt).symm⟩
      · cases h
    · rintro ⟨hd, hu⟩
      refine ⟨u.toNat, Number.natural?_eq_some_iff.mpr ⟨hd, hu.symm⟩, ?_⟩
      rw [if_pos u.toNat_lt_size, UInt32.ofNat_toNat]
  by_cases hplus : ∃ ds, cs = '+' :: ds
  · obtain ⟨ds, rfl⟩ := hplus
    have heq := hread ds (by rw [Number.uint32?]; cases Number.natural? ds <;> rfl)
    refine heq.trans ⟨fun h => ⟨ds, .inr rfl, h⟩, ?_⟩
    rintro ⟨ds', rfl | hds, h⟩
    · exact absurd (h.1.2 '+' (by simp)) (by decide)
    · cases hds
      exact h
  · have heq := hread cs (by
      rw [Number.uint32?]
      · cases Number.natural? cs <;> rfl
      · exact fun ds hds => hplus ⟨ds, hds⟩)
    refine heq.trans ⟨fun h => ⟨cs, .inl rfl, h⟩, ?_⟩
    rintro ⟨ds, rfl | hds, h⟩
    · exact h
    · exact absurd ⟨ds, hds⟩ hplus

theorem atPoint?_eq_some_iff {cs major minor : List Char} :
    atPoint? cs = some (major, minor) ↔ cs = major ++ '.' :: minor ∧ '.' ∉ major := by
  unfold atPoint?
  constructor
  · intro h
    split at h
    · cases h
    · rename_i c rest hdrop
      cases h
      have hc : c = '.' := by
        have := List.head?_dropWhile_not (· != '.') cs
        simpa [hdrop] using this
      have hcs := List.takeWhile_append_dropWhile (p := (· != '.')) (l := cs)
      rw [hdrop, hc] at hcs
      refine ⟨hcs.symm, fun hmem => ?_⟩
      simpa using List.all_eq_true.mp List.all_takeWhile _ hmem
  · rintro ⟨rfl, hmem⟩
    have hmajor : ∀ c ∈ major, (c != '.') = true := by
      intro c hc
      simpa using fun heq : c = '.' => hmem (heq ▸ hc)
    rw [dropWhile_of_stops hmajor (by simp [Stops]), takeWhile_of_stops hmajor (by simp [Stops])]

theorem uint32?_isU32 {cs : List Char} : (∃ u, Number.uint32? cs = some u) ↔ IsU32 cs := by
  constructor
  · rintro ⟨u, hu⟩
    obtain ⟨ds, hcs, hd, hval⟩ := uint32?_eq_some_iff.mp hu
    exact ⟨ds, hcs, hd, hval ▸ u.toNat_lt⟩
  · rintro ⟨ds, hcs, hd, hlt⟩
    exact ⟨UInt32.ofNat _, uint32?_eq_some_iff.mpr ⟨ds, hcs, hd, (Nat.mod_eq_of_lt hlt).symm⟩⟩

theorem version_iff {v : Version} : (version v).diagnostics = [] ↔ IsVersion v.lexeme := by
  have hread : (∃ p, versionNumbers? v.lexeme = some p) ↔ IsVersion v.lexeme := by
    unfold versionNumbers?
    constructor
    · rintro ⟨p, hp⟩
      split at hp
      · rename_i major minor hpoint
        split at hp
        · rename_i a b ha hb
          exact ⟨major, minor, (atPoint?_eq_some_iff.mp hpoint).1, uint32?_isU32.mp ⟨a, ha⟩,
            uint32?_isU32.mp ⟨b, hb⟩⟩
        · cases hp
      · cases hp
    · rintro ⟨major, minor, hlex, hmajor, hminor⟩
      obtain ⟨a, ha⟩ := uint32?_isU32.mpr hmajor
      obtain ⟨b, hb⟩ := uint32?_isU32.mpr hminor
      rw [atPoint?_eq_some_iff.mpr ⟨hlex, hmajor.no_point⟩]
      exact ⟨(a, b), by simp [ha, hb]⟩
  rw [← hread, version]
  cases versionNumbers? v.lexeme with
  | none => simp
  | some p => simp

/-! ## Queries -/

theorem assertions_diagnostics (table : SymbolTable) (policy : LiteralPolicy)
    (as : List Assertion) :
    (assertions table policy as).diagnostics =
      as.flatMap fun a => (formula table policy a.condition).diagnostics := by
  induction as with
  | nil => simp [assertions]
  | cons a as ih => simp [assertions, assertion, ih]

theorem query_diagnostics (policy : LiteralPolicy) (q : Query) :
    (query policy q).diagnostics =
      (version q.version).diagnostics ++
        ((networksFrom q.networks .empty q.networks).diagnostics ++
          q.assertions.flatMap fun a => (formula (networksFrom q.networks .empty q.networks).value.2
            policy a.condition).diagnostics) := by
  simp [query, assertions_diagnostics]

theorem query_diagnostics_iff {policy : LiteralPolicy} {q : Query} :
    (query policy q).diagnostics = [] ↔
      (version q.version).diagnostics = [] ∧
      (networksFrom q.networks .empty q.networks).diagnostics = [] ∧
      ∀ a ∈ q.assertions, (formula (networksFrom q.networks .empty q.networks).value.2 policy
        a.condition).diagnostics = [] := by
  simp [query_diagnostics]

/-- A query that is checked without a report leaves the table of its networks behind. -/
theorem query_clean {policy : LiteralPolicy} {q : Query} (h : (query policy q).diagnostics = []) :
    (networksFrom q.networks .empty q.networks).value =
      (Network.typedFrom 0 q.networks, .ofNetworks q.networks) ∧
    Describes (.ofNetworks q.networks) q.networks ∧
    ∀ a ∈ q.assertions,
      (formula (.ofNetworks q.networks) policy a.condition).diagnostics = [] := by
  obtain ⟨_, hclean, hconditions⟩ := query_diagnostics_iff.mp h
  obtain ⟨_, hnames, hsound⟩ := networksFrom_iff.mp hclean
  have hvalue : (networksFrom q.networks .empty q.networks).value =
      (Network.typedFrom 0 q.networks, .ofNetworks q.networks) := networksFrom_value hclean
  rw [hvalue] at hconditions
  exact ⟨hvalue, describes_ofNetworks hnames fun n hn => (hsound n hn).names, hconditions⟩

end Typing

/-- What every query that has a derivation is like. -/
structure Query.Proper (q : Query) : Prop where
  types : ∀ n ∈ q.networks, ∀ d ∈ n.declarations, ∃ t, d.type = .element t
  conditions : ∀ a ∈ q.assertions, a.condition.Built

theorem Network.mem_declarations_ofItems {name : String} {items : List Network.Item} {s : Span}
    {d : Declaration} (h : d ∈ (Network.ofItems name items s).declarations) :
    ∃ role, Network.Item.tensor role d ∈ items := by
  have hrole : ∀ {role}, d ∈ items.filterMap (Network.Item.tensor? role) →
      ∃ role, Network.Item.tensor role d ∈ items := by
    intro role hmem
    obtain ⟨i, hi, heq⟩ := List.mem_filterMap.mp hmem
    cases i with
    | relation r => cases heq
    | tensor role' d' =>
      simp only [Network.Item.tensor?] at heq
      split at heq
      · cases heq
        exact ⟨role', hi⟩
      · cases heq
  simp only [Network.declarations, Network.ofItems, List.mem_append] at h
  rcases h with (h | h) | h <;> exact hrole h

theorem DerivesNetwork.types {ts : List Token} {n : Network} (h : DerivesNetwork ts n) :
    ∀ d ∈ n.declarations, ∃ t, d.type = .element t := by
  cases h with
  | mk parts _ _ _ hparts _ =>
    intro d hd
    obtain ⟨role, hmem⟩ := Network.mem_declarations_ofItems hd
    obtain ⟨⟨us, i⟩, hp, rfl⟩ := List.mem_map.mp hmem
    have hitem : DerivesItem us (.tensor role d) := hparts _ hp
    cases hitem with
    | tensor _ htensor =>
      cases htensor
      exact ⟨_, rfl⟩

theorem DerivesQuery.proper {file : String} {ending : Token} {ts : List Token} {q : Query}
    (h : DerivesQuery file ending ts q) : q.Proper := by
  cases h with
  | mk networks assertions _ hn ha =>
    refine ⟨List.forall_mem_map.mpr fun p hp => (hn p hp).types,
      List.forall_mem_map.mpr fun p hp => ?_⟩
    obtain ⟨ts, a⟩ := p
    have hderives : DerivesAssertion ts a := ha _ hp
    cases hderives with
    | mk _ _ hexpr _ _ => exact hexpr.built

theorem Query.Proper.known {q : Query} (hq : q.Proper) :
    ∀ n ∈ q.networks, ∀ d ∈ n.declarations, d.type ≠ .unknown := by
  intro n hn d hd
  obtain ⟨t, ht⟩ := hq.types n hn d hd
  simp [ht]

theorem Query.Proper.diagnostics_iff {policy : LiteralPolicy} {q : Query} (hq : q.Proper) :
    (Typing.query policy q).diagnostics = [] ↔ WellTyped policy q := by
  constructor
  · intro h
    obtain ⟨_, hdesc, hconditions⟩ := Typing.query_clean h
    obtain ⟨hv, hclean, _⟩ := Typing.query_diagnostics_iff.mp h
    obtain ⟨_, hnames, hsound⟩ := Typing.networksFrom_iff.mp hclean
    exact {
      version := Typing.version_iff.mp hv
      networks := hnames
      tensors := fun n hn => (hsound n hn).names
      related := fun n hn => (hsound n hn).related
      relations := fun n hn r hr => (Typing.relation_iff hnames).mp ((hsound n hn).relations r hr)
      assertions := fun a ha => (Typing.formula_iff hdesc hq.known (hq.conditions a ha)).mp
        (hconditions a ha) }
  · intro h
    have hdesc := describes_ofNetworks h.networks h.tensors
    have hclean : (Typing.networksFrom q.networks .empty q.networks).diagnostics = [] :=
      Typing.networksFrom_iff.mpr ⟨fun _ _ => rfl, h.networks, fun n hn =>
        ⟨fun r hr => (Typing.relation_iff h.networks).mpr (h.relations n hn r hr), h.related n hn,
          h.tensors n hn⟩⟩
    rw [Typing.query_diagnostics_iff]
    refine ⟨Typing.version_iff.mpr h.version, hclean, fun a ha => ?_⟩
    rw [Typing.networksFrom_value hclean]
    exact (Typing.formula_iff hdesc hq.known (hq.conditions a ha)).mpr (h.assertions a ha)

theorem IsDigits.not_mem {ds : List Char} (h : IsDigits ds) {c : Char} (hc : c.isDigit = false) :
    c ∉ ds := by
  intro hmem
  have := h.2 c hmem
  rw [hc] at this
  cases this

theorem IsExponent.no_point {cs : List Char} (h : IsExponent cs) : '.' ∉ cs := by
  cases h with
  | absent => simp
  | digits he hs hd =>
    have hds := hd.not_mem (c := '.') (by decide)
    rcases he with rfl | rfl <;> rcases hs with rfl | rfl | rfl <;> simp [hds]

/-- The point of a number stands between the digits of its whole and of its fraction. -/
theorem IsNumberText.cut {major minor : List Char} (h : IsNumberText (major ++ '.' :: minor))
    (hp : '.' ∉ major) :
    ∃ sign whole fraction exponent : List Char, (sign = [] ∨ sign = ['-']) ∧ IsDigits whole ∧
      IsDigits fraction ∧ major = sign ++ whole ∧ minor = fraction ++ exponent := by
  generalize hcs : major ++ '.' :: minor = cs at h
  cases h with
  | @mk sign whole fraction exponent hsign hwhole hfraction hexponent =>
    have hbefore : '.' ∉ sign ++ whole := by
      have := hwhole.not_mem (c := '.') (by decide)
      rcases hsign with rfl | rfl <;> simpa using this
    cases hfraction with
    | absent =>
      have hmem : '.' ∈ (sign ++ whole) ++ exponent := by
        rw [List.append_assoc, ← List.nil_append exponent, ← hcs]
        simp
      rcases List.mem_append.mp hmem with hmem | hmem
      · exact absurd hmem hbefore
      · exact absurd hmem hexponent.no_point
    | @digits ds hds =>
      have hcut := Typing.atPoint?_eq_some_iff.mpr ⟨hcs.symm, hp⟩
      have hsplit : sign ++ (whole ++ ('.' :: ds ++ exponent)) =
          sign ++ whole ++ '.' :: (ds ++ exponent) := by simp
      have hother := Typing.atPoint?_eq_some_iff.mpr ⟨hsplit, hbefore⟩
      rw [hcut] at hother
      cases hother
      exact ⟨sign, whole, ds, exponent, hsign, hwhole, hds, rfl, rfl⟩

/-- A version that is the text of a number token has no plus sign. -/
theorem IsVersion.no_plus {lexeme : String} (hv : IsVersion lexeme)
    (hn : IsNumberText lexeme.toList) : '+' ∉ lexeme.toList := by
  obtain ⟨major, minor, hlex, hmajor, hminor⟩ := hv
  rw [hlex] at hn ⊢
  obtain ⟨sign, whole, fraction, exponent, hsign, hwhole, hfraction, hma, hmi⟩ :=
    hn.cut hmajor.no_point
  have hno : ∀ {cs : List Char}, IsU32 cs → (∀ ds, cs ≠ '+' :: ds) → '+' ∉ cs := by
    rintro cs ⟨ds, rfl | rfl, hds, _⟩ hne
    · exact hds.not_mem (by decide)
    · exact absurd rfl (hne ds)
  have h₁ : '+' ∉ major := hno hmajor fun ds heq => by
    rcases hsign with rfl | rfl
    · exact hwhole.ne_head (c := '+') (by decide) [] ds (by simpa [hma] using heq)
    · simp [hma] at heq
  have h₂ : '+' ∉ minor := hno hminor fun ds heq =>
    hfraction.ne_head (c := '+') (by decide) exponent ds (hmi ▸ heq)
  simp [h₁, h₂]

/-- Every query that the parser returns is checked without a report exactly if it is well typed. The
plus signs that a version may have are never those of a tokenized text. -/
theorem Query.diagnostics_eq_nil_iff_wellTyped {tokens : List Token} {file : String} {q : Query}
    (h : Query.ofTokens tokens file = .ok q) (options : BuildOptions) :
    ((Typing.query options.policy q).diagnostics = [] ↔ WellTyped options.policy q) ∧
    (NumbersShaped tokens → WellTyped options.policy q → '+' ∉ q.version.lexeme.toList) := by
  obtain ⟨_, _, ts, hderives, hmem⟩ := Query.ofTokens_derives h
  refine ⟨hderives.proper.diagnostics_iff, fun hshaped hwell => hwell.version.no_plus ?_⟩
  cases hderives with
  | mk networks assertions hversion _ _ =>
    cases hversion with
    | mk _ _ _ hnumber _ _ => exact hshaped _ (hmem _ (by simp)) hnumber

theorem Query.lowerBound_clean :
    ∃ q, Query.ofTokens (Token.lowerBound ++ [Token.ending .nowhere]) "q" = .ok q ∧
      (Typing.query .keep q).diagnostics = [] := by
  have hclean : (match Query.ofTokens (Token.lowerBound ++ [Token.ending .nowhere]) "q" with
      | .ok q => (Typing.query .keep q).diagnostics.isEmpty
      | .error _ => false) = true := by
    decide +kernel
  cases h : Query.ofTokens (Token.lowerBound ++ [Token.ending .nowhere]) "q" with
  | error d => simp [h] at hclean
  | ok q => exact ⟨q, rfl, by simpa [h] using hclean⟩

theorem Query.lowerBound_wellTyped :
    ∃ q, Query.ofTokens (Token.lowerBound ++ [Token.ending .nowhere]) "q" = .ok q ∧
      WellTyped .keep q := by
  obtain ⟨q, hq, hclean⟩ := Query.lowerBound_clean
  exact ⟨q, hq, (Query.diagnostics_eq_nil_iff_wellTyped hq {}).1.mp hclean⟩

end NeuralQuery
