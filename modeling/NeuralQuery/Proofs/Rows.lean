import NeuralQuery.Proofs.Moving
import NeuralQuery.Proofs.Placeless
import NeuralQuery.Proofs.Placement

/-!
# NeuralQuery.Proofs.Rows

Rows of tokens that differ only in their places.

The places of a row are forgotten by giving every token its number in the row (`Token.rank`). Rows
with the same contents become equal in this way (`Token.map_moved_rank`), and a parser that is moved
along gives the moved result. Numbers keep the order of tokens, so the forms of a network stay in
the order in which they are written (`Network.items_moved`). Therefore such rows are both refused,
for the same fault, or read as queries that differ only in their places (`Query.ofTokens_relaid`).
-/

namespace NeuralQuery

/-! ## Places by number -/

namespace Token

/-- What a token says, wherever it stands. -/
def content (t : Token) : Kind × String :=
  (t.kind, t.value)

/-- A place by the number of tokens that start before it. -/
def rank (ts : List Token) (p : Position) : Position :=
  ⟨ts.countP fun t => t.span.start < p.offset, ""⟩

theorem rank_append (front : List Token) {t : Token} {ts : List Token}
    (h : InSequence (front ++ t :: ts)) :
    rank (front ++ t :: ts) t.span.position = ⟨front.length, ""⟩ := by
  obtain ⟨_, hrest, hacross⟩ := List.pairwise_append.mp h
  have hfront : front.countP (fun u => u.span.start < t.span.position.offset) = front.length :=
    List.countP_eq_length.mpr fun u hu => decide_eq_true (hacross u hu t (by simp))
  have hlater : (t :: ts).countP (fun u => u.span.start < t.span.position.offset) = 0 := by
    have hnot : ∀ u ∈ t :: ts, ¬u.span.start < t.span.position.offset :=
      List.forall_mem_cons.mpr ⟨Nat.lt_irrefl _, fun u hu =>
        Nat.lt_asymm ((List.pairwise_cons.mp hrest).1 u hu)⟩
    exact List.countP_eq_zero.mpr fun u hu => by simpa using hnot u hu
  rw [rank, List.countP_append, hfront, hlater, Nat.add_zero]

/-- Moved to their numbers, tokens have nothing left but their contents. -/
theorem map_moved_rank {ts : List Token} (h : InSequence ts) :
    ts.map (Token.moved (rank ts)) =
      (ts.map content).zipIdx.map fun (c, i) => ⟨c.1, c.2, ⟨"", i, 0⟩⟩ := by
  -- a row is numbered from the number of tokens in front of it
  suffices hall : ∀ front, InSequence (front ++ ts) → ts.map (Token.moved (rank (front ++ ts))) =
      ((ts.map content).zipIdx front.length).map fun (c, i) => ⟨c.1, c.2, ⟨"", i, 0⟩⟩ from hall [] h
  clear h
  induction ts with
  | nil => intro front _; rfl
  | cons t ts ih =>
    intro front h
    have hnext := ih (front ++ [t]) (by simpa using h)
    rw [List.length_append, List.append_assoc, List.singleton_append] at hnext
    rw [List.map_cons, hnext, List.map_cons, List.zipIdx_cons, List.map_cons]
    simp only [Token.moved, Span.moved, rank_append front h]
    rfl

/-- Numbers keep the order of places, as far as tokens start there. -/
theorem rank_le_iff {ts : List Token} {p q : Position} (hq : ∃ t ∈ ts, t.span.position = q) :
    (rank ts p).offset ≤ (rank ts q).offset ↔ p.offset ≤ q.offset := by
  constructor
  · intro hle
    by_contra hlt
    obtain ⟨t, ht, rfl⟩ := hq
    obtain ⟨front, back, rfl⟩ := List.append_of_mem ht
    have hmono : ∀ ts : List Token,
        ts.countP (fun u => u.span.start < t.span.position.offset) ≤
          ts.countP (fun u => u.span.start < p.offset) := by
      refine fun ts => List.countP_mono_left fun u _ hu => ?_
      simp only [decide_eq_true_eq] at hu ⊢
      omega
    have hself : t.span.start < p.offset := Nat.lt_of_not_le hlt
    have hnot : ¬t.span.start < t.span.position.offset := Nat.lt_irrefl _
    have hfront := hmono front
    have hback := hmono back
    simp only [rank, List.countP_append, List.countP_cons, hself, hnot, decide_true,
      decide_false] at hle
    simp only [if_true, Bool.false_eq_true, if_false] at hle
    omega
  · intro hle
    refine List.countP_mono_left fun u _ hu => ?_
    simp only [decide_eq_true_eq] at hu ⊢
    omega

end Token

/-! ## Moved forms in no place -/

section
variable (f : Position → Position)

theorem Expr.unplaced_moved (e : Expr) : (e.moved f).unplaced = e.unplaced := by
  have hall : ∀ {es : List Expr}, (∀ e ∈ es, (e.moved f).unplaced = e.unplaced) →
      Expr.unplacedAll (Expr.movedAll f es) = Expr.unplacedAll es := by
    intro es h
    rw [Expr.unplacedAll_eq_map, Expr.unplacedAll_eq_map, Expr.movedAll_eq_map, List.map_map]
    exact List.map_congr_left h
  induction e using Expr.inductOn with
  | var name indices s => rfl
  | int lexeme value s => rfl
  | float lexeme value s => rfl
  | negate e s ih => rw [Expr.moved, Expr.unplaced, Expr.unplaced, ih]
  | aggregate op es s ih => rw [Expr.moved, Expr.unplaced, Expr.unplaced, hall ih]
  | minus h r s ihh ihr => rw [Expr.moved, Expr.unplaced, Expr.unplaced, ihh, hall ihr]
  | compare op l r s ihl ihr => rw [Expr.moved, Expr.unplaced, Expr.unplaced, ihl, ihr]
  | connective op es s ih => rw [Expr.moved, Expr.unplaced, Expr.unplaced, hall ih]

theorem Assertion.unplaced_moved (a : Assertion) : (a.moved f).unplaced = a.unplaced := by
  simp only [Assertion.unplaced, Assertion.moved, Expr.unplaced_moved]

theorem Network.Item.unplaced_moved (i : Network.Item) : (i.moved f).unplaced = i.unplaced := by
  cases i <;> rfl

theorem Network.unplaced_moved (n : Network) : (n.moved f).unplaced = n.unplaced := by
  simp only [Network.unplaced, Network.moved, Network.movedForms, List.map_map]
  rfl

/-- Forms keep their order where the order of their places is kept. -/
theorem Network.items_moved {n : Network} (h : ∀ i ∈ n.items, ∀ j ∈ n.items,
      (f i.span.position).offset ≤ (f j.span.position).offset ↔ i.span.start ≤ j.span.start) :
    (n.moved f).items = n.items.map (Network.Item.moved f) := by
  have hspan : ∀ i : Network.Item, (i.moved f).span.start = (f i.span.position).offset := by
    intro i
    cases i <;> rfl
  have hgrouped : (n.moved f).grouped = n.grouped.map (Network.Item.moved f) := by
    simp only [grouped, moved, movedForms, List.map_append, List.map_map]
    rfl
  have hmem : ∀ i ∈ n.grouped, i ∈ n.items := fun i hi => n.items_perm.mem_iff.mpr hi
  change (n.moved f).grouped.mergeSort _ = (n.grouped.mergeSort _).map _
  rw [hgrouped, List.map_mergeSort fun i hi j hj => ?_]
  simp only [hspan, h i (hmem i hi) j (hmem j hj)]

end

/-! ## Queries -/

theorem DerivesQuery.item_position {file : String} {ending : Token} {ts : List Token} {q : Query}
    (h : DerivesQuery file ending ts q) {n : Network} (hn : n ∈ q.networks) {i : Network.Item}
    (hi : i ∈ n.items) : ∃ t ∈ ts, i.span.position = t.span.position := by
  cases h with
  | @mk us v networks assertions _ hnetworks _ =>
    obtain ⟨p, hp, rfl⟩ := List.mem_map.mp hn
    obtain ⟨t, ht, hpos⟩ := (hnetworks p hp).item_position hi
    have hrow := List.mem_flatMap.mpr ⟨p, hp, ht⟩
    exact ⟨t, by simp only [List.mem_append, hrow, true_or, or_true], hpos⟩

/-- Moving a query to the numbers of its tokens does not change the order of forms. -/
theorem Query.forms_moved_rank {tokens : List Token} {file : String} {q : Query}
    (h : Query.ofTokens tokens file = .ok q) :
    (q.networks.map (Network.moved (Token.rank tokens))).map Network.forms =
      q.networks.map Network.forms := by
  obtain ⟨_, _, ts, hderives, hts⟩ := Query.ofTokens_derives h
  rw [List.map_map]
  refine List.map_congr_left fun n hn => Prod.ext (n.unplaced_moved _) ?_
  have hplaced : ∀ i ∈ n.items, ∃ t ∈ tokens, t.span.position = i.span.position := by
    intro i hi
    obtain ⟨t, ht, hpos⟩ := hderives.item_position hn hi
    exact ⟨t, hts t ht, hpos.symm⟩
  change (n.moved (Token.rank tokens)).items.map Network.Item.unplaced = _
  rw [Network.items_moved _ fun i hi j hj => Token.rank_le_iff (hplaced j hj), List.map_map]
  exact List.map_congr_left fun i _ => i.unplaced_moved _

/-- Rows with the same contents are refused for the same fault, or read as queries that differ only
in their places. -/
theorem Query.ofTokens_relaid {row row' : List Token} {ending ending' : Token}
    (he : ending.kind = .eof) (he' : ending'.kind = .eof) (hs : InSequence (row ++ [ending]))
    (hs' : InSequence (row' ++ [ending']))
    (hc : (row' ++ [ending']).map Token.content = (row ++ [ending]).map Token.content)
    (file : String) :
    (∃ d d', Query.ofTokens (row ++ [ending]) file = .error d ∧
      Query.ofTokens (row' ++ [ending']) file = .error d' ∧ d'.fault = d.fault) ∨
    ∃ q q', Query.ofTokens (row ++ [ending]) file = .ok q ∧
      Query.ofTokens (row' ++ [ending']) file = .ok q' ∧ q.Relaid q' := by
  have hsame : (row' ++ [ending']).map (Token.moved (Token.rank (row' ++ [ending']))) =
      (row ++ [ending]).map (Token.moved (Token.rank (row ++ [ending]))) := by
    rw [Token.map_moved_rank hs, Token.map_moved_rank hs', hc]
  obtain ⟨hok, herror⟩ := Query.ofTokens_moved (Token.rank (row ++ [ending])) row he file
  obtain ⟨hok', herror'⟩ := Query.ofTokens_moved (Token.rank (row' ++ [ending'])) row' he' file
  rw [hsame] at hok' herror'
  cases h : Query.ofTokens (row ++ [ending]) file with
  | error d =>
    cases h' : Query.ofTokens (row' ++ [ending']) file with
    | error d' =>
      have heq := Except.error.inj ((herror' d' h').symm.trans (herror d h))
      have hfault : d'.fault = d.fault := (Diagnostic.mk.inj heq).1
      exact .inl ⟨d, d', rfl, rfl, hfault⟩
    | ok q' =>
      obtain ⟨_, hq, _⟩ := hok' q' h'
      cases (herror d h).symm.trans hq
  | ok q =>
    obtain ⟨numbered, hq, hmoved⟩ := hok q h
    cases h' : Query.ofTokens (row' ++ [ending']) file with
    | error d' => cases (herror' d' h').symm.trans hq
    | ok q' =>
      obtain ⟨_, hq', hmoved'⟩ := hok' q' h'
      obtain rfl := Except.ok.inj (hq'.symm.trans hq)
      refine .inr ⟨q, q', rfl, rfl, ?_, ?_, ?_⟩
      · have hversion := hmoved'.version.symm.trans hmoved.version
        exact (Version.mk.inj hversion).1
      · have hnetworks := hmoved'.networks.symm.trans hmoved.networks
        have hforms := congrArg (List.map Network.forms) hnetworks
        rwa [Query.forms_moved_rank h, Query.forms_moved_rank h'] at hforms
      · have hassertions := hmoved'.assertions.symm.trans hmoved.assertions
        have := congrArg (List.map Assertion.unplaced) hassertions
        simpa [List.map_map, Function.comp_def, Assertion.unplaced_moved] using this

end NeuralQuery
