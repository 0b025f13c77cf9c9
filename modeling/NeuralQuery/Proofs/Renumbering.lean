import Mathlib.Data.Set.Function
import NeuralQuery.Proofs.Display

/-!
# NeuralQuery.Proofs.Renumbering

Typed queries that differ only in places and in the numbering of their symbols.

`Typed.Query.Renumbered σ q q'` says that `σ` takes every symbol of `q` to a symbol of `q'` with the
same record, one to one, and that the two queries are the same once symbols are renumbered and
spans are taken away. Such queries have the same text (`Typed.Query.Renumbered.text`).

The tables of two lists of networks that are the same without their places are related in this way
(`SymbolTable.renumbered_ofNetworks`), by looking up the record of a symbol in the other table.
-/

namespace NeuralQuery

/-! ## Tables -/

/-- The numbers of the symbols in a table. -/
def SymbolTable.ids (t : SymbolTable) : Set SymbolId :=
  {id | id.index < t.symbols.length}

structure Scope.Renumbered (σ : SymbolId → SymbolId) (s s' : Scope) : Prop where
  name : s'.name = s.name
  symbol : s'.symbol = s.symbol.map σ
  bindings : ∀ name, s'.get? name = (s.get? name).map σ

structure SymbolTable.Renumbered (σ : SymbolId → SymbolId) (t t' : SymbolTable) : Prop where
  bijective : Set.BijOn σ t.ids t'.ids
  records : ∀ id ∈ t.ids, t'.get (σ id) = t.get id
  scopes : List.Forall₂ (Scope.Renumbered σ) t.scopes t'.scopes

/-! ## Trees -/

namespace Typed

mutual

/-- The expression with other numbers for its symbols, in no source. -/
def Arith.relabel (σ : SymbolId → SymbolId) : Arith → Arith
  | .var symbol name indices type _ => .var (σ symbol) name indices type .nowhere
  | .int lexeme value type _ => .int lexeme value type .nowhere
  | .float lexeme value type _ => .float lexeme value type .nowhere
  | .negate e type _ => .negate (e.relabel σ) type .nowhere
  | .aggregate op es type _ => .aggregate op (Arith.relabelAll σ es) type .nowhere
  | .minus h r type _ => .minus (h.relabel σ) (Arith.relabelAll σ r) type .nowhere
  | .invalid source _ => .invalid source .nowhere

def Arith.relabelAll (σ : SymbolId → SymbolId) : List Arith → List Arith
  | [] => []
  | e :: es => e.relabel σ :: Arith.relabelAll σ es

end

mutual

/-- The formula with other numbers for its symbols, in no source. -/
def Formula.relabel (σ : SymbolId → SymbolId) : Formula → Formula
  | .compare op l r _ => .compare op (l.relabel σ) (r.relabel σ) .nowhere
  | .connective op fs _ => .connective op (Formula.relabelAll σ fs) .nowhere
  | .invalid source _ => .invalid source .nowhere

def Formula.relabelAll (σ : SymbolId → SymbolId) : List Formula → List Formula
  | [] => []
  | f :: fs => f.relabel σ :: Formula.relabelAll σ fs

end

def Definition.relabel (σ : SymbolId → SymbolId) (d : Definition) : Definition :=
  { d with symbol := σ d.symbol, span := .nowhere }

def Network.relabel (σ : SymbolId → SymbolId) (n : Network) : Network :=
  { n with
    symbol := n.symbol.map σ
    inputs := n.inputs.map (Definition.relabel σ)
    hidden := n.hidden.map (Definition.relabel σ)
    outputs := n.outputs.map (Definition.relabel σ)
    span := .nowhere }

def Assertion.relabel (σ : SymbolId → SymbolId) (a : Assertion) : Assertion :=
  ⟨a.condition.relabel σ, .nowhere⟩

/-- The second query is the first one with other spans and with symbols renumbered by `σ`, which
takes every symbol to an identical one. -/
structure Query.Renumbered (σ : SymbolId → SymbolId) (q q' : Query) : Prop where
  symbols : q.symbols.Renumbered σ q'.symbols
  major : q'.version.major = q.version.major
  minor : q'.version.minor = q.version.minor
  networks : q'.networks.map (Network.relabel id) = q.networks.map (Network.relabel σ)
  assertions : q'.assertions.map (Assertion.relabel id) = q.assertions.map (Assertion.relabel σ)

variable (σ : SymbolId → SymbolId)

namespace Arith

theorem relabelAll_eq_map (es : List Arith) : relabelAll σ es = es.map (relabel σ) := by
  induction es with
  | nil => rfl
  | cons e es ih => rw [relabelAll, ih, List.map_cons]

@[simp] theorem type_relabel (a : Arith) : (a.relabel σ).type = a.type := by
  cases a <;> rfl

@[simp] theorem span_relabel (a : Arith) : (a.relabel σ).span = .nowhere := by
  cases a <;> rfl

theorem texts_relabel {es : List Arith} (h : ∀ e ∈ es, (e.relabel σ).text = e.text) :
    texts (relabelAll σ es) = texts es := by
  induction es with
  | nil => rfl
  | cons e es ih =>
    obtain ⟨he, hes⟩ := List.forall_mem_cons.mp h
    rw [relabelAll, texts, texts, he, ih hes]

theorem text_relabel (a : Arith) : (a.relabel σ).text = a.text := by
  induction a using Arith.inductOn with
  | var symbol name indices type s => rfl
  | int lexeme value type s => rfl
  | float lexeme value type s => rfl
  | negate e type s ih => rw [relabel, text, text, ih]
  | aggregate op es type s ih => rw [relabel, text, text, texts_relabel σ ih]
  | minus h r type s ihh ihr => rw [relabel, text, text, ihh, texts_relabel σ ihr]
  | invalid source s => rfl

/-- Pinning literals changes types only. -/
theorem relabel_pin (t : ElementType) (a : Arith) : (a.pin t).relabel σ = (a.relabel σ).pin t := by
  induction a using Arith.inductOn with
  | var symbol name indices type s => rfl
  | int lexeme value type s => rfl
  | float lexeme value type s => rfl
  | negate e type s ih =>
    by_cases h : type.isLiteral = true <;> simp [pin, relabel, h, ih]
  | aggregate op es type s ih =>
    by_cases h : type.isLiteral = true
    · simpa [pin, relabel, h, pinAll_eq_map, relabelAll_eq_map] using ih
    · simp [pin, relabel, h]
  | minus e es type s ihe ihes =>
    by_cases h : type.isLiteral = true
    · simpa [pin, relabel, h, pinAll_eq_map, relabelAll_eq_map, ihe] using ihes
    · simp [pin, relabel, h]
  | invalid source s => rfl

end Arith

namespace Formula

theorem relabelAll_eq_map (fs : List Formula) : relabelAll σ fs = fs.map (relabel σ) := by
  induction fs with
  | nil => rfl
  | cons f fs ih => rw [relabelAll, ih, List.map_cons]

theorem texts_relabel {fs : List Formula} (h : ∀ f ∈ fs, (f.relabel σ).text = f.text) :
    texts (relabelAll σ fs) = texts fs := by
  induction fs with
  | nil => rfl
  | cons f fs ih =>
    obtain ⟨hf, hfs⟩ := List.forall_mem_cons.mp h
    rw [relabelAll, texts, texts, hf, ih hfs]

theorem text_relabel (f : Formula) : (f.relabel σ).text = f.text := by
  induction f using Formula.inductOn with
  | compare op l r s => rw [relabel, text, text, Arith.text_relabel, Arith.text_relabel]
  | connective op fs s ih => rw [relabel, text, text, texts_relabel σ ih]
  | invalid source s => rfl

end Formula

theorem Network.text_relabel (n : Network) : (n.relabel σ).text = n.text := by
  have hparts : (n.relabel σ).parts = n.parts := by
    simp only [parts, definitions, relabel, List.map_append, List.map_map]
    rfl
  unfold Network.text
  rw [hparts]
  rfl

theorem Assertion.text_relabel (a : Assertion) : (a.relabel σ).text = a.text :=
  congrArg (fun part => Text.form "assert" [part]) (Formula.text_relabel σ a.condition)

variable {σ} in
/-- Neither spans nor the numbers of symbols show in a text. -/
theorem Query.Renumbered.text {q q' : Query} (h : q.Renumbered σ q') : q'.text = q.text := by
  have hnetworks : q'.networks.map Network.text = q.networks.map Network.text := by
    have := congrArg (List.map Network.text) h.networks
    simpa [List.map_map, Function.comp_def, Network.text_relabel] using this
  have hassertions : q'.assertions.map Assertion.text = q.assertions.map Assertion.text := by
    have := congrArg (List.map Assertion.text) h.assertions
    simpa [List.map_map, Function.comp_def, Assertion.text_relabel] using this
  have hversion : q'.version.text = q.version.text := by
    unfold Version.text
    rw [h.major, h.minor]
  unfold Query.text
  rw [hnetworks, hassertions, hversion]

end Typed

/-! ## The records of networks -/

namespace Network

/-- The records of the tensors of a network: inputs, hidden, outputs. -/
def records (n : Network) : List Symbol :=
  n.inputs.map (fun d => n.symbolOf (.input, d)) ++
    n.hidden.map (fun d => n.symbolOf (.hidden, d)) ++
    n.outputs.map (fun d => n.symbolOf (.output, d))

theorem records_unplaced (n : Network) : n.unplaced.records = n.records := by
  simp only [records, unplaced, List.map_map]
  rfl

theorem records_eq {n n' : Network} (h : n'.unplaced = n.unplaced) : n'.records = n.records := by
  rw [← n'.records_unplaced, h, n.records_unplaced]

theorem tensors_records (n : Network) : (n.tensors.map n.symbolOf).Perm n.records := by
  have h := (n.items_perm.filterMap Item.part?).map n.symbolOf
  simpa [tensors, records, Item.part?, List.filterMap_map, Function.comp_def] using h

theorem records_names (n : Network) :
    n.records.map Symbol.name = n.declarations.map Declaration.name := by
  simp [records, declarations, symbolOf, Symbol.ofDeclaration, Function.comp_def]

theorem name_eq {n n' : Network} (h : n'.unplaced = n.unplaced) : n'.name = n.name := by
  have hname := congrArg Network.name h
  exact hname

theorem symbols_perm {n n' : Network} (h : n'.unplaced = n.unplaced) :
    n'.symbols.Perm n.symbols := by
  have hrecords := n'.tensors_records.trans (records_eq h ▸ n.tensors_records.symm)
  unfold symbols
  rw [name_eq h]
  exact hrecords.cons _

theorem symbols_nodup {n : Network} (h : (n.declarations.map Declaration.name).Nodup) :
    n.symbols.Nodup := by
  have hrecords : n.records.Nodup := by
    rw [← n.records_names] at h
    exact h.of_map
  refine List.nodup_cons.mpr ⟨fun hmem => ?_, n.tensors_records.nodup_iff.mpr hrecords⟩
  obtain ⟨p, _, hp⟩ := List.mem_map.mp hmem
  have hkind := congrArg Symbol.kind hp
  simp [symbolOf, Symbol.ofDeclaration, Symbol.ofNetwork] at hkind

theorem network_of_mem_symbols {n : Network} {s : Symbol} (h : s ∈ n.symbols) :
    s.network = n.name := by
  rcases List.mem_cons.mp h with rfl | h
  · rfl
  · obtain ⟨p, _, rfl⟩ := List.mem_map.mp h
    rfl

end Network

namespace SymbolTable

theorem ofNetworks_symbols (ns : List Network) :
    (ofNetworks ns).symbols = ns.flatMap Network.symbols :=
  foldl_extend_symbols ns empty

/-- Networks and tensors with different names make a table without repetition. -/
theorem ofNetworks_nodup {ns : List Network} (hn : (ns.map Network.name).Nodup)
    (ht : ∀ n ∈ ns, (n.declarations.map Declaration.name).Nodup) :
    (ofNetworks ns).symbols.Nodup := by
  rw [ofNetworks_symbols, List.nodup_flatMap]
  refine ⟨fun n h => Network.symbols_nodup (ht n h), ?_⟩
  rw [List.Nodup, List.pairwise_map] at hn
  refine hn.imp fun hne s hs hs' => hne ?_
  rw [← Network.network_of_mem_symbols hs, ← Network.network_of_mem_symbols hs']

theorem ofNetworks_perm {ns ns' : List Network}
    (h : ns'.map Network.unplaced = ns.map Network.unplaced) :
    (ofNetworks ns').symbols.Perm (ofNetworks ns).symbols := by
  rw [ofNetworks_symbols, ofNetworks_symbols]
  induction ns generalizing ns' with
  | nil =>
    rw [List.map_eq_nil_iff.mp h]
  | cons n ns ih =>
    obtain ⟨n', rest, rfl, hn, hrest⟩ := List.map_eq_cons_iff.mp h
    exact (Network.symbols_perm hn).append (ih hrest)

/-! ## Looking up a record in the other table -/

/-- The number under which the other table has the record of a symbol. -/
def renumbering (t t' : SymbolTable) (id : SymbolId) : SymbolId :=
  ⟨t'.symbols.idxOf (t.get id)⟩

theorem get_eq {t : SymbolTable} {id : SymbolId} {s : Symbol}
    (h : t.symbols[id.index]? = some s) : t.get id = s := by
  simp [get, h]

theorem exists_record {t : SymbolTable} {id : SymbolId} (h : id ∈ t.ids) :
    ∃ s, t.symbols[id.index]? = some s :=
  ⟨_, List.getElem?_eq_getElem h⟩

section
variable {t t' : SymbolTable} (hp : t'.symbols.Perm t.symbols) (hn : t.symbols.Nodup)
include hp hn

/-- A symbol goes to the one with its record. -/
theorem renumbering_eq {id id' : SymbolId} {s : Symbol} (h : t.symbols[id.index]? = some s)
    (h' : t'.symbols[id'.index]? = some s) : t.renumbering t' id = id' := by
  obtain ⟨hlt, rfl⟩ := List.getElem?_eq_some_iff.mp h'
  have hidx := (hp.nodup_iff.mpr hn).idxOf_getElem id'.index hlt
  rw [renumbering, get_eq h, hidx]

omit hn in
theorem getElem?_renumbering {id : SymbolId} {s : Symbol} (h : t.symbols[id.index]? = some s) :
    t'.symbols[(t.renumbering t' id).index]? = some s := by
  have hmem : s ∈ t'.symbols := hp.mem_iff.mpr (List.mem_of_getElem? h)
  have hlt := List.idxOf_lt_length_of_mem hmem
  rw [renumbering, get_eq h, List.getElem?_eq_getElem hlt, List.getElem_idxOf hlt]

theorem renumbering_bijOn : Set.BijOn (t.renumbering t') t.ids t'.ids := by
  refine ⟨?_, ?_, ?_⟩
  · intro id hid
    obtain ⟨s, hs⟩ := exists_record hid
    exact (List.getElem?_eq_some_iff.mp (getElem?_renumbering hp hs)).1
  · intro a ha b hb hab
    obtain ⟨s, hs⟩ := exists_record ha
    obtain ⟨u, hu⟩ := exists_record hb
    have hs' := getElem?_renumbering hp hs
    rw [hab, getElem?_renumbering hp hu] at hs'
    cases hs'
    have hidx : a.index = b.index :=
      hn.getElem_inj_iff.mp ((List.getElem?_eq_some_iff.mp hs).2.trans
        (List.getElem?_eq_some_iff.mp hu).2.symm)
    cases a
    cases b
    simpa using hidx
  · intro id' hid'
    obtain ⟨s, hs⟩ := exists_record hid'
    have hmem : s ∈ t.symbols := hp.mem_iff.mp (List.mem_of_getElem? hs)
    have hlt := List.idxOf_lt_length_of_mem hmem
    have hget : t.symbols[(⟨t.symbols.idxOf s⟩ : SymbolId).index]? = some s := by
      rw [List.getElem?_eq_getElem hlt, List.getElem_idxOf hlt]
    exact ⟨⟨t.symbols.idxOf s⟩, hlt, renumbering_eq hp hn hget hs⟩

omit hn in
theorem get_renumbering {id : SymbolId} (h : id ∈ t.ids) :
    t'.get (t.renumbering t' id) = t.get id := by
  obtain ⟨s, hs⟩ := exists_record h
  rw [get_eq hs, get_eq (getElem?_renumbering hp hs)]

end

end SymbolTable

/-- Lists that follow two lists alike under `f` follow each other. -/
theorem forall₂_of_map_eq {α β γ : Type} {A B : α → β → Prop} {C : β → β → Prop} {f : α → γ}
    {as as' : List α} {bs bs' : List β} (h : List.Forall₂ A as bs) (h' : List.Forall₂ B as' bs')
    (hf : as'.map f = as.map f) (hc : ∀ a a' b b', A a b → B a' b' → f a' = f a → C b b') :
    List.Forall₂ C bs bs' := by
  induction h generalizing as' bs' with
  | nil =>
    obtain rfl := List.map_eq_nil_iff.mp hf
    cases h'
    exact .nil
  | @cons a b as bs hab _ ih =>
    obtain ⟨a', rest, rfl, ha, hrest⟩ := List.map_eq_cons_iff.mp hf
    cases h' with
    | cons hab' hrest' => exact .cons (hc _ _ _ _ hab hab' ha) (ih hrest' hrest)

/-! ## Networks that are alike -/

section
variable {t t' : SymbolTable} (hp : t'.symbols.Perm t.symbols) (hn : t.symbols.Nodup)
include hp hn

theorem Holds.renumbered {n n' : Network} {s s' : Scope} (h : Holds t.symbols n s)
    (h' : Holds t'.symbols n' s') (hu : n'.unplaced = n.unplaced)
    (ht : (n.declarations.map Declaration.name).Nodup) :
    Scope.Renumbered (t.renumbering t') s s' := by
  have hname := Network.name_eq hu
  refine ⟨by rw [h'.name, h.name, hname], ?_, fun name => ?_⟩
  · obtain ⟨id, hid, hrec⟩ := h.own
    obtain ⟨id', hid', hrec'⟩ := h'.own
    rw [hname] at hrec'
    rw [hid, hid', Option.map_some, SymbolTable.renumbering_eq hp hn hrec hrec']
  · have hdeclares : n'.Declares name ↔ n.Declares name := by
      have hnames : n'.declarations.map Declaration.name = n.declarations.map Declaration.name := by
        rw [← n'.records_names, ← n.records_names, Network.records_eq hu]
      simp only [Network.Declares, ← List.mem_map, hnames]
    cases hget : s.get? name with
    | none =>
      by_contra hne
      exact h.declares_iff.mpr (hdeclares.mp (h'.declares_iff.mp hne)) hget
    | some id =>
      have hbound := hdeclares.mpr (h.declares_iff.mp (by simp [hget]))
      obtain ⟨id', hget'⟩ := Option.ne_none_iff_exists'.mp (h'.declares_iff.mpr hbound)
      obtain ⟨p, hmem, hpn, hrec⟩ := h.get?_eq_some hget
      obtain ⟨p', hmem', hpn', hrec'⟩ := h'.get?_eq_some hget'
      -- both records are in one list in which no name occurs twice
      have hin := n.tensors_records.mem_iff.mp (List.mem_map_of_mem hmem)
      have hin' := n'.tensors_records.mem_iff.mp (List.mem_map_of_mem hmem')
      rw [Network.records_eq hu] at hin'
      rw [← n.records_names] at ht
      have hsame : n'.symbolOf p' = n.symbolOf p :=
        List.inj_on_of_nodup_map ht hin' hin (hpn'.trans hpn.symm)
      rw [hsame] at hrec'
      rw [hget', Option.map_some, SymbolTable.renumbering_eq hp hn hrec hrec']

theorem Defines.relabel {n n' : Network} {role : Role} {d d' : Declaration}
    {typed typed' : Typed.Definition} (h : Defines t.symbols n role d typed)
    (h' : Defines t'.symbols n' role d' typed') (hname : n'.name = n.name)
    (hu : d'.unplaced = d.unplaced) :
    typed'.relabel id = typed.relabel (t.renumbering t') := by
  have hrec : n'.symbolOf (role, d') = n.symbolOf (role, d) := by
    have hd : Symbol.ofDeclaration d'.unplaced (.tensor role) n'.name =
        Symbol.ofDeclaration d.unplaced (.tensor role) n.name := by
      rw [hu, hname]
    exact hd
  have hid := SymbolTable.renumbering_eq hp hn h.1 (hrec ▸ h'.1)
  rw [h'.2, h.2, hrec]
  simp [Typed.Definition.relabel, Typed.Definition.ofSymbol, hid]

theorem TypedAs.relabel {n n' : Network} {m m' : Typed.Network} (h : TypedAs t.symbols n m)
    (h' : TypedAs t'.symbols n' m') (hu : n'.unplaced = n.unplaced) :
    m'.relabel id = m.relabel (t.renumbering t') := by
  have hname := Network.name_eq hu
  have hsymbol : m'.symbol.map id = m.symbol.map (t.renumbering t') := by
    obtain ⟨i, hi, hrec⟩ := h.own
    obtain ⟨i', hi', hrec'⟩ := h'.own
    rw [hname] at hrec'
    rw [hi, hi', Option.map_some, Option.map_some, SymbolTable.renumbering_eq hp hn hrec hrec']
    rfl
  have htarget : ∀ kind, n'.target? kind = n.target? kind := by
    have hkeep : ∀ (n : Network) kind, n.unplaced.target? kind = n.target? kind := by
      intro n kind
      simp only [Network.target?, Network.unplaced, List.findSome?_map]
      rfl
    intro kind
    rw [← hkeep n', hu, hkeep n]
  have hrow : ∀ role {ds ds' : List Declaration} {ms ms' : List Typed.Definition},
      List.Forall₂ (Defines t.symbols n role) ds ms →
      List.Forall₂ (Defines t'.symbols n' role) ds' ms' →
      ds'.map Declaration.unplaced = ds.map Declaration.unplaced →
      ms'.map (Typed.Definition.relabel id) =
        ms.map (Typed.Definition.relabel (t.renumbering t')) := by
    intro role ds ds' ms ms' hds hds' hsame
    have hall := forall₂_of_map_eq hds hds' hsame fun d d' m m' hd hd' heq =>
      hd.relabel hp hn hd' hname heq
    exact map_eq_of_forall₂ hall fun m m' heq => heq
  have hinputs := hrow .input h.inputs h'.inputs (congrArg Network.inputs hu)
  have hhidden := hrow .hidden h.hidden h'.hidden (congrArg Network.hidden hu)
  have houtputs := hrow .output h.outputs h'.outputs (congrArg Network.outputs hu)
  simp [Typed.Network.relabel, h.name, h'.name, hname, hsymbol, h.isometricTo, h'.isometricTo,
    h.equalTo, h'.equalTo, htarget, hinputs, hhidden, houtputs]

end

section
variable {ns ns' : List Network} (hu : ns'.map Network.unplaced = ns.map Network.unplaced)
  (hn : (ns.map Network.name).Nodup)
  (ht : ∀ n ∈ ns, (n.declarations.map Declaration.name).Nodup)
include hu hn ht

/-- Networks that are alike have tables that are alike. -/
theorem SymbolTable.renumbered_ofNetworks :
    (ofNetworks ns).Renumbered ((ofNetworks ns).renumbering (ofNetworks ns')) (ofNetworks ns') := by
  have hp := ofNetworks_perm hu
  have hnodup := ofNetworks_nodup hn ht
  have hscopes := (List.forall₂_and_left _ _).mpr ⟨ht, ofNetworks_holds ns⟩
  exact ⟨renumbering_bijOn hp hnodup, fun id hid => get_renumbering hp hid,
    forall₂_of_map_eq hscopes (ofNetworks_holds ns') hu fun n n' s s' h h' heq =>
      h.2.renumbered hp hnodup h' heq h.1⟩

theorem Network.typedFrom_relabel (ho : ∀ n ∈ ns, n.InOrder) (ho' : ∀ n ∈ ns', n.InOrder) :
    (typedFrom 0 ns').map (Typed.Network.relabel id) =
      (typedFrom 0 ns).map (Typed.Network.relabel
        ((SymbolTable.ofNetworks ns).renumbering (SymbolTable.ofNetworks ns'))) := by
  have hp := SymbolTable.ofNetworks_perm hu
  have hnodup := SymbolTable.ofNetworks_nodup hn ht
  have htyped : List.Forall₂ (TypedAs (SymbolTable.ofNetworks ns).symbols) ns (typedFrom 0 ns) :=
    typedFrom_typedAs ho .empty
  have htyped' : List.Forall₂ (TypedAs (SymbolTable.ofNetworks ns').symbols) ns'
      (typedFrom 0 ns') :=
    typedFrom_typedAs ho' .empty
  have hall := forall₂_of_map_eq htyped htyped' hu fun n n' m m' h h' heq =>
    h.relabel hp hnodup h' heq
  exact map_eq_of_forall₂ hall fun m m' heq => heq

end

end NeuralQuery
