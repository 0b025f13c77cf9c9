/-!
# NeuralQuery.Lookup

Values by name. A name has one value at most: what is stored under it takes the place of the value
before.
-/

namespace NeuralQuery

/-- A name has a value if it stands in front of one. -/
theorem lookup_isSome_iff {α : Type} {entries : List (String × α)} {name : String} :
    (entries.lookup name).isSome = true ↔ name ∈ entries.map Prod.fst := by
  induction entries with
  | nil => simp
  | cons e entries ih =>
    obtain ⟨key, a⟩ := e
    by_cases h : name = key
    · simp [h]
    · rw [List.lookup_cons, beq_false_of_ne h, ih, List.map_cons, List.mem_cons]
      exact (or_iff_right h).symm

/-- Where a value is replaced, it is found under its name only. -/
theorem lookup_replace {α : Type} (entries : List (String × α)) (name : String) (a : α)
    (key : String) :
    (entries.map fun e => if e.1 = name then (name, a) else e).lookup key =
      if key = name then (entries.lookup name).map fun _ => a else entries.lookup key := by
  induction entries with
  | nil => simp
  | cons e entries ih =>
    obtain ⟨other, b⟩ := e
    rw [List.map_cons]
    by_cases ho : other = name
    · subst ho
      rw [if_pos rfl]
      by_cases hk : key = other
      · simp [hk]
      · rw [List.lookup_cons, ih, if_neg hk, if_neg hk, List.lookup_cons, beq_false_of_ne hk]
    · rw [if_neg ho, List.lookup_cons, List.lookup_cons, List.lookup_cons, ih,
        beq_false_of_ne (Ne.symm ho)]
      by_cases hk : key = name
      · rw [hk, beq_false_of_ne (Ne.symm ho), if_pos rfl]
      · rw [if_neg hk, if_neg hk]

structure Lookup (α : Type) where
  entries : List (String × α)
  distinct : (entries.map Prod.fst).Nodup

namespace Lookup

variable {α : Type}

def empty : Lookup α :=
  ⟨[], .nil⟩

/-- The names that have a value. -/
def names (m : Lookup α) : List String :=
  m.entries.map Prod.fst

def get? (m : Lookup α) (name : String) : Option α :=
  m.entries.lookup name

def contains (m : Lookup α) (name : String) : Bool :=
  (m.get? name).isSome

theorem contains_iff {m : Lookup α} {name : String} :
    m.contains name = true ↔ name ∈ m.names :=
  lookup_isSome_iff

/-- Puts a value in the place of the one that a name has. -/
def replace (m : Lookup α) (name : String) (a : α) : Lookup α where
  entries := m.entries.map fun e => if e.1 = name then (name, a) else e
  distinct := by
    have hnames : (m.entries.map fun e => if e.1 = name then (name, a) else e).map Prod.fst =
        m.entries.map Prod.fst := by
      rw [List.map_map]
      refine List.map_congr_left fun e _ => ?_
      by_cases h : e.1 = name <;> simp [h]
    rw [hnames]
    exact m.distinct

/-- Gives a value to a name that has none. -/
def add (m : Lookup α) (name : String) (a : α) (h : ¬m.contains name = true) : Lookup α where
  entries := m.entries ++ [(name, a)]
  distinct := by
    rw [List.map_append, List.nodup_append]
    refine ⟨m.distinct, by simp, ?_⟩
    intro key hkey other hother heq
    obtain rfl : other = name := List.mem_singleton.mp hother
    rw [heq] at hkey
    exact h (contains_iff.mpr hkey)

/-- Stores a value under a name. -/
def insert (m : Lookup α) (name : String) (a : α) : Lookup α :=
  if h : m.contains name then m.replace name a else m.add name a h

/-- Stores a value under a name, unless it has one. -/
def insertNew (m : Lookup α) (name : String) (a : α) : Lookup α :=
  if m.contains name then m else m.insert name a

theorem get?_eq_none_iff {m : Lookup α} {name : String} :
    m.get? name = none ↔ ¬m.contains name = true := by
  rw [contains, Bool.not_eq_true, Option.isSome_eq_false_iff, Option.isNone_iff_eq_none]

theorem entries_insert {m : Lookup α} {name : String} (h : ¬m.contains name = true) (a : α) :
    (m.insert name a).entries = m.entries ++ [(name, a)] := by
  rw [insert, dif_neg h]
  rfl

theorem get?_insert (m : Lookup α) (name : String) (a : α) (key : String) :
    (m.insert name a).get? key = if key = name then some a else m.get? key := by
  by_cases h : m.contains name = true
  · obtain ⟨b, hb⟩ := Option.isSome_iff_exists.mp h
    rw [insert, dif_pos h, get?, replace, lookup_replace, ← get?, hb]
    rfl
  · rw [get?, entries_insert h, List.lookup_append, ← get?]
    by_cases hkey : key = name
    · subst hkey
      rw [get?_eq_none_iff.mpr h]
      simp
    · rw [List.lookup_cons, beq_false_of_ne hkey, if_neg hkey]
      exact Option.or_none

theorem get?_insertNew (m : Lookup α) (name : String) (a : α) (key : String) :
    (m.insertNew name a).get? key = (m.get? key).or (if key = name then some a else none) := by
  rw [insertNew]
  by_cases h : m.contains name = true
  · rw [if_pos h]
    by_cases hkey : key = name
    · subst hkey
      obtain ⟨b, hb⟩ := Option.isSome_iff_exists.mp h
      simp [hb]
    · simp [hkey]
  · rw [if_neg h, get?_insert]
    by_cases hkey : key = name
    · subst hkey
      rw [get?_eq_none_iff.mpr h]
      simp
    · simp [hkey]

theorem names_insert {m : Lookup α} {name : String} (h : ¬m.contains name = true) (a : α) :
    (m.insert name a).names = m.names ++ [name] := by
  rw [names, entries_insert h, List.map_append]
  rfl

end Lookup
end NeuralQuery
