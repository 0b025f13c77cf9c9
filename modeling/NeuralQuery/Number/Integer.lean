/-!
# NeuralQuery.Number.Integer

Decimal integers: an optional sign and at least one digit. A signed literal must fit 64 bits; an
unsigned one takes a plus sign, but no minus sign, and must fit 32 bits. Reading the decimal text
of a signed integer gives that integer back (`int64?_decimal`).
-/

namespace NeuralQuery
namespace Number

/-- A row of decimal digits, at least one of them. -/
def natural? (cs : List Char) : Option Nat :=
  if cs.isEmpty || !cs.all Char.isDigit then none else some (Nat.ofDigitChars 10 cs 0)

def integer? : List Char → Option Int
  | '-' :: cs => (natural? cs).map fun n => -Int.ofNat n
  | '+' :: cs => (natural? cs).map Int.ofNat
  | cs => (natural? cs).map Int.ofNat

/-- A signed integer of 64 bits; one that does not fit is refused. -/
def int64? (text : String) : Option Int64 :=
  match integer? text.toList with
  | some i =>
    if Int64.minValue.toInt ≤ i ∧ i ≤ Int64.maxValue.toInt then some (Int64.ofInt i) else none
  | none => none

/-- An unsigned integer of 32 bits; one that does not fit is refused. -/
def uint32? (cs : List Char) : Option UInt32 :=
  let digits :=
    match cs with
    | '+' :: ds => ds
    | ds => ds
  match natural? digits with
  | some n => if n < UInt32.size then some (UInt32.ofNat n) else none
  | none => none

/-- The decimal text of an integer, with a sign only if it is negative. -/
def decimal (i : Int64) : String :=
  i.toInt.repr

theorem natural?_repr (n : Nat) : natural? n.repr.toList = some n := by
  have hd : ∀ c ∈ Nat.toDigits 10 n, c.isDigit = true := fun c hc =>
    Nat.isDigit_of_mem_toDigits (by decide) (by decide) hc
  have hne : Nat.toDigits 10 n ≠ [] := Nat.toDigits_ne_nil
  have hall : (Nat.toDigits 10 n).all Char.isDigit = true := List.all_eq_true.mpr hd
  rw [Nat.toList_repr, natural?, hall, Nat.ofDigitChars_toDigits (by decide) (by decide)]
  simp [hne]

/-- Digits without a sign are a natural number. -/
theorem integer?_of_digits {cs : List Char} (h : ∀ c ∈ cs, c.isDigit = true) :
    integer? cs = (natural? cs).map Int.ofNat := by
  unfold integer?
  split
  · exact absurd (h '-' (by simp)) (by decide)
  · exact absurd (h '+' (by simp)) (by decide)
  · rfl

theorem integer?_repr (i : Int) : integer? i.repr.toList = some i := by
  rw [Int.repr_eq_if]
  split
  · rename_i h
    have hd : ∀ c ∈ i.toNat.repr.toList, c.isDigit = true := by
      intro c hc
      rw [Nat.toList_repr] at hc
      exact Nat.isDigit_of_mem_toDigits (by decide) (by decide) hc
    rw [integer?_of_digits hd, natural?_repr, Option.map_some, Int.ofNat_eq_natCast,
      Int.toNat_of_nonneg h]
  · rename_i h
    have hl : ("-" ++ (-i).toNat.repr).toList = '-' :: (-i).toNat.repr.toList := by simp
    rw [hl, integer?, natural?_repr, Option.map_some, Int.ofNat_eq_natCast,
      Int.toNat_of_nonneg (by omega), Int.neg_neg]

theorem int64?_decimal (i : Int64) : int64? (decimal i) = some i := by
  simp only [int64?, decimal, integer?_repr]
  rw [if_pos ⟨i.minValue_le_toInt, i.toInt_le⟩, Int64.ofInt_toInt]

end Number
end NeuralQuery
