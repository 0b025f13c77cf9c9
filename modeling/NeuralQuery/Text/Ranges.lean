/-!
# NeuralQuery.Text.Ranges

Sets of code points as ascending lists of closed ranges.
-/

namespace NeuralQuery
namespace Text

/-- A closed range of code points. -/
structure Range where
  first : Nat
  last : Nat
  deriving DecidableEq, Repr

/-- Membership in an ascending list of ranges. The search ends at the first range that starts
above the code point. -/
def Range.cover : List Range → Nat → Bool
  | [], _ => false
  | r :: rs, n => r.first ≤ n && (n ≤ r.last || Range.cover rs n)

end Text
end NeuralQuery
