/-!
# NeuralQuery.Text.Blank

White space in the sense of the Unicode property `White_Space`, and trimming by it. The ASCII
blanks are among the 25 code points, and so are the no-break space and the ideographic space.
-/

namespace NeuralQuery
namespace Text

/-- The 25 code points of the Unicode property `White_Space`. -/
def isBlank (c : Char) : Bool :=
  let n := c.toNat
  (0x09 ≤ n && n ≤ 0x0D) || n == 0x20 || n == 0x85 || n == 0xA0 || n == 0x1680 ||
    (0x2000 ≤ n && n ≤ 0x200A) || n == 0x2028 || n == 0x2029 || n == 0x202F ||
    n == 0x205F || n == 0x3000

def trimStart (cs : List Char) : List Char :=
  cs.dropWhile isBlank

def trimEnd (cs : List Char) : List Char :=
  (cs.reverse.dropWhile isBlank).reverse

end Text
end NeuralQuery
