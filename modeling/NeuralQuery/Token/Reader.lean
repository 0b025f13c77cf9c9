import NeuralQuery.Token.Scan

/-!
# NeuralQuery.Token.Reader

Looking at a text from a place that moves by bytes. A reader may stand anywhere, also inside a
character or behind the end; what is ahead starts with the first character that it has not
entered. Between two characters it is where a scan can start (`scan_ofSource`,
`scan_advance`).
-/

namespace NeuralQuery
namespace Token

/-- A place in a named text, by the number of bytes before it. -/
structure Reader where
  file : String
  source : List Char
  offset : Nat
  deriving DecidableEq, Repr

namespace Reader

def ofSource (source file : String) : Reader :=
  ⟨file, source.toList, 0⟩

/-- The text ahead. -/
def ahead (r : Reader) : List Char :=
  Text.dropBytes r.offset r.source

def next? (r : Reader) : Option Char :=
  r.ahead.head?

/-- All bytes of the text are behind the reader. -/
def atEnd (r : Reader) : Bool :=
  Text.byteLength r.source ≤ r.offset

def position (r : Reader) : Position :=
  .ofBytes r.file r.offset

/-- The span of the next `n` bytes. -/
def spanOf (r : Reader) (n : Nat) : Span :=
  .ofBytes r.file r.offset (r.offset + n)

def advance (r : Reader) (n : Nat) : Reader :=
  { r with offset := r.offset + n }

/-- The scan of the text ahead. -/
def scan (r : Reader) : Scan :=
  ⟨r.file, r.offset, r.ahead⟩

@[simp] theorem scan_ofSource (source file : String) :
    (ofSource source file).scan = Scan.ofSource source file := by
  simp [scan, ahead, ofSource, Scan.ofSource]

/-- To advance by the bytes of a cut of the text ahead is to go behind that cut. -/
theorem scan_advance {r : Reader} {front : List Char} {c : Cut}
    (hs : r.source = front ++ (c.taken ++ c.rest)) (ho : r.offset = Text.byteLength front) :
    (r.advance (Text.byteLength c.taken)).scan = r.scan.past c := by
  have h : Text.dropBytes (Text.byteLength (front ++ c.taken)) (front ++ c.taken ++ c.rest) =
      c.rest := Text.dropBytes_append _ _
  simp only [Text.byteLength_append, List.append_assoc] at h
  simp only [scan, advance, ahead, Scan.past, hs, ho, h]

end Reader
end Token
end NeuralQuery
