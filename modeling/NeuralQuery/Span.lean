/-!
# NeuralQuery.Span

Places in a named source. Offsets count bytes of the UTF-8 text from its start, and are kept in
32 bits: after 2^32 bytes they start again from zero. In a shorter text the offset of a place is
the number of bytes before it.
-/

namespace NeuralQuery

/-- A byte offset in a named source. -/
structure Position where
  offset : Nat
  file : String
  deriving DecidableEq, Repr

/-- A stretch of a named source, from `start` up to but not including `stop`. -/
structure Span where
  file : String
  start : Nat
  stop : Nat
  deriving DecidableEq, Repr

namespace Position

/-- The offset of a place with so many bytes before it. -/
def wrap (bytes : Nat) : Nat :=
  bytes % UInt32.size

theorem wrap_of_lt {bytes : Nat} (h : bytes < UInt32.size) : wrap bytes = bytes :=
  Nat.mod_eq_of_lt h

/-- The place of a source with so many bytes before it. -/
def ofBytes (file : String) (bytes : Nat) : Position :=
  ⟨wrap bytes, file⟩

/-- The position of something that stands in no source. -/
def nowhere : Position :=
  ⟨0, "<null>"⟩

end Position

namespace Span

/-- The stretch between two places of a source, given by the bytes before each. -/
def ofBytes (file : String) (first last : Nat) : Span :=
  ⟨file, Position.wrap first, Position.wrap last⟩

def nowhere : Span :=
  ⟨"<null>", 0, 0⟩

def position (s : Span) : Position :=
  ⟨s.start, s.file⟩

/-- From the start of one stretch to the end of a later one. -/
def upTo (first last : Span) : Span :=
  { first with stop := last.stop }

end Span
end NeuralQuery
