import NeuralQuery.Text.Extender
import NeuralQuery.Text.Ignorable
import NeuralQuery.Text.Unprintable

/-!
# NeuralQuery.Text.Quoted

Two conventions for texts between double quotes.

* `quote` writes a text so that every character can be seen: the usual control characters,
  quotes and backslashes by a backslash escape, combining, ignorable and unprintable characters
  by their code point in hexadecimal, everything else as it is.
* `unescape` reads the inside of a string of a query, which knows four escapes; a backslash
  before any other character stands for itself.
-/

namespace NeuralQuery
namespace Text

/-- The code point in lower-case hexadecimal between braces, without leading zeros. -/
def codePoint (c : Char) : List Char :=
  ['\\', 'u', '\x7b'] ++ Nat.toDigits 16 c.toNat ++ ['\x7d']

/-- One character between double quotes. -/
def escape (c : Char) : List Char :=
  if c = '\x00' then ['\\', '0']
  else if c = '\t' then ['\\', 't']
  else if c = '\r' then ['\\', 'r']
  else if c = '\n' then ['\\', 'n']
  else if c = '"' then ['\\', '"']
  else if c = '\\' then ['\\', '\\']
  else if isExtender c || isIgnorable c || isUnprintable c then codePoint c
  else [c]

def quoteChars (cs : List Char) : List Char :=
  '"' :: (cs.flatMap escape ++ ['"'])

/-- A text in double quotes, every character visible. -/
def quote (s : String) : String :=
  String.ofList (quoteChars s.toList)

/-- The text that the inside of a quoted string stands for. -/
def unescape : List Char → List Char
  | [] => []
  | [c] => [c]
  | c :: d :: cs =>
    if c = '\\' then
      if d = 'n' then '\n' :: unescape cs
      else if d = 't' then '\t' :: unescape cs
      else if d = '\\' then '\\' :: unescape cs
      else if d = '"' then '"' :: unescape cs
      else c :: d :: unescape cs
    else c :: unescape (d :: cs)

end Text
end NeuralQuery
