import NeuralQuery.Typing.Expr
import NeuralQuery.Typing.Network

/-!
# NeuralQuery.Typing.Query

Checking a whole query. Assertions are checked when all networks are known, and change nothing.
-/

namespace NeuralQuery
namespace Typing

open Checked

/-- A text cut at its first point. -/
def atPoint? (cs : List Char) : Option (List Char × List Char) :=
  match cs.dropWhile (· != '.') with
  | [] => none
  | _ :: rest => some (cs.takeWhile (· != '.'), rest)

/-- Major and minor version numbers with a point between them. -/
def versionNumbers? (lexeme : String) : Option (UInt32 × UInt32) :=
  match atPoint? lexeme.toList with
  | some (major, minor) =>
    match Number.uint32? major, Number.uint32? minor with
    | some a, some b => some (a, b)
    | _, _ => none
  | none => none

/-- A version that cannot be read is reported and counts as 0.0. -/
def version (v : Version) : Checked Typed.Version :=
  match versionNumbers? v.lexeme with
  | some (major, minor) => pure ⟨major, minor, v.span⟩
  | none => do
    note (.invalidVersion v.lexeme) v.span.position
    return ⟨0, 0, v.span⟩

def assertion (table : SymbolTable) (policy : LiteralPolicy) (a : Assertion) :
    Checked Typed.Assertion := do
  let condition ← formula table policy a.condition
  return ⟨condition, a.span⟩

def assertions (table : SymbolTable) (policy : LiteralPolicy) :
    List Assertion → Checked (List Typed.Assertion)
  | [] => return []
  | a :: rest => do
    let typed ← assertion table policy a
    let others ← assertions table policy rest
    return typed :: others

def query (policy : LiteralPolicy) (q : Query) : Checked Typed.Query := do
  let version ← version q.version
  let (networks, table) ← networksFrom q.networks .empty q.networks
  let assertions ← assertions table policy q.assertions
  return ⟨version, networks, assertions, table, q.span⟩

end Typing
end NeuralQuery
