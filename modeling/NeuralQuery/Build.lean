import NeuralQuery.Query.Parser
import NeuralQuery.Token.Scan
import NeuralQuery.Typing.Checker

/-!
# NeuralQuery.Build

From a text to a typed query with everything that is wrong with it. Only a text that cannot be
read as a query at all fails to build.
-/

namespace NeuralQuery

structure Build where
  query : Typed.Query
  diagnostics : List Diagnostic
  source : String
  file : String

namespace Build

def isWellTyped (b : Build) : Bool :=
  b.diagnostics.isEmpty

/-- The reports of all diagnostics; empty for a well-typed query. -/
def report (b : Build) : String :=
  Diagnostic.report b.diagnostics b.source b.file

/-- Builds the text of a named source. -/
def ofSource (source file : String) (policy : LiteralPolicy) : Except Diagnostic Build :=
  match Token.tokenize source file with
  | .error d => .error d
  | .ok tokens =>
    match Query.ofTokens tokens file with
    | .error d => .error d
    | .ok q =>
      let checked := Checker.check policy q
      .ok ⟨checked.value, checked.diagnostics, source, file⟩

/-- Builds a text that comes from no file. -/
def ofText (source : String) (options : BuildOptions) : Except Diagnostic Build :=
  ofSource source (options.fileName.getD "<string>") options.policy

end Build
end NeuralQuery
