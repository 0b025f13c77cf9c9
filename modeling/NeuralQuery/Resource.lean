import NeuralQuery.Build

/-!
# NeuralQuery.Resource

What a path leads to, as far as reading is concerned, and building a query from it.
-/

namespace NeuralQuery

inductive Resource where
  | file (content : ByteArray)
  | directory
  | absent
  /-- Nothing that can be read, for a reason of the system. -/
  | unreadable (message : String)

namespace Resource

/-- The text of a resource, or the reason why it has none. -/
def read : Resource → Except String String
  | file content =>
    match String.fromUTF8? content with
    | some text => .ok text
    | none => .error "stream did not contain valid UTF-8"
  | directory => .error "Is a directory (os error 21)"
  | absent => .error "No such file or directory (os error 2)"
  | unreadable message => .error message

/-- The text of the resource at a path. -/
def text (r : Resource) (path : String) : Except Diagnostic String :=
  match r.read with
  | .ok text => .ok text
  | .error message => .error ⟨.unreadableFile path message, ⟨0, path⟩⟩

/-- Builds the query in a file, which is known by its path. -/
def build (r : Resource) (path : String) (policy : LiteralPolicy) : Except Diagnostic Build :=
  match r.text path with
  | .error d => .error d
  | .ok source => Build.ofSource source path policy

end Resource
end NeuralQuery
