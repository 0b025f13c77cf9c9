import NeuralQuery.Command

/-!
# NeuralQuery.Main

The command line: reads the file that a request names, and prints what comes out of it.
-/

namespace NeuralQuery

/-- What a path leads to. -/
def Resource.find (path : String) : IO Resource := do
  try
    let content ← IO.FS.readBinFile path
    return .file content
  catch
    | .noFileOrDirectory .. => return .absent
    | .inappropriateType .. => return .directory
    | .permissionDenied .. => return .unreadable "Permission denied (os error 13)"
    | e => return .unreadable (toString e)

def Outcome.print (o : Outcome) : IO UInt32 := do
  IO.print o.stdout
  IO.eprint o.stderr
  return o.exitCode

end NeuralQuery

open NeuralQuery in
def main (args : List String) : IO UInt32 := do
  match Command.ofArguments? args with
  | none => Outcome.print ⟨2, "", Command.usage⟩
  | some command =>
    match command.readPolicy with
    | .error outcome => outcome.print
    | .ok policy => (command.runWith policy (← Resource.find command.path)).print
