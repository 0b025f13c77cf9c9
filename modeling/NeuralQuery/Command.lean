import NeuralQuery.Resource

/-!
# NeuralQuery.Command

The command line without its effects: what is asked for, and what comes out of it for a given
content of the file.

The exit code is 0 for a well-typed query, 1 for one with diagnostics, and 2 if there is no query
to speak of.
-/

namespace NeuralQuery

/-- What to do with the query in a file. -/
inductive Verb where
  /-- Report what is wrong with it. -/
  | check
  /-- Print it with types, then report what is wrong with it. -/
  | dump
  deriving DecidableEq, Repr

/-- A request on the command line; the policy is not read yet. -/
structure Command where
  verb : Verb
  path : String
  policy : Option String := none

structure Outcome where
  exitCode : UInt32
  stdout : String
  stderr : String

namespace Command

/-- The answer to a policy that is none. -/
def invalidPolicy (text message : String) : Outcome :=
  ⟨2, "", s!"error: invalid value '{text}' for '--literal-policy <LITERAL_POLICY>': {message}" ++
    "\n\nFor more information, try '--help'.\n"⟩

/-- The answer for a file that holds no query. -/
def failure (d : Diagnostic) (source path : String) : Outcome :=
  ⟨2, "", d.render source path⟩

/-- The answer for a query. -/
def success (verb : Verb) (b : Build) : Outcome :=
  let dumped := if verb = .dump then b.query.text ++ "\n" else ""
  if b.isWellTyped then ⟨0, dumped, ""⟩ else ⟨1, dumped ++ b.report, ""⟩

/-- Carries out a request under a policy. -/
def runWith (c : Command) (policy : LiteralPolicy) (r : Resource) : Outcome :=
  match r.text c.path with
  | .error d => ⟨2, "", "Error: " ++ d.fault.message ++ "\n"⟩
  | .ok source =>
    match Build.ofSource source c.path policy with
    | .error d => failure d source c.path
    | .ok b => success c.verb b

/-- The policy of a request. Where none is given, literals are kept as they are. -/
def readPolicy (c : Command) : Except Outcome LiteralPolicy :=
  match c.policy with
  | none => .ok .keep
  | some text =>
    match LiteralPolicy.ofText text with
    | .ok policy => .ok policy
    | .error message => .error (invalidPolicy text message)

/-- Carries out a request. A policy that is none comes before anything in the file. -/
def run (c : Command) (r : Resource) : Outcome :=
  match c.readPolicy with
  | .ok policy => c.runWith policy r
  | .error outcome => outcome

/-! ## Arguments -/

def verb? (name : String) : Option Verb :=
  if name = "check" then some .check
  else if name = "dump" then some .dump
  else none

/-- The arguments behind the verb: one path, and at most one policy before or behind it. -/
def options? (verb : Verb) : (path policy : Option String) → List String → Option Command
  | some path, policy, [] => some ⟨verb, path, policy⟩
  | none, _, [] => none
  | path, none, "--literal-policy" :: text :: rest => options? verb path (some text) rest
  | none, policy, text :: rest => options? verb (some text) policy rest
  | some _, _, _ :: _ => none

/-- The request that a command line makes, if it makes one. -/
def ofArguments? : List String → Option Command
  | name :: rest =>
    match verb? name with
    | some verb => options? verb none none rest
    | none => none
  | [] => none

def usage : String :=
  "Usage: neuralquery <check|dump> <FILE> [--literal-policy <LITERAL_POLICY>]\n"

end Command
end NeuralQuery
