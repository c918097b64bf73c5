import Mobility.CommandLine
import Mobility.Session

/-!
# The program

The program runs the session that its command line asks for. How this ends shows in the exit code.
-/

set_option autoImplicit false

namespace Mobility

/-- How the program ends. -/
inductive Outcome where
  | done (summaries : List Summary)
  /-- The command line isn't one to run. -/
  | refused (cause : UsageError)
  | failed (cause : SessionError)
deriving DecidableEq

namespace Outcome

/-- The exit code. Help and version are no failures, and a fault outside of a partition is told
apart from other failures. -/
def exitCode : Outcome → Nat
  | done _ => 0
  | refused .helpWanted => 0
  | refused .versionWanted => 0
  | refused _ => 2
  | failed (.settings (.fault _)) => 101
  | failed _ => 1

/-- What is printed. -/
def message : Outcome → Option String
  | done _ => none
  | refused cause => some cause.message
  | failed cause => some s!"Simulation failed: {cause.message}"

end Outcome

namespace Program

/-- Runs the program with these arguments. -/
def run (arguments : List String) : StateM FileTree Outcome := fun t =>
  match CommandLine.parse arguments with
  | .error e => (.refused e, t)
  | .ok line =>
    match Session.run ⟨line.configPath⟩ line.numParts t with
    | .ok summaries t => (.done summaries, t)
    | .error e t => (.failed e, t)

/-- The paths that the program looks at before it writes anything, as far as the files tell. -/
def looksAt (arguments : List String) (t : FileTree) : List FilePath :=
  match CommandLine.parse arguments with
  | .error _ => []
  | .ok line =>
    let config : FilePath := ⟨line.configPath⟩
    config ::
      match Session.readSettings t config line.numParts with
      | .error _ => []
      | .ok source => [source.snapshot, config.resolve ⟨source.output.directory⟩]

end Program

end Mobility
