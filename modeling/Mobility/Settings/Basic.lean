import Mobility.Fault
import Mobility.Partition.Basic

/-!
# Settings

Settings are independent modules, each under its name. A module which isn't there has a default, and
asking for it stores the default. A name says what a module is for; a module of another type under
that name is a fault.
-/

set_option autoImplicit false

namespace Mobility

/-- What is written into the log of a partition. -/
inductive LogLevel where
  | none
  | info
  | debug
deriving DecidableEq

/-- How stamped events are written. -/
inductive EventsFormat where
  | none
  | text
  | gzip
deriving DecidableEq

/-- How a scenario is split. -/
structure Split where
  numParts : Nat
  method : Method
deriving DecidableEq

/-- What a run writes, and where. -/
structure Output where
  directory : String
  logging : LogLevel
  events : EventsFormat
  /-- Whether the state of every partition is written after the run. -/
  state : Bool
deriving DecidableEq

/-- A module of settings. -/
inductive Module where
  | simulation (timing : Timing)
  | partitioning (split : Split)
  | output (output : Output)
  /-- The path of a snapshot. -/
  | world (path : String)
deriving DecidableEq

/-- Modules by name. -/
structure Settings where
  modules : List (String × Module)
deriving DecidableEq

/-- The times of a run for which none are set: a day. -/
def Timing.standard : Timing := ⟨0, 86400, 0, 0⟩

/-- A single partition. -/
def Split.standard : Split := ⟨1, .none⟩

/-- Nothing but directories is written. -/
def Output.standard : Output := ⟨"./", .none, .none, false⟩

namespace Settings

/-- The module under a name. -/
def module? (s : Settings) (name : String) : Option Module :=
  (s.modules.find? fun m => m.1 = name).map (·.2)

/-- Puts a module under a name. -/
def put (s : Settings) (name : String) (m : Module) : Settings :=
  ⟨s.modules.filter (fun other => other.1 ≠ name) ++ [(name, m)]⟩

/-- A question about settings, which may store a default. -/
abbrev Query := EStateM Fault Settings

/-- The module under a name, as far as `pick` knows its type. -/
def find {α : Type} (name : String) (pick : Module → Option α) : Query (Option α) := do
  match (← get).module? name with
  | none => return none
  | some m =>
    match pick m with
    | some a => return some a
    | none => throw (.moduleType name)

/-- The module under a name, or its default, which is stored then. -/
def findOr {α : Type} (name : String) (pick : Module → Option α) (wrap : α → Module)
    (default : α) : Query α := do
  match ← find name pick with
  | some a => return a
  | none =>
    modify fun s => s.put name (wrap default)
    return default

/-- How the scenario is split. -/
def split : Query Split :=
  findOr "partitioning"
    (fun | .partitioning s => some s | _ => none) .partitioning .standard

/-- What a run writes. -/
def output : Query Output :=
  findOr "output" (fun | .output o => some o | _ => none) .output .standard

/-- The times of a run. -/
def timing : Query Timing :=
  findOr "simulation" (fun | .simulation t => some t | _ => none) .simulation .standard

/-- The path of the snapshot, which has no default. -/
def world : Query (Option String) :=
  find "world" fun | .world path => some path | _ => none

/-- Sets the number of partitions, and writes into a directory of its own for this number. -/
def splitInto (numParts : Nat) : Query Unit := do
  let split ← split
  modify fun s => s.put "partitioning" (.partitioning { split with numParts := numParts })
  let output ← output
  modify fun s =>
    s.put "output" (.output { output with directory := s!"{output.directory}-{numParts}" })

end Settings

end Mobility
