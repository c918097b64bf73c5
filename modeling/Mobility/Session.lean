import Mobility.Event.File
import Mobility.Settings.File
import Mobility.Simulation
import Mobility.Snapshot.File

/-!
# Runs from a settings file

A session reads its settings, reads the scenario which they name, splits it as they say, runs it,
and writes what they ask for. Paths in the settings are seen from the directory of the settings
file.
-/

set_option autoImplicit false

namespace Mobility

/-- Why a session doesn't end as it should. -/
inductive SessionError where
  | settings (cause : SettingsError)
  | snapshot (cause : SnapshotError)
  | file (cause : FileError)
  | setup (cause : SetupError)
  | partition (cause : RankedFailure)
deriving DecidableEq

/-- What an error says. -/
def SessionError.message : SessionError → String
  | settings cause => cause.message
  | snapshot cause => cause.message
  | file cause => cause.message
  | setup cause => cause.message
  | partition cause => cause.message

/-- Work of a session. -/
abbrev Session := EStateM SessionError FileTree

namespace Session

/-- The result, or the error as one of a session. -/
def orFail {ε α : Type} (wrap : ε → SessionError) (result : Except ε α) : Session α :=
  match result with
  | .ok a => return a
  | .error e => throw (wrap e)

/-- Work on files. -/
def onDisk {α : Type} (act : Disk α) : Session α := act.adaptExcept .file

/-- What a session needs to know. -/
structure Plan where
  scenario : Scenario
  timing : Timing
  output : Output
  directory : FilePath

/-- The settings and the path of the snapshot. -/
structure Source where
  settings : Settings
  snapshot : FilePath
  output : Output
  split : Split

/-- Reads the settings. -/
def readSettings (t : FileTree) (config : FilePath) (numParts : Option Nat) :
    Except SettingsError Source := do
  let settings ← Settings.loadFor t config numParts
  let questions : Settings.Query (Option String × Output × Split) := do
    match ← Settings.world with
    | none => return (none, .standard, .standard)
    | some path => return (some path, ← Settings.output, ← Settings.split)
  match questions.run settings with
  | .error e _ => throw (.fault e)
  | .ok (none, _) _ => throw .noWorld
  | .ok (some path, output, split) settings =>
    return ⟨settings, config.resolve ⟨path⟩, output, split⟩

/-- Finds out what to run. -/
def prepare (config : FilePath) (numParts : Option Nat) : Session Plan := do
  let source ← orFail .settings (readSettings (← get) config numParts)
  let scenario ← orFail .snapshot (Scenario.load (← get) source.snapshot)
  let scenario ← orFail (fun e => .snapshot (.scenario e))
    (scenario.repartition source.split.numParts source.split.method)
  match Settings.timing.run source.settings with
  | .ok timing _ =>
    return ⟨scenario, timing, source.output, config.resolve ⟨source.output.directory⟩⟩
  | .error e _ => throw (.settings (.fault e))

/-- The events file of partition `rank`, if events are written. -/
def eventsFile (plan : Plan) (rank : Nat) : Option FilePath :=
  match plan.output.events with
  | .none => none
  | .text => some (plan.directory.join ⟨s!"events.{rank}.txt"⟩)
  | .gzip => some (plan.directory.join ⟨s!"events.{rank}.txt.gz"⟩)

/-- The log file of partition `rank`, if there is a log. -/
def logFile (plan : Plan) (rank : Nat) : Option FilePath :=
  match plan.output.logging with
  | .none => none
  | .info | .debug => some (plan.directory.join ⟨s!"log_process_{rank}.txt"⟩)

/-- Makes the files that partition `rank` writes while it runs. -/
def openFiles (plan : Plan) (rank : Nat) : Session Unit := do
  onDisk (Disk.createDirectories plan.directory)
  if let some log := logFile plan rank then onDisk (Disk.write log [])
  if let some events := eventsFile plan rank then onDisk (EventLog.save #[] events)

/-- Writes what a partition has to report after its run. -/
def report (plan : Plan) (p : Partition) : Session Unit := do
  if let some events := eventsFile plan p.rank then onDisk (p.log.save events)
  if plan.output.state then
    onDisk (Disk.write (plan.directory.stateFile p.rank) (lineBytes p.dump))

/-- Runs the scenario that a settings file names. -/
def run (config : FilePath) (numParts : Option Nat) : Session (List Summary) := do
  let plan ← prepare config numParts
  (List.range plan.scenario.numParts).forM (openFiles plan)
  let simulation ← orFail .setup (Simulation.make plan.scenario plan.timing)
  let simulation ← orFail .partition (simulation.run plan.timing)
  simulation.partitions.forM (report plan)
  return simulation.partitions.map (·.summary)

end Session

end Mobility
