import Mobility.FileTree
import Mobility.Settings.Document
import Mobility.Utf8

/-!
# Settings files

Settings are read from a file. The number of partitions can be given from outside, and replaces the
one in the file.
-/

set_option autoImplicit false

namespace Mobility

/-- Why there are no settings. -/
inductive SettingsError where
  /-- The file can't be opened. -/
  | missing (path : FilePath)
  /-- The content of the file aren't settings. -/
  | malformed (path : FilePath)
  /-- A module is needed which has no default. -/
  | noWorld
  | fault (cause : Fault)
deriving DecidableEq

/-- What an error says. -/
def SettingsError.message : SettingsError → String
  | missing path => s!"configuration error: Failed to open config file at {path.text}."
  | malformed path => s!"configuration error: Failed to parse config at {path.text}."
  | noWorld => "configuration error: config has no 'world' module"
  | fault cause => cause.message

namespace Settings

/-- Reads the settings in a file. -/
def load (t : FileTree) (p : FilePath) : Except SettingsError Settings :=
  match t.read p with
  | .error .isDirectory => .error (.malformed p)
  | .error _ => .error (.missing p)
  | .ok bytes =>
    match (Utf8.decode? bytes).bind ofText? with
    | some s => .ok s
    | none => .error (.malformed p)

/-- Reads the settings in a file. If a number of partitions is given, it replaces the one in the
file. -/
def loadFor (t : FileTree) (p : FilePath) (numParts : Option Nat) :
    Except SettingsError Settings := do
  let settings ← load t p
  match numParts with
  | none => return settings
  | some n =>
    match (splitInto n).run settings with
    | .ok () settings => return settings
    | .error e _ => throw (.fault e)

end Settings

end Mobility
