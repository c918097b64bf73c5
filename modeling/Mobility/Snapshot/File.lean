import Mobility.FileTree
import Mobility.Gzip.File
import Mobility.Scenario.Partitioning
import Mobility.Snapshot.Basic
import Mobility.Snapshot.Binary
import Mobility.Snapshot.Text

/-!
# Snapshot files

The ending of a snapshot file tells its form, and a further ending tells whether it is compressed.
What follows from the entities of a scenario is derived again when a snapshot is read, with the
owners of the links as they were stored, so a file can't smuggle in an inconsistent scenario. How
values become bytes is up to the `Codecs`.
-/

set_option autoImplicit false

namespace Mobility

/-- The two forms of a snapshot. -/
inductive SnapshotForm where
  | binary
  | text
deriving DecidableEq

/-- Why a snapshot can't be written or read. -/
inductive SnapshotError where
  | unsupported (path : FilePath)
  /-- The content isn't a snapshot. For a text the place is known. -/
  | malformed (place : Option Json.Path)
  | file (cause : FileError)
  | scenario (cause : ScenarioError)
deriving DecidableEq

/-- What an error says. -/
def SnapshotError.message : SnapshotError → String
  | unsupported path =>
    s!"unsupported world file {path.quoted}. " ++
      "Supported endings are '.bin', '.json' with an optional '.gz'"
  | malformed none => "failed to decode world snapshot"
  | malformed (some place) => s!"failed to decode world snapshot: {place.text}"
  | file cause => cause.message
  | scenario cause => cause.message

/-- The form of the snapshot in a file. -/
def FilePath.snapshotForm? (p : FilePath) : Option SnapshotForm :=
  match p.format with
  | some "bin" => some .binary
  | some "json" => some .text
  | _ => none

namespace SnapshotForm

/-- The content of a snapshot in which a value is stored. -/
def encode (form : SnapshotForm) (value : Scenario.fields.Value) : List UInt8 :=
  match form with
  | binary => (Shape.record Scenario.fields).encode value
  | text => (Shape.record Scenario.fields).write value

/-- Reads the content of a snapshot. What follows the snapshot is ignored. -/
def decode (form : SnapshotForm) (content : Gzip.Readable) : Except (Option Json.Path) Scenario.fields.Value :=
  match form with
  | binary =>
    match (Shape.record Scenario.fields).decode content.bytes with
    | some (value, _) => .ok value
    | none => .error none
  | text =>
    match (Shape.record Scenario.fields).read content.isWhole content.bytes with
    | .ok (value, _) => .ok value
    | .error place => .error (some place)

end SnapshotForm

/-- How stored values become the content of a snapshot, how a content is compressed, and the ways back. What a snapshot
stores and what is done with it is the same for all of them. -/
structure Codecs where
  encode : SnapshotForm → Scenario.fields.Value → List UInt8
  decode : SnapshotForm → Gzip.Readable → Except (Option Json.Path) Scenario.fields.Value
  compress : List UInt8 → List UInt8
  decompress : List UInt8 → Gzip.Readable

/-- The forms of `Shape`, with stored blocks in compressed files. -/
def Codecs.standard : Codecs := ⟨SnapshotForm.encode, SnapshotForm.decode, Gzip.compress, Gzip.decompress⟩

namespace Scenario

/-- Writes a snapshot, together with the directories around it. Whether the ending of the file is
supported shows only when the file is there. -/
def saveWith (codecs : Codecs) (s : Scenario) (p : FilePath) : EStateM SnapshotError FileTree Unit := do
  match p.parent with
  | some directory => (Disk.createDirectories directory).adaptExcept .file
  | none => pure ()
  (Disk.write p (p.packWith codecs.compress [])).adaptExcept .file
  match p.snapshotForm? with
  | some form => (Disk.write p (p.packWith codecs.compress (codecs.encode form s.stored))).adaptExcept .file
  | none => throw (.unsupported p)

/-- Writes a snapshot in the standard forms. -/
def save (s : Scenario) (p : FilePath) : EStateM SnapshotError FileTree Unit := s.saveWith .standard p

/-- The bytes of a file. A directory can be opened, but there is nothing to read. -/
def opened (t : FileTree) (p : FilePath) : Except SnapshotError (List UInt8) :=
  match t.read p with
  | .ok bytes => .ok bytes
  | .error .isDirectory => .ok []
  | .error e => .error (.file e)

/-- Reads a snapshot, and checks and splits it again. -/
def loadWith (codecs : Codecs) (t : FileTree) (p : FilePath) : Except SnapshotError Scenario := do
  match p.snapshotForm? with
  | none => throw (.unsupported p)
  | some form =>
    let bytes ← opened t p
    let value ← (codecs.decode form (p.unpackWith codecs.decompress bytes)).mapError .malformed
    let s := ofStored value
    (s.repartition s.numParts .precomputed).mapError .scenario

/-- Reads a snapshot in the standard forms. -/
def load (t : FileTree) (p : FilePath) : Except SnapshotError Scenario := loadWith .standard t p

end Scenario

end Mobility
