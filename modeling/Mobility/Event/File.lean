import Mobility.Event
import Mobility.FileTree
import Mobility.Gzip.File
import Mobility.Utf8

/-!
# Event files

An events file holds a log as text, one line after the other. The directory around it has to exist.
-/

set_option autoImplicit false

namespace Mobility

/-- The bytes of some lines, each of which ends with a line break. -/
def lineBytes (lines : List String) : List UInt8 :=
  lines.flatMap fun line => Utf8.encode line ++ [0x0a]

/-- Writes a log into a file. -/
def EventLog.save (log : EventLog) (p : FilePath) : Disk Unit :=
  Disk.write p (p.pack (lineBytes log.lines))

end Mobility
