import Mobility.FilePath
import Mobility.Gzip.Basic

/-!
# Content of compressed and plain files

Whether a file is compressed is told by its path alone, for writing and for reading. How it is compressed isn't: any
program for compressed files will do, and the one of `Mobility.Gzip.Basic` is one of them.
-/

set_option autoImplicit false

namespace Mobility.FilePath

/-- The bytes of a file with this content, if files are compressed by `compress`. -/
def packWith (compress : List UInt8 → List UInt8) (p : FilePath) (content : List UInt8) : List UInt8 :=
  if p.isCompressed then compress content else content

/-- What can be read from a file with these bytes, if compressed files are read by `decompress`. -/
def unpackWith (decompress : List UInt8 → Gzip.Readable) (p : FilePath) (bytes : List UInt8) : Gzip.Readable :=
  if p.isCompressed then decompress bytes else ⟨bytes, true⟩

/-- The bytes of a file with this content. -/
def pack (p : FilePath) (content : List UInt8) : List UInt8 := p.packWith Gzip.compress content

/-- What can be read from a file with these bytes. -/
def unpack (p : FilePath) (bytes : List UInt8) : Gzip.Readable := p.unpackWith Gzip.decompress bytes

end Mobility.FilePath
