import Mobility.Gzip.Inflate
import Mobility.LittleEndian

/-!
# Compressed files

A compressed file is a header, a deflated stream and the checksum and length of what was
compressed. Files are written with stored blocks only, which is one way among others to write
them; all kinds of blocks are read. Of a damaged file as much is read as was handed on before the
damage is noticed.
-/

set_option autoImplicit false

namespace Mobility.Gzip

/-! ## Writing -/

/-- One bit of the checksum: division of polynomials over two elements. -/
def checksumBit (crc : UInt32) : UInt32 :=
  if crc &&& 1 = 1 then (crc >>> 1) ^^^ 0xedb88320 else crc >>> 1

/-- The checksum with one more byte. -/
def checksumByte (crc : UInt32) (b : UInt8) : UInt32 :=
  (List.range 8).foldl (fun crc _ => checksumBit crc) (crc ^^^ b.toUInt32)

/-- The checksum of some bytes. -/
def checksum (data : List UInt8) : UInt32 := (data.foldl checksumByte 0xffffffff) ^^^ 0xffffffff

/-- The most bytes a stored block can hold. -/
def blockSize : Nat := 65535

/-- A stored block. -/
def storedBlock (isLast : Bool) (data : List UInt8) : List UInt8 :=
  (if isLast then 1 else 0) :: (LittleEndian.encode 2 data.length ++
    LittleEndian.encode 2 (blockSize - data.length) ++ data)

/-- The bytes as stored blocks. -/
def deflate (data : List UInt8) : List UInt8 :=
  if data.length ≤ blockSize then storedBlock true data
  else storedBlock false (data.take blockSize) ++ deflate (data.drop blockSize)
termination_by data.length
decreasing_by
  simp only [List.length_drop]
  have : 0 < blockSize := by decide
  omega

/-- The two bytes which every compressed file starts with. -/
def magic : List UInt8 := [0x1f, 0x8b]

/-- What follows the stream of some bytes. -/
def trailer (data : List UInt8) : List UInt8 :=
  LittleEndian.encode 4 (checksum data).toNat ++ LittleEndian.encode 4 data.length

/-- A compressed file. -/
def compress (data : List UInt8) : List UInt8 :=
  magic ++ [8, 0, 0, 0, 0, 0, 4, 255] ++ deflate data ++ trailer data

/-! ## Reading -/

/-- What can be read from a file. -/
structure Readable where
  bytes : List UInt8
  /-- Whether reading gets to the end of the file. Otherwise it fails behind the bytes. -/
  isWhole : Bool
deriving DecidableEq

/-- The most bytes a name or a remark in a header can have. -/
def longestName : Nat := 65535

/-- The bytes behind the next zero, if it isn't too far away. -/
def skipName (data : List UInt8) : Option (List UInt8) :=
  let name := data.takeWhile (· ≠ 0)
  if name.length ≤ longestName then some (data.drop (name.length + 1)) else none

/-- The bytes behind the parts of a header that `flags` announces, apart from its checksum. -/
def skipOptional (flags : Nat) (data : List UInt8) : Option (List UInt8) := do
  let data ← if flags / 4 % 2 = 1 then
      (LittleEndian.decode 2 data).map fun (n, data) => data.drop n
    else some data
  let data ← if flags / 8 % 2 = 1 then skipName data else some data
  if flags / 16 % 2 = 1 then skipName data else some data

/-- The deflated stream of a compressed file and what follows it, if the file has a header. The
header can have a checksum of its own, of two bytes. -/
def body (file : List UInt8) : Option (List UInt8) :=
  match file with
  | 0x1f :: 0x8b :: 8 :: flags :: rest => do
    if 0x20 ≤ flags.toNat ∨ rest.length < 6 then none
    let data ← skipOptional flags.toNat (rest.drop 6)
    if flags.toNat / 2 % 2 = 0 then return data
    let (stored, behind) ← LittleEndian.decode 2 data
    let header := file.take (file.length - data.length)
    if stored = (checksum header).toNat % 0x10000 then return behind else none
  | _ => none

/-- What can be read from a compressed file. -/
def decompress (file : List UInt8) : Readable :=
  match body file with
  | none => ⟨[], false⟩
  | some stream =>
    let start := Stream.start stream (file.length - stream.length)
    let all : Inflate Unit := do
      Inflate.blocks (8 * stream.length + 1)
      Inflate.align
    match all.run start with
    | .ok () s => ⟨s.output.toList, (trailer s.output.toList).isPrefixOf s.rest⟩
    | .error .cutOff s => ⟨s.output.toList, false⟩
    | .error .corrupt s => ⟨s.output.toList.take s.delivered, false⟩

end Mobility.Gzip
