import Mobility.LittleEndian
import Mobility.Snapshot.Shape

/-!
# Stored values as bytes

The binary form has no names. A number below 251 is one byte; a larger one is a byte that tells how
wide it is and then its bytes, the lowest first. A list is its length and its items. A reader takes
a width that is larger than needed, as long as the field itself is that wide.
-/

set_option autoImplicit false

namespace Mobility

namespace Binary

/-! ## Numbers -/

/-- The bytes of a number below `2 ^ 64`. -/
def varint (n : Nat) : List UInt8 :=
  if n < 251 then [UInt8.ofNat n]
  else if n < 0x10000 then 251 :: LittleEndian.encode 2 n
  else if n < 0x100000000 then 252 :: LittleEndian.encode 4 n
  else 253 :: LittleEndian.encode 8 n

/-- How many bytes follow a first byte of at least 251. -/
def widthOf (first : UInt8) : Option Nat :=
  if first = 251 then some 2
  else if first = 252 then some 4
  else if first = 253 then some 8
  else none

/-- Reads a number for a field of so many bytes. -/
def readVarint (bytes : Nat) : List UInt8 → Option (Nat × List UInt8)
  | [] => none
  | first :: data =>
    if first < 251 then some (first.toNat, data)
    else do
      let width ← widthOf first
      if width ≤ bytes then LittleEndian.decode width data else none

/-! ## Lists -/

/-- A reader of a value at the start of some bytes. -/
abbrev Reader (α : Type) := List UInt8 → Option (α × List UInt8)

/-- Reads `count` items behind the ones which were read, which are given last first. -/
def readMany {α : Type} (item : Reader α) : Nat → List α → Reader (List α)
  | 0, before, data => some (before.reverse, data)
  | count + 1, before, data => do
    let (a, data) ← item data
    readMany item count (a :: before) data

/-- Reads a list. -/
def readList {α : Type} (item : Reader α) : Reader (List α) := fun data => do
  let (count, data) ← readVarint 8 data
  readMany item count [] data

/-- Reads a plan, which must not be too long. -/
def readPlan : Reader Plan := fun data => do
  let (words, data) ← readList (readVarint 8) data
  let plan ← (Plan.ofWords (words.map UInt64.ofNat).toArray).toOption
  return (plan, data)

/-- Reads a row of a table. -/
def readRow {α : Type} (row : Reader α) : Reader (Nat × α)
  | [] => none
  | key :: data => (row data).map fun (a, data) => ((key.toNat, a), data)

end Binary

open Binary

mutual

/-- The bytes of a value. -/
def Shape.encode : (s : Shape) → s.Value → List UInt8
  | .number _, (n : Nat) => varint n
  | .measure, (m : Measure) => LittleEndian.encode 4 m.bits.toNat
  | .plan, (p : Plan) =>
    varint p.words.size ++ p.words.toList.flatMap fun w => varint w.toNat
  | .list item, (items : List item.Value) => varint items.length ++ items.flatMap item.encode
  | .table row, (rows : Table row.Value) =>
    varint rows.entries.length ++
      rows.entries.flatMap fun r => UInt8.ofNat r.1 :: row.encode r.2
  | .record fields, value => fields.encode value

/-- The bytes of all fields. -/
def Fields.encode : (f : Fields) → f.Value → List UInt8
  | .done, _ => []
  | .field _ value rest, (v, vs) => value.encode v ++ rest.encode vs
  | .orZero _ _ rest, (n, vs) => varint n ++ rest.encode vs

end

mutual

/-- Reads a value. -/
def Shape.decode : (s : Shape) → Reader s.Value
  | .number bytes => readVarint bytes
  | .measure => fun data =>
    (LittleEndian.decode 4 data).map fun (bits, data) => (⟨UInt32.ofNat bits⟩, data)
  | .plan => readPlan
  | .list item => readList item.decode
  | .table row => fun data =>
    (readList (readRow row.decode) data).map fun (rows, data) =>
      (rows.foldl (fun t r => t.insert r.1 r.2) .empty, data)
  | .record fields => fields.decode

/-- Reads all fields. -/
def Fields.decode : (f : Fields) → Reader f.Value
  | .done => fun data => some ((), data)
  | .field _ value rest => fun data => do
    let (v, data) ← value.decode data
    let (vs, data) ← rest.decode data
    return ((v, vs), data)
  | .orZero _ bytes rest => fun data => do
    let (n, data) ← readVarint bytes data
    let (vs, data) ← rest.decode data
    return ((n, vs), data)

end

end Mobility
