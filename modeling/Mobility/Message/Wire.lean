import Mobility.Message.Basic

/-!
# Messages as bytes

Both messages start with the second, the sender and the number of what follows. Every field is four
bytes, the lowest first. A group which enters no link is marked with the number that has all bits
set. Whether a list of passengers follows an agent isn't written; the reader has to know which
agents are vehicles. A count is refused as soon as it exceeds what the rest of the message could
hold at four bytes each, so a reader never makes room for more than it was sent.
-/

set_option autoImplicit false

namespace Mobility

namespace Wire

/-! ## Fields -/

/-- The number which stands for "no link". -/
def noLink : Nat := 0x100000000 - 1

/-- The four bytes of a field. -/
def field (n : Nat) : List UInt8 :=
  [UInt8.ofNat n, UInt8.ofNat (n / 0x100), UInt8.ofNat (n / 0x10000), UInt8.ofNat (n / 0x1000000)]

/-- The number in four bytes. -/
def number (a b c d : UInt8) : Nat :=
  a.toNat + b.toNat * 0x100 + c.toNat * 0x10000 + d.toNat * 0x1000000

/-- The place of a reader: how many bytes were read, and which are left. -/
structure Place where
  offset : Nat
  rest : List UInt8

/-- A reader of a part of a message. -/
abbrev Reader := StateT Place (Except ExchangeError)

/-- Reads the field `name`. -/
def readField (name : String) : Reader Nat := fun place =>
  match place.rest with
  | a :: b :: c :: d :: rest => .ok (number a b c d, ⟨place.offset + 4, rest⟩)
  | _ => .error (.truncated place.offset name)

/-- Reads the number of what follows. -/
def readCount (name : String) : Reader Nat := do
  let count ← readField name
  let place ← get
  if place.rest.length / 4 < count then throw (.truncated place.offset name)
  return count

/-- Reads `count` items, one after the other. -/
def readMany {α : Type} (item : Reader α) : Nat → Reader (List α)
  | 0 => return []
  | count + 1 => do
    let first ← item
    return first :: (← readMany item count)

/-- Runs a reader over a whole message. What follows the message is ignored. -/
def readAll {α : Type} (data : List UInt8) (reader : Reader α) : Except ExchangeError α :=
  (StateT.run reader ⟨0, data⟩).map (·.1)

/-- The fields in front of the items. -/
def header (time sender count : Nat) : List UInt8 := field time ++ field sender ++ field count

end Wire

/-! ## Transfers -/

/-- The bytes of a passenger. -/
def PassengerRecord.encode (p : PassengerRecord) : List UInt8 :=
  Wire.field p.index ++ Wire.field p.id ++ Wire.field p.cursor

/-- The bytes of an agent, with the list of its passengers if it is a vehicle. -/
def AgentRecord.encode (a : AgentRecord) : List UInt8 :=
  Wire.field a.id ++ Wire.field a.cursor ++
    match a.passengers with
    | some passengers =>
      Wire.field passengers.length ++ passengers.flatMap PassengerRecord.encode
    | none => []

/-- The bytes of the agents entering a link. -/
def LinkRecord.encode (r : LinkRecord) : List UInt8 :=
  Wire.field (r.link.getD Wire.noLink) ++ Wire.field r.agents.length ++
    r.agents.flatMap AgentRecord.encode

/-- The bytes of a transfer. -/
def Transfer.encode (t : Transfer) : List UInt8 :=
  Wire.header t.time t.sender t.records.length ++ t.records.flatMap LinkRecord.encode

/-- Reads a passenger. Of the stop index only the lowest byte counts. -/
def PassengerRecord.reader : Wire.Reader PassengerRecord := do
  let index ← Wire.readField "egress index"
  let id ← Wire.readField "passenger id"
  let cursor ← Wire.readField "passenger cursor"
  return ⟨index % 0x100, id, cursor⟩

/-- Reads an agent. `isVehicle` tells whether an agent is a vehicle, and nothing for an agent that
the reader doesn't know. -/
def AgentRecord.reader (isVehicle : Nat → Option Bool) : Wire.Reader AgentRecord := do
  let id ← Wire.readField "agent id"
  let cursor ← Wire.readField "cursor"
  match isVehicle id with
  | none => throw (.unknownAgent id)
  | some false => return ⟨id, cursor, none⟩
  | some true =>
    let count ← Wire.readCount "passenger count"
    return ⟨id, cursor, some (← Wire.readMany PassengerRecord.reader count)⟩

/-- Reads the agents entering a link. -/
def LinkRecord.reader (isVehicle : Nat → Option Bool) : Wire.Reader LinkRecord := do
  let link ← Wire.readField "link id"
  let count ← Wire.readCount "agent count"
  let agents ← Wire.readMany (AgentRecord.reader isVehicle) count
  return ⟨if link = Wire.noLink then none else some link, agents⟩

/-- Reads a transfer sent to `target`. -/
def Transfer.decode (data : List UInt8) (target : Nat) (isVehicle : Nat → Option Bool) :
    Except ExchangeError Transfer :=
  Wire.readAll data do
    let time ← Wire.readField "time"
    let sender ← Wire.readField "sender"
    let count ← Wire.readCount "record count"
    let records ← Wire.readMany (LinkRecord.reader isVehicle) count
    return ⟨time, sender, target, records⟩

/-! ## Releases -/

/-- The bytes of a release. -/
def Release.encode (r : Release) : List UInt8 :=
  Wire.header r.time r.sender r.counts.length ++
    r.counts.flatMap fun c => Wire.field c.1 ++ Wire.field c.2

/-- Reads a release sent to `target`. -/
def Release.decode (data : List UInt8) (target : Nat) : Except ExchangeError Release :=
  Wire.readAll data do
    let time ← Wire.readField "time"
    let sender ← Wire.readField "sender"
    let count ← Wire.readCount "record count"
    let counts ← Wire.readMany (do
      let link ← Wire.readField "link id"
      let released ← Wire.readField "processed"
      return (link, released)) count
    return ⟨time, sender, target, counts⟩

end Mobility
