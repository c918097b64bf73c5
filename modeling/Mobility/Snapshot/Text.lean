import Mobility.Decimal.Layout
import Mobility.Json.Path
import Mobility.Json.Skip
import Mobility.LittleEndian
import Mobility.Snapshot.Shape

/-!
# Stored values as JSON

Records are objects with their fields in order, tables are objects whose keys are the decimal texts
of numbers, and lists and plans are lists. A reader takes the fields of an object in any order,
passes over fields which it doesn't know, and also takes a record as the list of its fields. What it
refuses is reported as a path: where a name is expected and can't be read, the last step of the path
is unreadable.
-/

set_option autoImplicit false

namespace Mobility

open Json

namespace Json

/-! ## Numbers -/

/-- The digits as a number, with further digits taken in until one would lift it to `2 ^ 64`, and
how many digits were taken. -/
def absorb : Nat → List Nat → Nat × Nat
  | n, [] => (n, 0)
  | n, d :: rest =>
    if n * 10 + d < 0x10000000000000000 then
      let (n, taken) := absorb (n * 10 + d) rest
      (n, taken + 1)
    else (n, 0)

/-- The magnitude of a number without a point and an exponent, if it is below `2 ^ 64`. -/
def Number.magnitude? (n : Number) : Option Nat :=
  let (value, taken) := absorb 0 n.whole
  if n.fraction.isEmpty && n.exponent.isNone && taken == n.whole.length then some value else none

/-- The natural number that is written, if it is one. There is no natural number with a sign. -/
def Number.natural? (n : Number) : Option Nat := if n.negative then none else n.magnitude?

/-- The leading digits of a number and the power of ten which they are multiplied with. -/
def Number.scientific (n : Number) : Nat × Int :=
  let (value, taken) := absorb 0 n.whole
  let (value, places) := absorb value n.fraction
  let exponent : Int := match n.exponent with
    | none => 0
    | some (negative, digits) =>
      let e : Nat := digits.foldl (fun e d => e * 10 + d) 0
      if negative then -(e : Int) else e
  (value, exponent + (n.whole.length - taken : Nat) - places)

/-- The power of ten nearest to `10 ^ exponent`. -/
def powerOfTen (exponent : Nat) : Float := Float.ofScientific 1 false exponent

/-- The number `x * 10 ^ exponent`, or nothing if it is infinite. Large quotients are taken in
steps of `10 ^ 308`. -/
def scaled (x : Float) (exponent : Int) : Option Float :=
  if 308 < exponent then if x == 0 then some x else none
  else if 0 ≤ exponent then
    let y := x * powerOfTen exponent.toNat
    if y.isInf then none else some y
  else if -308 ≤ exponent then some (x / powerOfTen (-exponent).toNat)
  else if x == 0 then some x
  else scaled (x / powerOfTen 308) (exponent + 308)
termination_by (-exponent).toNat

/-- The measure that is written. Whole numbers which fit into 64 bits are rounded once; all other
numbers are rounded to binary64 before. -/
def Number.measure? (n : Number) : Option Measure :=
  let sign (x : Float32) : Float32 := if n.negative then -x else x
  let rounded : Option Measure := do
    let (value, exponent) := n.scientific
    let x ← scaled (UInt64.ofNat value).toFloat exponent
    return .ofFloat (sign x.toFloat32)
  match n.magnitude? with
  | none => rounded
  | some value =>
    if n.negative && (value == 0 || 0x8000000000000000 < value) then rounded
    else some (.ofFloat (sign (UInt64.ofNat value).toFloat32))

/-! ## Readers -/

/-- A reader of a value at the start of a text. A failure is the place of the error, as seen from
the value. -/
abbrev Reader (α : Type) := List UInt8 → Except Path (α × List UInt8)

/-- What was found, or a failure at `path`. -/
def expected {α : Type} (path : Path) (found : Option α) : Except Path α :=
  match found with
  | some a => .ok a
  | none => .error path

/-- A failure inside an entry, as seen from the structure around it. -/
def inside {α : Type} (step : Segment) (result : Except Path α) : Except Path α :=
  result.mapError (step :: ·)

/-- Reads a number which `use` accepts. -/
def readNumber {α : Type} (isWhole : Bool) (use : Number → Option α) : Reader α := fun text =>
  expected [] do
    let (n, rest) ← number isWhole (skipBlanks text)
    return (← use n, rest)

/-- Reads a natural number below `limit`. -/
def readNatural (isWhole : Bool) (limit : Nat) : Reader Nat :=
  readNumber isWhole fun n => n.natural?.filter fun value => value < limit

/-- The text behind the byte that opens a structure. -/
def opened (opening : Char) (text : List UInt8) : Except Path (List UInt8) :=
  match skipBlanks text with
  | [] => .error []
  | b :: rest => if b = ascii opening then .ok rest else .error []

/-- Reads the entries of a list from the one at `index` on, behind the ones which were read, which
are given last first. `steps` bounds their number. -/
def readItems {α : Type} (item : Reader α) : Nat → Nat → List α → Reader (List α)
  | 0, _, _, _ => .error []
  | steps + 1, index, before, text =>
    match next (ascii ']') (index == 0) text with
    | .malformed => .error []
    | .closed rest => .ok (before.reverse, rest)
    | .entry text => do
      let (a, text) ← inside (.item index) (item text)
      readItems item steps (index + 1) (a :: before) text

/-- Reads a list. -/
def readList {α : Type} (item : Reader α) : Reader (List α) := fun text => do
  let text ← opened '[' text
  readItems item (text.length + 1) 0 [] text

/-- Reads a plan, which must not be too long. -/
def readPlan (isWhole : Bool) : Reader Plan := fun text => do
  let (words, text) ← readList (readNatural isWhole 0x10000000000000000) text
  let plan ← expected [] (Plan.ofWords (words.map UInt64.ofNat).toArray).toOption
  return (plan, text)

/-! ## Tables -/

/-- The text of an integer in a key, as far as it can be told. -/
def Number.key? (n : Number) : Option Segment := do
  let value ← n.magnitude?
  if !n.negative then some (.field (toString value))
  else if 0 < value ∧ value ≤ 0x8000000000000000 then some (.field s!"-{value}")
  else none

/-- Reads a key from its opening quote on: a natural number below 256. -/
def readKey (isWhole : Bool) : Reader Nat := fun text =>
  match text with
  | [] => .error [.unreadable]
  | b :: rest =>
    if b = ascii '"' then
      match number isWhole rest with
      | none => .error [.unreadable]
      | some (n, rest) =>
        let step := n.key?.getD .unreadable
        match n.natural?, rest with
        | some key, c :: rest =>
          if key < 0x100 ∧ c = ascii '"' then .ok (key, rest) else .error [step]
        | _, _ => .error [step]
    else .error [.unreadable]

/-- Reads the rows of a table and adds them to `before`. Of equal keys the last one wins. -/
def readRows {α : Type} (isWhole : Bool) (row : Reader α) : Nat → Bool → Table α → Reader (Table α)
  | 0, _, _, _ => .error []
  | steps + 1, isFirst, before, text =>
    match next (ascii '}') isFirst text with
    | .malformed => .error [.unreadable]
    | .closed rest => .ok (before, rest)
    | .entry text => do
      let (key, text) ← readKey isWhole text
      let text ← expected [] (colon text)
      let (a, text) ← inside (.field (toString key)) (row text)
      readRows isWhole row steps false (before.insert key a) text

/-- Reads a table. -/
def readTable {α : Type} (isWhole : Bool) (row : Reader α) : Reader (Table α) := fun text => do
  let text ← opened '{' text
  readRows isWhole row (text.length + 1) true .empty text

end Json

/-! ## Records -/

/-- The fields of a record which were read so far. -/
def Fields.Partial : Fields → Type
  | .done => Unit
  | .field _ value rest => Option value.Value × rest.Partial
  | .orZero _ _ rest => Option Nat × rest.Partial

/-- No field was read. -/
def Fields.unread : (f : Fields) → f.Partial
  | .done => ()
  | .field _ _ rest => (none, rest.unread)
  | .orZero _ _ rest => (none, rest.unread)

/-- The record, if no field is missing. -/
def Fields.complete : (f : Fields) → f.Partial → Option f.Value
  | .done, _ => some ()
  | .field _ _ rest, (v, vs) => do return (← v, ← rest.complete vs)
  | .orZero _ _ rest, (n, vs) => do return (n.getD 0, ← rest.complete vs)

/-- Reads the value of the field `name`. Nothing is returned if the field was read before. -/
abbrev FieldReader (f : Fields) := String → f.Partial → List UInt8 →
  Option (Except Path (f.Partial × List UInt8))

namespace Json

/-- Reads the value of a field which isn't there yet. -/
def readOnce {α β : Type} (value : Reader α) (seen : Option α) (store : α → β)
    (text : List UInt8) : Option (Except Path (β × List UInt8)) :=
  match seen with
  | some _ => none
  | none => some do
    let (a, text) ← value text
    return (store a, text)

/-- Reads the fields of an object and adds them to `before`. -/
def readFields {π : Type}
    (field : String → π → List UInt8 → Option (Except Path (π × List UInt8))) :
    Nat → Bool → π → Reader π
  | 0, _, _, _ => .error []
  | steps + 1, isFirst, before, text =>
    match next (ascii '}') isFirst text with
    | .malformed => .error [.unreadable]
    | .closed rest => .ok (before, rest)
    | .entry text => do
      let (name, text) ← expected [.unreadable] (string text)
      let text ← expected [] (colon text)
      match field name before text with
      | none => .error []
      | some result =>
        let (before, text) ← inside (.field name) result
        readFields field steps false before text

end Json

mutual

/-- Reads a value. -/
def Shape.read (isWhole : Bool) : (s : Shape) → Reader s.Value
  | .number bytes => readNatural isWhole (LittleEndian.limit bytes)
  | .measure => readNumber isWhole Number.measure?
  | .plan => readPlan isWhole
  | .list item => readList (item.read isWhole)
  | .table row => readTable isWhole (row.read isWhole)
  | .record fields => fun text =>
    match skipBlanks text with
    | [] => .error []
    | b :: rest =>
      if b = ascii '[' then fields.readListed isWhole 0 rest
      else if b = ascii '{' then do
        let (found, rest) ←
          readFields (fields.readField isWhole) (rest.length + 1) true fields.unread rest
        return (← expected [] (fields.complete found), rest)
      else .error []

/-- Reads the value of a field of an object. A field which the record doesn't have is passed over.
-/
def Fields.readField (isWhole : Bool) : (f : Fields) → FieldReader f
  | .done => fun _ _ text => some do return ((), ← expected [] (skip isWhole text))
  | .field name value rest => fun key (v, vs) text =>
    if key = name then readOnce (value.read isWhole) v (fun a => (some a, vs)) text
    else (rest.readField isWhole key vs text).map fun r => r.map fun (vs, text) => ((v, vs), text)
  | .orZero name bytes rest => fun key (n, vs) text =>
    if key = name then
      readOnce (readNatural isWhole (LittleEndian.limit bytes)) n (fun a => (some a, vs)) text
    else (rest.readField isWhole key vs text).map fun r => r.map fun (vs, text) => ((n, vs), text)

/-- Reads the fields of a record which is a list, from the one at `index` on. -/
def Fields.readListed (isWhole : Bool) : (f : Fields) → Nat → Reader f.Value
  | .done, index => fun text =>
    match next (ascii ']') (index == 0) text with
    | .closed rest => .ok ((), rest)
    | _ => .error []
  | .field _ value rest, index => fun text =>
    match next (ascii ']') (index == 0) text with
    | .entry text => do
      let (v, text) ← inside (.item index) (value.read isWhole text)
      let (vs, text) ← rest.readListed isWhole (index + 1) text
      return ((v, vs), text)
    | _ => .error []
  | .orZero _ bytes rest, index => fun text =>
    match next (ascii ']') (index == 0) text with
    | .entry text => do
      let (n, text) ← inside (.item index) (readNatural isWhole (LittleEndian.limit bytes) text)
      let (vs, text) ← rest.readListed isWhole (index + 1) text
      return ((n, vs), text)
    | .closed rest' => do
      let (vs, text) ← rest.readListed isWhole (index + 1) (ascii ']' :: rest')
      return ((0, vs), text)
    | .malformed => .error []

end

/-! ## Writing -/

namespace Json

/-- Items between two brackets, separated by commas. -/
def bracketed (opening closing : Char) (items : List (List UInt8)) : List UInt8 :=
  ascii opening :: (List.intercalate [ascii ','] items ++ [ascii closing])

/-- A key and the value behind it. -/
def keyed (key : String) (value : List UInt8) : List UInt8 :=
  ascii '"' :: asciiText key ++ ascii '"' :: ascii ':' :: value

end Json

mutual

/-- The text of a value, without blanks. -/
def Shape.write : (s : Shape) → s.Value → List UInt8
  | .number _, (n : Nat) => asciiText (toString n)
  | .measure, (m : Measure) => asciiText (m.text?.getD "null")
  | .plan, (p : Plan) =>
    bracketed '[' ']' (p.words.toList.map fun w => asciiText (toString w.toNat))
  | .list item, (items : List item.Value) => bracketed '[' ']' (items.map item.write)
  | .table row, (rows : Table row.Value) =>
    bracketed '{' '}' (rows.entries.map fun r => keyed (toString r.1) (row.write r.2))
  | .record fields, value => bracketed '{' '}' (fields.write value)

/-- The texts of all fields. -/
def Fields.write : (f : Fields) → f.Value → List (List UInt8)
  | .done, _ => []
  | .field name value rest, (v, vs) => keyed name (value.write v) :: rest.write vs
  | .orZero name _ rest, (n, vs) => keyed name (asciiText (toString n)) :: rest.write vs

end

/-! ## Plans on their own -/

/-- The text of a plan. -/
def Plan.text (p : Plan) : List UInt8 := Shape.plan.write p

/-- Reads a text which holds nothing but a plan. -/
def Plan.ofText? (text : List UInt8) : Option Plan :=
  match readPlan true text with
  | .ok (plan, rest) => if (skipBlanks rest).isEmpty then some plan else none
  | .error _ => none

end Mobility
