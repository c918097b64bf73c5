import Mobility.Settings.Basic
import Mobility.Yaml.Document

/-!
# Settings in a document

A settings file is a mapping with the field `modules`, which maps names to modules. A module is a
mapping with its type and the fields of the type; other fields are ignored. If the type comes first,
then every field is read as what it is for: a text can be given as any scalar. Otherwise all fields
are held until the type is known, and what they are is told by their look: a text has to look like
one, and so do the names of all fields.
-/

set_option autoImplicit false

namespace Mobility

namespace Settings

/-- A field of a module. -/
structure Entry where
  name : String
  value : Yaml
  /-- Whether it was held until the type was known. -/
  isHeld : Bool

/-- The fields of a module. -/
abbrev Entries := List Entry

/-- Reads the value of a field. -/
abbrev FieldReader (α : Type) := Entry → Option α

/-- The text of a scalar that looks like one. -/
def lookedText : Yaml → Option String
  | .scalar text isPlain => if Yaml.look text isPlain = .text then some text else none
  | _ => none

/-- Reads a natural number below `limit`. If it was held, then a zero may have a minus sign. -/
def number (limit : Nat) : FieldReader Nat := fun e =>
  match e.value with
  | .scalar text true =>
    if e.isHeld && Yaml.plainNegative? text == some 0 then some 0
    else (Yaml.plainNatural? text).filter (· < limit)
  | _ => none

/-- Reads a truth value. -/
def flag : FieldReader Bool := fun e =>
  match e.value with
  | .scalar text true => Yaml.plainFlag? text
  | _ => none

/-- Reads a text. -/
def text : FieldReader String := fun e =>
  if e.isHeld then lookedText e.value else e.value.text?

/-- Reads one of some names. A held name may also be the only key of a mapping, without a value. -/
def choice {α : Type} (names : List (String × α)) : FieldReader α := fun e => do
  let name : Yaml ← match e.isHeld, e.value with
    | true, .mapping [(key, .scalar text isPlain)] =>
      if Yaml.look text isPlain = .nothing then some key else none
    | _, value => some value
  let text ← text { e with value := name }
  (names.find? fun n => n.1 = text).map (·.2)

/-- The field of a name, which may be missing, but can't be there twice. -/
def optional {α : Type} (entries : Entries) (name : String) (read : FieldReader α) (default : α) :
    Option α :=
  match entries.filter fun e => e.name = name with
  | [] => some default
  | [e] => read e
  | _ => none

/-- The field of a name. -/
def required {α : Type} (entries : Entries) (name : String) (read : FieldReader α) : Option α :=
  match entries.filter fun e => e.name = name with
  | [e] => read e
  | _ => none

/-- The methods by name. -/
def methods : List (String × Method) :=
  [("None", .none), ("Modulo", .modulo), ("Precomputed", .precomputed)]

/-- The log levels by name. -/
def logLevels : List (String × LogLevel) := [("None", .none), ("Info", .info), ("Debug", .debug)]

/-- The formats of events by name. -/
def eventsFormats : List (String × EventsFormat) :=
  [("None", .none), ("Text", .text), ("Gzip", .gzip)]

/-- The module of a type with these fields. -/
def moduleOf (type : String) (entries : Entries) : Option Module :=
  let word := number 0x100000000
  match type with
  | "Simulation" => do
    let start ← required entries "start_time" word
    let stop ← required entries "end_time" word
    let delay ← optional entries "link_advance_delay" word 0
    let tickMillis ← optional entries "tick_duration_ms" (number 0x10000000000000000) 0
    return .simulation ⟨start, stop, delay, tickMillis⟩
  | "Partitioning" => do
    let numParts ← required entries "num_parts" word
    let method ← optional entries "method" (choice methods) .none
    return .partitioning ⟨numParts, method⟩
  | "Output" => do
    let directory ← required entries "output_dir" text
    let logging ← optional entries "logging" (choice logLevels) .none
    let events ← optional entries "write_events" (choice eventsFormats) .none
    let state ← optional entries "dump_state" flag false
    return .output ⟨directory, logging, events, state⟩
  | "WorldFile" => do return .world (← required entries "path" text)
  | _ => none

/-- The entries of a mapping whose keys are scalars. -/
def named? (entries : List (Yaml × Yaml)) : Option (List (String × Yaml)) :=
  entries.mapM fun (key, value) => do return (← key.text?, value)

/-- The field which tells the type of a module. -/
def isType (e : Yaml × Yaml) : Bool := e.1.text? == some "type"

/-- How many structures are around the fields of a module. -/
def fieldDepth : Nat := 3

/-- The module whose fields were held. -/
def moduleOfHeld (entries : List (Yaml × Yaml)) : Option Module := do
  let (types, fields) := entries.partition isType
  match types with
  | [(_, type)] =>
    if !Yaml.entriesAreHoldable fieldDepth fields then none
    let fields ← fields.mapM fun (key, value) => do return ⟨← lookedText key, value, true⟩
    moduleOf (← type.text?) fields
  | _ => none

/-- The module in a value. -/
def moduleOfYaml : Yaml → Option Module
  | .mapping (first :: rest) =>
    if isType first then do
      let fields := (← named? rest).map fun (name, value) => ⟨name, value, false⟩
      moduleOf (← first.2.text?) fields
    else moduleOfHeld (first :: rest)
  | _ => none

/-- The modules in a value. Of equal names the last one counts. -/
def modulesOfYaml : Yaml → Option Settings
  | .scalar "" true => some ⟨[]⟩
  | .mapping entries => do
    let modules ← (← named? entries).mapM fun (name, value) => do
      return (name, ← moduleOfYaml value)
    return modules.foldl (fun s (name, m) => s.put name m) ⟨[]⟩
  | _ => none

/-- The settings in a document. -/
def ofYaml : Yaml → Option Settings
  | .mapping entries => do
    match (← named? entries).filter fun e => e.1 = "modules" with
    | [(_, modules)] => modulesOfYaml modules
    | _ => none
  | _ => none

/-- The settings in a text. -/
def ofText? (text : String) : Option Settings := do ofYaml (← Yaml.ofText? text)

end Settings

end Mobility
