/-!
# Instructions

An agent executes its itinerary one instruction at a time. An `Instruction` is an `Action` together
with the number of the event that is stamped when the instruction is consumed; event 0 stands for
"no event". The fields have exactly the widths of the packed form (`Mobility.Instruction.Word`), so
an instruction that exists can be packed, and the checked constructors refuse a wider value instead
of cutting it.
-/

set_option autoImplicit false

namespace Mobility

/-! ## Fields -/

/-- The number of an event within a plan. 0 stands for no event. -/
abbrev EventId := Fin 0x10000

/-- The id of a link as far as instructions can name it. -/
abbrev LinkRef := Fin 0x1000000

/-- A requested velocity in metres per second. 0 asks for the free flow velocity. -/
abbrev Velocity := Fin 0x100

/-- The id of a transit route. -/
abbrev RouteId := Fin 0x10000

/-- The id of a stop. -/
abbrev StopId := Fin 0x10000

/-- The position of a stop along a route, by which vehicles sort their passengers. -/
abbrev StopIndex := Fin 0x100

/-- A second, or a number of seconds. -/
abbrev Seconds := Fin 0x100000000

/-- A stop as one of the stops of a route. -/
structure StopRef where
  route : RouteId
  stop : StopId
  index : StopIndex
deriving DecidableEq

/-! ## Kinds, actions and instructions -/

/-- What an instruction is about. -/
inductive Kind where
  | linkTraversal
  | sleepFor
  | sleepUntil
  | access
  | egress
  | stopArrive
  | stopDelay
  | stopDepart
  | wait
deriving DecidableEq

/-- What an instruction makes its agent do. -/
inductive Action where
  /-- Enter a link and stay on it for its travel time. -/
  | traverse (link : LinkRef) (velocity : Velocity)
  | sleepFor (duration : Seconds)
  | sleepUntil (time : Seconds)
  /-- Board a vehicle. Executed by the vehicle. -/
  | access (stop : StopRef)
  /-- Leave a vehicle. Executed by the vehicle. -/
  | egress (stop : StopRef)
  | stopArrive (stop : StopRef)
  /-- Let passengers leave and board. -/
  | stopDelay (stop : StopRef)
  | stopDepart (stop : StopRef)
  /-- Queue up for a vehicle of the route. -/
  | wait (route : RouteId) (stop : StopId)
deriving DecidableEq

/-- One step of a plan. -/
structure Instruction where
  event : EventId
  action : Action
deriving DecidableEq

/-- The number of a kind in the packed form. -/
def Kind.code : Kind → Nat
  | linkTraversal => 1
  | sleepFor => 2
  | sleepUntil => 3
  | access => 4
  | egress => 5
  | stopArrive => 6
  | stopDelay => 7
  | stopDepart => 8
  | wait => 9

/-- The kind with a number. -/
def Kind.ofCode? : Nat → Option Kind
  | 1 => some linkTraversal
  | 2 => some sleepFor
  | 3 => some sleepUntil
  | 4 => some access
  | 5 => some egress
  | 6 => some stopArrive
  | 7 => some stopDelay
  | 8 => some stopDepart
  | 9 => some wait
  | _ => none

/-- The kind of an action. -/
def Action.kind : Action → Kind
  | traverse .. => .linkTraversal
  | sleepFor .. => .sleepFor
  | sleepUntil .. => .sleepUntil
  | access .. => .access
  | egress .. => .egress
  | stopArrive .. => .stopArrive
  | stopDelay .. => .stopDelay
  | stopDepart .. => .stopDepart
  | wait .. => .wait

/-- The kind of an instruction. -/
def Instruction.kind (i : Instruction) : Kind := i.action.kind

@[simp] theorem Kind.ofCode?_code (k : Kind) : Kind.ofCode? k.code = some k := by
  cases k <;> rfl

/-! ## Checked constructors -/

/-- The fields which can be too wide. -/
inductive Field where
  | event
  | link
  | velocity
  | route
  | stop
  | stopIndex
deriving DecidableEq

/-- Why a plan can't be built. -/
inductive PlanError where
  | fieldTooLarge (kind : Kind) (field : Field) (value max : Nat)
  | tooLong (length : Nat)
deriving DecidableEq

/-- The value as a field of an instruction of kind `kind`, if it is below `limit`. -/
def Field.check (field : Field) (kind : Kind) (limit value : Nat) : Except PlanError (Fin limit) :=
  if h : value < limit then .ok ⟨value, h⟩
  else .error (.fieldTooLarge kind field value (limit - 1))

namespace Instruction

/-- Checks the event first and then the action. -/
def checked (kind : Kind) (event : Nat) (action : Except PlanError Action) :
    Except PlanError Instruction := do
  let event ← Field.event.check kind 0x10000 event
  return ⟨event, ← action⟩

/-- Checks a route, a stop and the index of the stop in this order. -/
def checkedStop (kind : Kind) (route stop index : Nat) : Except PlanError StopRef := do
  let route ← Field.route.check kind 0x10000 route
  let stop ← Field.stop.check kind 0x10000 stop
  let index ← Field.stopIndex.check kind 0x100 index
  return ⟨route, stop, index⟩

/-- The instruction to traverse a link. -/
def traverse (event link velocity : Nat) : Except PlanError Instruction :=
  checked .linkTraversal event do
    let link ← Field.link.check .linkTraversal 0x1000000 link
    let velocity ← Field.velocity.check .linkTraversal 0x100 velocity
    return .traverse link velocity

/-- The instruction to sleep for some seconds. -/
def sleepFor (event : Nat) (duration : Seconds) : Except PlanError Instruction :=
  checked .sleepFor event (.ok (.sleepFor duration))

/-- The instruction to sleep until a second. -/
def sleepUntil (event : Nat) (time : Seconds) : Except PlanError Instruction :=
  checked .sleepUntil event (.ok (.sleepUntil time))

/-- The instruction to wait at a stop for a vehicle of a route. -/
def wait (event route stop : Nat) : Except PlanError Instruction :=
  checked .wait event do
    let route ← Field.route.check .wait 0x10000 route
    let stop ← Field.stop.check .wait 0x10000 stop
    return .wait route stop

/-- The instruction to board at a stop. -/
def access (event route stop index : Nat) : Except PlanError Instruction :=
  checked .access event (.access <$> checkedStop .access route stop index)

/-- The instruction to leave a vehicle at a stop. -/
def egress (event route stop index : Nat) : Except PlanError Instruction :=
  checked .egress event (.egress <$> checkedStop .egress route stop index)

/-- The instruction of a vehicle to arrive at a stop. -/
def stopArrive (event route stop index : Nat) : Except PlanError Instruction :=
  checked .stopArrive event (.stopArrive <$> checkedStop .stopArrive route stop index)

/-- The instruction of a vehicle to exchange passengers at a stop. -/
def stopDelay (event route stop index : Nat) : Except PlanError Instruction :=
  checked .stopDelay event (.stopDelay <$> checkedStop .stopDelay route stop index)

/-- The instruction of a vehicle to depart from a stop. -/
def stopDepart (event route stop index : Nat) : Except PlanError Instruction :=
  checked .stopDepart event (.stopDepart <$> checkedStop .stopDepart route stop index)

end Instruction

/-! ## Texts -/

/-- The name of a kind in reports. -/
def Kind.name : Kind → String
  | linkTraversal => "LinkTraversal"
  | sleepFor => "SleepFor"
  | sleepUntil => "SleepUntil"
  | access => "Access"
  | egress => "Egress"
  | stopArrive => "StopArrive"
  | stopDelay => "StopDelay"
  | stopDepart => "StopDepart"
  | wait => "Wait"

/-- The name of a field in reports. -/
def Field.name : Field → String
  | event => "event id"
  | link => "link id"
  | velocity => "velocity"
  | route => "route id"
  | stop => "stop id"
  | stopIndex => "stop index"

/-- What an error says. -/
def PlanError.message : PlanError → String
  | fieldTooLarge kind field value max =>
    s!"{field.name} of {kind.name} instruction is {value}, but must not exceed {max}"
  | tooLong length => s!"plan has {length} instructions, but at most 65535 are allowed"

/-- A named list of fields, as reports show a record. -/
def recordText (name : String) (fields : List (String × String)) : String :=
  name ++ " \x7b " ++ ", ".intercalate (fields.map fun f => f.1 ++ ": " ++ f.2) ++ " \x7d"

/-- A stop in reports. -/
def StopRef.text (s : StopRef) : String :=
  recordText "StopRef"
    [("route", toString s.route.val), ("stop", toString s.stop.val),
      ("index", toString s.index.val)]

/-- The fields of an action in reports. -/
def Action.fields : Action → List (String × String)
  | traverse link velocity => [("link", toString link.val), ("velocity", toString velocity.val)]
  | sleepFor duration => [("duration", toString duration.val)]
  | sleepUntil time => [("time", toString time.val)]
  | access stop | egress stop | stopArrive stop | stopDelay stop | stopDepart stop =>
    [("at", stop.text)]
  | wait route stop => [("route", toString route.val), ("stop", toString stop.val)]

/-- An instruction in reports. -/
def Instruction.text (i : Instruction) : String :=
  recordText i.kind.name (("event", toString i.event.val) :: i.action.fields)

/-- An instruction which may be missing, in reports. -/
def Instruction.optionText : Option Instruction → String
  | some i => "Some(" ++ i.text ++ ")"
  | none => "None"

end Mobility
