import Mobility.Instruction.Basic

/-!
# Stamped events

A simulation doesn't build domain events. It only tells at which second the event with a number from
an agent's plan happened, and in which way. The log of a run is the list of its stamps in the order
in which they were made; everything that is reported about events is a function of the log.
-/

set_option autoImplicit false

namespace Mobility

/-- What happened to the agent when an event was stamped. -/
inductive StampKind where
  /-- The agent consumed an instruction. -/
  | advance
  /-- A passenger boarded a vehicle. -/
  | access
  /-- A passenger left a vehicle. -/
  | egress
  /-- The agent had consumed its whole plan. -/
  | finish
deriving DecidableEq

/-- An event of an agent. `vehicle` is the vehicle that was boarded or left. -/
structure Event where
  kind : StampKind
  agent : Nat
  event : EventId
  vehicle : Option Nat
deriving DecidableEq

/-- An event together with the second at which it happened. -/
structure Stamp where
  time : Nat
  what : Event
deriving DecidableEq

/-- All stamps of a run in the order in which they were made. -/
abbrev EventLog := Array Stamp

/-- The name of a way to be stamped. -/
def StampKind.name : StampKind → String
  | advance => "Advance"
  | access => "Access"
  | egress => "Egress"
  | finish => "Finish"

/-- The line of a stamp in an events file. A missing vehicle is written as a dash. -/
def Stamp.line (s : Stamp) : String :=
  let vehicle := match s.what.vehicle with
    | some v => toString v
    | none => "-"
  s!"{s.time},{s.what.kind.name},{s.what.agent},{s.what.event.val}," ++ vehicle

namespace EventLog

/-- The second at which event `event` of `agent` was stamped last. Event 0 is never looked up. -/
def timeOf (log : EventLog) (agent event : Nat) : Option Nat :=
  if event = 0 then none
  else (log.toList.filter fun s => s.what.agent = agent ∧ s.what.event.val = event).getLast?.map
    (·.time)

/-- The second at which `agent` was first stamped as finished. -/
def finishTime (log : EventLog) (agent : Nat) : Option Nat :=
  (log.toList.find? fun s => s.what.agent = agent ∧ s.what.kind = .finish).map (·.time)

/-- The lines of an events file: a header and one line for each stamp. -/
def lines (log : EventLog) : List String :=
  "time,kind,agent,correlation,vehicle" :: log.toList.map (·.line)

end EventLog

end Mobility
