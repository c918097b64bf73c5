import Mobility.Agent.Seats
import Mobility.Event
import Mobility.Plan

/-!
# Agents

An agent executes a fixed plan; `cursor` counts the instructions it has consumed. Agents with seats
are vehicles and may carry other agents. Consuming an instruction stamps its event, in the way that
tells how it was consumed (`Consumption`).
-/

set_option autoImplicit false

namespace Mobility

/-- An actor with a plan, a place in it, and the passengers it carries. -/
structure Agent where
  id : Nat
  plan : Plan
  cursor : Nat
  /-- When the agent may leave the link that it entered last. -/
  linkFinish : Nat
  /-- When the agent entered its last link. -/
  linkStart : Nat
  /-- The event that is stamped when the plan is consumed. -/
  finishEvent : EventId
  seats : Seats
deriving DecidableEq

/-- How an instruction is consumed: by the agent itself, or by boarding or leaving a vehicle. -/
inductive Consumption where
  | advance
  | access (vehicle : Nat)
  | egress (vehicle : Nat)
deriving DecidableEq

/-- What is wrong with the state of an agent. -/
inductive AgentError where
  | cursorPastEnd (cursor length : Nat)
  | overbooked (taken capacity : Nat)
  | miscounted (taken carried : Nat)
deriving DecidableEq

/-- What an error says. -/
def AgentError.message : AgentError → String
  | cursorPastEnd cursor length =>
    s!"cursor {cursor} is beyond the end of its plan of length {length}"
  | overbooked taken capacity => s!"occupancy {taken} exceeds capacity {capacity}"
  | miscounted taken carried => s!"occupancy {taken} doesn't match {carried} carried passengers"

/-- The event of consuming an instruction of `agent`. -/
def Consumption.stamp (how : Consumption) (agent : Nat) (event : EventId) : Event :=
  match how with
  | advance => ⟨.advance, agent, event, none⟩
  | access vehicle => ⟨.access, agent, event, some vehicle⟩
  | egress vehicle => ⟨.egress, agent, event, some vehicle⟩

namespace Agent

/-- An agent at the start of its plan, with `capacity` free seats. -/
def fresh (id : Nat) (plan : Plan) (capacity : Nat) (finishEvent : EventId) : Agent where
  id := id
  plan := plan
  cursor := 0
  linkFinish := 0
  linkStart := 0
  finishEvent := finishEvent
  seats := .free capacity

/-- Whether the agent can carry passengers. -/
def isVehicle (a : Agent) : Bool := 0 < a.seats.capacity

/-- The instruction to execute next, or `none` if the plan is consumed. -/
def current (a : Agent) : Except Fault (Option Instruction) := a.plan.get? a.cursor

/-- The instruction consumed last. -/
def previous (a : Agent) : Except Fault (Option Instruction) :=
  if a.cursor = 0 then .ok none else a.plan.get? (a.cursor - 1)

/-- Whether every instruction is consumed. -/
def finished (a : Agent) : Bool := a.plan.length ≤ a.cursor

/-- Consumes the current instruction. Returns the event to stamp, if the instruction has one. -/
def consume (a : Agent) (how : Consumption) : Except Fault (Agent × Option Event) := do
  match ← a.current with
  | none => .error (.planConsumed a.id a.plan.length)
  | some i =>
    let event := if i.event.val = 0 then none else some (how.stamp a.id i.event)
    .ok ({ a with cursor := a.cursor + 1 }, event)

/-- Moves the cursor to where another partition has seen it. Cursors never move back. -/
def moveCursor (a : Agent) (cursor : Nat) : Except Fault Agent :=
  if a.cursor ≤ cursor then .ok { a with cursor := cursor }
  else .error (.cursorDecreased a.id a.cursor cursor)

/-- Notes when the agent entered its link and when it may leave it. -/
def onLink (a : Agent) (start finish : Nat) : Agent :=
  { a with linkStart := start, linkFinish := finish }

/-- Makes the pairs of index and id the passengers. -/
def replacePassengers (a : Agent) (passengers : List (Nat × Nat)) : Except Fault Agent :=
  match a.seats.replace passengers with
  | some seats => .ok { a with seats := seats }
  | none => .error (.overbooked a.id passengers.length a.seats.capacity)

/-- Checks a state which wasn't built by the operations above. -/
def check (a : Agent) : Except AgentError Unit :=
  if a.plan.length < a.cursor then .error (.cursorPastEnd a.cursor a.plan.length)
  else if a.seats.capacity < a.seats.taken then
    .error (.overbooked a.seats.taken a.seats.capacity)
  else if a.seats.taken ≠ a.seats.count then .error (.miscounted a.seats.taken a.seats.count)
  else .ok ()

end Agent

end Mobility
