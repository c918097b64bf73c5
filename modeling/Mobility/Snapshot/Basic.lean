import Mobility.Scenario.Basic
import Mobility.Snapshot.Shape

/-!
# What a snapshot stores

A snapshot holds a scenario with its homes and crossings, although both are derived again when it is
read (`Mobility.Snapshot.File`). Neighbors aren't stored.
-/

set_option autoImplicit false

namespace Mobility

/-- A number of four bytes. -/
abbrev Shape.word : Shape := .number 4

/-- The fields of a link. -/
abbrev LinkSpec.fields : Fields :=
  .field "id" .word <| .field "from" .word <| .field "to" .word <|
  .field "length" .measure <| .field "velocity" .measure <| .field "capacity" .word <|
  .orZero "partition" 4 .done

/-- The fields of a stop. -/
abbrev StopSpec.fields : Fields := .field "id" .word <| .field "link" .word .done

/-- The fields of an agent. Its passengers are listed by the index of the stop where they leave. -/
abbrev Agent.fields : Fields :=
  .field "id" .word <| .field "plan" .plan <| .field "cursor" .word <|
  .field "link_finish_time" .word <| .field "link_start_time" .word <|
  .field "capacity" .word <| .field "finish_event" (.number 2) <|
  .field "passengers" (.table (.list .word)) <| .field "occupancy" .word .done

/-- The fields of a crossing. -/
abbrev Crossing.fields : Fields :=
  .field "link" .word <| .field "from_part" .word <| .field "to_part" .word .done

/-- The fields of a scenario. -/
abbrev Scenario.fields : Fields :=
  .field "num_parts" .word <|
  .field "links" (.list (.record LinkSpec.fields)) <|
  .field "stops" (.list (.record StopSpec.fields)) <|
  .field "agents" (.list (.record Agent.fields)) <|
  .field "agent_partitions" (.list .word) <|
  .field "boundary_links" (.list (.record Crossing.fields)) .done

/-- What is stored of a link. -/
def LinkSpec.stored (l : LinkSpec) : LinkSpec.fields.Value :=
  (l.id, l.source, l.target, l.length, l.velocity, l.capacity, l.part, ())

/-- The link of which this is stored. -/
def LinkSpec.ofStored : LinkSpec.fields.Value → LinkSpec
  | (id, source, target, length, velocity, capacity, part, ()) =>
    ⟨id, source, target, length, velocity, capacity, part⟩

/-- What is stored of a stop. -/
def StopSpec.stored (s : StopSpec) : StopSpec.fields.Value := (s.id, s.link, ())

/-- The stop of which this is stored. -/
def StopSpec.ofStored : StopSpec.fields.Value → StopSpec
  | (id, link, ()) => ⟨id, link⟩

/-- What is stored of an agent. -/
def Agent.stored (a : Agent) : Agent.fields.Value :=
  (a.id, a.plan, a.cursor, a.linkFinish, a.linkStart, a.seats.capacity, a.finishEvent.val,
    a.seats.passengers, a.seats.taken, ())

/-- The agent of which this is stored. -/
def Agent.ofStored : Agent.fields.Value → Agent
  | (id, plan, cursor, linkFinish, linkStart, capacity, finishEvent, passengers, taken, ()) =>
    ⟨id, plan, cursor, linkFinish, linkStart, low16 finishEvent,
      ⟨capacity, taken, passengers⟩⟩

/-- What is stored of a crossing. -/
def Crossing.stored (c : Crossing) : Crossing.fields.Value := (c.link, c.fromPart, c.toPart, ())

/-- The crossing of which this is stored. -/
def Crossing.ofStored : Crossing.fields.Value → Crossing
  | (link, fromPart, toPart, ()) => ⟨link, fromPart, toPart⟩

/-- What is stored of a scenario. -/
def Scenario.stored (s : Scenario) : Scenario.fields.Value :=
  (s.numParts, s.links.toList.map (·.stored), s.stops.toList.map (·.stored),
    s.agents.toList.map (·.stored), s.homes.toList, s.crossings.map (·.stored), ())

/-- The scenario of which this is stored, without its neighbors. -/
def Scenario.ofStored : Scenario.fields.Value → Scenario
  | (numParts, links, stops, agents, homes, crossings, ()) =>
    ⟨numParts, (links.map LinkSpec.ofStored).toArray, (stops.map StopSpec.ofStored).toArray,
      (agents.map Agent.ofStored).toArray, homes.toArray, crossings.map Crossing.ofStored, .empty⟩

end Mobility
