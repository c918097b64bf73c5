import Mobility.Agent.Basic
import Mobility.Link.View

/-!
# Scenarios

A scenario is the static input of a simulation: links, stops and agents, and which partition owns
each of them. Ids are dense: the entity with id `i` stands at position `i`. Homes, crossings and
neighbors follow from the rest (`Mobility.Scenario.Partitioning`).
-/

set_option autoImplicit false

namespace Mobility

/-- A network edge from node `source` to node `target`, and the partition which owns it. -/
structure LinkSpec where
  id : Nat
  source : Nat
  target : Nat
  length : Measure
  velocity : Measure
  capacity : Nat
  part : Nat
deriving DecidableEq

/-- A transit stop and the link it is located on. -/
structure StopSpec where
  id : Nat
  link : Nat
deriving DecidableEq

/-- A link with a preceding link of another partition. Agents cross from `fromPart` into `toPart`
when they enter it. -/
structure Crossing where
  link : Nat
  fromPart : Nat
  toPart : Nat
deriving DecidableEq

/-- The static input of a simulation, split into `numParts` partitions. -/
structure Scenario where
  numParts : Nat
  links : Array LinkSpec
  stops : Array StopSpec
  agents : Array Agent
  /-- The partition in which each agent starts. -/
  homes : Array Nat
  crossings : List Crossing
  /-- For each partition the ones it exchanges messages with. -/
  neighbors : Table (Table Unit)
deriving DecidableEq

/-- Which partition owns a link. -/
inductive Method where
  /-- Partition 0 owns everything. -/
  | none
  /-- Link `i` goes to partition `i` modulo their number. -/
  | modulo
  /-- The partitions stored with the links are kept. -/
  | precomputed
deriving DecidableEq

/-- What entities a scenario has. -/
inductive Entity where
  | link
  | stop
  | agent
deriving DecidableEq

/-- Why a link can't be used. -/
inductive LinkError where
  | velocityNotPositive
  | lengthNegative
deriving DecidableEq

/-- Why a scenario is refused. -/
inductive ScenarioError where
  | noPartitions
  | sparseIds (entity : Entity) (position found : Nat)
  /-- A plan names a link or stop which doesn't exist. -/
  | danglingReference (agent : Nat) (entity : Entity) (id index : Nat)
  | danglingStop (stop link : Nat)
  | invalidLink (id : Nat) (reason : LinkError)
  | corruptedPlan (agent index : Nat) (cause : UnknownKind)
  | partitionOutOfRange (entity : Entity) (id part numParts : Nat)
  | invalidAgent (id : Nat) (reason : AgentError)
deriving DecidableEq

/-- The name of an entity in reports. -/
def Entity.name : Entity → String
  | link => "link"
  | stop => "stop"
  | agent => "agent"

/-- What is wrong with a link. -/
def LinkError.message : LinkError → String
  | velocityNotPositive => "velocity must be positive"
  | lengthNegative => "length must not be negative"

/-- What an error says. -/
def ScenarioError.message : ScenarioError → String
  | noPartitions => "world must have at least one partition"
  | sparseIds entity position found =>
    s!"{entity.name} ids must be dense: found id {found} at position {position}"
  | danglingReference agent entity id index =>
    s!"agent {agent} references unknown {entity.name} {id} at plan index {index}"
  | danglingStop stop link => s!"stop {stop} is located on unknown link {link}"
  | invalidLink id reason => s!"link {id} is invalid: {reason.message}"
  | corruptedPlan agent index cause =>
    s!"agent {agent} has a corrupted instruction at plan index {index}: {cause.message}"
  | partitionOutOfRange entity id part numParts =>
    s!"{entity.name} {id} is assigned to partition {part}, but there are only {numParts}"
  | invalidAgent id reason => s!"agent {id} has an invalid state: {reason.message}"

namespace Scenario

/-- The owner of a link. Links that don't exist are never asked for once a scenario is checked. -/
def linkPart (s : Scenario) (link : Nat) : Nat :=
  match s.links[link]? with
  | some spec => spec.part
  | none => 0

/-- The owner of the link of a stop. -/
def stopPart (s : Scenario) (stop : Nat) : Nat :=
  match s.stops[stop]? with
  | some spec => s.linkPart spec.link
  | none => 0

/-- The partition an action is bound to. Sleeping is possible everywhere. -/
def placeOf (s : Scenario) : Action → Option Nat
  | .traverse link _ => some (s.linkPart link.val)
  | .wait _ stop => some (s.stopPart stop.val)
  | .access stop | .egress stop | .stopArrive stop | .stopDelay stop | .stopDepart stop =>
    some (s.stopPart stop.stop.val)
  | .sleepFor _ | .sleepUntil _ => none

/-- The partitions which partition `rank` exchanges messages with, in ascending order. -/
def neighborsOf (s : Scenario) (rank : Nat) : List Nat :=
  ((s.neighbors.get? rank).getD .empty).keys

/-- The agents which start in partition `rank`. -/
def agentsOf (s : Scenario) (rank : Nat) : List Nat :=
  (List.range s.homes.size).filter fun id => s.homes[id]? = some rank

/-- The network as partition `rank` sees it, by link id. -/
def views (s : Scenario) (rank : Nat) : Array LinkView :=
  s.links.map fun spec =>
    if spec.part = rank then
      let link := Link.vacant spec.id spec.length spec.velocity spec.capacity
      match (s.crossings.filter fun c => c.toPart = rank ∧ c.link = spec.id).map (·.fromPart) with
      | [] => .owned link
      | fromParts => .gateway (.vacant fromParts link)
    else if s.crossings.any fun c => c.fromPart = rank ∧ c.link = spec.id then
      .proxy (.vacant spec.id spec.part spec.capacity)
    else .remote spec.id spec.part

end Scenario

end Mobility
