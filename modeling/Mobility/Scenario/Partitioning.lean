import Mobility.Scenario.Check

/-!
# Splitting a scenario

Links are given to partitions by a `Method`, and everything else follows: agents start where their
plan begins, agents cross into a link whose preceding link has another owner, and two partitions are
neighbors if a crossing connects them or a plan leads directly from one to the other. Whatever a
scenario holds from an earlier split is replaced.
-/

set_option autoImplicit false

namespace Mobility.Scenario

/-- The owner of a link under a method. -/
def assign (method : Method) (numParts : Nat) (link : LinkSpec) : LinkSpec :=
  match method with
  | .none => { link with part := 0 }
  | .modulo => { link with part := link.id % numParts }
  | .precomputed => link

/-- The partition in which an agent starts if `action` is the first one bound to a place where
agents can start: a link, or a stop to wait or arrive at. -/
def startOf (s : Scenario) (action : Action) : Option Nat :=
  match action with
  | .traverse .. | .wait .. | .stopArrive _ => s.placeOf action
  | _ => none

/-- The partition in which an agent starts. Agents which never touch the network are spread by id.
-/
def homeOf (s : Scenario) (agent : Agent) : Nat :=
  (agent.plan.decoded.findSome? fun i => s.startOf i.action).getD (agent.id % s.numParts)

/-- Checks that the owners of all links exist. -/
def checkParts (s : Scenario) : Except ScenarioError Unit :=
  match s.links.toList.find? fun link => s.numParts ≤ link.part with
  | some link => .error (.partitionOutOfRange .link link.id link.part s.numParts)
  | none => .ok ()

/-- For each node the owners of the links which end there. -/
def ownersByTarget (links : List LinkSpec) : Table (Table Unit) :=
  links.foldl
    (fun t link => t.alter link.target fun owners =>
      some ((owners.getD .empty).insert link.part ()))
    .empty

/-- The crossings by link, and for each link by the partition agents come from. -/
def findCrossings (s : Scenario) : List Crossing :=
  let owners := ownersByTarget s.links.toList
  s.links.toList.flatMap fun link =>
    ((((owners.get? link.source).getD .empty).keys.filter (· ≠ link.part)).map
      fun fromPart => ⟨link.id, fromPart, link.part⟩)

/-- Makes two different partitions neighbors of each other. -/
def connect (neighbors : Table (Table Unit)) (a b : Nat) : Table (Table Unit) :=
  let meet (t : Table (Table Unit)) (x y : Nat) : Table (Table Unit) :=
    t.alter x fun known => some ((known.getD .empty).insert y ())
  if a = b then neighbors else meet (meet neighbors a b) b a

/-- The partitions a plan leads through, without those where it only sleeps. -/
def route (s : Scenario) (agent : Agent) : List Nat :=
  agent.plan.decoded.filterMap fun i => s.placeOf i.action

/-- Connects the partitions along a way, each with the next one. -/
def connectAlong (neighbors : Table (Table Unit)) : Nat → List Nat → Table (Table Unit)
  | _, [] => neighbors
  | here, next :: rest => connectAlong (connect neighbors here next) next rest

/-- The neighbors of every partition. -/
def findNeighbors (s : Scenario) : Table (Table Unit) :=
  let byCrossing := s.crossings.foldl (fun t c => connect t c.fromPart c.toPart) .empty
  (s.agents.toList.zip s.homes.toList).foldl
    (fun t (agent, home) => connectAlong t home (s.route agent)) byCrossing

/-- Checks the entities and splits them anew into the partitions of the scenario. -/
def partition (s : Scenario) (method : Method) : Except ScenarioError Scenario := do
  if s.numParts = 0 then throw .noPartitions
  s.check
  let s := { s with links := s.links.map (assign method s.numParts) }
  let s := { s with homes := s.agents.map s.homeOf }
  s.checkParts
  let s := { s with crossings := s.findCrossings }
  return { s with neighbors := s.findNeighbors }

/-- The scenario of these entities, split into `numParts` partitions. -/
def build (numParts : Nat) (method : Method) (links : Array LinkSpec) (stops : Array StopSpec)
    (agents : Array Agent) : Except ScenarioError Scenario :=
  partition ⟨numParts, links, stops, agents, #[], [], .empty⟩ method

/-- The same entities, split into `numParts` partitions. -/
def repartition (s : Scenario) (numParts : Nat) (method : Method) :
    Except ScenarioError Scenario :=
  { s with numParts := numParts }.partition method

end Mobility.Scenario
