import Mobility.Scenario.Basic

/-!
# Checking a scenario

Before a scenario is split, its entities are checked on their own: ids of links, stops and agents in
this order, then every link, every stop, and every agent with its plan. The first thing found wrong
is reported. A checked scenario has no reference to an entity that doesn't exist.
-/

set_option autoImplicit false

namespace Mobility.Scenario

/-- Checks that the entity at every position has the position as its id. -/
def checkDense (entity : Entity) (ids : List Nat) : Except ScenarioError Unit :=
  match ids.zipIdx.find? fun (id, position) => id ≠ position with
  | some (id, position) => .error (.sparseIds entity position id)
  | none => .ok ()

/-- Checks the velocity and the length of a link. -/
def checkLink (link : LinkSpec) : Except ScenarioError Unit :=
  if !link.velocity.isPositive then .error (.invalidLink link.id .velocityNotPositive)
  else if !link.length.isNonnegative then .error (.invalidLink link.id .lengthNegative)
  else .ok ()

/-- Checks that the link of a stop exists. -/
def checkStop (s : Scenario) (stop : StopSpec) : Except ScenarioError Unit :=
  if stop.link < s.links.size then .ok () else .error (.danglingStop stop.id stop.link)

/-- Checks that the link or stop of an action exists. -/
def checkReference (s : Scenario) (agent index : Nat) (action : Action) :
    Except ScenarioError Unit :=
  let stopExists (stop : Nat) : Except ScenarioError Unit :=
    if stop < s.stops.size then .ok () else .error (.danglingReference agent .stop stop index)
  match action with
  | .traverse link _ =>
    if link.val < s.links.size then .ok ()
    else .error (.danglingReference agent .link link.val index)
  | .wait _ stop => stopExists stop.val
  | .access stop | .egress stop | .stopArrive stop | .stopDelay stop | .stopDepart stop =>
    stopExists stop.stop.val
  | .sleepFor _ | .sleepUntil _ => .ok ()

/-- Checks one word of a plan. -/
def checkWord (s : Scenario) (agent index : Nat) (word : Word) : Except ScenarioError Unit :=
  match Instruction.decode word with
  | .error cause => .error (.corruptedPlan agent index cause)
  | .ok instruction => checkReference s agent index instruction.action

/-- Checks the state of an agent and then its plan. -/
def checkAgent (s : Scenario) (agent : Agent) : Except ScenarioError Unit :=
  match agent.check with
  | .error reason => .error (.invalidAgent agent.id reason)
  | .ok () => agent.plan.words.toList.zipIdx.forM fun (word, index) =>
      checkWord s agent.id index word

/-- Checks all entities. -/
def check (s : Scenario) : Except ScenarioError Unit := do
  checkDense .link (s.links.toList.map (·.id))
  checkDense .stop (s.stops.toList.map (·.id))
  checkDense .agent (s.agents.toList.map (·.id))
  s.links.toList.forM checkLink
  s.stops.toList.forM (checkStop s)
  s.agents.toList.forM (checkAgent s)

end Mobility.Scenario
