import Mobility.Agenda
import Mobility.Outbox
import Mobility.Platforms
import Mobility.Scenario.Basic

/-!
# Partitions at work

A `Partition` simulates the part of a scenario which it owns. Agents and links which have something
to do at a later second stand in agendas, so nothing idle is looked at. A partition keeps the state
of every agent of the scenario, but only the agents that are in it are active: the state of the
others is brought up to date when they arrive from a neighbor.

What a partition does is an `Act`: a change of its state which may fail. The state at a failure is
kept, because what was published before it stays published.
-/

set_option autoImplicit false

namespace Mobility

/-- The seconds a simulation runs, and how it counts them. -/
structure Timing where
  start : Nat
  stop : Nat
  /-- The seconds added to every traversal. -/
  delay : Nat
  /-- The least wall clock time of a second. It has no influence on the result. -/
  tickMillis : Nat
deriving DecidableEq

/-- Why a partition can't be set up. -/
inductive SetupError where
  /-- The scenario is split for another number of partitions. -/
  | sizeMismatch (numParts size : Nat)
  | startAfterEnd (start stop : Nat)
deriving DecidableEq

/-- What an error says. -/
def SetupError.message : SetupError → String
  | sizeMismatch numParts size =>
    "configuration error: " ++
      s!"World is split into {numParts} partitions, but the simulation runs with {size}"
  | startAfterEnd start stop =>
    s!"configuration error: Start time {start} is after end time {stop}"

/-- Why a partition stops before the end of its run. -/
inductive Failure where
  | fault (fault : Fault)
  | exchange (error : ExchangeError)
deriving DecidableEq

/-- The state of one partition. -/
structure Partition where
  rank : Nat
  timing : Timing
  /-- The network by link id. -/
  links : Array LinkView
  gateways : List Nat
  proxies : List Nat
  /-- The link of each stop. -/
  stopLinks : Array Nat
  /-- All agents of the scenario by id. -/
  agents : Array Agent
  /-- The agents which act at a later second without being on a link. -/
  dueAgents : Agenda Nat
  /-- The links with agents, by the second at which the first one may leave. -/
  dueLinks : Agenda Nat
  platforms : Platforms
  outbox : Outbox
  log : EventLog
  /-- The number of agents which have consumed their plan here. -/
  finished : Nat
deriving DecidableEq

/-- Something a partition does. -/
abbrev Act := EStateM Failure Partition

namespace Partition

/-! ## Setting up -/

/-- Partition `rank` of `size`, before its first second. -/
def make (s : Scenario) (timing : Timing) (rank size : Nat) (neighbors : List Nat) :
    Except SetupError Partition :=
  if s.numParts ≠ size then .error (.sizeMismatch s.numParts size)
  else if timing.stop < timing.start then .error (.startAfterEnd timing.start timing.stop)
  else
    let links := s.views rank
    .ok {
      rank := rank
      timing := timing
      links := links
      gateways := links.toList.filterMap fun
        | .gateway gate => some gate.link.id
        | _ => none
      proxies := links.toList.filterMap fun
        | .proxy proxy => some proxy.id
        | _ => none
      stopLinks := s.stops.map (·.link)
      agents := s.agents
      dueAgents := .starting timing.start timing.stop (s.agentsOf rank)
      dueLinks := .vacant timing.start timing.stop
      platforms := .empty
      outbox := .empty rank neighbors
      log := #[]
      finished := 0 }

/-! ## Elementary acts -/

variable {α : Type}

/-- Does what may be a fault. -/
def attempt (x : Except Fault α) : Act α :=
  match x with
  | .ok a => pure a
  | .error f => throw (.fault f)

/-- The entry at `index`, where a missing entry is a fault. -/
def entry (xs : Array α) (index : Nat) : Act α :=
  match xs[index]? with
  | some x => pure x
  | none => throw (.fault (.noSuchEntry xs.size index))

/-- The agent with an id. -/
def agent (id : Nat) : Act Agent := do entry (← get).agents id

/-- Replaces the agent with an id. -/
def setAgent (id : Nat) (a : Agent) : Act Unit :=
  modify fun p => { p with agents := p.agents.setIfInBounds id a }

/-- The link with an id. -/
def view (link : Nat) : Act LinkView := do entry (← get).links link

/-- Replaces the link with an id. -/
def setView (link : Nat) (v : LinkView) : Act Unit :=
  modify fun p => { p with links := p.links.setIfInBounds link v }

/-- Lets an agent act again at second `time`. -/
def wake (id time : Nat) : Act Unit := do
  let due ← attempt ((← get).dueAgents.add id time)
  modify fun p => { p with dueAgents := due }

/-- Looks at a link again at second `time`. -/
def revisit (link time : Nat) : Act Unit := do
  let due ← attempt ((← get).dueLinks.add link time)
  modify fun p => { p with dueLinks := due }

/-- Stamps an event with second `now`. -/
def publish (now : Nat) (event : Event) : Act Unit :=
  modify fun p => { p with log := p.log.push ⟨now, event⟩ }

/-- Lets an agent consume its current instruction and stamps the event. -/
def consume (id : Nat) (how : Consumption) (now : Nat) : Act Unit := do
  let (a, event) ← attempt ((← agent id).consume how)
  setAgent id a
  match event with
  | some event => publish now event
  | none => pure ()

/-- The owner of a link. -/
def linkOwner (link : Nat) : Act Nat := do
  let v ← view link
  return v.owner (← get).rank

/-- The owner of a stop. -/
def stopOwner (stop : Nat) : Act Nat := do
  linkOwner (← entry (← get).stopLinks stop)

end Partition

end Mobility
