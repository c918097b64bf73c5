import Mobility.Partition.Basic

/-!
# Reports

What is told about a partition after its run: a summary which accounts for every agent, and a dump
of the state, one line for each thing.
-/

set_option autoImplicit false

namespace Mobility

/-- The outcome of the run of a partition. -/
structure Summary where
  rank : Nat
  /-- The agents which consumed their plan in this partition. -/
  finished : Nat
  /-- The agents which were in this partition when the run ended. -/
  unfinished : Nat
  stop : Nat
deriving DecidableEq

/-- The agents on a link or in front of it. -/
def LinkView.agents : LinkView → List Nat
  | .owned link => link.queue.map (·.agent)
  | .gateway gate => gate.link.queue.map (·.agent) ++ gate.inbound.map (·.1)
  | .proxy _ | .remote .. => []

namespace Partition

/-- The agents which are due at some second, on a link or in front of one. -/
def present (p : Partition) : List Nat :=
  p.dueAgents.pending.map (·.2) ++ p.dueAgents.beyond ++ p.links.toList.flatMap LinkView.agents

/-- The number of taken seats of an agent. -/
def seatsTaken (p : Partition) (id : Nat) : Nat :=
  match p.agents[id]? with
  | some a => a.seats.taken
  | none => 0

/-- The number of agents aboard the agents which are present. -/
def aboard (p : Partition) : Nat := p.present.foldr (fun id n => p.seatsTaken id + n) 0

/-- The summary of a run. -/
def summary (p : Partition) : Summary where
  rank := p.rank
  finished := p.finished
  unfinished := p.present.length + p.aboard + p.platforms.size
  stop := p.timing.stop

/-- A list in a dump. -/
def listText {α : Type} (text : α → String) (xs : List α) : String :=
  "[" ++ ", ".intercalate (xs.map text) ++ "]"

/-- The queue of a link in a dump. -/
def queueText (queue : List Entry) : String :=
  listText (fun e => s!"({e.agent}, {e.finish})") queue

/-- The line of a link. Links of which only the owner is known have none. -/
def linkLine : LinkView → Option String
  | .owned link => some s!"link {link.id} local queue={queueText link.queue}"
  | .gateway gate =>
    some (s!"link {gate.link.id} in from={listText toString gate.fromParts} " ++
      s!"queue={queueText gate.link.queue} inbound={listText toString (gate.inbound.map (·.1))}")
  | .proxy p => some s!"link {p.id} out to={p.toPart} occupancy={p.occupancy}"
  | .remote .. => none

/-- The line of an agent which is due at second `time`. -/
def agentLine (p : Partition) (time id : Nat) : String :=
  match p.agents[id]? with
  | some a =>
    s!"agent {id} due={time} cursor={a.cursor}/{a.plan.length} occupancy={a.seats.taken}"
  | none => s!"agent {id} due={time}"

/-- The state of a partition: links, agents which are due, agents due after the end, and stops. -/
def dump (p : Partition) : List String :=
  s!"# partition {p.rank}" ::
    (p.links.toList.filterMap linkLine ++
      p.dueAgents.pending.map (fun (time, id) => p.agentLine time id) ++
      p.dueAgents.beyond.map (fun id => s!"agent {id} due=beyond_horizon") ++
      p.platforms.toList.map fun (stop, route, agents) =>
        s!"stop {stop} route {route} waiting={listText toString agents}")

end Partition

end Mobility
