import Mobility.Link.Basic
import Mobility.Table

/-!
# Links as a partition sees them

Every link has one owner. The partition which owns a link keeps its queue. If preceding links belong
to other partitions, the owner keeps a `Gateway`: agents from a neighbor queue up in front of the
link while it is full, and every such agent that leaves the link is counted, so that the neighbor
can release the room it reserved. The neighbor keeps a `Proxy`, which knows how many agents it has
sent and how many of them have left, and so keeps the owner's link within its capacity. Everybody
else knows only who owns the link.
-/

set_option autoImplicit false

namespace Mobility

/-- An owned link which agents also enter from other partitions. -/
structure Gateway where
  /-- The partitions which own a preceding link. -/
  fromParts : List Nat
  link : Link
  /-- The agents waiting in front of the link and where they come from. They go before agents of
  this partition. -/
  inbound : List (Nat × Nat)
  /-- How many agents from each partition left the link since the counts were reported. -/
  released : Table Nat
deriving DecidableEq

/-- What a neighbor of the owner knows of a link that its agents enter. -/
structure Proxy where
  id : Nat
  toPart : Nat
  capacity : Nat
  /-- The agents sent there which haven't left the link as far as is known here. -/
  occupancy : Nat
  /-- The agents to be sent at the end of the second. -/
  outbox : List Nat
deriving DecidableEq

/-- A link as one partition sees it. -/
inductive LinkView where
  | owned (link : Link)
  | gateway (gate : Gateway)
  | proxy (proxy : Proxy)
  | remote (id owner : Nat)
deriving DecidableEq

namespace Gateway

/-- A gateway nobody has come through. -/
def vacant (fromParts : List Nat) (link : Link) : Gateway := ⟨fromParts, link, [], .empty⟩

/-- Lets an agent from another partition wait in front of the link. -/
def pushInbound (g : Gateway) (agent fromPart : Nat) : Gateway :=
  { g with inbound := g.inbound ++ [(agent, fromPart)] }

/-- Takes the first of the agents waiting in front of the link. -/
def popInbound (g : Gateway) : Except Fault ((Nat × Nat) × Gateway) :=
  match g.inbound with
  | [] => .error .nobodyInbound
  | first :: rest => .ok (first, { g with inbound := rest })

/-- Takes the counts of the agents which left the link. -/
def takeReleased (g : Gateway) : Table Nat × Gateway := (g.released, { g with released := .empty })

/-- Takes the head of the link, and counts it if it came from another partition. -/
def pop (g : Gateway) : Except Fault (Entry × Gateway) := do
  let (entry, link) ← g.link.pop
  let released := match entry.fromPart with
    | some part => g.released.alter part fun n => some (n.getD 0 + 1)
    | none => g.released
  return (entry, { g with link := link, released := released })

end Gateway

namespace Proxy

/-- A proxy of a link nobody was sent to. -/
def vacant (id toPart capacity : Nat) : Proxy := ⟨id, toPart, max capacity 1, 0, []⟩

/-- Sends an agent to the link, or refuses if there may be no room left. -/
def push (p : Proxy) (agent : Nat) : Option Proxy :=
  if p.occupancy < p.capacity then
    some { p with occupancy := p.occupancy + 1, outbox := p.outbox ++ [agent] }
  else none

/-- Takes the agents to be sent. -/
def takeAgents (p : Proxy) : List Nat × Proxy := (p.outbox, { p with outbox := [] })

/-- Releases the room of `released` agents which have left the link. -/
def release (p : Proxy) (released : Nat) : Except Fault Proxy :=
  if released ≤ p.occupancy then .ok { p with occupancy := p.occupancy - released }
  else .error (.releasedTooMany p.toPart p.id released p.occupancy)

end Proxy

namespace LinkView

/-- The id of the link. -/
def id : LinkView → Nat
  | owned link => link.id
  | gateway gate => gate.link.id
  | proxy p => p.id
  | remote id _ => id

/-- The queue of the link, if this partition owns it. -/
def link? : LinkView → Option Link
  | owned link => some link
  | gateway gate => some gate.link
  | proxy _ | remote .. => none

/-- The owner of the link, for a partition with number `rank`. -/
def owner (rank : Nat) : LinkView → Nat
  | owned _ | gateway _ => rank
  | proxy p => p.toPart
  | remote _ owner => owner

/-- The first agent on the link, if this partition owns the link and there is one. -/
def front? (v : LinkView) : Option Entry := v.link?.bind (·.queue.head?)

/-- Puts an agent of this partition onto the link, or refuses. Agents waiting in front of a gateway
go first. -/
def push (v : LinkView) (agent finish : Nat) : Except Fault (Option LinkView) :=
  match v with
  | owned link => .ok ((link.push ⟨agent, finish, none⟩).map owned)
  | gateway gate =>
    .ok <| if gate.inbound.isEmpty then
        (gate.link.push ⟨agent, finish, none⟩).map fun link => gateway { gate with link := link }
      else none
  | proxy p => .ok ((p.push agent).map proxy)
  | remote id owner => .error (.enterForeignLink agent id owner)

/-- Takes the first agent from the link. -/
def pop : LinkView → Except Fault (Entry × LinkView)
  | owned link => link.pop.map fun (entry, link) => (entry, owned link)
  | gateway gate => gate.pop.map fun (entry, gate) => (entry, gateway gate)
  | proxy p => .error (.leaveForeignLink p.id)
  | remote id _ => .error (.leaveForeignLink id)

end LinkView

end Mobility
