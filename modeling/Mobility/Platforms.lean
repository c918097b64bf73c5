import Mobility.Table
import Mobility.Instruction.Basic

/-!
# Platforms

Passengers wait at a stop for a vehicle of a route. They queue by the index of the stop where they
want to leave, so that a vehicle can board them in order of their destination. Who boards is decided
by a test with a state of its own, such as the free seats of the vehicle.
-/

set_option autoImplicit false

namespace Mobility

/-- The waiting agents by stop, route and the index where they leave, in order of arrival. -/
structure Platforms where
  queues : Table (Table (Table (List Nat)))
  /-- The number of waiting agents. -/
  size : Nat
deriving DecidableEq

namespace Platforms

/-- Nobody waits. -/
def empty : Platforms := ⟨.empty, 0⟩

/-- The queues of a route at a stop. -/
def queuesOf (p : Platforms) (stop route : Nat) : Table (List Nat) :=
  ((p.queues.get? stop).bind (·.get? route)).getD .empty

/-- Queues `agent` for a route at a stop. -/
def add (p : Platforms) (stop route index agent : Nat) : Platforms where
  queues := p.queues.alter stop fun routes =>
    some ((routes.getD .empty).alter route fun queues =>
      some ((queues.getD .empty).alter index fun queue => some (queue.getD [] ++ [agent])))
  size := p.size + 1

/-- The agents waiting for stop index `fromIndex` or a later one, by index and then by arrival. -/
def waiting (queues : Table (List Nat)) (fromIndex : Nat) : List (Nat × Nat) :=
  (queues.entries.filter fun row => fromIndex ≤ row.1).flatMap fun row =>
    row.2.map fun agent => (row.1, agent)

/-- Admits waiting agents until the first one is refused. -/
def admitted {σ : Type} (accepts : Nat → Nat → StateM σ Bool) :
    List (Nat × Nat) → StateM σ (List (Nat × Nat))
  | [] => return []
  | (index, agent) :: rest => do
    if ← accepts index agent then return (index, agent) :: (← admitted accepts rest) else return []

/-- The queues after the first agents of some of them have boarded. Empty queues are dropped. -/
def without (queues : Table (List Nat)) (boarded : List (Nat × Nat)) : Table (List Nat) :=
  (queues.mapRows fun index queue => queue.drop (boarded.countP (·.1 = index))).filter
    fun _ queue => !queue.isEmpty

/-- Boards agents who wait at a stop for a route and leave at stop index `fromIndex` or later, as
long as `accepts` admits them. Returns them with their index. -/
def board {σ : Type} (p : Platforms) (stop route fromIndex : Nat)
    (accepts : Nat → Nat → StateM σ Bool) : StateM σ (List (Nat × Nat) × Platforms) := do
  let boarded ← admitted accepts (waiting (p.queuesOf stop route) fromIndex)
  let queues := p.queues.alter stop fun routes => routes.map fun routes =>
    routes.alter route fun queues => queues.map fun queues => without queues boarded
  return (boarded, ⟨queues, p.size - boarded.length⟩)

/-- The agents waiting for each route at each stop. A route stays listed after the last agent
boarded. -/
def toList (p : Platforms) : List (Nat × Nat × List Nat) :=
  p.queues.entries.flatMap fun atStop => atStop.2.entries.map fun onRoute =>
    (atStop.1, onRoute.1, onRoute.2.values.flatten)

end Platforms

end Mobility
