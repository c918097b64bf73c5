import Mobility.Measure
import Mobility.Clock

/-!
# Links

A link is a network edge with a first-in-first-out queue of agents, each with the second at which it
may leave. At most `capacity` agents can be on it. A link of capacity 0 would block every agent
forever, so it gets room for one.
-/

set_option autoImplicit false

namespace Mobility

/-- An agent on a link. `fromPart` is the partition it was sent from, if it crossed a boundary. -/
structure Entry where
  agent : Nat
  finish : Nat
  fromPart : Option Nat
deriving DecidableEq

/-- A network edge and the agents on it, first come first. -/
structure Link where
  id : Nat
  length : Measure
  velocity : Measure
  capacity : Nat
  queue : List Entry
deriving DecidableEq

namespace Link

/-- A link without agents. -/
def vacant (id : Nat) (length velocity : Measure) (capacity : Nat) : Link where
  id := id
  length := length
  velocity := velocity
  capacity := max capacity 1
  queue := []

/-- The velocity of an agent which requests `requested` metres per second, where 0 asks for the
velocity of the link. A velocity that isn't a number limits nobody. -/
def flowVelocity (l : Link) (requested : Nat) : Float32 :=
  let limit := l.velocity.toFloat
  let wish := Float32.ofNat requested
  if requested = 0 then limit
  else if limit.isNaN || wish < limit then wish
  else limit

/-- The whole seconds an agent is in motion: no less than 0, no more than the last second, and 0 if
the quotient isn't a number. -/
def motionSeconds (l : Link) (requested : Nat) : Nat :=
  (l.length.toFloat / l.flowVelocity requested).toUInt32.toNat

/-- The seconds a traversal takes. A second at least, and `delay` seconds on top. -/
def travelTime (l : Link) (requested delay : Nat) : Nat :=
  Clock.after delay (max 1 (l.motionSeconds requested))

/-- Whether there is no room left. -/
def isFull (l : Link) : Bool := l.capacity ≤ l.queue.length

/-- Puts an agent at the end of the queue, or refuses if the link is full. -/
def push (l : Link) (entry : Entry) : Option Link :=
  if l.isFull then none else some { l with queue := l.queue ++ [entry] }

/-- Takes the head of the queue. -/
def pop (l : Link) : Except Fault (Entry × Link) :=
  match l.queue with
  | [] => .error (.linkEmpty l.id)
  | head :: rest => .ok (head, { l with queue := rest })

end Link

end Mobility
