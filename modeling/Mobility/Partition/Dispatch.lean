import Mobility.Partition.Basic

/-!
# Executing instructions

An agent that is due executes its current instruction. If it can't proceed, it is due again in the
next second. A link that is due lets its first agents execute their current instructions, one after
the other, as long as they may leave by now and get on. An agent whose instruction belongs to
another partition is handed over with the cursor in front of that instruction, so that the other
partition executes it.
-/

set_option autoImplicit false

namespace Mobility.Partition

/-! ## Handing over -/

/-- What another partition has to know of an agent. -/
def record (id : Nat) : Act AgentRecord := do
  let a ← agent id
  if a.isVehicle then
    let passengers ← a.seats.carried.mapM fun (index, passenger) => do
      return ⟨index, passenger, (← agent passenger).cursor⟩
    return ⟨id, a.cursor, some passengers⟩
  else return ⟨id, a.cursor, none⟩

/-- Queues an agent for partition `target`. -/
def send (target : Nat) (link : Option Nat) (id now : Nat) : Act Unit := do
  let r ← record id
  modify fun p => { p with outbox := p.outbox.addAgent target link r now }

/-- Sends an agent to partition `target` without letting it enter a link. -/
def handOver (id target now : Nat) : Act Unit := send target none id now

/-! ## Instructions -/

/-- Lets an agent of this partition enter an owned link. A link on which the agent is alone is due
when the agent may leave. -/
def enter (id link : Nat) (velocity : Velocity) (now : Nat) (v : LinkView) (queue : Link) :
    Act Bool := do
  let finish := Clock.after now (queue.travelTime velocity.val (← get).timing.delay)
  match ← attempt (v.push id finish) with
  | none => return false
  | some v =>
    setView link v
    setAgent id ((← agent id).onLink now finish)
    consume id .advance now
    if queue.queue.isEmpty then revisit link (max finish (now + 1))
    return true

/-- Lets an agent enter a link, wherever the link is. -/
def traverse (id link : Nat) (velocity : Velocity) (now : Nat) : Act Bool := do
  match ← view link with
  | .remote _ owner =>
    handOver id owner now
    return true
  | .proxy proxy =>
    match proxy.push id with
    | none => return false
    | some proxy =>
      setView link (.proxy proxy)
      setAgent id ((← agent id).onLink now now)
      consume id .advance now
      return true
  | .owned queue => enter id link velocity now (.owned queue) queue
  | .gateway gate => enter id link velocity now (.gateway gate) gate.link

/-- Lets an agent sleep until second `time`. -/
def sleep (id time now : Nat) : Act Unit := do
  consume id .advance now
  wake id time

/-- Queues an agent at a stop. Its plan goes on with boarding and leaving, and it queues by the stop
where it leaves. -/
def wait (id : Nat) (route : RouteId) (stop : StopId) (now : Nat) : Act Bool := do
  let owner ← stopOwner stop.val
  if owner ≠ (← get).rank then
    handOver id owner now
    return true
  consume id .advance now
  let a ← agent id
  match ← attempt (a.plan.get? (a.cursor + 1)) with
  | some ⟨_, .egress leaving⟩ =>
    modify fun p =>
      { p with platforms := p.platforms.add stop.val route.val leaving.index.val id }
    return true
  | other => throw (.fault (.noEgress id stop.val other))

/-- Lets a vehicle arrive at a stop. -/
def stopArrive (id : Nat) (stop : StopRef) (now : Nat) : Act Bool := do
  let owner ← stopOwner stop.stop.val
  if owner ≠ (← get).rank then
    handOver id owner now
    return true
  consume id .advance now
  wake id (now + 1)
  return true

/-- Lets passengers leave and board. The ones for this stop leave first. Then waiting agents board
in order of their destination, as long as there are free seats. -/
def exchangePassengers (id : Nat) (stop : StopRef) (now : Nat) : Act Unit := do
  consume id .advance now
  let vehicle ← agent id
  let (leaving, seats) ← attempt (vehicle.seats.egress stop.index.val)
  setAgent id { vehicle with seats := seats }
  leaving.forM fun passenger => do
    consume passenger (.egress id) now
    wake passenger (now + 1)
  let vehicle ← agent id
  let accepts (index passenger : Nat) : StateM Seats Bool := fun seats =>
    match seats.access index passenger with
    | some seats => (true, seats)
    | none => (false, seats)
  let ((boarded, platforms), seats) :=
    (← get).platforms.board stop.stop.val stop.route.val stop.index.val accepts vehicle.seats
  setAgent id { vehicle with seats := seats }
  modify fun p => { p with platforms := platforms }
  boarded.forM fun (_, passenger) => consume passenger (.access id) now

/-- Notes that an agent has consumed its plan. -/
def finish (id now : Nat) : Act Unit := do
  let a ← agent id
  publish now ⟨.finish, id, a.finishEvent, none⟩
  modify fun p => { p with finished := p.finished + 1 }

/-- Executes the current instruction of an agent. Returns whether the agent needs no further
attempt: `false` means that it acts again in the next second. -/
def dispatch (id now : Nat) : Act Bool := do
  let a ← agent id
  match ← attempt a.current with
  | none =>
    finish id now
    return true
  | some instruction =>
    match instruction.action with
    | .traverse link velocity => traverse id link.val velocity now
    | .sleepFor duration =>
      sleep id (Clock.after now (max duration.val 1)) now
      return true
    | .sleepUntil time =>
      sleep id (max time.val (now + 1)) now
      return true
    | .wait route stop => wait id route stop now
    | .stopArrive stop => stopArrive id stop now
    | .stopDelay stop =>
      exchangePassengers id stop now
      return false
    | .stopDepart _ =>
      consume id .advance now
      return false
    | .access _ | .egress _ => throw (.fault (.notAboard id instruction a.cursor))

/-! ## Links -/

/-- The velocity which an agent requested for the link it is about to enter. The traversal is
consumed already. -/
def requestedVelocity (id : Nat) : Act Velocity := do
  let a ← agent id
  match ← attempt a.previous with
  | some ⟨_, .traverse _ velocity⟩ => return velocity
  | other => throw (.fault (.noTraversal id other))

/-- Puts an agent from partition `fromPart` at the end of the queue of a gateway. -/
def letIn (gate : Gateway) (id fromPart now : Nat) (velocity : Velocity) : Act Gateway := do
  let finish := Clock.after now (gate.link.travelTime velocity.val (← get).timing.delay)
  setAgent id ((← agent id).onLink now finish)
  let link := { gate.link with queue := gate.link.queue ++ [⟨id, finish, some fromPart⟩] }
  return { gate with link := link }

/-- Lets agents waiting in front of a gateway enter it, as long as there is room. -/
def admitWaiting (gate : Gateway) (now : Nat) : List (Nat × Nat) → Act Gateway
  | [] => return { gate with inbound := [] }
  | (id, fromPart) :: rest => do
    if gate.link.isFull then return { gate with inbound := (id, fromPart) :: rest }
    let velocity ← requestedVelocity id
    admitWaiting (← letIn gate id fromPart now velocity) now rest

/-- Fills the room on a link with the agents waiting in front of it. -/
def drainInbound (link now : Nat) : Act Unit := do
  match ← view link with
  | .gateway gate => setView link (.gateway (← admitWaiting gate now gate.inbound))
  | _ => pure ()

/-- Schedules a link for when its first agent may leave. -/
def revisitHead (link : Nat) : Act Unit := do
  match (← view link).front? with
  | none => pure ()
  | some head => revisit link head.finish

/-- Lets at most `budget` agents leave a link. An agent which can't get on blocks the others until
the next second. An empty link isn't scheduled; it is again when an agent enters it. -/
def serve (link now : Nat) : Nat → Act Unit
  | 0 => revisitHead link
  | budget + 1 => do
    match (← view link).front? with
    | none => pure ()
    | some head =>
      if now < head.finish then revisit link head.finish
      else if ← dispatch head.agent now then
        let (_, v) ← attempt (← view link).pop
        setView link v
        drainInbound link now
        serve link now budget
      else revisit link (now + 1)

/-- Lets agents leave a link as long as the first one may leave and gets on. Agents which enter the
link meanwhile may leave at a later second only, so the agents that stand on it now are as many as
can leave. -/
def serveLink (link now : Nat) : Act Unit := do
  match (← view link).link? with
  | none => pure ()
  | some queue => serve link now queue.queue.length

/-- Lets an agent which is due act, and try again in the next second if it can't proceed. -/
def actOrRetry (id now : Nat) : Act Unit := do
  unless ← dispatch id now do wake id (now + 1)

/-- Lets all agents act which are due. -/
def serveAgents (now : Nat) : Act Unit := do
  let (ids, due) ← attempt ((← get).dueAgents.visit now)
  modify fun p => { p with dueAgents := due }
  ids.forM fun id => actOrRetry id now

/-- Looks at all links which are due. -/
def serveLinks (now : Nat) : Act Unit := do
  let (ids, due) ← attempt ((← get).dueLinks.visit now)
  modify fun p => { p with dueLinks := due }
  ids.forM fun link => serveLink link now

/-- What a partition does in a second before it talks to its neighbors. -/
def work (now : Nat) : Act Unit := do
  serveAgents now
  serveLinks now

end Mobility.Partition
