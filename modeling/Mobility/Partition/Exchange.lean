import Mobility.Partition.Dispatch

/-!
# Exchanging messages

At the end of a second a partition collects what it has for others, sends its transfers, takes in
the agents it receives, sends its releases, and applies the releases it receives. The four steps
which meet other partitions are acts of their own, so that several partitions can be run in any
order that respects who waits for whom.
-/

set_option autoImplicit false

namespace Mobility.Partition

/-! ## Collecting and sending -/

/-- Queues the agents which entered a link of another partition. -/
def emptyProxy (now link : Nat) : Act Unit := do
  match ← view link with
  | .proxy proxy =>
    let (ids, rest) := proxy.takeAgents
    setView link (.proxy rest)
    ids.forM fun id => send proxy.toPart (some link) id now
  | _ => pure ()

/-- Queues the agents which entered links of other partitions. -/
def collectAgents (now : Nat) : Act Unit := do (← get).proxies.forM (emptyProxy now)

/-- Queues the counts of agents from other partitions which left a link. -/
def reportGateway (now link : Nat) : Act Unit := do
  match ← view link with
  | .gateway gate =>
    let (released, rest) := gate.takeReleased
    setView link (.gateway rest)
    released.entries.forM fun (fromPart, count) =>
      modify fun p => { p with outbox := p.outbox.addCount fromPart link count now }
  | _ => pure ()

/-- Queues the counts of agents from other partitions which left their links. -/
def collectReleases (now : Nat) : Act Unit := do (← get).gateways.forM (reportGateway now)

/-- What can fail in an exchange. -/
def communicate {α : Type} (x : Except ExchangeError α) : Act α :=
  match x with
  | .ok a => pure a
  | .error e => throw (.exchange e)

/-- Takes the buffers for the neighbors out of the outbox. -/
def sendTransfers (now : Nat) : Act Buffers := do
  collectAgents now
  collectReleases now
  let (buffers, outbox) := (← get).outbox.takeTransfers now
  modify fun p => { p with outbox := outbox }
  communicate buffers

/-- Takes the reports for the neighbors out of the outbox. -/
def sendReleases (now : Nat) : Act Buffers := do
  let (buffers, outbox) := (← get).outbox.takeReleases now
  modify fun p => { p with outbox := outbox }
  communicate buffers

/-! ## Receiving -/

/-- Lets an agent sent by a neighbor enter a gateway, or wait in front of it if the link is full or
others are waiting. A link on which the agent is alone is due when the agent may leave. -/
def enterGateway (id link fromPart now : Nat) : Act Unit := do
  let velocity ← requestedVelocity id
  match (← get).links[link]? with
  | some (.gateway gate) =>
    if !gate.fromParts.contains fromPart then throw (.exchange (.unknownLink link))
    if !gate.inbound.isEmpty || gate.link.isFull then
      setView link (.gateway (gate.pushInbound id fromPart))
    else
      let entered ← letIn gate id fromPart now velocity
      setView link (.gateway entered)
      if gate.link.queue.isEmpty then do
        let finish := (← agent id).linkFinish
        revisit link (max finish (now + 1))
  | _ => throw (.exchange (.unknownLink link))

/-- Brings a passenger up to date. -/
def receivePassenger (p : PassengerRecord) : Act (Nat × Nat) := do
  match (← get).agents[p.id]? with
  | none => throw (.exchange (.unknownAgent p.id))
  | some a =>
    setAgent p.id (← attempt (a.moveCursor p.cursor))
    return (p.index, p.id)

/-- Brings an agent up to date and activates it: on the link it enters, or in the next second. -/
def receiveAgent (r : AgentRecord) (link : Option Nat) (fromPart now : Nat) : Act Unit := do
  match r.passengers with
  | none => pure ()
  | some passengers =>
    let seated ← passengers.mapM receivePassenger
    setAgent r.id (← attempt ((← agent r.id).replacePassengers seated))
  setAgent r.id (← attempt ((← agent r.id).moveCursor r.cursor))
  match link with
  | none => wake r.id (now + 1)
  | some link => enterGateway r.id link fromPart now

/-- Takes in the agents of a transfer. -/
def receiveTransfer (t : Transfer) (now : Nat) : Act Unit :=
  t.records.forM fun group => group.agents.forM fun r => receiveAgent r group.link t.sender now

/-- Whether an agent is a vehicle, or nothing for an agent that doesn't exist. -/
def isVehicle (p : Partition) (id : Nat) : Option Bool := p.agents[id]?.map (·.isVehicle)

/-- Takes in the delivered agents by the rank of their sender, whatever the order of arrival. -/
def receiveTransfers (now : Nat) (delivery : Delivery) : Act Unit := do
  let p ← get
  let transfers ← communicate (Outbox.readTransfers p.rank now p.isVehicle delivery)
  (transfers.mergeSort fun a b => a.sender ≤ b.sender).forM fun t => receiveTransfer t now

/-- Releases the room of agents which left a link of partition `fromPart`. -/
def applyCount (fromPart link count : Nat) : Act Unit := do
  match (← get).links[link]? with
  | some (.proxy proxy) =>
    if proxy.toPart ≠ fromPart then throw (.exchange (.unknownLink link))
    setView link (.proxy (← attempt (proxy.release count)))
  | _ => throw (.exchange (.unknownLink link))

/-- Applies the delivered reports. -/
def receiveReleases (now : Nat) (delivery : Delivery) : Act Unit := do
  let p ← get
  let releases ← communicate (Outbox.readReleases p.rank now delivery)
  releases.forM fun r => r.counts.forM fun (link, count) => applyCount r.sender link count

end Mobility.Partition
