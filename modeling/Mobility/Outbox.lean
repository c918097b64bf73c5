import Mobility.Message.Wire

/-!
# Outboxes

An outbox collects what a partition has for its neighbors during a second. At the end of the second
it is emptied: every neighbor gets one transfer and one release, an empty one if there is nothing to
say, so a receiver always knows how many messages to wait for. A message to a partition which
doesn't wait for one would be read in a later second, so it is refused, and then nothing is sent.
-/

set_option autoImplicit false

namespace Mobility

/-- Buffers by the partition they go to. -/
abbrev Buffers := Table (List UInt8)

/-- Received buffers with their senders, in order of arrival. -/
abbrev Delivery := List (Nat × List UInt8)

/-- What partition `rank` has for others. `neighbors` is fixed before a run. -/
structure Outbox where
  rank : Nat
  neighbors : Table Unit
  transfers : Table Transfer
  releases : Table Release
deriving DecidableEq

namespace Outbox

/-- An outbox with nothing to send. -/
def empty (rank : Nat) (neighbors : List Nat) : Outbox where
  rank := rank
  neighbors := neighbors.foldl (fun t n => t.insert n ()) .empty
  transfers := .empty
  releases := .empty

/-- Queues an agent for partition `target`, which it enters on `link`, or is handed over directly.
-/
def addAgent (o : Outbox) (target : Nat) (link : Option Nat) (agent : AgentRecord) (now : Nat) :
    Outbox :=
  { o with
    transfers := o.transfers.alter target fun t =>
      some ((t.getD (.empty now o.rank target)).addAgent link agent) }

/-- Queues the count of agents from `target` which left `link`. -/
def addCount (o : Outbox) (target link count now : Nat) : Outbox :=
  { o with
    releases := o.releases.alter target fun r =>
      some ((r.getD (.empty now o.rank target)).addCount link count) }

/-- One message for every neighbor, if there is none for anybody else. -/
def complete {α : Type} (neighbors : Table Unit) (queued : Table α) (blank : Nat → α) :
    Except ExchangeError (Table α) :=
  match queued.keys.find? fun target => !neighbors.contains target with
  | some target => .error (.notANeighbor target)
  | none => .ok (neighbors.mapRows fun target _ => (queued.get? target).getD (blank target))

/-- Takes the transfers as buffers. The outbox holds no transfer afterwards, sent or not. -/
def takeTransfers (o : Outbox) (now : Nat) : Except ExchangeError Buffers × Outbox :=
  ((complete o.neighbors o.transfers (Transfer.empty now o.rank)).map fun messages =>
      messages.mapRows fun _ t => t.encode,
    { o with transfers := .empty })

/-- Takes the releases as buffers. The outbox holds no release afterwards, sent or not. -/
def takeReleases (o : Outbox) (now : Nat) : Except ExchangeError Buffers × Outbox :=
  ((complete o.neighbors o.releases (Release.empty now o.rank)).map fun messages =>
      messages.mapRows fun _ r => r.encode,
    { o with releases := .empty })

/-- A message from `sender` has to be about second `now`. -/
def checkTime (sender received now : Nat) : Except ExchangeError Unit :=
  if received = now then .ok () else .error (.unexpectedTime sender received now)

/-- Reads the transfers delivered to partition `rank` in second `now`. -/
def readTransfers (rank now : Nat) (isVehicle : Nat → Option Bool) (delivery : Delivery) :
    Except ExchangeError (List Transfer) :=
  delivery.mapM fun (sender, data) => do
    let t ← Transfer.decode data rank isVehicle
    checkTime sender t.time now
    return t

/-- Reads the releases delivered to partition `rank` in second `now`. -/
def readReleases (rank now : Nat) (delivery : Delivery) : Except ExchangeError (List Release) :=
  delivery.mapM fun (sender, data) => do
    let r ← Release.decode data rank
    checkTime sender r.time now
    return r

end Outbox

end Mobility
