import Mobility.Rendezvous
import Mobility.Simulation

/-!
# Partitions side by side

In a run every partition has a thread of its own. A `Process` is a partition together with the
place in its second where its thread is. In every second it works, puts a transfer into the lane of
every neighbor, takes buffers from its own lane until it has heard of every neighbor, does the same
with releases, arrives at the rendezvous and waits there until everybody has come. The last one to
arrive sets the clock on, and everybody reads the next second from it.

An `Ensemble` is all processes with what they share. Whose turn it is, and which of its buffers a
process puts into a lane next, is not up to the ensemble: a schedule is any list of `Turn`s.
-/

set_option autoImplicit false

namespace Mobility

/-- Where the thread of a partition is. -/
inductive Stage where
  /-- About to work through second `now`. -/
  | working (now : Nat)
  /-- The buffers in `pending` are still to be sent. -/
  | sending (lane : Lane) (now : Nat) (pending : Buffers)
  /-- The partitions in `missing` haven't been heard of. -/
  | receiving (lane : Lane) (now : Nat) (missing : List Nat) (received : Delivery)
  /-- About to arrive at the rendezvous. -/
  | arriving (now : Nat)
  /-- Inside the rendezvous, since round `round`. -/
  | waiting (now round : Nat)
  | done
  | failed (failure : Failure)
deriving DecidableEq

/-- A partition and where its thread is. -/
structure Process where
  partition : Partition
  stage : Stage
deriving DecidableEq

/-- All processes, by rank, with the lanes, the rendezvous and the clock which they share. -/
structure Ensemble where
  processes : List Process
  lanes : Lanes
  rendezvous : Rendezvous
  clock : Nat
deriving DecidableEq

/-- A step of process `rank`. If the process is sending, the buffer for `target` goes next. -/
structure Turn where
  rank : Nat
  target : Nat
deriving DecidableEq

namespace Partition

/-- What a partition does in a second up to its transfers. -/
def depart (now : Nat) : Act Buffers := do
  work now
  sendTransfers now

/-- Takes in the transfers and makes the releases. -/
def arrive (now : Nat) (delivery : Delivery) : Act Buffers := do
  receiveTransfers now delivery
  sendReleases now

/-- Reads a buffer on its arrival. -/
def checkArrival (p : Partition) (lane : Lane) (now : Nat) (buffer : Nat × List UInt8) :
    Except ExchangeError Unit :=
  match lane with
  | .transfers => (Outbox.readTransfers p.rank now p.isVehicle [buffer]).map fun _ => ()
  | .releases => (Outbox.readReleases p.rank now [buffer]).map fun _ => ()

end Partition

namespace Process

/-- The process after an act, at the stage that follows from the result. -/
def perform {α : Type} (p : Partition) (act : Act α) (stage : α → Stage) : Process :=
  match act.run p with
  | .ok a p => ⟨p, stage a⟩
  | .error e p => ⟨p, .failed e⟩

/-- What a process does once everything awaited in a lane has come. -/
def proceed (p : Partition) (now : Nat) (received : Delivery) : Lane → Process
  | .transfers => perform p (Partition.arrive now received) (.sending .releases now)
  | .releases => perform p (Partition.receiveReleases now received) fun _ => .arriving now

end Process

namespace Ensemble

/-- The partitions of a scenario before their first second. -/
def make (s : Scenario) (timing : Timing) : Except SetupError Ensemble := do
  let simulation ← Simulation.make s timing
  return {
    processes := simulation.partitions.map fun p => ⟨p, .working timing.start⟩
    lanes := simulation.lanes
    rendezvous := ⟨s.numParts, 0, 0⟩
    clock := 0 }

/-- Replaces the process of a rank. -/
def put (c : Ensemble) (rank : Nat) (process : Process) : Ensemble :=
  { c with processes := c.processes.set rank process }

/-- Puts the buffer for `target` into its lane. Without buffers, the process goes on to receive. -/
def post (c : Ensemble) (rank : Nat) (p : Partition) (lane : Lane) (now : Nat) (pending : Buffers)
    (target : Nat) : Option Ensemble :=
  if pending.isEmpty then
    some (c.put rank ⟨p, .receiving lane now p.outbox.neighbors.keys []⟩)
  else
    (pending.get? target).map fun data =>
      match c.lanes.send lane p.rank target data with
      | .ok lanes =>
        { c.put rank ⟨p, .sending lane now (pending.erase target)⟩ with lanes := lanes }
      | .error e => c.put rank ⟨p, .failed (.exchange e)⟩

/-- Takes the first buffer from a lane, if there is one. -/
def take (c : Ensemble) (rank : Nat) (p : Partition) (lane : Lane) (now : Nat)
    (missing : List Nat) (received : Delivery) : Option Ensemble :=
  match c.lanes.contents lane p.rank with
  | [] => none
  | buffer :: rest =>
    some <| match p.checkArrival lane now buffer with
      | .ok () =>
        { c.put rank
            ⟨p, .receiving lane now (missing.filter (· ≠ buffer.1)) (received ++ [buffer])⟩ with
          lanes := c.lanes.setContents lane p.rank rest }
      | .error e => c.put rank ⟨p, .failed (.exchange e)⟩

/-- Lets a process arrive at the rendezvous. The last one sets the clock on. -/
def meet (c : Ensemble) (rank : Nat) (p : Partition) (now : Nat) : Ensemble :=
  let (leads, rendezvous) := c.rendezvous.arrive
  { c.put rank ⟨p, .waiting now c.rendezvous.round⟩ with
    rendezvous := rendezvous
    clock := if leads then now + 1 else c.clock }

/-- Lets a process out of the rendezvous, into the second which the clock shows. -/
def release (c : Ensemble) (rank : Nat) (p : Partition) : Ensemble :=
  c.put rank ⟨p, if c.clock ≤ p.timing.stop then .working c.clock else .done⟩

/-- The ensemble after a turn, or `none` if the process can't take it. -/
def step (c : Ensemble) (turn : Turn) : Option Ensemble :=
  match c.processes[turn.rank]? with
  | none => none
  | some ⟨p, stage⟩ =>
    match stage with
    | .working now =>
      some (c.put turn.rank (.perform p (Partition.depart now) (.sending .transfers now)))
    | .sending lane now pending => c.post turn.rank p lane now pending turn.target
    | .receiving lane now [] received => some (c.put turn.rank (.proceed p now received lane))
    | .receiving lane now missing received => c.take turn.rank p lane now missing received
    | .arriving now => some (c.meet turn.rank p now)
    | .waiting _ round =>
      if c.rendezvous.mayPass round then some (c.release turn.rank p) else none
    | .done | .failed _ => none

/-- The ensemble after the turns of a schedule. -/
def play : List Turn → Ensemble → Option Ensemble
  | [], c => some c
  | turn :: rest, c => (c.step turn).bind (play rest)

/-- Whether every partition has ended its run. -/
def isDone (c : Ensemble) : Bool := c.processes.all fun p => p.stage = .done

/-- Whether no partition has failed. -/
def isSound (c : Ensemble) : Bool := c.processes.all fun p =>
  match p.stage with
  | .failed _ => false
  | _ => true

end Ensemble

end Mobility
