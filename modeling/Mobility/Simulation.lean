import Mobility.Partition.Run

/-!
# Running all partitions

All partitions of a scenario go through the same second together: first all of them work and send,
then all take in what they were sent. Within a step no partition depends on another one, so they are
run in order of their ranks. If several fail in the same step, the one with the lowest rank is
reported.
-/

set_option autoImplicit false

namespace Mobility

/-- The failure of a partition. -/
structure RankedFailure where
  rank : Nat
  failure : Failure
deriving DecidableEq

/-- What a failure is reported as. A fault ends its partition and isn't explained to the others. -/
def RankedFailure.message (f : RankedFailure) : String :=
  match f.failure with
  | .fault _ => s!"partition thread #{f.rank} panicked"
  | .exchange cause => cause.message

/-- All partitions of a scenario, and the lanes which connect them. -/
structure Simulation where
  partitions : List Partition
  lanes : Lanes
deriving DecidableEq

namespace Simulation

/-- Something which may end with the failure of a partition. -/
abbrev Outcome := Except RankedFailure

/-- The partitions of a scenario before their first second. -/
def make (s : Scenario) (timing : Timing) : Except SetupError Simulation := do
  let partitions ← (List.range s.numParts).mapM fun rank =>
    Partition.make s timing rank s.numParts (s.neighborsOf rank)
  return ⟨partitions, .make s.numParts⟩

/-- The result of an act of a partition. -/
def perform {α : Type} (p : Partition) (act : Act α) : Outcome (α × Partition) :=
  match act.run p with
  | .ok a p => .ok (a, p)
  | .error e _ => .error ⟨p.rank, e⟩

/-- All partitions do something and then send the buffers which result. -/
def sendAll (lane : Lane) (act : Act Buffers) (s : Simulation) : Outcome Simulation := do
  let sent ← s.partitions.mapM fun p => perform p act
  let lanes ← sent.foldlM (fun (lanes : Lanes) (buffers, p) =>
    match lanes.sendAll lane p.rank buffers with
    | .ok lanes => .ok lanes
    | .error e => .error ⟨p.rank, .exchange e⟩) s.lanes
  return ⟨sent.map (·.2), lanes⟩

/-- All partitions take what their neighbors sent and do something with it. -/
def receiveAll (lane : Lane) (act : Delivery → Act Unit) (s : Simulation) :
    Outcome Simulation := do
  let (lanes, partitions) ← s.partitions.foldlM (fun (lanes, done) p => do
      let (receipt, lanes) :=
        lanes.receive lane p.rank p.outbox.neighbors.keys fun _ _ => (.ok () : Except Empty Unit)
      let (_, p) ← perform p (act receipt.received)
      return (lanes, done ++ [p]))
    (s.lanes, [])
  return ⟨partitions, lanes⟩

/-- One second of all partitions. -/
def second (now : Nat) (s : Simulation) : Outcome Simulation := do
  let s ← sendAll .transfers (do Partition.work now; Partition.sendTransfers now) s
  let s ← receiveAll .transfers (Partition.receiveTransfers now) s
  let s ← sendAll .releases (Partition.sendReleases now) s
  receiveAll .releases (Partition.receiveReleases now) s

/-- `count` seconds from `now` on. -/
def seconds : Nat → Nat → Simulation → Outcome Simulation
  | 0, _, s => .ok s
  | count + 1, now, s => do seconds count (now + 1) (← second now s)

/-- All seconds of a horizon. -/
def run (timing : Timing) (s : Simulation) : Outcome Simulation :=
  seconds (timing.stop + 1 - timing.start) timing.start s

end Simulation

end Mobility
