import Mobility.Lanes
import Mobility.Partition.Exchange
import Mobility.Partition.Report

/-!
# Running one partition

A partition runs second by second from the start to the end of its horizon. How its messages travel
is left to a `Transport`: a function from what is sent to what is delivered, with a state of its
own.
-/

set_option autoImplicit false

namespace Mobility

/-- How messages travel. `deliver lane buffers awaited now` sends the buffers and returns what
arrives until every awaited partition has been heard of. -/
structure Transport (σ : Type) where
  deliver : Lane → Buffers → List Nat → Nat → StateM σ Delivery

/-- The transport of a partition without anybody to talk to. -/
def Transport.silent {σ : Type} : Transport σ := ⟨fun _ _ _ _ => return []⟩

namespace Partition

variable {σ : Type}

/-- An act of a partition whose messages travel. -/
abbrev Travel (σ : Type) := EStateM Failure (Partition × σ)

/-- An act which sends nothing. -/
def alone {α : Type} (act : Act α) : Travel σ α := fun (p, s) =>
  match act p with
  | .ok a p => .ok a (p, s)
  | .error e p => .error e (p, s)

/-- Sends buffers and returns what arrives. -/
def deliver (transport : Transport σ) (lane : Lane) (buffers : Buffers) (now : Nat) :
    Travel σ Delivery := fun (p, s) =>
  let (delivery, s) := transport.deliver lane buffers p.outbox.neighbors.keys now s
  .ok delivery (p, s)

/-- One second of a partition. -/
def second (transport : Transport σ) (now : Nat) : Travel σ Unit := do
  alone (work now)
  let transfers ← deliver transport .transfers (← alone (sendTransfers now)) now
  alone (receiveTransfers now transfers)
  let releases ← deliver transport .releases (← alone (sendReleases now)) now
  alone (receiveReleases now releases)

/-- `count` seconds from `now` on. -/
def seconds (transport : Transport σ) : Nat → Nat → Travel σ Unit
  | 0, _ => return ()
  | count + 1, now => do
    second transport now
    seconds transport count (now + 1)

/-- All seconds of the horizon. -/
def run (transport : Transport σ) : Travel σ Summary := do
  let timing := (← get).1.timing
  seconds transport (timing.stop + 1 - timing.start) timing.start
  return (← get).1.summary

end Partition

end Mobility
