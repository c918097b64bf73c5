import Mobility.Clock

/-!
# Rendezvous

A rendezvous lets a fixed number of parties wait for each other, again and again. The last party to
arrive leads the round: it does what there is to do before anybody goes on. A party which has to
wait remembers the round in which it arrived, and goes on as soon as another round has begun.
-/

set_option autoImplicit false

namespace Mobility

/-- The state of a rendezvous: who is expected, who has come in this round, and which round it is.
-/
structure Rendezvous where
  parties : Nat
  arrived : Nat
  round : Nat
deriving DecidableEq

namespace Rendezvous

/-- A rendezvous of `parties` parties before anybody has come. -/
def make (parties : Nat) : Except Fault Rendezvous :=
  if 0 < parties then .ok ⟨parties, 0, 0⟩ else .error .noParties

/-- A party arrives. The last one to do so leads, which begins the next round. -/
def arrive (r : Rendezvous) : Bool × Rendezvous :=
  if r.arrived + 1 = r.parties then
    (true, { r with arrived := 0, round := (r.round + 1) % 0x10000000000000000 })
  else (false, { r with arrived := r.arrived + 1 })

/-- Whether a party which arrived in round `round` may go on. -/
def mayPass (r : Rendezvous) (round : Nat) : Bool := r.round ≠ round

/-- `n` parties arrive one after the other. Each leader applies `act` to the shared value. Returns
the number of leaders. -/
def arriveAll {α : Type} (act : α → α) : Nat → Rendezvous × α → Nat × (Rendezvous × α)
  | 0, s => (0, s)
  | n + 1, (r, shared) =>
    match r.arrive with
    | (true, r) =>
      let (leaders, s) := arriveAll act n (r, act shared)
      (leaders + 1, s)
    | (false, r) => arriveAll act n (r, shared)

end Rendezvous

end Mobility
