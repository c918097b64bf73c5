import Mobility.Table
import Mobility.Fault

/-!
# Seats of a vehicle

A vehicle seats its passengers under the index of the stop where they leave. Under each index they
are kept in the order in which they were admitted. The number of taken seats is counted beside the
lists, because a snapshot stores both and may store a wrong count (`Mobility.Agent.check`).
-/

set_option autoImplicit false

namespace Mobility

/-- The seats of a vehicle. An agent without seats can't carry anybody. -/
structure Seats where
  capacity : Nat
  taken : Nat
  passengers : Table (List Nat)
deriving DecidableEq

namespace Seats

/-- Seats nobody sits on. -/
def free (capacity : Nat) : Seats := ⟨capacity, 0, .empty⟩

/-- The passengers as pairs of index and id, by index and then in order of admission. -/
def carried (s : Seats) : List (Nat × Nat) :=
  s.passengers.entries.flatMap fun row => row.2.map fun p => (row.1, p)

/-- The number of passengers. -/
def count (s : Seats) : Nat := s.passengers.values.flatten.length

/-- Puts `passenger` at the end of the list under `index`. -/
def seat (passengers : Table (List Nat)) (index passenger : Nat) : Table (List Nat) :=
  passengers.alter index fun list => some (list.getD [] ++ [passenger])

/-- Admits `passenger`, who leaves at stop index `index`, or refuses if no seat is free. -/
def access (s : Seats) (index passenger : Nat) : Option Seats :=
  if s.taken < s.capacity then
    some { s with taken := s.taken + 1, passengers := seat s.passengers index passenger }
  else none

/-- Lets all passengers leave who leave at stop index `index`. -/
def egress (s : Seats) (index : Nat) : Except Fault (List Nat × Seats) :=
  let leaving := (s.passengers.get? index).getD []
  if leaving.length ≤ s.taken then
    .ok (leaving,
      { s with taken := s.taken - leaving.length, passengers := s.passengers.erase index })
  else .error .seatUnderflow

/-- Makes the pairs of index and id the passengers, or refuses if they are more than the seats. -/
def replace (s : Seats) (passengers : List (Nat × Nat)) : Option Seats :=
  if passengers.length ≤ s.capacity then
    some { s with
      taken := passengers.length
      passengers := passengers.foldl (fun t p => seat t p.1 p.2) .empty }
  else none

end Seats

end Mobility
