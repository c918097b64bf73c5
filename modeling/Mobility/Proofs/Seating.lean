import Mobility.Proofs.Listing
import Mobility.Proofs.Whereabouts.Rows

/-!
# Seats are first-in first-out lists

A vehicle has a list of passengers for every index where they leave. Whatever was done with its seats before, each
list is who was seated in it, by boarding or by a replacement of all passengers, without those at its front who have
left; as many seats are taken as passengers are carried, and never more than there are (`Agent.used_as_lists`). So the
seats can be told from their history alone, and letting passengers leave never fails.
-/

set_option autoImplicit false

namespace Mobility

variable {s t : Seats} {index passenger : Nat} {passengers : List (Nat × Nat)}

/-! ## What the operations do -/

namespace Seats

/-- The passengers who are listed under an index are those in its row. -/
theorem valuesAt_carried (s : Seats) (index : Nat) : valuesAt index s.carried = s.passengers.row index :=
  s.passengers.byNumber_rows.values index

/-- Whoever boards gets a seat exactly if there is a free one. -/
theorem access_eq_none : s.access index passenger = none ↔ s.capacity ≤ s.taken := by
  unfold access
  split
  · exact ⟨nofun, fun full => absurd ‹_› (Nat.not_lt.2 full)⟩
  · exact ⟨fun _ => Nat.not_lt.1 ‹_›, fun _ => rfl⟩

theorem row_access (h : s.access index passenger = some t) (j : Nat) :
    t.passengers.row j = s.passengers.row j ++ if j = index then [passenger] else [] := by
  obtain ⟨-, rfl⟩ := access_eq_some h
  exact Table.row_append ..

theorem taken_access (h : s.access index passenger = some t) : t.taken = s.taken + 1 := by
  obtain ⟨-, rfl⟩ := access_eq_some h
  rfl

end Seats

namespace Agent

variable {a b c : Agent} {seats : Seats} {leaving : List Nat}

/-- A state which was accepted counts its passengers. -/
theorem honest_of_check (h : a.check = .ok ()) : a.seats.Honest := by
  unfold check at h
  split at h
  · cases h
  split at h
  · cases h
  split at h
  · cases h
  · rename_i fits counted
    exact ⟨(Decidable.not_not.1 counted).trans a.seats.card_riders.symm, Nat.not_lt.1 fits⟩

/-! ## Histories -/

/-- What is done with the seats of an agent, with what was answered or was there before. -/
inductive Use where
  | admits (index passenger : Nat)
  | refuses (index passenger : Nat)
  | leaves (index : Nat) (leaving : List Nat)
  | replaces (before after : List (Nat × Nat))

namespace Use

def arrival : Use → List (Nat × Nat)
  | .admits index passenger => [(index, passenger)]
  | .refuses .. => []
  | .leaves .. => []
  | .replaces _ after => after

def departure : Use → List (Nat × Nat)
  | .admits .. => []
  | .refuses .. => []
  | .leaves index leaving => leaving.map fun passenger => (index, passenger)
  | .replaces before _ => before

end Use

/-- Who was seated, each with the index where they leave, in order. -/
def arrivals (uses : List Use) : List (Nat × Nat) := uses.flatMap Use.arrival

/-- Who has left, each with the index where they left, in order. A replacement makes everybody leave. -/
def departures (uses : List Use) : List (Nat × Nat) := uses.flatMap Use.departure

/-- An agent which was made or whose state was accepted, with everything that was done with its seats. -/
inductive Used : Agent → List Use → Agent → Prop
  | made (id : Nat) (plan : Plan) (capacity : Nat) (finishEvent : EventId) :
      Used (fresh id plan capacity finishEvent) [] (fresh id plan capacity finishEvent)
  | accepted {a : Agent} (check : a.check = .ok ()) : Used a [] a
  | admits {a b : Agent} {uses : List Use} {index passenger : Nat} {seats : Seats} (before : Used a uses b)
      (access : b.seats.access index passenger = some seats) :
      Used a (uses ++ [.admits index passenger]) { b with seats := seats }
  | refuses {a b : Agent} {uses : List Use} {index passenger : Nat} (before : Used a uses b)
      (access : b.seats.access index passenger = none) : Used a (uses ++ [.refuses index passenger]) b
  | leaves {a b : Agent} {uses : List Use} {index : Nat} {leaving : List Nat} {seats : Seats} (before : Used a uses b)
      (egress : b.seats.egress index = .ok (leaving, seats)) :
      Used a (uses ++ [.leaves index leaving]) { b with seats := seats }
  | replaces {a b c : Agent} {uses : List Use} {passengers : List (Nat × Nat)} (before : Used a uses b)
      (replace : b.replacePassengers passengers = .ok c) :
      Used a (uses ++ [.replaces b.seats.carried passengers]) c

variable {uses : List Use}

theorem arrivals_concat (uses : List Use) (use : Use) : arrivals (uses ++ [use]) = arrivals uses ++ use.arrival := by
  simp [arrivals]

theorem departures_concat (uses : List Use) (use : Use) :
    departures (uses ++ [use]) = departures uses ++ use.departure := by
  simp [departures]

/-- What the seats are after everything that was done. -/
structure Holding (a : Agent) (uses : List Use) (b : Agent) : Prop where
  others : b = { a with seats := b.seats }
  capacity : b.seats.capacity = a.seats.capacity
  honest : b.seats.Honest
  rows : ∀ index, valuesAt index (a.seats.carried ++ arrivals uses) =
    valuesAt index (departures uses) ++ b.seats.passengers.row index

namespace Holding

theorem begins (honest : a.seats.Honest) : Holding a [] a where
  others := rfl
  capacity := rfl
  honest := honest
  rows index := by
    rw [arrivals, departures, List.flatMap_nil, List.append_nil]
    exact a.seats.valuesAt_carried index

/-- What comes and goes in a use accounts for what it does to the rows. -/
theorem next {use : Use} (h : Holding a uses b) (capacity : seats.capacity = b.seats.capacity) (honest : seats.Honest)
    (rows : ∀ index, b.seats.passengers.row index ++ valuesAt index use.arrival =
      valuesAt index use.departure ++ seats.passengers.row index) :
    Holding a (uses ++ [use]) { b with seats := seats } where
  others := by rw [h.others]
  capacity := capacity.trans h.capacity
  honest := honest
  rows index := by
    have before := h.rows index
    rw [valuesAt_append] at before
    rw [arrivals_concat, departures_concat, valuesAt_append, valuesAt_append, valuesAt_append, ← List.append_assoc,
      before, List.append_assoc, rows, List.append_assoc]

theorem admits (h : Holding a uses b) (access : b.seats.access index passenger = some seats) :
    Holding a (uses ++ [.admits index passenger]) { b with seats := seats } := by
  refine h.next (Seats.capacity_access access) (Seats.honest_access h.honest access) fun j => ?_
  rw [Seats.row_access access, Use.arrival, Use.departure, valuesAt_singleton, valuesAt_nil, List.nil_append]
  simp only [eq_comm]

theorem refuses (h : Holding a uses b) : Holding a (uses ++ [.refuses index passenger]) b :=
  h.next rfl h.honest fun _ => List.append_nil _

theorem leaves (h : Holding a uses b) (egress : b.seats.egress index = .ok (leaving, seats)) :
    Holding a (uses ++ [.leaves index leaving]) { b with seats := seats } := by
  refine h.next (Seats.capacity_egress egress) (Seats.honest_egress h.honest egress) fun j => ?_
  obtain ⟨rfl, -, -⟩ := Seats.egress_eq_ok egress
  rw [Seats.row_egress egress, Use.arrival, Use.departure, valuesAt_nil, List.append_nil, valuesAt_row]
  by_cases own : j = index
  · rw [if_pos own.symm, if_pos own, List.append_nil, own, Table.row]
  · rw [if_neg (Ne.symm own), if_neg own, List.nil_append]

theorem replaces (h : Holding a uses b) (replace : b.replacePassengers passengers = .ok c) :
    Holding a (uses ++ [.replaces b.seats.carried passengers]) c := by
  obtain ⟨seats, replaced, rfl⟩ := replacePassengers_eq_ok replace
  refine h.next (Seats.capacity_replace replaced) (Seats.honest_replace replaced) fun j => ?_
  rw [Seats.row_replace replaced, ← Seats.valuesAt_carried]
  rfl

end Holding

theorem Used.holding (h : Used a uses b) : Holding a uses b := by
  induction h with
  | made id plan capacity finishEvent => exact .begins (Seats.honest_free capacity)
  | accepted check => exact .begins (honest_of_check check)
  | admits _ access ih => exact ih.admits access
  | refuses _ _ ih => exact ih.refuses
  | leaves _ egress ih => exact ih.leaves egress
  | replaces _ replace ih => exact ih.replaces replace

/-! ## All uses -/

theorem replacePassengers_eq_error (long : a.seats.capacity < passengers.length) :
    a.replacePassengers passengers = .error (.overbooked a.id passengers.length a.seats.capacity) := by
  unfold replacePassengers Seats.replace
  rw [if_neg (Nat.not_le.2 long)]

theorem ends_replacePassengers (fits : passengers.length ≤ a.seats.capacity) :
    ∃ b, a.replacePassengers passengers = .ok b ∧ b.seats.taken = passengers.length ∧
      ∀ j, b.seats.passengers.row j = valuesAt j passengers := by
  obtain ⟨seats, replaced⟩ : ∃ seats, a.seats.replace passengers = some seats := ⟨_, if_pos fits⟩
  refine ⟨{ a with seats := seats }, ?_, ?_, fun j => Seats.row_replace replaced j⟩
  · unfold replacePassengers
    rw [replaced]
  · obtain ⟨-, rfl⟩ := Seats.replace_eq_some replaced
    rfl

/-- Whatever was done with the seats of an agent before: nothing but the passengers has changed, as many seats are taken
as passengers are carried, and no more than there are. The passengers of each index are those who were carried under
it at the start or seated under it later, in this order, without those who have left from there, who were in front.
Whoever wants to board gets a seat behind the others of the index exactly if a seat is free. Those of an index leave
all together, in order and without fail, and all others stay. A list of new passengers is refused exactly if it is
longer than the capacity, and otherwise it takes the place of everybody, by index and in its order. -/
theorem used_as_lists (h : Used a uses b) :
    b = { a with seats := b.seats } ∧ b.seats.capacity = a.seats.capacity ∧
    b.seats.taken = b.seats.count ∧ b.seats.taken ≤ b.seats.capacity ∧
    (∀ index, valuesAt index (a.seats.carried ++ arrivals uses) =
      valuesAt index (departures uses) ++ b.seats.passengers.row index) ∧
    (∀ index passenger,
      ((∃ seats, b.seats.access index passenger = some seats) ↔ b.seats.taken < b.seats.capacity) ∧
      ∀ seats, b.seats.access index passenger = some seats → seats.taken = b.seats.taken + 1 ∧
        ∀ j, seats.passengers.row j = b.seats.passengers.row j ++ if j = index then [passenger] else []) ∧
    (∀ index, ∃ seats, b.seats.egress index = .ok (b.seats.passengers.row index, seats) ∧
      seats.taken + (b.seats.passengers.row index).length = b.seats.taken ∧
      ∀ j, seats.passengers.row j = if j = index then [] else b.seats.passengers.row j) ∧
    ∀ passengers : List (Nat × Nat),
      (b.seats.capacity < passengers.length →
        b.replacePassengers passengers = .error (.overbooked b.id passengers.length b.seats.capacity)) ∧
      (passengers.length ≤ b.seats.capacity → ∃ c, b.replacePassengers passengers = .ok c ∧
        c.seats.taken = passengers.length ∧ ∀ j, c.seats.passengers.row j = valuesAt j passengers) := by
  have holding := h.holding
  have honest := holding.honest
  refine ⟨holding.others, holding.capacity, honest.counted.trans b.seats.card_riders, honest.room, holding.rows,
    fun index passenger => ⟨?_, fun seats access => ⟨Seats.taken_access access, Seats.row_access access⟩⟩,
    fun index => ?_, fun passengers => ⟨replacePassengers_eq_error, ends_replacePassengers⟩⟩
  · rw [← Option.isSome_iff_exists, ← Option.ne_none_iff_isSome, Ne, Seats.access_eq_none, Nat.not_le]
  · obtain ⟨⟨leaving, seats⟩, egress⟩ := honest.egress index
    obtain ⟨rfl, few, after⟩ := Seats.egress_eq_ok egress
    refine ⟨seats, egress, ?_, Seats.row_egress egress⟩
    rw [after]
    exact Nat.sub_add_cancel few

/-- A bus with two seats which came with a passenger: it takes one more but not a third one, both get off where they
leave in the order in which they came, and then it is filled anew. -/
theorem used_as_lists_bus :
    let bus : Agent := { fresh 1 ⟨#[], by decide⟩ 2 (low16 0) with seats := ⟨2, 1, Table.empty.insert 3 [7]⟩ }
    ∃ b, Used bus [.admits 3 8, .refuses 1 9, .leaves 3 [7, 8], .replaces [] [(2, 5), (1, 6)]] b ∧
      b.seats.taken = 2 ∧ b.seats.passengers.row 1 = [6] ∧ b.seats.passengers.row 2 = [5] ∧
      b.seats.passengers.row 3 = [] ∧ (∀ passenger, ¬∃ seats, b.seats.access 3 passenger = some seats) := by
  intro bus
  have came : Used bus [] bus := .accepted rfl
  have full : Used bus [.admits 3 8] { bus with seats := ⟨2, 2, Table.empty.insert 3 [7, 8]⟩ } := came.admits rfl
  have empty : Used bus [.admits 3 8, .refuses 1 9, .leaves 3 [7, 8]] { bus with seats := ⟨2, 0, .empty⟩ } :=
    (Used.refuses full rfl : Used bus [.admits 3 8, .refuses 1 9] _).leaves rfl
  obtain ⟨b, filled, taken, -⟩ : ∃ b, { bus with seats := ⟨2, 0, .empty⟩ }.replacePassengers [(2, 5), (1, 6)] = .ok b ∧
    b.seats.taken = 2 ∧ _ := ends_replacePassengers (by decide)
  have used : Used bus [.admits 3 8, .refuses 1 9, .leaves 3 [7, 8], .replaces [] [(2, 5), (1, 6)]] b :=
    empty.replaces filled
  obtain ⟨-, capacity, -, -, rows, boards, -⟩ := used_as_lists used
  refine ⟨b, used, taken, (rows 1).symm, (rows 2).symm, ?_, fun passenger free => ?_⟩
  · have third : [7, 8] ++ [] = [7, 8] ++ b.seats.passengers.row 3 := rows 3
    exact (List.append_cancel_left third).symm
  · have room := (boards 3 passenger).1.1 free
    rw [taken, capacity] at room
    exact absurd room (by decide)

end Agent

end Mobility
