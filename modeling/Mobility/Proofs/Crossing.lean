import Mobility.Proofs.Census.Places
import Mobility.Proofs.RoundTrip
import Mobility.Proofs.Safety.Receiving
import Mobility.Proofs.Whereabouts.Acts

/-!
# A vehicle in another partition

What a partition knows of a vehicle and its passengers is written into a record, and another partition brings its
own copies up to date with it. The record lists the passengers one after the other, with the index where each of them
leaves, and the seats are built again from the list. Nothing is lost on the way (`Partition.vehicle_crosses`): the
vehicle has the cursor and the rows of passengers which it had before, passengers have their cursors, and apart from
these agents and the second at which the vehicle acts again the other partition stays as it was
(`Partition.Rebuilt`).
-/

set_option autoImplicit false

namespace Mobility

open Act Wire

/-- Passengers of the seats, seated again, sit as they sat. -/
theorem Seats.row_replace_carried {s t u : Seats} (h : t.replace s.carried = some u) (index : Nat) :
    u.passengers.row index = s.passengers.row index := by
  rw [Seats.row_replace h]
  exact s.passengers.filter_rows index

namespace Partition

variable {p q r : Partition} {v now part : Nat} {record : AgentRecord} {a : Agent}

/-! ## The record -/

/-- If a partition knows the passengers of an agent, it can write down what it knows of them all. -/
theorem ends_record (found : p.agents[v]? = some a) (known : ∀ x ∈ p.crew v, ∃ b, p.agents[x]? = some b) :
    ∃ record, Ends (Partition.record v) p record p ∧ record.id = v ∧ p.Records record := by
  obtain ⟨record, q, ends⟩ := ends_of_never (safe_record ⟨a, found⟩ known)
  obtain ⟨rfl, own, records⟩ := record_ends ends
  exact ⟨record, ends, own, records⟩

/-- The records of passengers are in the order in which the passengers are listed. -/
theorem seats_of_seated {rows : List (Nat × Nat)} {xs : List PassengerRecord} (h : List.Forall₂ p.Seated rows xs) :
    xs.map (fun x => (x.index, x.id)) = rows := by
  induction h with
  | nil => rfl
  | cons seated _ ih =>
    obtain ⟨index, id, -⟩ := seated
    rw [List.map_cons, ih, index, id]

/-! ## Two copies of a vehicle -/

/-- Vehicle `v` can go from `p` to `q`. It has distinct passengers, all of them known agents and none of them the
vehicle itself, and counts them right. Nobody is further on in `q` than in `p`. Numbers are as great as they can be
for an agent: a stop index has one byte, and ids and cursors have four. -/
structure Travels (p q : Partition) (v : Nat) (a : Agent) : Prop where
  found : p.agents[v]? = some a
  vehicle : a.isVehicle = true
  honest : a.seats.Honest
  once : (p.crew v).Nodup
  apart : v ∉ p.crew v
  known : ∀ x ∈ p.crew v, ∃ b, p.agents[x]? = some b
  behind : ∀ x, x = v ∨ x ∈ p.crew v → q.cursorOf x ≤ p.cursorOf x
  indices : ∀ index, p.rowOf v index ≠ [] → index < 0x100
  ids : p.agents.size < base
  cursors : ∀ x, p.cursorOf x < base

/-- Vehicle `v` has come from `p` to `q`, and `q` has become `r`. -/
structure Rebuilt (p q : Partition) (v now : Nat) (r : Partition) : Prop where
  /-- The vehicle is where it was in its plan, and its passengers sit where they sat. -/
  vehicle : ∃ a b seats, p.agents[v]? = some a ∧ q.agents[v]? = some b ∧
    r.agents[v]? = some { b with cursor := a.cursor, seats := seats } ∧ seats.capacity = b.seats.capacity ∧
    seats.taken = a.seats.taken ∧ ∀ index, r.rowOf v index = p.rowOf v index
  /-- Passengers are where they were in their plans. -/
  passengers : ∀ x ∈ p.crew v, ∃ b c, p.agents[x]? = some b ∧ q.agents[x]? = some c ∧
    r.agents[x]? = some { c with cursor := b.cursor }
  others : ∀ x, x ≠ v → x ∉ p.crew v → r.agents[x]? = q.agents[x]?
  due : q.dueAgents.Gains [v] (now + 1) r.dueAgents
  rest : r = { q with agents := r.agents, dueAgents := r.dueAgents }

section Copies

variable (same : ∀ id : Nat, q.agents[id]?.map Agent.blank = p.agents[id]?.map Agent.blank)

include same

theorem isVehicle_of_blank : q.isVehicle = p.isVehicle := by
  funext id
  have vehicles := congrArg (Option.map Agent.isVehicle) (same id)
  rw [Option.map_map, Option.map_map] at vehicles
  exact vehicles

end Copies

namespace Travels

variable (h : p.Travels q v a)

include h

theorem carried : ((a.seats.carried.map Prod.snd : List Nat) : Multiset Nat) = p.crew v := by
  rw [Seats.coe_carried, crew, h.found]
  rfl

/-- The record of the vehicle can be read by whoever knows the vehicles. -/
theorem fits (own : record.id = v) (records : p.Records record) : record.Fits p.isVehicle := by
  obtain ⟨a', found, cursor, -, seated⟩ := id records
  rw [own, h.found] at found
  cases found
  have small : ∀ {x : Nat} {b : Agent}, p.agents[x]? = some b → x < base := fun hb =>
    Nat.lt_trans (Array.getElem?_eq_some_iff.1 hb).1 h.ids
  refine ⟨own ▸ small h.found, ?_, records.known, fun xs listed => ?_, fun xs listed x hx => ?_⟩
  · rw [cursor, ← cursorOf_eq h.found]
    exact h.cursors v
  · have room : (p.crew v).card ≤ p.agents.size := by
      rw [← Multiset.card_range p.agents.size]
      refine Multiset.card_le_card ((Multiset.le_iff_subset h.once).2 fun x hx => ?_)
      obtain ⟨b, hb⟩ := h.known x hx
      exact Multiset.mem_range.2 (Array.getElem?_eq_some_iff.1 hb).1
    rw [← h.carried, Multiset.coe_card, List.length_map, (seated xs listed).length_eq] at room
    exact Nat.lt_of_le_of_lt room h.ids
  · obtain ⟨row, hrow, index, id, b, hb, at_⟩ := exists_of_forall₂ (seated xs listed) hx
    refine ⟨?_, id ▸ small hb, ?_⟩
    · have there : row.2 ∈ p.rowOf v row.1 := by
        rw [rowOf_eq h.found]
        exact Seats.mem_carried.1 hrow
      rw [index]
      exact h.indices row.1 (List.ne_nil_of_mem there)
    · rw [at_, ← cursorOf_eq hb]
      exact h.cursors row.2

/-- The record lists the passengers. -/
theorem listed (own : record.id = v) (records : p.Records record) :
    record.cursor = a.cursor ∧ ∃ xs, record.passengers = some xs ∧ List.Forall₂ p.Seated a.seats.carried xs := by
  obtain ⟨a', found, cursor, listed, seated⟩ := records
  rw [own, h.found] at found
  cases found
  rw [h.vehicle, Option.isSome_iff_exists] at listed
  obtain ⟨xs, listed⟩ := listed
  exact ⟨cursor, xs, listed, seated xs listed⟩

theorem coe_ids {xs : List PassengerRecord} (seated : List.Forall₂ p.Seated a.seats.carried xs) :
    ((xs.map (·.id) : List Nat) : Multiset Nat) = p.crew v := by
  rw [← h.carried, ← seats_of_seated seated, List.map_map]
  rfl

end Travels

/-! ## Taking in -/

/-- Passengers who are brought up to date have the cursors of their records, and nothing else has changed. -/
theorem updated_along {xs : List PassengerRecord} (once : (xs.map (·.id)).Nodup) (h : Along Updated xs p q) :
    (∀ x ∈ xs, ∃ c, p.agents[x.id]? = some c ∧ q.agents[x.id]? = some { c with cursor := x.cursor }) ∧
      (∀ y, y ∉ xs.map (·.id) → q.agents[y]? = p.agents[y]?) ∧ ∃ agents, q = { p with agents := agents } := by
  induction h with
  | nil => exact ⟨nofun, fun _ _ => rfl, _, rfl⟩
  | @cons x rest p r q first later ih =>
    obtain ⟨absent, once⟩ := List.nodup_cons.1 once
    obtain ⟨moved, still, agents, rfl⟩ := ih once
    obtain ⟨c, found, -, rfl⟩ := first
    have there := (Array.getElem?_eq_some_iff.1 found).1
    refine ⟨fun y hy => ?_, fun y hy => ?_, agents, rfl⟩
    · rcases List.mem_cons.1 hy with rfl | hy
      · refine ⟨c, found, (still _ absent).trans ?_⟩
        exact Array.getElem?_setIfInBounds_self_of_lt there
      · obtain ⟨d, before, after⟩ := moved y hy
        have other : x.id ≠ y.id := fun e => absent (List.mem_map.2 ⟨y, hy, e.symm⟩)
        exact ⟨d, (Array.getElem?_setIfInBounds_ne other).symm.trans before, after⟩
    · obtain ⟨other, later⟩ := not_or.1 (mt List.mem_cons.2 hy)
      exact (still y later).trans (Array.getElem?_setIfInBounds_ne (Ne.symm other))

/-- Whoever takes the vehicle in has it as it was. -/
theorem Travels.rebuilt (h : p.Travels q v a) (own : record.id = v) (records : p.Records record)
    (taken : TakenIn record none part now q r) : p.Rebuilt q v now r := by
  obtain ⟨boarded, before, boards, found, -, placed⟩ := taken
  obtain ⟨cursor, xs, listed, seated⟩ := h.listed own records
  subst own
  cases boards with
  | nobody unlisted => cases listed.symm.trans unlisted
  | @seated xs' s b seats listed' updated there replaced =>
    cases listed.symm.trans listed'
    have rows := seats_of_seated seated
    have crew : ∀ x, x ∈ p.crew record.id ↔ x ∈ xs.map (·.id) := fun x => by
      rw [← h.coe_ids seated, Multiset.mem_coe]
    rw [rows] at replaced
    obtain ⟨moved, still, agents, rfl⟩ :=
      updated_along (Multiset.coe_nodup.1 (h.coe_ids seated ▸ h.once)) updated
    obtain ⟨due, added, rfl⟩ := wake_eq_ok.1 placed
    have bound := (Array.getElem?_eq_some_iff.1 there).1
    have vehicle : q.agents[record.id]? = some b :=
      (still _ fun hx => h.apart ((crew _).2 hx)).symm.trans there
    have seats_eq : before = { b with seats := seats } := by
      have same := Array.getElem?_setIfInBounds_self_of_lt (a := { b with seats := seats }) bound
      exact Option.some.inj (found.symm.trans same)
    subst seats_eq
    have arrived := Array.getElem?_setIfInBounds_self_of_lt
      (a := { b with cursor := record.cursor, seats := seats }) (Array.getElem?_eq_some_iff.1 found).1
    -- Only the vehicle is written to after its passengers.
    have others : ∀ x, x ≠ record.id → ((agents.setIfInBounds record.id { b with seats := seats }).setIfInBounds
        record.id { b with cursor := record.cursor, seats := seats })[x]? = agents[x]? := fun x hx => by
      rw [Array.getElem?_setIfInBounds_ne (Ne.symm hx), Array.getElem?_setIfInBounds_ne (Ne.symm hx)]
    refine ⟨⟨a, b, seats, h.found, vehicle, cursor ▸ arrived, Seats.capacity_replace replaced, ?_, fun index => ?_⟩,
      fun x hx => ?_, fun x hx absent => ?_, Agenda.gains_add added, rfl⟩
    · obtain ⟨-, rfl⟩ := Seats.replace_eq_some replaced
      rw [h.honest.counted, ← Seats.coe_carried, Multiset.coe_card, List.length_map]
    · refine Eq.trans (rowOf_eq arrived) ?_
      rw [rowOf_eq h.found]
      exact Seats.row_replace_carried replaced index
    · obtain ⟨y, hy, rfl⟩ := List.mem_map.1 ((crew x).1 hx)
      obtain ⟨c, copy, after⟩ := moved y hy
      obtain ⟨row, -, -, id, d, found', same⟩ := exists_of_forall₂ seated hy
      have other : y.id ≠ record.id := fun e => h.apart (e ▸ hx)
      refine ⟨d, c, id ▸ found', copy, (others _ other).trans ?_⟩
      rw [after, same]
    · exact (others x hx).trans (still x fun listed => absent ((crew x).2 listed))

/-! ## What taking in needs -/

section Record

variable (h : p.Travels q v a) (own : record.id = v) (records : p.Records record)

include h own records

/-- The record is about different agents. -/
theorem Travels.cursors_nodup : (record.cursors.map Prod.fst).Nodup := by
  obtain ⟨-, xs, listed, seated⟩ := h.listed own records
  rw [AgentRecord.cursors, listed, Option.getD_some, List.map_cons, List.map_map]
  refine List.nodup_cons.2 ⟨fun hx => h.apart ?_, Multiset.coe_nodup.1 (h.coe_ids seated ▸ h.once)⟩
  rw [← h.coe_ids seated, ← own]
  exact Multiset.mem_coe.2 hx

variable (same : ∀ id : Nat, q.agents[id]?.map Agent.blank = p.agents[id]?.map Agent.blank)

include same

/-- The copies in the other partition are there, and not further on. -/
theorem Travels.copies_behind : q.Behind record.cursors := by
  obtain ⟨cursor, xs, listed, seated⟩ := h.listed own records
  have copy : ∀ {x : Nat} {b : Agent}, p.agents[x]? = some b → x = v ∨ x ∈ p.crew v →
      ∃ c, q.agents[x]? = some c ∧ c.cursor ≤ b.cursor := by
    intro x b found there
    obtain ⟨c, copied, -⟩ := copy_of_blank same found
    refine ⟨c, copied, ?_⟩
    rw [← cursorOf_eq found, ← cursorOf_eq copied]
    exact h.behind x there
  intro row hrow
  rw [AgentRecord.cursors, listed, Option.getD_some] at hrow
  rcases List.mem_cons.1 hrow with rfl | hrow
  · rw [own, cursor]
    exact copy h.found (.inl rfl)
  · obtain ⟨x, hx, rfl⟩ := List.mem_map.1 hrow
    obtain ⟨seat, -, -, id, b, found, at_⟩ := exists_of_forall₂ seated hx
    have there : x.id ∈ p.crew v := by
      rw [← h.coe_ids seated]
      exact Multiset.mem_coe.2 (List.mem_map_of_mem hx)
    rw [at_]
    exact copy (id ▸ found) (.inr there)

/-- The copy of the vehicle has seats for all passengers. -/
theorem Travels.copy_seats {ys : List PassengerRecord} (hys : record.passengers = some ys) :
    ∃ b, q.agents[record.id]? = some b ∧ ys.length ≤ b.seats.capacity := by
  obtain ⟨-, xs, listed, seated⟩ := h.listed own records
  cases listed.symm.trans hys
  obtain ⟨b, copied, blank⟩ := copy_of_blank same h.found
  have capacity : b.seats.capacity = a.seats.capacity :=
    (congrArg (·.seats.capacity) blank : b.blank.seats.capacity = a.blank.seats.capacity)
  refine ⟨b, own ▸ copied, ?_⟩
  have counted := h.honest.counted
  rw [← Seats.coe_carried, Multiset.coe_card, List.length_map, seated.length_eq] at counted
  rw [capacity, ← counted]
  exact h.honest.room

end Record

/-! ## The crossing -/

/-- Two partitions know the same agents, and a vehicle can go from one to the other, which has seen to the agents of
second `now`. What is written down about the vehicle and encoded is decoded as it was written, with what the other
partition knows of who is a vehicle. The one group which is read holds one agent, and this one can be taken in. Then
the vehicle and its passengers are as they were, and the vehicle acts in the next second. -/
theorem vehicle_crosses (same : ∀ id : Nat, q.agents[id]?.map Agent.blank = p.agents[id]?.map Agent.blank)
    (rank : p.rank < base) (second : now < Clock.last) (visited : q.dueAgents.next = now + 1)
    (h : p.Travels q v a) :
    ∃ record t arrived r, Ends (Partition.record v) p record p ∧
      Transfer.decode ((Transfer.empty now p.rank q.rank).addAgent none record).encode q.rank q.isVehicle = .ok t ∧
      t = (Transfer.empty now p.rank q.rank).addAgent none record ∧ t.records = [⟨none, [arrived]⟩] ∧
      Ends (receiveAgent arrived none t.sender t.time) q () r ∧ p.Rebuilt q v now r := by
  obtain ⟨record, written, own, records⟩ := ends_record h.found h.known
  have fits := h.fits own records
  rw [← isVehicle_of_blank same] at fits
  have never : Fails (fun _ => False) (receiveAgent record none p.rank now) q :=
    fails_receiveAgent (h.copies_behind own records same) (h.cursors_nodup own records)
      (fun _ listed => h.copy_seats own records same listed)
      fun s kept paced _ => safe_wake (paced.agents.trans visited).le
  obtain ⟨⟨⟩, r, received⟩ := ends_of_never never
  obtain ⟨taken⟩ := receiveAgent_ends received
  refine ⟨record, _, record, r, written, ?_, rfl, rfl, received, h.rebuilt own records taken⟩
  refine Transfer.decode_encode_self (t := (Transfer.empty now p.rank q.rank).addAgent none record)
    (Nat.lt_trans second (by decide)) rank (show 1 < base by decide) ?_ ?_ ?_
  all_goals
    intro g hg
    rw [List.mem_singleton.1 hg]
  · intro link none
    cases none
  · show 1 < base
    decide
  · intro x hx
    rw [List.mem_singleton.1 hx]
    exact fits

/-- After three seconds the bus stands in its first partition with the passenger whom it has let board, and the other
partition still knows both as they were at the start. -/
theorem vehicle_crosses_bus : ∃ p q record t arrived r, p.agents.toList.map (·.cursor) = [3, 2] ∧
    q.agents.toList.map (·.cursor) = [0, 0] ∧ p.rowOf 0 1 = [1] ∧ q.rowOf 0 1 = [] ∧
    Ends (Partition.record 0) p record p ∧
    Transfer.decode ((Transfer.empty 2 p.rank q.rank).addAgent none record).encode q.rank q.isVehicle = .ok t ∧
    t = (Transfer.empty 2 p.rank q.rank).addAgent none record ∧ t.records = [⟨none, [arrived]⟩] ∧
    Ends (receiveAgent arrived none t.sender t.time) q () r ∧ p.Rebuilt q 0 2 r := by
  have runs : (Ensemble.trial .bus .modulo ⟨0, 8, 0, 0⟩ (List.replicate 3 Turn.inTurns).flatten).any (fun run =>
      (run.2.processes[0]?).any fun x => (run.2.processes[1]?).any fun y =>
        x.partition.rank = 0 ∧ y.partition.dueAgents.next = 3 ∧
        y.partition.agents.map Agent.blank = x.partition.agents.map Agent.blank ∧
        x.partition.agents.toList.map (·.cursor) = [3, 2] ∧ y.partition.agents.toList.map (·.cursor) = [0, 0] ∧
        x.partition.rowOf 0 1 = [1] ∧ y.partition.rowOf 0 1 = [] ∧
        (x.partition.agents[0]?).any fun a => a.seats.capacity = 1 ∧ a.seats.taken = 1 ∧ a.seats.carried = [(1, 1)]) =
      true := by
    decide +kernel
  obtain ⟨run, -, hrun⟩ := (Option.any_eq_true _ _).1 runs
  obtain ⟨⟨p, stage⟩, -, hp⟩ := (Option.any_eq_true _ _).1 hrun
  obtain ⟨⟨q, other⟩, -, hq⟩ := (Option.any_eq_true _ _).1 hp
  obtain ⟨rank, visited, blanks, ahead, behind, row, vacant, bus⟩ := of_decide_eq_true hq
  obtain ⟨a, found, seats⟩ := (Option.any_eq_true _ _).1 bus
  obtain ⟨capacity, taken, carried⟩ := of_decide_eq_true seats
  have cursors : ∀ (r : Partition) (x : Nat), r.cursorOf x = (r.agents.toList.map (·.cursor))[x]?.getD 0 := by
    intro r x
    rw [cursorOf, List.getElem?_map, Array.getElem?_toList]
    cases r.agents[x]? <;> rfl
  have crew : p.crew 0 = ([1] : List Nat) := by
    have riders := a.seats.coe_carried
    rw [carried] at riders
    rw [Partition.crew, found]
    exact riders.symm
  have two : p.agents.size = 2 := by
    have length := congrArg List.length ahead
    rwa [List.length_map, Array.length_toList] at length
  have travels : p.Travels q 0 a := by
    refine ⟨found, ?_, ⟨?_, ?_⟩, ?_, ?_, fun x hx => ?_, fun x _ => ?_, fun index filled => ?_, ?_, fun x => ?_⟩
    · rw [Agent.isVehicle, capacity]
      rfl
    · rw [taken, ← Seats.coe_carried, carried]
      rfl
    · rw [taken, capacity]
    · rw [crew]
      exact Multiset.coe_nodup.2 (List.nodup_singleton 1)
    · rw [crew]
      decide
    · rw [crew, Multiset.mem_coe, List.mem_singleton] at hx
      rw [hx]
      exact ⟨_, Array.getElem?_eq_getElem (by rw [two]; decide)⟩
    · rw [cursors q, behind]
      rcases x with _ | _ | x <;> exact Nat.zero_le _
    · obtain ⟨x, hx⟩ := List.exists_mem_of_ne_nil _ filled
      rw [rowOf_eq found] at hx
      have listed := Seats.mem_carried.2 hx
      rw [carried, List.mem_singleton, Prod.mk.injEq] at listed
      rw [listed.1]
      decide
    · rw [two]
      decide
    · rw [cursors p, ahead]
      rcases x with _ | _ | x <;> exact of_decide_eq_true rfl
  have same : ∀ id : Nat, q.agents[id]?.map Agent.blank = p.agents[id]?.map Agent.blank := by
    intro id
    rw [← Array.getElem?_map, ← Array.getElem?_map, blanks]
  have small : p.rank < base := by
    rw [rank]
    decide
  obtain ⟨record, t, arrived, r, crosses⟩ := vehicle_crosses same small (by decide : 2 < Clock.last) visited travels
  exact ⟨p, q, record, t, arrived, r, ahead, behind, row, vacant, crosses⟩

end Partition

end Mobility
