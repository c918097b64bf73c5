import Mobility.Proofs.Passengers.Turns

/-!
# What a vehicle does at a stop

`Partition.CallsAt` says what there is after a vehicle has called at a stop: who has left it and who has boarded, in
which order, where everybody sits or waits then, and that nothing else has changed. An exchange of passengers does this
if nobody is in two places (`Partition.Exchanged.callsAt`), and the exchange of a vehicle which takes its turn in a
partition where everybody can go on ends well (`Partition.Ready.callsAt`).
-/

set_option autoImplicit false

namespace Mobility

open Act

/-- The seats which are free in a vehicle once those who leave at the stop have left. -/
def Agent.room (a : Agent) (stop : StopRef) : Nat :=
  a.seats.capacity - (a.seats.taken - (a.seats.passengers.row stop.index.val).length)

namespace Partition

variable {p q r : Partition} {v now x : Nat} {how : Consumption} {ids : List Nat} {a : Agent} {stop : StopRef}
  {hand : Multiset Nat} {rows later : List (Nat × Consumption)}

/-- Those who wait at the stop for the route and don't leave before: by the index where they leave, and then by
arrival. -/
def callers (p : Partition) (stop : StopRef) : List (Nat × Nat) :=
  Platforms.waiting (p.platforms.queuesOf stop.stop.val stop.route.val) stop.index.val

/-- The first of them, as many as there is room for. -/
def boarders (p : Partition) (a : Agent) (stop : StopRef) : List (Nat × Nat) := (p.callers stop).take (a.room stop)

/-- What is stamped when an agent consumes its instruction. -/
def stamped (p : Partition) (now : Nat) (how : Consumption) (x : Nat) : List Stamp :=
  match (p.agents[x]?).map Agent.current with
  | some (.ok (some i)) => if i.event.val = 0 then [] else [⟨now, how.stamp x i.event⟩]
  | _ => []

/-- Those who leave vehicle `v` and then those who board it, with the way in which they consume their instructions. -/
def party (v : Nat) (leaving : List Nat) (boarded : List (Nat × Nat)) : List (Nat × Consumption) :=
  leaving.map (·, .egress v) ++ boarded.map fun row => (row.2, .access v)

/-- Vehicle `v`, which is `a` in `p`, calls at a stop in second `now`, and leaves behind `q`. -/
structure CallsAt (v : Nat) (a : Agent) (stop : StopRef) (now : Nat) (p q : Partition) : Prop where
  /-- The vehicle has consumed its instruction, and as many seats are taken as there are passengers. -/
  vehicle : ∃ seats, q.agents[v]? = some { a with cursor := a.cursor + 1, seats := seats } ∧
    seats.capacity = a.seats.capacity ∧
    seats.taken + (p.rowOf v stop.index.val).length = a.seats.taken + (p.boarders a stop).length
  /-- All those who leave here have left, and those who have boarded sit behind the others who leave where they do. -/
  rows : ∀ index, q.rowOf v index = (if index = stop.index.val then [] else p.rowOf v index) ++
    ((p.boarders a stop).filter fun x => x.1 = index).map Prod.snd
  /-- The vehicle, those who leave it and those who board it are all different. -/
  once : (v :: (p.rowOf v stop.index.val ++ (p.boarders a stop).map Prod.snd)).Nodup
  passengers : ∀ x ∈ p.rowOf v stop.index.val ++ (p.boarders a stop).map Prod.snd,
    ∃ b, p.agents[x]? = some b ∧ q.agents[x]? = some { b with cursor := b.cursor + 1 }
  others : ∀ x, x ∉ v :: (p.rowOf v stop.index.val ++ (p.boarders a stop).map Prod.snd) →
    q.agents[x]? = p.agents[x]?
  /-- Those who have left act again in the next second, in the order in which they boarded. -/
  due : p.dueAgents.Gains (p.rowOf v stop.index.val) (now + 1) q.dueAgents
  number : (p.boarders a stop).length = min (a.room stop) (p.callers stop).length
  /-- Whoever leaves earlier boards earlier, -/
  ascending : (p.callers stop).Pairwise fun x y => x.1 ≤ y.1
  /-- and whoever has come earlier does among those who leave at the same index. -/
  arrival : ∀ index, ((p.callers stop).filter fun x => x.1 = index).map Prod.snd =
    if stop.index.val ≤ index then p.platforms.row stop.stop.val stop.route.val index else []
  /-- The others keep on waiting in their order. -/
  waiting : ∀ index, p.platforms.row stop.stop.val stop.route.val index =
    ((p.boarders a stop).filter fun x => x.1 = index).map Prod.snd ++
      q.platforms.row stop.stop.val stop.route.val index
  stops : ∀ other route, ¬ (other = stop.stop.val ∧ route = stop.route.val) →
    q.platforms.queuesOf other route = p.platforms.queuesOf other route
  size : q.platforms.size = p.platforms.size - (p.boarders a stop).length
  /-- The vehicle has acted first, then those who have left, and then those who have boarded. -/
  log : q.log.toList = p.log.toList ++ ((v, .advance) :: party v (p.rowOf v stop.index.val) (p.boarders a stop)).flatMap
    fun row => p.stamped now row.2 row.1
  rest : q = { p with
    agents := q.agents, dueAgents := q.dueAgents, platforms := q.platforms, log := q.log }

/-! ## One after the other -/

theorem stamped_congr (same : q.agents[x]? = p.agents[x]?) : q.stamped now how x = p.stamped now how x := by
  rw [stamped, stamped, same]

/-- These agents have consumed an instruction each, one after the other, in this way. Nothing has happened to others,
except for `v`. -/
structure Consumed (v now : Nat) (rows : List (Nat × Consumption)) (p q : Partition) : Prop where
  moved : ∀ x ∈ rows.map Prod.fst, ∃ b, p.agents[x]? = some b ∧ q.agents[x]? = some { b with cursor := b.cursor + 1 }
  others : ∀ x, x ≠ v → x ∉ rows.map Prod.fst → q.agents[x]? = p.agents[x]?
  log : q.log.toList = p.log.toList ++ rows.flatMap fun row => p.stamped now row.2 row.1

namespace Consumed

theorem aside (others : ∀ x, x ≠ v → q.agents[x]? = p.agents[x]?) (log : q.log = p.log) : Consumed v now [] p q :=
  ⟨nofun, fun x hx _ => others x hx, log ▸ (List.append_nil _).symm⟩

theorem of_consume (named : p.Named) (h : Ends (consume x how now) p () q) : Consumed v now [(x, how)] p q := by
  obtain ⟨b, i, found, current, rfl⟩ := consume_ends h
  refine ⟨fun y hy => ?_, fun y _ hy => ?_, ?_⟩
  · obtain rfl := List.mem_singleton.1 hy
    exact ⟨b, found, Array.getElem?_setIfInBounds_self_of_lt (Array.getElem?_eq_some_iff.1 found).1⟩
  · exact Array.getElem?_setIfInBounds_ne fun own => hy (List.mem_singleton.2 own.symm)
  · rw [List.flatMap_singleton, stamped, found, Option.map_some, current, named x b found]
    dsimp only
    split
    · exact (List.append_nil _).symm
    · exact Array.toList_push

/-- What some do makes no difference to others who act after them. -/
theorem append (h : Consumed v now rows p q) (k : Consumed v now later q r)
    (once : (v :: (rows ++ later).map Prod.fst).Nodup) : Consumed v now (rows ++ later) p r := by
  rw [List.map_append] at once
  obtain ⟨absent, once⟩ := List.nodup_cons.1 once
  obtain ⟨-, -, apart⟩ := List.nodup_append'.1 once
  have other : ∀ x ∈ rows.map Prod.fst ++ later.map Prod.fst, x ≠ v := fun x hx => ne_of_mem_of_not_mem hx absent
  -- Whoever acts later still has the plan and the cursor of the beginning.
  have unmoved : ∀ x ∈ later.map Prod.fst, q.agents[x]? = p.agents[x]? := fun x hx =>
    h.others x (other x (List.mem_append_right _ hx)) fun hy => List.disjoint_left.1 apart hy hx
  refine ⟨fun x hx => ?_, fun x hv hx => ?_, ?_⟩
  · rw [List.map_append] at hx
    have own := other x hx
    rcases List.mem_append.1 hx with first | second
    · rw [k.others x own (List.disjoint_left.1 apart first)]
      exact h.moved x first
    · rw [← unmoved x second]
      exact k.moved x second
  · rw [List.map_append] at hx
    obtain ⟨first, second⟩ := not_or.1 (mt List.mem_append.2 hx)
    exact (k.others x hv second).trans (h.others x hv first)
  · have stamps : (later.flatMap fun row => q.stamped now row.2 row.1) =
        later.flatMap fun row => p.stamped now row.2 row.1 :=
      List.flatMap_congr fun row hrow => stamped_congr (unmoved row.1 (List.mem_map_of_mem hrow))
    rw [k.log, h.log, stamps, List.flatMap_append, List.append_assoc]

end Consumed

/-- Agents who act in a loop have acted one after the other. -/
theorem consumed_along {α : Type} {R : α → Partition → Partition → Prop} {f : α → Nat × Consumption} {xs : List α}
    (hstep : ∀ y p q, R y p q → ∃ r, Ends (consume (f y).1 (f y).2 now) p () r ∧ q.agents = r.agents ∧ q.log = r.log)
    (named : p.Named) (once : (v :: (xs.map f).map Prod.fst).Nodup) (h : Along R xs p q) :
    Consumed v now (xs.map f) p q := by
  induction h with
  | nil => exact .aside (fun _ _ => rfl) rfl
  | @cons y rest p s q first _ ih =>
    obtain ⟨r, consumes, agents, log⟩ := hstep y p s first
    have acts : Consumed v now [f y] p s := by
      obtain ⟨moved, others, stamps⟩ := Consumed.of_consume named consumes
      exact ⟨by rwa [agents], by rwa [agents], by rwa [log]⟩
    have kept : Kept LinkView.Alike p r := kept_consume consumes
    have named' : s.Named := fun id b hb => named.of_kept kept id b (agents ▸ hb)
    have remaining : (v :: (rest.map f).map Prod.fst).Nodup :=
      once.sublist ((List.sublist_cons_self _ _).cons_cons v)
    exact acts.append (ih named' remaining) once

/-- Those who leave are due in the next second. -/
theorem gains_leaves (h : Along (LeftAt v now) ids p q) : p.dueAgents.Gains ids (now + 1) q.dueAgents := by
  induction h with
  | nil => exact .nothing ..
  | cons first _ ih =>
    obtain ⟨s, consumes, wakes⟩ := first
    obtain ⟨b, i, -, -, rfl⟩ := consume_ends consumes
    obtain ⟨due, added, rfl⟩ := wake_eq_ok.1 wakes
    exact (Agenda.gains_add added).append ih

/-- Only agents, stops, the log and what is due may have changed. -/
def Local (p q : Partition) : Prop :=
  q = { p with agents := q.agents, dueAgents := q.dueAgents, platforms := q.platforms, log := q.log }

instance : Std.Refl Local := ⟨fun _ => rfl⟩

instance : IsTrans Partition Local where
  trans p q r h k := by
    unfold Local at h k ⊢
    rw [h] at k
    exact k

theorem local_consume (h : Ends (consume x how now) p () q) : Local p q := by
  obtain ⟨b, i, -, -, rfl⟩ := consume_ends h
  rfl

theorem local_wake {time : Nat} (h : Ends (wake x time) p () q) : Local p q := by
  obtain ⟨due, -, rfl⟩ := wake_eq_ok.1 h
  rfl

theorem ids_party (v : Nat) (leaving : List Nat) (boarded : List (Nat × Nat)) :
    (party v leaving boarded).map Prod.fst = leaving ++ boarded.map Prod.snd := by
  rw [party, List.map_append, List.map_map, List.map_map]
  exact congrArg (· ++ _) (List.map_id _)

/-! ## The exchange -/

namespace Exchanged

variable (e : Exchanged v stop now p q)

include e

theorem vacated : Vacated v stop now p e.leaving { e.consumed with
    agents := e.consumed.agents.setIfInBounds v { e.before with seats := e.seatsLeft } } :=
  .intro e.consumes e.vehicle e.egress

theorem seating : Seating v stop now p e.boarded { e.left with
    agents := e.left.agents.setIfInBounds v { e.after with seats := e.seats }
    platforms := e.platforms } :=
  .intro e.vacated e.leaves e.vehicleLeft e.board

theorem isLocal : Local p q :=
  e.relates (fun _ _ _ _ consumes => local_consume consumes) (fun _ _ _ wakes => local_wake wakes)
    fun _ _ _ => rfl

theorem dueAgents_gain : p.dueAgents.Gains e.leaving (now + 1) q.dueAgents := by
  have boards : q.dueAgents = e.left.dueAgents :=
    e.boards.keeps (P := fun r => r.dueAgents = e.left.dueAgents) (fun _ _ _ _ consumes same => by
      obtain ⟨b, i, -, -, rfl⟩ := consume_ends consumes
      exact same) rfl
  have consumed : e.consumed.dueAgents = p.dueAgents := by
    obtain ⟨b, i, -, -, same⟩ := consume_ends e.consumes
    rw [same]
  have gains := gains_leaves e.leaves
  rw [boards, ← consumed]
  exact gains

section Vehicle

variable (found : p.agents[v]? = some a)

include found

/-- The seats which those who leave have left behind. -/
theorem seatsLeft_eq : e.seatsLeft.capacity = a.seats.capacity ∧
    e.seatsLeft.taken + e.leaving.length = a.seats.taken := by
  have seats : e.before.seats = a.seats := by rw [e.before_eq found]
  obtain ⟨-, few, left⟩ := Seats.egress_eq_ok e.egress
  rw [left, seats]
  rw [seats] at few
  exact ⟨rfl, Nat.sub_add_cancel few⟩

theorem boarded_eq : e.boarded = p.boarders a stop := by
  obtain ⟨capacity, taken⟩ := e.seatsLeft_eq found
  have room : a.room stop = e.seatsLeft.capacity - e.seatsLeft.taken := by
    have row : a.seats.passengers.row stop.index.val = e.leaving := by rw [e.leaving_eq, rowOf_eq found]
    rw [Agent.room, row, capacity, ← taken, Nat.add_sub_cancel]
  rw [e.admits.boarded.1, boarders, room]
  rfl

omit found in
/-- Those who leave have consumed an instruction each, and then those who board. -/
theorem consumed_passengers (named : p.Named) (once : (v :: (party v e.leaving e.boarded).map Prod.fst).Nodup) :
    Consumed v now (party v e.leaving e.boarded) e.consumed q := by
  have first := once.sublist (((List.sublist_append_left _ _).map Prod.fst).cons_cons v)
  have second := once.sublist (((List.sublist_append_right _ _).map Prod.fst).cons_cons v)
  -- The seats of the vehicle are written to before each loop, and that is nothing to its passengers.
  have vacated : Consumed v now [] e.consumed { e.consumed with
      agents := e.consumed.agents.setIfInBounds v { e.before with seats := e.seatsLeft } } :=
    .aside (fun x hx => Array.getElem?_setIfInBounds_ne (Ne.symm hx)) rfl
  have leaves := consumed_along (fun _ _ _ ⟨r, consumes, wakes⟩ => by
    obtain ⟨due, -, rfl⟩ := wake_eq_ok.1 wakes
    exact ⟨r, consumes, rfl, rfl⟩) (named.of_kept e.vacated.kept) first e.leaves
  have seated : Consumed v now [] e.left { e.left with
      agents := e.left.agents.setIfInBounds v { e.after with seats := e.seats }
      platforms := e.platforms } :=
    .aside (fun x hx => Array.getElem?_setIfInBounds_ne (Ne.symm hx)) rfl
  have boards := consumed_along (fun _ _ r consumes => ⟨r, consumes, rfl, rfl⟩) (named.of_kept e.seating.kept) second
    e.boards
  exact (vacated.append leaves first).append (seated.append boards second) once

omit found in
/-- So has the vehicle before them, and nothing has happened to others. -/
theorem acts (named : p.Named) (once : (v :: (e.leaving ++ e.boarded.map Prod.snd)).Nodup) :
    (∀ x ∈ e.leaving ++ e.boarded.map Prod.snd,
      ∃ b, p.agents[x]? = some b ∧ q.agents[x]? = some { b with cursor := b.cursor + 1 }) ∧
      (∀ x, x ∉ v :: (e.leaving ++ e.boarded.map Prod.snd) → q.agents[x]? = p.agents[x]?) ∧
      q.log.toList = p.log.toList ++
        ((v, .advance) :: party v e.leaving e.boarded).flatMap fun row => p.stamped now row.2 row.1 := by
  have absent := (List.nodup_cons.1 once).1
  rw [← ids_party v] at once absent ⊢
  obtain ⟨moved, others, log⟩ := e.consumed_passengers named once
  obtain ⟨-, -, first⟩ := Consumed.of_consume (v := v) named e.consumes
  refine ⟨fun x hx => ?_, fun x hx => ?_, ?_⟩
  · rw [← same_consume e.consumes (ne_of_mem_of_not_mem hx absent)]
    exact moved x hx
  · obtain ⟨own, stays⟩ := not_or.1 (mt List.mem_cons.2 hx)
    exact (others x own stays).trans (same_consume e.consumes own)
  · have stamps : ((party v e.leaving e.boarded).flatMap fun row => e.consumed.stamped now row.2 row.1) =
        (party v e.leaving e.boarded).flatMap fun row => p.stamped now row.2 row.1 :=
      List.flatMap_congr fun row hrow =>
        stamped_congr (same_consume e.consumes (ne_of_mem_of_not_mem (List.mem_map_of_mem hrow) absent))
    rw [log, first, stamps, List.flatMap_singleton, List.append_assoc]
    rfl

/-- A vehicle which exchanges passengers calls at the stop. -/
theorem callsAt (named : p.Named) (once : (v :: (e.leaving ++ e.boarded.map Prod.snd)).Nodup) :
    CallsAt v a stop now p q := by
  obtain ⟨passengers, others, log⟩ := e.acts named once
  obtain ⟨stays, rides⟩ := not_or.1 (mt List.mem_append.2 (List.nodup_cons.1 once).1)
  have vehicle := e.vehicle_after found stays rides
  obtain ⟨capacity, taken⟩ := e.seatsLeft_eq found
  have due := e.dueAgents_gain
  have counted := e.admits.boarded.2
  have room := e.admits.capacity.trans capacity
  have platforms : q.platforms = e.platforms :=
    e.boards.keeps (P := fun r => r.platforms = e.platforms)
      (fun _ _ _ _ consumes same => (still_consume consumes).platforms.trans same) rfl
  obtain ⟨-, queues⟩ := Seats.board_eq e.board
  have size := Platforms.size_board e.board
  rw [e.platforms_left, ← platforms] at queues size
  have stands := Platforms.queuesOf_board queues
  have rows := Platforms.row_eq_boarded e.admits.isPrefix
  have seated := fun index => (e.rowOf v index).trans (if_pos rfl)
  -- From here on, those who leave and those who board are those who are said to.
  rw [e.leaving_eq] at taken due
  simp only [e.leaving_eq, e.boarded_eq found] at vehicle passengers others log counted size stands rows seated once
  refine ⟨⟨e.seats, vehicle, room, by omega⟩, seated, once, passengers, others, due, List.length_take,
    Platforms.ascending_waiting _ _, Platforms.filter_waiting _ _, fun index => ?_, fun a b other => ?_, size, log,
    e.isLocal⟩
  · rw [Platforms.row, Platforms.row, stands, if_pos ⟨rfl, rfl⟩]
    exact rows index
  · rw [stands, if_neg other]

end Vehicle

end Exchanged

/-! ## Turns -/

/-- Agents who take part in an exchange are in different places. -/
theorem Ready.once_exchanged (h : Ready now hand p) (present : v ∈ hand + p.roots) (free : Free hand v p)
    (e : Exchanged v stop now p q) : (v :: (e.leaving ++ e.boarded.map Prod.snd)).Nodup := by
  obtain ⟨once, -, riders⟩ := aboard_of_nodup h.once
  obtain ⟨crew, apart⟩ := riders v present
  have aboard : ∀ x ∈ e.leaving, x ∈ p.crew v := fun x hx => Multiset.mem_of_le e.vacated.aboard hx
  have waited : ∀ x ∈ e.boarded.map Prod.snd, x ∈ p.platforms.everybody := fun x hx =>
    Multiset.mem_of_le e.seating.waited hx
  refine List.nodup_cons.2 ⟨fun own => ?_, List.nodup_append'.2 ⟨?_, ?_, List.disjoint_left.2 fun x hl hb => ?_⟩⟩
  · rcases List.mem_append.1 own with hl | hb
    · exact free.riders v present (aboard v hl)
    · exact free.waiting (waited v hb)
  · exact Multiset.coe_nodup.1 (Multiset.nodup_of_le e.vacated.aboard crew)
  · exact Multiset.coe_nodup.1 (Multiset.nodup_of_le e.seating.waited once)
  · exact (apart x (aboard x hl)).2.1 (waited x hb)

/-- A vehicle which takes its turn at a stop calls there, and acts again in the next second. -/
theorem Ready.callsAt {event : EventId} (h : Ready now hand p) (present : v ∈ hand + p.roots) (free : Free hand v p)
    (found : p.agents[v]? = some a) (current : a.current = .ok (some ⟨event, .stopDelay stop⟩)) :
    ∃ q, Ends (dispatch v now) p false q ∧ CallsAt v a stop now p q := by
  have exchange : Fails (fun _ => False) (exchangePassengers v stop now) p :=
    h.safe_exchange present free (remains_of_current found current)
  obtain ⟨⟨⟩, q, ends⟩ := ends_of_never exchange
  obtain ⟨e⟩ := exchangePassengers_ends ends
  refine ⟨q, ?_, e.callsAt found h.able.named (h.once_exchanged present free e)⟩
  refine bind_eq_ok.2 ⟨a, p, agent_eq_ok.2 ⟨found, rfl⟩, bind_eq_ok.2 ⟨_, p, attempt_eq_ok.2 ⟨current, rfl⟩, ?_⟩⟩
  exact bind_eq_ok.2 ⟨(), q, ends, pure_eq_ok.2 ⟨rfl, rfl⟩⟩

end Partition

/-- Agent `v` is the next one to act at the moment: it is due, or it is the first one on a link and may leave it. -/
inductive Moment.Turn (now : Nat) : Moment → Partition → Nat → Prop where
  | due {p : Partition} {v : Nat} {ids : List Nat} : Turn now (.acting (v :: ids)) p v
  | front {p : Partition} {link budget : Nat} {links : List Nat} {view : LinkView} {head : Entry}
      (there : p.links[link]? = some view) (first : view.front? = some head) (may : head.finish ≤ now) :
      Turn now (.serving link (budget + 1) links) p head.agent

/-- Whoever is the next one to act is here, and isn't anywhere else. -/
theorem Moment.Turn.free {p : Partition} {m : Moment} {v now : Nat} (turn : m.Turn now p v)
    (once : (p.census m.hand).Nodup) : v ∈ m.hand + p.roots ∧ Partition.Free m.hand v p := by
  cases turn with
  | @due _ _ ids =>
    refine ⟨Multiset.mem_add.2 (.inl (Multiset.mem_coe.2 List.mem_cons_self)), ?_⟩
    exact Partition.free_of_nodup once (Partition.here_of_hand p v ids)
  | front there first =>
    refine ⟨Multiset.mem_add.2 (.inr (Partition.front_mem_roots there first)), ?_⟩
    exact Partition.free_of_nodup once (Partition.here_of_front there first)

end Mobility
