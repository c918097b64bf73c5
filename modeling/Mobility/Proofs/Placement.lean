import Mathlib.Data.List.Count
import Mobility.Proofs.Census.Places
import Mobility.Proofs.Scenario.Splitting

/-!
# Everybody's place at the start

When the partitions of a scenario are set up, every agent is due at the first second, in the partition where it
starts, and whoever a scenario lists as a passenger is aboard as well: neither the check of a scenario nor its
partitions compare what two agents say about each other. So everybody is in one place at the start if nobody is
listed as a passenger, and only then (`Scenario.places_start`). Who is listed needn't even be an agent.
-/

set_option autoImplicit false

namespace Mobility

/-- An item of a list without repetitions is found once. -/
theorem filter_eq_of_nodup {xs : List Nat} (unique : xs.Nodup) (x : Nat) :
    xs.filter (fun y => y = x) = if x ∈ xs then [x] else [] := by
  have found : (xs.filter fun y => y == x) = List.replicate (xs.count x) x := List.filter_beq x
  split
  · rename_i member
    rwa [List.count_eq_one_of_mem unique member] at found
  · rename_i absent
    rwa [List.count_eq_zero_of_not_mem absent] at found

theorem flatMap_ite {α β : Type} (xs : List α) (P : α → Prop) [DecidablePred P] (f : α → β) :
    (xs.flatMap fun x => if P x then [f x] else []) = (xs.filter fun x => P x).map f := by
  induction xs with
  | nil => rfl
  | cons x rest ih => by_cases h : P x <;> simp [List.flatMap_cons, h, ih]

namespace Agenda

variable {α : Type}

/-- Everything which is scheduled, with its second unless this is after the end of the horizon. -/
def scheduled (a : Agenda α) : List (Option Nat × α) :=
  (a.pending.map fun row => (some row.1, row.2)) ++ a.beyond.map fun v => (none, v)

@[simp] theorem scheduled_starting (start stop : Nat) (values : List α) :
    (starting start stop values).scheduled = values.map fun v => (some start, v) := by
  unfold starting
  split
  · rename_i nothing
    rw [List.isEmpty_iff.1 nothing]
    rfl
  · have pending : ({ (vacant start stop : Agenda α) with
        due := Table.empty.insert start values, size := values.length } : Agenda α).pending =
        (values.map fun v => (start, v)) ++ [] := rfl
    rw [scheduled, pending, List.append_nil, List.map_map]
    exact List.append_nil _

end Agenda

/-! ## Places -/

/-- Who has an agent aboard, as often as it is listed. -/
def carriers (agents : Array Agent) (id : Nat) : List Nat :=
  agents.toList.flatMap fun a => (a.seats.carried.filter fun seat => seat.2 = id).map fun _ => a.id

theorem carriers_eq_nil {agents : Array Agent} {id : Nat} :
    carriers agents id = [] ↔ ∀ a ∈ agents.toList, ∀ seat ∈ a.seats.carried, seat.2 ≠ id := by
  simp [carriers, List.flatMap_eq_nil_iff, List.filter_eq_nil_iff]

namespace Partition

/-- Where and when an agent is due in a partition. -/
def duties (p : Partition) (id : Nat) : List (Nat × Option Nat) :=
  (p.dueAgents.scheduled.filter fun row => row.2 = id).map fun row => (p.rank, row.1)

end Partition

/-- Either the agent is due once, at second `start`, and aboard nobody, or one agent has it aboard and it isn't due
itself. All partitions have the same passenger lists. -/
def HasPlace (start : Nat) (ps : List Partition) (id : Nat) : Prop :=
  ((∃ rank, ps.flatMap (·.duties id) = [(rank, some start)]) ∧ ∀ p ∈ ps, carriers p.agents id = []) ∨
    ps.flatMap (·.duties id) = [] ∧ ∃ vehicle, ∀ p ∈ ps, carriers p.agents id = [vehicle]

/-- Each of `size` agents is in one place, and whoever is aboard is one of them. -/
structure Placed (start size : Nat) (ps : List Partition) : Prop where
  places : ∀ id < size, HasPlace start ps id
  known : ∀ p ∈ ps, ∀ a ∈ p.agents.toList, ∀ seat ∈ a.seats.carried, seat.2 < size

/-! ## Setting up -/

namespace Partition

/-- A partition before its first second which exchanges messages with `partners`. -/
def opening (s : Scenario) (timing : Timing) (rank : Nat) (partners : List Nat) : Partition :=
  { initial s timing rank with outbox := .empty rank partners }

/-- A partition is set up if the scenario is split into as many partitions and there is a second to begin with. -/
theorem make_eq {s : Scenario} {timing : Timing} (ordered : timing.start ≤ timing.stop) (rank : Nat)
    (partners : List Nat) : make s timing rank s.numParts partners = .ok (opening s timing rank partners) := by
  unfold make
  rw [if_neg (fun apart => apart rfl), if_neg (Nat.not_lt.2 ordered)]
  rfl

/-- An agent is due at the first second in the partition where it starts, and nowhere else. -/
theorem duties_opening {s : Scenario} {timing : Timing} {rank id : Nat} {partners : List Nat} :
    (opening s timing rank partners).duties id =
      if s.homes[id]? = some rank then [(rank, some timing.start)] else [] := by
  have member : id ∈ s.agentsOf rank ↔ s.homes[id]? = some rank := by
    rw [Scenario.agentsOf, List.mem_filter, List.mem_range, decide_eq_true_eq]
    exact ⟨fun h => h.2, fun h => ⟨(Array.getElem?_eq_some_iff.1 h).1, h⟩⟩
  have once : (s.agentsOf rank).filter (fun x => x = id) = if id ∈ s.agentsOf rank then [id] else [] :=
    filter_eq_of_nodup (List.nodup_range.filter _) id
  show ((Agenda.starting timing.start timing.stop (s.agentsOf rank)).scheduled.filter _).map _ = _
  rw [Agenda.scheduled_starting, List.filter_map, List.map_map]
  show ((s.agentsOf rank).filter fun x => x = id).map (fun _ => (rank, some timing.start)) = _
  rw [once]
  simp only [member]
  split <;> rfl

end Partition

namespace Scenario

variable {s : Scenario} {timing : Timing}

theorem Admitted.accepted (h : s.Admitted) : s.Accepted := by
  obtain ⟨raw, method, split⟩ := h.split
  exact split.accepted

/-- The partitions of a scenario before the first second. -/
def opening (s : Scenario) (timing : Timing) (partners : Nat → List Nat) : List Partition :=
  (List.range s.numParts).map fun rank => .opening s timing rank (partners rank)

/-- All partitions can be set up. -/
theorem mapM_make (ordered : timing.start ≤ timing.stop) (partners : Nat → List Nat) :
    ((List.range s.numParts).mapM fun rank => Partition.make s timing rank s.numParts (partners rank)) =
      .ok (s.opening timing partners) := by
  simp only [Partition.make_eq ordered]
  exact List.mapM_pure ..

/-- Over all partitions, every agent is due once. -/
theorem duties_opening (h : s.Accepted) (partners : Nat → List Nat) {id : Nat} (hid : id < s.agents.size) :
    (s.opening timing partners).flatMap (·.duties id) = [(s.homeOf s.agents[id], some timing.start)] := by
  have home : ∀ rank, s.homes[id]? = some rank ↔ rank = s.homeOf s.agents[id] := fun rank => by
    rw [h.homes, Array.getElem?_map, Array.getElem?_eq_getElem hid, Option.map_some, Option.some.injEq]
    exact eq_comm
  simp only [opening, List.flatMap_map, Partition.duties_opening, home]
  rw [flatMap_ite, filter_eq_of_nodup List.nodup_range, if_pos (List.mem_range.2 (h.homeOf_lt _))]
  rfl

/-- Nobody else is due. -/
theorem duties_opening_of_le (h : s.Accepted) (partners : Nat → List Nat) {id : Nat} (hid : s.agents.size ≤ id) :
    (s.opening timing partners).flatMap (·.duties id) = [] := by
  have home : s.homes[id]? = none := by
    rw [h.homes, Array.getElem?_map, Array.getElem?_eq_none hid, Option.map_none]
  simp only [opening, List.flatMap_map, Partition.duties_opening, home]
  simp

/-- Everybody is in one place exactly if nobody is aboard. -/
theorem placed_opening (h : s.Accepted) (partners : Nat → List Nat) :
    Placed timing.start s.agents.size (s.opening timing partners) ↔
      ∀ a ∈ s.agents.toList, a.seats.carried = [] := by
  have member : Partition.opening s timing 0 (partners 0) ∈ s.opening timing partners :=
    List.mem_map.2 ⟨0, List.mem_range.2 h.positive, rfl⟩
  have lists : ∀ p ∈ s.opening timing partners, p.agents = s.agents := by
    intro p hp
    obtain ⟨rank, -, rfl⟩ := List.mem_map.1 hp
    rfl
  constructor
  · intro placed a ha
    refine List.eq_nil_iff_forall_not_mem.2 fun seat hseat => ?_
    have known : seat.2 < s.agents.size := placed.known _ member a ha seat hseat
    have due : (s.opening timing partners).flatMap (·.duties seat.2) = _ := duties_opening h partners known
    rcases placed.places seat.2 known with ⟨-, unlisted⟩ | ⟨idle, -⟩
    · exact carriers_eq_nil.1 (unlisted _ member) a ha seat hseat rfl
    · rw [due] at idle
      cases idle
  · intro nobody
    refine ⟨fun id hid => .inl ⟨⟨_, duties_opening h partners hid⟩, fun p hp => ?_⟩, fun p hp a ha seat hseat => ?_⟩
    · refine carriers_eq_nil.2 fun a ha seat hseat => ?_
      rw [nobody a (lists p hp ▸ ha)] at hseat
      cases hseat
    · rw [nobody a (lists p hp ▸ ha)] at hseat
      cases hseat

/-- Whatever scenario was made or read, its partitions can be set up if there is a second to begin with. Then every
agent is due exactly once, at the first second and in the partition where it starts, nobody else is due, nobody is
on a link, at a stop or to be sent, and everybody who is listed as a passenger is aboard in all partitions. So
everybody is in one place, and only agents are aboard, exactly if no agent of the scenario has anybody aboard. -/
theorem places_start (admitted : s.Admitted) (ordered : timing.start ≤ timing.stop) (partners : Nat → List Nat) :
    ∃ ps, ((List.range s.numParts).mapM fun rank =>
        Partition.make s timing rank s.numParts (partners rank)) = .ok ps ∧
      (∀ (id : Nat) (hid : id < s.agents.size), s.homeOf s.agents[id] < s.numParts ∧
        ps.flatMap (·.duties id) = [(s.homeOf s.agents[id], some timing.start)]) ∧
      (∀ id, s.agents.size ≤ id → ps.flatMap (·.duties id) = []) ∧
      (∀ p ∈ ps, p.agents = s.agents ∧ p.standing = 0 ∧ p.platforms = .empty ∧ p.outbox.transfers = .empty) ∧
      (Placed timing.start s.agents.size ps ↔ ∀ a ∈ s.agents.toList, a.seats.carried = []) := by
  have accepted := admitted.accepted
  refine ⟨s.opening timing partners, mapM_make ordered partners, fun id hid => ?_,
    fun id hid => duties_opening_of_le accepted partners hid, fun p hp => ?_, placed_opening accepted partners⟩
  · exact ⟨accepted.homeOf_lt _, duties_opening accepted partners hid⟩
  · obtain ⟨rank, -, rfl⟩ := List.mem_map.1 hp
    exact ⟨rfl, standing_initial s timing rank, rfl, rfl⟩

/-- Before the bus and the agent start, both are due at once, each at its own stop and aboard nobody. -/
theorem places_start_bus : ∃ s ps, build 2 .modulo bus.links bus.stops bus.agents = .ok s ∧
    ((List.range s.numParts).mapM fun rank =>
      Partition.make s ⟨5, 8, 0, 0⟩ rank s.numParts (s.neighborsOf rank)) = .ok ps ∧
    Placed 5 s.agents.size ps ∧ ps.flatMap (·.duties 1) = [(0, some 5)] := by
  have splits : ((build 2 .modulo bus.links bus.stops bus.agents).toOption.any fun s =>
      s.agents = bus.agents ∧ s.agents.toList.map s.homeOf = [0, 0]) = true := by decide +kernel
  obtain ⟨s, built, hc⟩ := (Option.any_eq_true _ _).1 splits
  obtain ⟨agents, homes⟩ := of_decide_eq_true hc
  have built := eq_ok_of_toOption built
  have ordered : (⟨5, 8, 0, 0⟩ : Timing).start ≤ (⟨5, 8, 0, 0⟩ : Timing).stop := by decide
  obtain ⟨ps, made, due, -, -, placed⟩ := places_start (.inl ⟨_, _, _, _, _, built⟩) ordered s.neighborsOf
  have second : 1 < s.agents.size := by
    rw [agents]
    decide
  have home : s.homeOf s.agents[1] = 0 := by
    have at1 := congrArg (·[1]?) homes
    simpa [second] using at1
  refine ⟨s, ps, built, made, placed.2 fun a ha => ?_, home ▸ (due 1 second).2⟩
  rw [agents] at ha
  exact (by decide +kernel : ∀ a ∈ bus.agents.toList, a.seats.carried = []) a ha

/-- A bus comes to its last stop. An agent is aboard who gets off there, and somebody of whom nothing else is known. -/
def riding : Scenario :=
  { bus with
    agents := #[
      { Agent.fresh 0 ⟨#[Action.word (.stopArrive (.of 3 1 1)), Action.word (.stopDelay (.of 3 1 1))], by decide⟩ 2
          (low16 0) with
        seats := ⟨2, 2, Seats.seat (Seats.seat .empty 1 1) 2 7⟩ },
      { Agent.fresh 1 ⟨#[Action.word (.wait (low16 3) (low16 0)), Action.word (.access (.of 3 0 0)),
          Action.word (.egress (.of 3 1 1))], by decide⟩ 0 (low16 0) with
        cursor := 2 }] }

/-- The agent aboard is due at once and fails, because it can't get off by itself. -/
theorem rider_due_riding : ∃ s p, build 1 .none riding.links riding.stops riding.agents = .ok s ∧
    s.numParts = 1 ∧ Partition.make s ⟨0, 10, 0, 0⟩ 0 1 (s.neighborsOf 0) = .ok p ∧
    p.duties 1 = [(0, some 0)] ∧ carriers p.agents 1 = [0] ∧ ¬ HasPlace 0 [p] 1 ∧
    (∃ a ∈ p.agents.toList, ∃ seat ∈ a.seats.carried, s.agents.size ≤ seat.2) ∧
    (Partition.work 0).outcome p = none := by
  have splits : ((build 1 .none riding.links riding.stops riding.agents).toOption.any fun s =>
      s.numParts = 1 ∧ (Partition.make s ⟨0, 10, 0, 0⟩ 0 1 (s.neighborsOf 0)).toOption.any fun p =>
        p.duties 1 = [(0, some 0)] ∧ carriers p.agents 1 = [0] ∧
          (∃ a ∈ p.agents.toList, ∃ seat ∈ a.seats.carried, s.agents.size ≤ seat.2) ∧
          (Partition.work 0).outcome p = none) = true := by decide +kernel
  obtain ⟨s, built, hp⟩ := (Option.any_eq_true _ _).1 splits
  obtain ⟨single, hp⟩ := of_decide_eq_true hp
  obtain ⟨p, made, hp⟩ := (Option.any_eq_true _ _).1 hp
  obtain ⟨due, aboard, unknown, fails⟩ := of_decide_eq_true hp
  refine ⟨s, p, eq_ok_of_toOption built, single, eq_ok_of_toOption made, due, aboard, ?_, unknown, fails⟩
  rintro (⟨-, unlisted⟩ | ⟨idle, -⟩)
  · rw [unlisted p List.mem_cons_self] at aboard
    cases aboard
  · rw [List.flatMap_cons, due] at idle
    cases idle

end Scenario

end Mobility
