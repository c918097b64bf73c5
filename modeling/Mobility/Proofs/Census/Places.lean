import Mobility.Proofs.Census.Seconds
import Mobility.Proofs.Ensemble.Schedules

/-!
# Every agent once

When all partitions have completed a second, every agent of the scenario is in exactly one place, once:
its end is stamped by one partition, or it is due in one, on a link of one or in front of it, at a stop
of one, or aboard a vehicle which is placed in one of the first ways (`Ensemble.every_agent_once`).
-/

set_option autoImplicit false

namespace Mobility

open Act Second

/-! ## Places -/

namespace Partition

/-- The passengers of an agent, as far as the partition knows. -/
def passengersOf (p : Partition) (id : Nat) : List Nat :=
  (p.agents[id]?).elim [] fun a => a.seats.carried.map Prod.snd

/-- The agents which are in a partition by themselves: whoever has finished there and whoever is
present. -/
def placed (p : Partition) : List Nat := p.log.finishers ++ p.present

/-- Everybody in a partition: who is there by itself, their passengers, and whoever waits at a stop. -/
def places (p : Partition) : List Nat :=
  p.placed ++ p.placed.flatMap p.passengersOf ++ p.platforms.toList.flatMap (·.2.2)

variable {p : Partition}

theorem coe_agents {v : LinkView} (h : v.outgoing = []) : (v.agents : Multiset Nat) = v.standing := by
  cases v with
  | owned | remote => rfl
  | gateway g => exact (Multiset.coe_add _ _).symm
  | proxy x => exact congrArg _ h.symm

/-- Whoever is counted is in a place, if nobody is to be sent. -/
theorem coe_places (idle : p.outbox.transfers = .empty)
    (unsent : ∀ v ∈ p.links.toList, v.outgoing = []) : (p.places : Multiset Nat) = p.census 0 := by
  have links : ((p.links.toList.flatMap LinkView.agents : List Nat) : Multiset Nat) = p.standing := by
    have rows : ∀ l : List LinkView, (∀ v ∈ l, v.outgoing = []) →
        ((l.flatMap LinkView.agents : List Nat) : Multiset Nat) = (l.map LinkView.standing).sum := by
      intro l hl
      induction l with
      | nil => rfl
      | cons v rest ih =>
        rw [List.flatMap_cons, ← Multiset.coe_add, ih fun w hw => hl w (List.mem_cons_of_mem _ hw),
          coe_agents (hl v List.mem_cons_self), List.map_cons, List.sum_cons]
    exact rows p.links.toList unsent
  have placed : (p.placed : Multiset Nat) = p.roots := by
    rw [Partition.placed, present, ← Multiset.coe_add, ← Multiset.coe_add, links, Agenda.coe_pending,
      roots, add_assoc]
  have passengers : ∀ id, (p.passengersOf id : Multiset Nat) = p.crew id := by
    intro id
    unfold passengersOf crew
    cases p.agents[id]? with
    | none => rfl
    | some a => exact a.seats.coe_carried
  have aboard : ((p.placed.flatMap p.passengersOf : List Nat) : Multiset Nat) = p.roots.bind p.crew := by
    rw [← placed, ← Multiset.coe_bind]
    exact Multiset.bind_congr fun id _ => passengers id
  have queued : p.outbox.queued = 0 := by
    rw [Outbox.queued, idle]
    rfl
  rw [places, ← Multiset.coe_add, ← Multiset.coe_add, placed, aboard, Platforms.coe_toList, census,
    zero_add, queued, add_zero, aboardOf]

end Partition

/-- Between two seconds whoever is counted in a partition is in one of its places. -/
theorem Scenario.Rested.coe_places {s : Scenario} {timing : Timing} {partners : Nat → List Nat}
    {ps : List Partition} {i : Nat} {p : Partition} (rest : s.Rested timing ps)
    (company : Company timing partners ps) (hp : ps[i]? = some p) :
    (p.places : Multiset Nat) = p.census 0 :=
  Partition.coe_places (company.idle i p hp).transfers (rest.outgoing hp)

/-! ## Completed seconds -/

/-- The process has completed second `t` and has not begun the next one. -/
def Stage.hasCompleted (t : Nat) : Stage → Bool
  | .waiting second _ => second = t
  | .working now => now = t + 1
  | .done => true
  | .sending .. | .receiving .. | .arriving _ | .failed _ => false

/-- All processes have completed second `t` and none has begun the next one. -/
def Ensemble.hasCompleted (t : Nat) (c : Ensemble) : Bool :=
  c.processes.all fun x => x.stage.hasCompleted t

namespace Ensemble

variable {c c₀ : Ensemble} {t : Nat}

theorem isSound_of_hasCompleted (h : c.hasCompleted t = true) : c.isSound = true := by
  refine List.all_eq_true.2 fun x hx => ?_
  have hc := List.all_eq_true.1 h x hx
  cases hs : x.stage with
  | failed f => rw [hs] at hc; cases hc
  | _ => rfl

/-- When all have completed a second, all partitions are as they start the next one, and the lanes are
empty. -/
theorem InScene.completed {e : Scene} {size : Nat} (h : c.InScene e size)
    (completed : c.hasCompleted t = true) :
    c.processes.map (·.partition) = e.start ∧ ∀ lane i, c.lanes.contents lane i = [] := by
  have each := List.all_eq_true.1 completed
  -- Somebody is not inside the rendezvous of this second, so it is the one before which is complete.
  have outside : ∃ x ∈ c.processes, x.stage.isWaiting e.now = false := by
    by_contra nobody
    have all : c.processes.countP (fun x => x.stage.isWaiting e.now) = c.processes.length :=
      List.countP_eq_length.2 fun x hx => by
        by_contra hw
        exact nobody ⟨x, hx, by simpa using hw⟩
    have := h.some_out
    rw [h.arrived, all, h.processes] at this
    exact absurd this (Nat.lt_irrefl _)
  have between : t + 1 = e.now ∨ e.now = e.timing.stop + 1 := by
    obtain ⟨x, hx, hw⟩ := outside
    obtain ⟨i, hi⟩ := List.mem_iff_getElem?.1 hx
    have hc := each x hx
    cases h.places i x hi with
    | @late _ second _ _ _ before _ _ =>
      have : second = t := by simpa [Stage.hasCompleted] using hc
      exact .inl (this ▸ before)
    | working =>
      have : e.now = t + 1 := by simpa [Stage.hasCompleted] using hc
      exact .inl this.symm
    | waiting => simp [Stage.isWaiting] at hw
    | done _ ended => exact .inr ended
    | _ => simp [Stage.hasCompleted] at hc
  have idle : ∀ (i : Nat) x, c.processes[i]? = some x →
      e.start[i]? = some x.partition ∧ ∀ lane target, ¬ x.stage.HasPosted e.now lane target := by
    intro i x hx
    have hc := each x (List.mem_of_getElem? hx)
    cases h.places i x hx with
    | @late _ second _ state _ before _ _ =>
      refine ⟨state, fun lane target hp => ?_⟩
      have : second = e.now := hp
      omega
    | working state => exact ⟨state, fun _ _ hp => hp⟩
    | done state => exact ⟨state, fun _ _ hp => hp⟩
    | waiting _ inTime =>
      have : e.now = t := by simpa [Stage.hasCompleted] using hc
      omega
    | _ => simp [Stage.hasCompleted] at hc
  refine ⟨List.ext_getElem? fun i => ?_, fun lane i => ?_⟩
  · rw [List.getElem?_map]
    cases hx : c.processes[i]? with
    | some x => exact (idle i x hx).1.symm
    | none =>
      have hi := List.getElem?_eq_none_iff.1 hx
      exact (List.getElem?_eq_none_iff.2 (by rw [h.cast, ← h.processes]; exact hi)).symm
  · refine List.eq_nil_iff_forall_not_mem.2 fun buffer hm => ?_
    obtain ⟨j, data⟩ := buffer
    obtain ⟨-, ⟨x, hx, hp⟩, -⟩ := (h.delivers.contents lane i j data).1 hm
    exact (idle j x hx).2 lane i hp

variable {raw s : Scenario} {method : Method} {timing : Timing} {schedule : List Turn}

/-- In a world of fresh agents, in which no vehicle waits for another one, however the turns went: when
all partitions have completed a second, the places of all partitions together list every agent of the
scenario, once. Nothing is on its way: no outbox, no proxy and no lane holds anything. -/
theorem every_agent_once (hs : raw.partition method = .ok s) (fresh : s.Fresh) (fits : s.Fits)
    (hm : make s timing = .ok c₀) (hp : play schedule c₀ = some c)
    (completed : c.hasCompleted t = true) :
    (c.processes.flatMap fun x => x.partition.places).Perm (List.range s.agents.size) ∧
      (∀ x ∈ c.processes, x.partition.outbox.transfers = .empty ∧
        x.partition.outbox.releases = .empty ∧ ∀ v ∈ x.partition.links.toList, v.outgoing = []) ∧
      ∀ lane i, c.lanes.contents lane i = [] := by
  have accepted := Scenario.accepted_of_partition hs
  obtain ⟨count, ps, hrun, scene⟩ := reaches hs fits.parts hm hp (isSound_of_hasCompleted completed)
  obtain ⟨start, lanes⟩ := scene.completed completed
  obtain ⟨counted, rest, company⟩ := fresh.run accepted fits hrun
  have start : c.processes.map (·.partition) = ps := start
  have found : ∀ p ∈ ps, ∃ i : Nat, ps[i]? = some p := fun p hp => List.mem_iff_getElem?.1 hp
  refine ⟨Multiset.coe_eq_coe.1 ?_, fun x hx => ?_, lanes⟩
  · have places : ps.map (fun p => (p.places : Multiset Nat)) = ps.map fun p => p.census 0 :=
      List.map_congr_left fun p hp => (found p hp).elim fun _ hi => rest.coe_places company hi
    rw [← List.flatMap_map (fun x : Process => x.partition) Partition.places, start, ← Multiset.coe_bind,
      Multiset.bind, Multiset.map_coe, places, Multiset.join, Multiset.sum_coe, counted.everybody]
    rfl
  · obtain ⟨i, hi⟩ := found _ (start ▸ List.mem_map_of_mem hx)
    obtain ⟨transfers, releases⟩ := company.idle i _ hi
    exact ⟨transfers, releases, rest.outgoing hi⟩

end Ensemble

/-! ## A bus -/

/-- A stop as one of the stops of a route. -/
def StopRef.of (route stop index : Nat) : StopRef := ⟨low16 route, low16 stop, low8 index⟩

namespace Scenario

/-- The ring with a stop on each link. A bus takes an agent from the first stop to the second one. -/
def bus : Scenario where
  numParts := 2
  links := ring.links
  stops := #[⟨0, 0⟩, ⟨1, 1⟩]
  agents := #[
    .fresh 0 ⟨#[Action.word (.stopArrive (.of 0 0 0)), Action.word (.stopDelay (.of 0 0 0)),
      Action.word (.stopDepart (.of 0 0 0)), Action.wordOnto 1, Action.word (.stopArrive (.of 0 1 1)),
      Action.word (.stopDelay (.of 0 1 1))], by decide⟩ 1 (low16 0),
    .fresh 1 ⟨#[Action.word (.wait (low16 0) (low16 0)), Action.word (.access (.of 0 0 0)),
      Action.word (.egress (.of 0 1 1))], by decide⟩ 0 (low16 0)]
  homes := #[]
  crossings := []
  neighbors := .empty

theorem Fresh.of_agents {s t : Scenario} (h : s.Fresh) (agents : t.agents = s.agents) : t.Fresh :=
  ⟨agents ▸ h.agents, agents ▸ h.vehicles⟩

/-- Whether all agents are at the start of their plans, and no vehicle waits. -/
def isFresh (s : Scenario) : Bool :=
  s.agents.toList.zipIdx.all fun row =>
    row.1 = .fresh row.2 row.1.plan row.1.seats.capacity row.1.finishEvent &&
      (!row.1.isVehicle || row.1.plan.decoded.all fun i => i.kind ≠ .wait)

theorem fresh_of_isFresh {s : Scenario} (h : s.isFresh = true) : s.Fresh := by
  have each : ∀ (id : Nat) a, s.agents[id]? = some a →
      a = .fresh id a.plan a.seats.capacity a.finishEvent ∧
        (a.isVehicle = false ∨ ∀ i ∈ a.plan.decoded, i.kind ≠ .wait) := by
    intro id a ha
    have hm : (a, id) ∈ s.agents.toList.zipIdx :=
      List.mem_zipIdx_iff_getElem?.2 (by rw [← ha, Array.getElem?_toList])
    simpa using List.all_eq_true.1 h (a, id) hm
  refine ⟨fun id a ha => (each id a ha).1, fun id a ha hv i hi route stop hw => ?_⟩
  rcases (each id a ha).2 with walks | never
  · rw [walks] at hv
    cases hv
  · exact never i hi (by rw [Instruction.kind, hw]; rfl)

theorem fresh_bus : bus.Fresh := fresh_of_isFresh (by decide +kernel)

end Scenario

namespace Ensemble

/-- When the bus has taken the agent along into the other partition. -/
theorem every_agent_once_bus : ∃ s c₀ c, Scenario.bus.partition .modulo = .ok s ∧
    make s ⟨0, 8, 0, 0⟩ = .ok c₀ ∧ play (List.replicate 4 Turn.inTurns).flatten c₀ = some c ∧
    (c.processes.flatMap fun x => x.partition.places).Perm [0, 1] := by
  have runs : (trial .bus .modulo ⟨0, 8, 0, 0⟩ (List.replicate 4 Turn.inTurns).flatten).any (fun r =>
      r.1.agents = Scenario.bus.agents ∧ r.1.numParts = 2 ∧ r.1.links.size = 2 ∧
        r.2.hasCompleted 3) = true := by decide +kernel
  obtain ⟨s, c₀, c, hs, hm, hp, hc⟩ := exists_of_trial runs
  simp only [decide_eq_true_eq] at hc
  obtain ⟨agents, parts, links, completed⟩ := hc
  have fits : s.Fits := ⟨by rw [parts]; decide, by rw [links]; decide, by rw [agents]; decide⟩
  obtain ⟨once, -, -⟩ := every_agent_once hs (Scenario.fresh_bus.of_agents agents) fits hm hp completed
  rw [agents] at once
  exact ⟨s, c₀, c, hs, hm, hp, once⟩

end Ensemble

end Mobility
