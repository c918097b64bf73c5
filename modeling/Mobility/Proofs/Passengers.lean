import Mobility.Proofs.Passengers.Turns
import Mobility.Proofs.Safety

/-!
# Passengers get what they have waited for

In the run of a fresh scenario, rows of stops and of vehicles are in step with the plans of those who wait and
ride, in every partition, between any two things which it does (`Ensemble.passengers_coupled`). So only those
leave and board who want to, and there is always a step left for them to go on with.
-/

set_option autoImplicit false

namespace Mobility

open Act Second Mobility.Partition

/-! ## A second of one partition -/

namespace Scenario

variable {s : Scenario} {timing : Timing} {now i : Nat} {ps : List Partition} {b : Buffers} {p q w : Partition}
  {d : Delivery} {m : Moment} {rest : List Entrant}

theorem governs_coupled (s : Scenario) (timing : Timing) (now : Nat) (ps : List Partition) :
    s.Governs timing now True s.Coupled ps where
  closed := s.closed_coupled timing now
  indices _ _ _ _ _ := fun ⟨_, leaving, _, same⟩ => same ▸ leaving.index.isLt
  room _ _ _ _ _ _ _ _ _ _ _ _ _ _ _ := trivial
  welcoming _ _ _ _ _ _ _ _ := trivial

namespace Sane

variable (h : s.Sane timing now ps) (hs : s.Accepted) (obeys : Obeys s.Coupled ps)

include h hs obeys

theorem coupled_reaches (hp : ps[i]? = some p) (reaches : Reaches now p m q) : q.Coupled m.hand := by
  have setting : p.Setting s timing i := h.rest.setting i p hp
  have governs := s.governs_coupled timing now ps
  have sustains := Amid.sustains governs.closed hs setting (governs.room i p hp)
  exact (reaches.follows sustains (h.amid obeys hp)).coupled setting

theorem coupled_departed (hw : Second.departed now ps i = some (b, w)) : w.Coupled 0 := by
  obtain ⟨p, hp, departs⟩ := departed_eq_some.1 hw
  obtain ⟨r, outbox, reaches, rfl⟩ := reaches_of_depart departs
  exact (h.coupled_reaches hs obeys hp reaches).of_same rfl rfl fun _ here => here

variable (fits : s.Fits) (inTime : now < Wire.base)

include fits inTime

/-- Rows are in step while a partition takes in what its neighbors have sent. -/
theorem coupled_receives (hw : Second.departed now ps i = some (b, w)) (senders : (d.map Prod.fst).Perm (s.neighborsOf i))
    (said : ∀ buffer ∈ d, ∃ b' w', Second.departed now ps buffer.1 = some (b', w') ∧
      b'.get? i = some buffer.2) (receives : Receives now d w rest q) : q.Coupled 0 := by
  have governs := s.governs_coupled timing now ps
  obtain ⟨transfers, read, greets⟩ :=
    h.greets hs fits inTime (h.obeysWorked hs obeys governs) governs.toConducts hw senders said
  have received := receives.greets governs.closed (governs.welcoming i) read greets
  exact received.held.coupled received.setting received.known

theorem coupled_arrived (ha : Second.arrived now ps i = some (b, w)) : w.Coupled 0 := by
  obtain ⟨b₀, u, d, hu, hd, arrives⟩ := arrived_eq_some.1 ha
  rw [(h.company.departed hu).partners] at hd
  have senders : (d.map Prod.fst).Perm (s.neighborsOf i) := by rw [senders_mail hd]
  obtain ⟨r, outbox, receives, rfl⟩ := receives_of_arrive arrives
  exact (h.coupled_receives hs obeys fits inTime hu senders (mem_mail hd) receives).of_same rfl rfl fun _ here => here

theorem coupled_settled (hq : Second.settled now ps i = some q) : q.Coupled 0 := by
  obtain ⟨b, u, d, ha, -, settles⟩ := settled_eq_some.1 hq
  have links := receiveReleases_links settles
  refine (h.coupled_arrived hs obeys fits inTime ha).of_same (by rw [links]) (by rw [links]) fun v here => ?_
  exact (still_receiveReleases settles).roots ▸ here

end Sane

end Scenario

/-! ## Runs -/

/-- The process stands in this state, or comes to it in what it does next, and has these agents at hand. -/
inductive Process.Within (x : Process) : Multiset Nat → Partition → Prop where
  | stands (sound : ∀ f, x.stage ≠ .failed f) : Within x 0 x.partition
  | works {now : Nat} {m : Moment} {q : Partition} (stage : x.stage = .working now)
      (reaches : Reaches now x.partition m q) : Within x m.hand q
  | receives {now : Nat} {d : Delivery} {rest : List Entrant} {q : Partition}
      (stage : x.stage = .receiving .transfers now [] d) (receives : Receives now d x.partition rest q) : Within x 0 q

namespace Ensemble

variable {raw s : Scenario} {method : Method} {timing : Timing} {count i : Nat} {ps : List Partition}
  {hand : Multiset Nat} {q : Partition} {x : Process}

/-- Whoever is in a second in which everybody obeys has rows which are in step. -/
theorem InScene.coupled {c : Ensemble} (h : c.InScene (s.scene timing count ps) s.numParts)
    (sane : s.Sane timing (timing.start + count) ps) (hs : s.Accepted) (fits : s.Fits)
    (obeys : Scenario.Obeys s.Coupled ps) (hx : c.processes[i]? = some x) (within : x.Within hand q) :
    q.Coupled hand := by
  have start : ∀ p, ps[i]? = some p → p.Coupled 0 := fun p hp => sane.coupled_reaches hs obeys hp .begins
  have place := h.places i x hx
  cases within with
  | stands sound =>
    cases place with
    | late state | working state | done state => exact start _ state
    | @sending lane b pending p state =>
      cases lane with
      | transfers => exact sane.coupled_departed hs obeys state
      | releases => exact sane.coupled_arrived hs obeys fits (InScene.now_lt_base state) state
    | @receiving lane b p missing received state =>
      cases lane with
      | transfers => exact sane.coupled_departed hs obeys state
      | releases => exact sane.coupled_arrived hs obeys fits (InScene.now_lt_base state) state
    | arriving state | waiting state =>
      obtain ⟨b, u, d, ha, -⟩ := settled_eq_some.1 state
      have sent : (s.scene timing count ps).sent .releases i = some (b, u) := ha
      exact sane.coupled_settled hs obeys fits (InScene.now_lt_base sent) state
  | works stage reaches =>
    cases place with
    | working state =>
      cases stage
      exact sane.coupled_reaches hs obeys state reaches
    | _ => cases stage
  | receives stage receives =>
    cases place with
    | receiving state inTime each said =>
      cases stage
      rw [List.append_nil] at each
      exact sane.coupled_receives hs obeys fits (InScene.now_lt_base state) state each said receives
    | _ => cases stage

/-- However the turns go in the run of a fresh scenario and whoever fails, at any time between two things which a
partition does: whoever waits at a stop has just begun to wait for what its row is for, and whoever is in a
vehicle there leaves where its row is for. So in whatever is done next only those leave and board who want to, and
no partition fails because somebody's plan is at its end. -/
theorem passengers_coupled (hs : raw.partition method = .ok s) (fresh : s.Fresh) (fits : s.Fits)
    (ordered : timing.start ≤ timing.stop) (last : timing.stop < Wire.base) :
    ∃ c₀, make s timing = .ok c₀ ∧ ∀ schedule c, play schedule c₀ = some c → ∀ x ∈ c.processes,
      (∀ hand q, x.Within hand q → q.Coupled hand) ∧
      (∀ now, x.stage = .working now → ∀ m q m' r, Reaches now x.partition m q → Ends (m.perform now) q m' r →
        q.Conveys r) ∧
      ∀ f, x.stage = .failed f → ∀ id length, f ≠ .fault (.planConsumed id length) := by
  have accepted := Scenario.accepted_of_partition hs
  have obeys : ∀ {count ps}, timing.start + count ≤ Wire.base → run count timing.start (s.cast timing) = some ps →
      Scenario.Obeys s.Coupled ps := fun early hrun =>
    fresh.obeys_run (R := fun _ => s.Coupled) (C := fun _ => True) hs fits early (fun _ _ _ => trivial)
      (fun _ _ ps _ _ => s.governs_coupled timing _ ps) (fun _ _ _ _ obeys => obeys) hrun
  obtain ⟨c₀, hm⟩ := exists_make s ordered
  refine ⟨c₀, hm, fun schedule c hp x hx => ?_⟩
  obtain ⟨⟨d, count, ps, unfailed, hrun, scene⟩, failures⟩ := shadows hs fits.parts hm hp
  have early : timing.start + count ≤ Wire.base := scene.now_le.trans last
  have coupled : ∀ hand q, x.Within hand q → q.Coupled hand := by
    intro hand q within
    have sound : ∀ f, x.stage ≠ .failed f := by
      cases within with
      | stands sound => exact sound
      | works stage | receives stage =>
        rw [stage]
        intro f failed
        cases failed
    obtain ⟨i, hi⟩ := List.mem_iff_getElem?.1 hx
    exact scene.coupled (fresh.sane_run hs fits early hrun) accepted fits (obeys early hrun)
      (unfailed.others i x hi sound) within
  refine ⟨coupled, fun now stage m q m' r reaches performs => ?_, fun f failed id length => ?_⟩
  · exact conveys_performed (coupled _ _ (.works stage reaches)) (performed_of_ends performs)
  · rintro rfl
    obtain ⟨p, stage⟩ := x
    obtain rfl : stage = _ := failed
    obtain ⟨b, turn, b', count, ps, hrun, scene, hstep, hf⟩ := failures p _ hx
    have early : timing.start + count ≤ Wire.base := scene.now_le.trans last
    have sane := fresh.sane_run hs fits early hrun
    rcases documented_of_breaks sane accepted fits last (scene.breaks_of_step sane accepted fits hstep hf) with
      documented | discord | ⟨-, same⟩
    · cases documented
    · cases discord
    · cases same

/-- The bus has taken its passenger to the other partition, where the passenger is going to leave it. -/
theorem passengers_coupled_bus : ∃ s c₀ c x a, Scenario.bus.partition .modulo = .ok s ∧ make s ⟨0, 8, 0, 0⟩ = .ok c₀ ∧
    play (List.replicate 4 Turn.inTurns).flatten c₀ = some c ∧ x ∈ c.processes ∧ x.stage = .working 4 ∧
    0 ∈ x.partition.roots ∧ x.partition.rowOf 0 1 = [1] ∧ x.partition.agents[1]? = some a ∧ a.Rides 1 := by
  have runs : (trial .bus .modulo ⟨0, 8, 0, 0⟩ (List.replicate 4 Turn.inTurns).flatten).any
      (fun r => r.1.agents = Scenario.bus.agents ∧ r.1.numParts = 2 ∧ r.1.links.size = 2 ∧
        r.2.processes.any fun x => x.stage = .working 4 ∧ 0 ∈ x.partition.roots ∧
          x.partition.rowOf 0 1 = [1]) = true := by
    decide +kernel
  obtain ⟨s, c₀, c, hs, hm, hp, hc⟩ := exists_of_trial runs
  simp only [decide_eq_true_eq, List.any_eq_true] at hc
  obtain ⟨agents, parts, links, x, hx, stage, there, row⟩ := hc
  have fits : s.Fits := ⟨by rw [parts]; decide, by rw [links]; decide, by rw [agents]; decide⟩
  have ordered : (⟨0, 8, 0, 0⟩ : Timing).start ≤ (⟨0, 8, 0, 0⟩ : Timing).stop := Nat.zero_le 8
  obtain ⟨c₁, hm₁, coupled⟩ := passengers_coupled hs (Scenario.fresh_bus.of_agents agents) fits ordered (by decide)
  obtain rfl := Except.ok.inj (hm.symm.trans hm₁)
  have stands : x.Within 0 x.partition := .stands fun f failed => by cases stage.symm.trans failed
  obtain ⟨a, found, rides⟩ := ((coupled _ c hp x hx).1 0 _ stands).aboard 0 (Multiset.mem_add.2 (.inr there)) 1 1
    (row ▸ List.mem_singleton_self 1)
  exact ⟨s, c₀, c, x, a, hs, hm, hp, hx, stage, there, row, found, rides⟩

end Ensemble

end Mobility
