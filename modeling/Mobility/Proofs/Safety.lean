import Mobility.Proofs.Reservations
import Mobility.Proofs.Safety.Seconds

/-!
# Documented failures

Three things which plans can ask for make a partition fail: leading to a partition which isn't a neighbor,
dispatching a step which only a vehicle executes, and waiting for a vehicle which one isn't going to leave.
In the run of a fresh scenario nothing else does (`Ensemble.documented_failures`). Whoever works, sends or
receives in the scene of a second is one of the partitions of that second, all of which can go on
(`Scenario.Sane`); and since both sides of a crossing count the same agents, partitions don't disagree.
-/

set_option autoImplicit false

namespace Mobility

open Act Second Mobility.Partition

theorem Clock.lt_base_of_lt_last {now : Nat} (h : now < Clock.last) : now < Wire.base :=
  h.trans_le (Nat.sub_le ..)

/-- There is no second after the last one, so its work fails. -/
theorem Partition.work_last {p : Partition} (soon : p.dueAgents.next = Clock.last) :
    (work Clock.last).run p = .error (.fault .pastLastSecond) p := by
  have visit : p.dueAgents.visit Clock.last = .error .pastLastSecond := by
    rw [Agenda.visit, if_pos soon, Clock.next, if_neg (Nat.lt_irrefl _)]
    rfl
  have attempts : (attempt (p.dueAgents.visit Clock.last)).run p = .error (.fault .pastLastSecond) p := by
    rw [visit]
    rfl
  simp only [work, serveAgents, EStateM.run_bind, EStateM.run_get, attempts]

theorem Partition.depart_last {p : Partition} (soon : p.dueAgents.next = Clock.last) :
    (depart Clock.last).run p = .error (.fault .pastLastSecond) p := by
  simp only [depart, EStateM.run_bind, work_last soon]

namespace Scenario.Sane

variable {s : Scenario} {timing : Timing} {count i j : Nat} {ps : List Partition} {lane : Lane} {b : Buffers}
  {data : List UInt8} {q : Partition}

/-- What a neighbor says is understood when it arrives. -/
theorem checks (h : s.Sane timing (timing.start + count) ps) (hs : s.Accepted) (fits : s.Fits)
    (inTime : timing.start + count < Wire.base) (sent : (s.scene timing count ps).sent lane i = some (b, q))
    (neighbor : j ∈ s.neighborsOf i) (word : (s.scene timing count ps).Says lane j i data) :
    q.checkArrival lane (timing.start + count) (j, data) = .ok () := by
  obtain ⟨b', q', sent', hdata⟩ := word
  cases lane with
  | transfers =>
    have sent : Second.departed (timing.start + count) ps i = some (b, q) := sent
    obtain ⟨-, -, -, -, -, -, setting⟩ := h.rest.departed hs h.company sent
    obtain ⟨t, decoded, time, -⟩ := h.expects hs fits sent sent' neighbor hdata
    rw [Nat.mod_eq_of_lt inTime] at time
    have read : Outbox.readTransfers i (timing.start + count) s.isVehicle [(j, data)] = .ok [t] :=
      Outbox.readTransfers_eq_ok.2 (.cons ⟨decoded, time⟩ .nil)
    unfold checkArrival
    dsimp only
    rw [(h.company.departed sent).rank, (knows_of_kept setting).1, read]
    rfl
  | releases =>
    have sent : Second.arrived (timing.start + count) ps i = some (b, q) := sent
    obtain ⟨r, decoded, time, -⟩ := h.reports hs fits (h.setting_arrived hs sent) neighbor sent' hdata
    rw [Nat.mod_eq_of_lt inTime] at time
    have read : Outbox.readReleases i (timing.start + count) [(j, data)] = .ok [r] :=
      Outbox.readReleases_eq_ok.2 (.cons ⟨decoded, time⟩ .nil)
    unfold checkArrival
    dsimp only
    rw [(h.company.arrived sent).rank, read]
    rfl

end Scenario.Sane

/-- How a partition can fail in a second: while it works and sends, while it takes in what its neighbors have
sent, or while it takes in what they report. -/
inductive Scene.Breaks (e : Scene) (f : Failure) : Prop where
  | departing {i : Nat} {p q : Partition} (state : e.start[i]? = some p) (inTime : e.now ≤ e.timing.stop)
      (fails : (depart e.now).run p = .error f q)
  | arriving {i : Nat} {b : Buffers} {w q : Partition} {d : Delivery} (sent : e.sent .transfers i = some (b, w))
      (senders : (d.map Prod.fst).Perm (e.partners i))
      (said : ∀ buffer ∈ d, e.Says .transfers buffer.1 i buffer.2) (fails : (arrive e.now d).run w = .error f q)
  | settling {i : Nat} {b : Buffers} {w q : Partition} {d : Delivery} (sent : e.sent .releases i = some (b, w))
      (senders : (d.map Prod.fst).Perm (e.partners i))
      (said : ∀ buffer ∈ d, e.Says .releases buffer.1 i buffer.2)
      (fails : (receiveReleases e.now d).run w = .error f q)

namespace Ensemble

variable {s : Scenario} {timing : Timing} {count : Nat} {ps : List Partition} {c c' : Ensemble} {turn : Turn}

/-- A step only fails because a partition can fail in the second. -/
theorem InScene.breaks_of_step (h : c.InScene (s.scene timing count ps) s.numParts)
    (sane : s.Sane timing (timing.start + count) ps) (hs : s.Accepted) (fits : s.Fits)
    (hstep : c.step turn = some c') {p : Partition} {f : Failure} (hf : ⟨p, .failed f⟩ ∈ c'.processes) :
    (s.scene timing count ps).Breaks f := by
  cases h.fails_of_step hstep hf with
  | departing state inTime fails => exact .departing state inTime fails
  | posting state listed outside =>
    -- Every target is a neighbor, so there is a lane for it.
    obtain ⟨addressed, -⟩ := Scene.addressed h.company state
    have partner : turn.target ∈ s.neighborsOf turn.rank := by
      rw [← show _ = s.neighborsOf turn.rank from addressed.keys]
      exact Table.mem_keys.2 ⟨_, listed⟩
    exact absurd (h.lanes ▸ (hs.network fits.parts).below partner) outside
  | taking state partner said refused =>
    have checked := sane.checks hs fits (InScene.now_lt_base state) state partner said
    cases refused.symm.trans checked
  | arriving state each said fails => exact .arriving state each said fails
  | settling _ state each said fails => exact .settling state each said fails

/-- A partition only fails in a second because of a plan, because partitions disagree, or because it is the last
second that there is. -/
theorem documented_of_breaks (sane : s.Sane timing (timing.start + count) ps) (hs : s.Accepted) (fits : s.Fits)
    (last : timing.stop < Wire.base) {f : Failure} (h : (s.scene timing count ps).Breaks f) :
    f.isDocumented = true ∨ f.isDiscord = true ∨ timing.stop = Clock.last ∧ f = .fault .pastLastSecond := by
  cases h with
  | @departing i p q state inTime fails =>
    have inTime : timing.start + count ≤ timing.stop := inTime
    have fails : (depart (timing.start + count)).run p = .error f q := fails
    by_cases early : timing.start + count < Clock.last
    · exact (sane.safe_depart hs early state f q fails).imp_right .inl
    · obtain ⟨same, now⟩ : timing.stop = Clock.last ∧ timing.start + count = Clock.last := by
        have : Wire.base = Clock.last + 1 := by decide
        omega
      rw [now, depart_last ((sane.soon i p state).trans now)] at fails
      cases fails
      exact .inr (.inr ⟨same, rfl⟩)
  | @arriving i b w q d sent senders said fails =>
    obtain ⟨transfers, read, hosts⟩ := sane.hosts hs fits (InScene.now_lt_base sent) sent senders said
    exact (hosts.safe_arrive read f q fails).imp_right .inl
  | @settling i b w q d sent senders said fails =>
    exact (sane.safe_settle hs fits (InScene.now_lt_base sent) sent senders said f q fails).imp_right .inl

variable {raw : Scenario} {method : Method}

/-- A run begins if it begins before it ends. -/
theorem exists_make (s : Scenario) (h : timing.start ≤ timing.stop) : ∃ c, make s timing = .ok c := by
  have made : (List.range s.numParts).mapM (fun rank =>
      Partition.make s timing rank s.numParts (s.neighborsOf rank)) = .ok (s.cast timing) := by
    refine mapM_eq_ok_iff.2 (List.forall₂_map_right_iff.2 (List.forall₂_same.2 fun rank _ => ?_))
    unfold Partition.make
    rw [if_neg (by simp), if_neg (Nat.not_lt.2 h)]
    rfl
  unfold make Simulation.make
  rw [made]
  exact ⟨_, rfl⟩

/-- Whatever fails in the run of a fresh scenario can fail in one of its seconds, and it isn't discord. -/
theorem breaks_of_play {c₀ : Ensemble} {schedule : List Turn} {p : Partition} {f : Failure}
    (hs : raw.partition method = .ok s) (fresh : s.Fresh) (measured : s.Measured) (fits : s.Fits)
    (last : timing.stop < Wire.base) (hm : make s timing = .ok c₀) (hp : play schedule c₀ = some c)
    (hf : ⟨p, .failed f⟩ ∈ c.processes) :
    ∃ count ps, run count timing.start (s.cast timing) = some ps ∧ timing.start + count ≤ Wire.base ∧
      (s.scene timing count ps).Breaks f ∧ f.isDiscord = false := by
  have accepted := Scenario.accepted_of_partition hs
  have net := accepted.network fits.parts
  obtain ⟨-, -, -, failures⟩ := Unfailed.play
    (P := fun d => (∃ count ps, Booked s timing count ps d) ∧
      ∃ count ps, run count timing.start (s.cast timing) = some ps ∧
        d.InScene (s.scene timing count ps) s.numParts) (Q := fun _ => True)
    (fun ⟨⟨_, _, booked⟩, count, ps, hrun, scene⟩ hstep sound _ => by
      refine ⟨booked.step accepted fits measured hstep sound fun stale => absurd fresh stale, ?_⟩
      rcases scene.step net hstep sound with scene | ⟨qs, hn, scene, -⟩
      · exact ⟨count, ps, hrun, scene⟩
      · exact ⟨count + 1, qs, by rw [run_succ, hrun]; exact hn, scene⟩)
    (.refl c₀) ⟨⟨0, _, Booked.make accepted hm⟩, 0, _, rfl, inScene_make accepted hm⟩ (isSound_of_make hm)
    (fun _ _ => trivial) (fun _ _ _ _ _ _ => trivial) hp
  rcases failures p f hf with first | ⟨b, turn, b', ⟨⟨_, _, booked⟩, count, ps, hrun, scene⟩, hstep, hf⟩
  · obtain ⟨q, heq⟩ := working_of_make hm first
    cases heq
  · have early : timing.start + count ≤ timing.stop + 1 := scene.now_le
    have early : timing.start + count ≤ Wire.base := early.trans last
    have sane := fresh.sane_run hs fits early hrun
    exact ⟨count, ps, hrun, early, scene.breaks_of_step sane accepted fits hstep hf,
      booked.agrees accepted measured hstep hf⟩

/-- However the turns go, in the run of a fresh scenario partitions only fail in the three ways which their
plans can bring about. -/
theorem documented_failures (hs : raw.partition method = .ok s) (fresh : s.Fresh) (fits : s.Fits)
    (capacities : ∀ spec ∈ s.links.toList, spec.capacity < Wire.base)
    (ordered : timing.start ≤ timing.stop) (last : timing.stop < Clock.last) :
    ∃ c₀, make s timing = .ok c₀ ∧ ∀ schedule c, play schedule c₀ = some c →
      ∀ p f, ⟨p, .failed f⟩ ∈ c.processes → f.isDocumented = true := by
  have accepted := Scenario.accepted_of_partition hs
  obtain ⟨c₀, hm⟩ := exists_make s ordered
  refine ⟨c₀, hm, fun schedule c hp p f hf => ?_⟩
  obtain ⟨count, ps, hrun, early, breaks, agrees⟩ :=
    breaks_of_play hs fresh ⟨fits.parts, fits.links, capacities⟩ fits (Clock.lt_base_of_lt_last last) hm hp hf
  have sane := fresh.sane_run hs fits early hrun
  rcases documented_of_breaks sane accepted fits (Clock.lt_base_of_lt_last last) breaks with
    documented | discord | ⟨same, -⟩
  · exact documented
  · rw [agrees] at discord
    cases discord
  · exact absurd same last.ne

end Ensemble

/-- The stops of the bus, and an agent which goes from one partition to the other and wants to board there
without having waited. -/
def Scenario.stray : Scenario :=
  { bus with
    agents := #[.fresh 0 ⟨#[Action.wordOnto 0, Action.wordOnto 1, Action.word (.access (.of 0 1 1))],
      by decide⟩ 0 (low16 0)] }

namespace Ensemble

/-- When the agent has come into the other partition, that one fails. -/
theorem documented_failures_stray : ∃ s c₀ c p f, Scenario.stray.partition .modulo = .ok s ∧
    make s ⟨0, 8, 0, 0⟩ = .ok c₀ ∧
    play ((List.replicate 2 Turn.inTurns).flatten ++ [⟨1, 0⟩]) c₀ = some c ∧
    ⟨p, .failed f⟩ ∈ c.processes ∧ f.isDocumented = true := by
  have runs : (trial .stray .modulo ⟨0, 8, 0, 0⟩ ((List.replicate 2 Turn.inTurns).flatten ++ [⟨1, 0⟩])).any
      (fun r => r.1.agents = Scenario.stray.agents ∧ r.1.numParts = 2 ∧ r.1.links.size = 2 ∧
        r.1.links.toList.all (fun spec => spec.capacity < Wire.base) ∧ r.2.isSound = false) = true := by
    decide +kernel
  obtain ⟨s, c₀, c, hs, hm, hp, hc⟩ := exists_of_trial runs
  simp only [decide_eq_true_eq] at hc
  obtain ⟨agents, parts, links, capacities, fails⟩ := hc
  have fits : s.Fits := ⟨by rw [parts]; decide, by rw [links]; decide, by rw [agents]; decide⟩
  have fresh : Scenario.stray.Fresh := Scenario.fresh_of_isFresh (by decide +kernel)
  have ordered : (⟨0, 8, 0, 0⟩ : Timing).start ≤ (⟨0, 8, 0, 0⟩ : Timing).stop := Nat.zero_le 8
  obtain ⟨c₁, hm₁, documented⟩ := documented_failures hs (fresh.of_agents agents) fits
    (fun spec hspec => of_decide_eq_true (List.all_eq_true.1 capacities spec hspec)) ordered (by decide)
  obtain rfl := Except.ok.inj (hm.symm.trans hm₁)
  obtain ⟨⟨p, stage⟩, hx, stopped⟩ := List.all_eq_false.1 fails
  cases stage with
  | failed f => exact ⟨s, c₀, c, p, f, hs, hm, hp, hx, documented _ c hp p f hx⟩
  | _ => exact absurd rfl stopped

end Ensemble

end Mobility
