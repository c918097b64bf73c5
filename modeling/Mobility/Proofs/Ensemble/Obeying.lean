import Mobility.Proofs.Passengers.Turns
import Mobility.Proofs.Safety

/-!
# Rules in runs

A rule which agents obey at home, before the first second, and which no move breaks is obeyed in whatever a process does
next in the run of a fresh scenario: in the work of a second (`Ensemble.amid_of_play`) and while it takes in what its
neighbors have sent (`Ensemble.greets_of_play`), however the turns go and whoever fails.
-/

set_option autoImplicit false

namespace Mobility

open Act Second Mobility.Partition

namespace Ensemble

variable {raw s : Scenario} {method : Method} {timing : Timing} {rule : Rule} {schedule : List Turn} {c₀ c : Ensemble}
  {x : Process} {now : Nat} {m : Moment} {p q : Partition} {d : Delivery} {entrants : List Entrant}

section Run

variable (hs : raw.partition method = .ok s) (fresh : s.Fresh) (fits : s.Fits) (last : timing.stop < Wire.base)
  (hm : make s timing = .ok c₀) (hp : play schedule c₀ = some c)

include hs fresh fits last hm hp

/-- Nobody fails in the run of a fresh scenario but because of a plan, because partitions disagree, or because it is
the last second that there is. -/
theorem failure_of_play {f : Failure} (hf : ⟨p, .failed f⟩ ∈ c.processes) :
    f.isDocumented = true ∨ f.isDiscord = true ∨ timing.stop = Clock.last ∧ f = .fault .pastLastSecond := by
  have accepted := Scenario.accepted_of_partition hs
  obtain ⟨-, failures⟩ := shadows hs fits.parts hm hp
  obtain ⟨b, turn, b', count, ps, hrun, scene, hstep, hf⟩ := failures p f hf
  have early : timing.start + count ≤ Wire.base := scene.now_le.trans last
  have sane := fresh.sane_run hs fits early hrun
  exact documented_of_breaks sane accepted fits last (scene.breaks_of_step sane accepted fits hstep hf)

variable (hx : x ∈ c.processes)
  (home : ∀ (id : Nat) a, s.agents[id]? = some a → rule id ⟨s.homeOf a, .due timing.start, 0⟩)
  (governs : ∀ now ps, s.Governs timing now True rule ps)

include hx home governs

/-- A process which hasn't failed is in a second in which everybody obeys the rule. -/
theorem scene_of_play (sound : ∀ f, x.stage ≠ .failed f) : ∃ (d : Ensemble) (count : Nat) (ps : List Partition)
    (i : Nat), d.processes[i]? = some x ∧ d.InScene (s.scene timing count ps) s.numParts ∧
    s.Sane timing (timing.start + count) ps ∧ Scenario.Obeys rule ps := by
  obtain ⟨⟨d, count, ps, unfailed, hrun, scene⟩, -⟩ := shadows hs fits.parts hm hp
  obtain ⟨i, hi⟩ := List.mem_iff_getElem?.1 hx
  have early : timing.start + count ≤ Wire.base := scene.now_le.trans last
  exact ⟨d, count, ps, i, unfailed.others i x hi sound, scene, fresh.sane_run hs fits early hrun,
    fresh.obeys_run (R := fun _ => rule) (C := fun _ => True) hs fits early home (fun _ _ ps _ _ => governs _ ps)
      (fun _ _ _ _ obeys => obeys) hrun⟩

/-- Whatever a process has done in its second, it goes on from there with what it finds. -/
theorem amid_of_play (stage : x.stage = .working now) (reaches : Reaches now x.partition m p) :
    ∃ i, now ≤ timing.stop ∧ x.partition.Setting s timing i ∧ Partition.Follows (Amid rule now x.partition) m p := by
  have sound : ∀ f, x.stage ≠ .failed f := by
    intro f failed
    cases stage.symm.trans failed
  obtain ⟨d, count, ps, i, hi, scene, sane, obeys⟩ := scene_of_play hs fresh fits last hm hp hx home governs sound
  cases scene.places i x hi with
  | working state inTime =>
    cases stage
    have setting := sane.rest.setting i _ state
    have governs := governs (timing.start + count) ps
    have sustains := Amid.sustains governs.closed (Scenario.accepted_of_partition hs) setting (governs.room i _ state)
    exact ⟨i, inTime, setting, reaches.follows sustains (sane.amid obeys state)⟩
  | _ => cases stage

/-- Whomever a process has taken in, it goes on with the others from there. -/
theorem greets_of_play (stage : x.stage = .receiving .transfers now [] d)
    (receives : Receives now d x.partition entrants q) :
    ∃ i, now ≤ timing.stop ∧ Greets s timing rule now i entrants q := by
  have sound : ∀ f, x.stage ≠ .failed f := by
    intro f failed
    cases stage.symm.trans failed
  have accepted := Scenario.accepted_of_partition hs
  obtain ⟨d, count, ps, i, hi, scene, sane, obeys⟩ := scene_of_play hs fresh fits last hm hp hx home governs sound
  cases scene.places i x hi with
  | receiving state inTime each said =>
    cases stage
    rw [List.append_nil] at each
    have governs := governs (timing.start + count) ps
    obtain ⟨transfers, read, greets⟩ := sane.greets accepted fits (InScene.now_lt_base state)
      (sane.obeysWorked accepted obeys governs) governs.toConducts state each said
    exact ⟨i, inTime, receives.greets governs.closed (governs.welcoming i) read greets⟩
  | _ => cases stage

end Run

end Ensemble

end Mobility
