import Mobility.Proofs.FreeFlow.Seconds
import Mobility.Proofs.Strangers

/-!
# Plans without vehicles

Plans which only traverse links and sleep ask for nothing which a partition can't do, so nobody fails in a run of
such plans, whatever the schedule is (`Ensemble.isSound_of_plain`).
-/

set_option autoImplicit false

namespace Mobility

open Act Second Mobility.Partition

namespace Scenario

variable {s : Scenario}

/-- Where no vehicle stops, every stop is right. -/
theorem Plain.direct (h : s.Plain) : s.Direct where
  serves v l i stop next action := by
    have plain := h v l i next
    rcases action with action | action <;> rw [action] at plain <;> cases plain
  leaves x k v l l' boarding leaving stop awaits boards stops index := by
    obtain ⟨i, next, action⟩ := boards
    have plain := h v l i next
    rw [action] at plain
    cases plain

end Scenario

namespace Ensemble

variable {raw s : Scenario} {method : Method} {timing : Timing} {count : Nat} {ps : List Partition} {f : Failure}
  {schedule : List Turn} {c c₀ : Ensemble}

/-- Nobody asks for what only vehicles do. -/
theorem not_misplanned_of_plain (sane : s.Sane timing (timing.start + count) ps) (plain : s.Plain)
    (h : (s.scene timing count ps).Breaks f) : f.isMisplanned = false := by
  by_contra misplanned
  have misplanned : f.isMisplanned = true := by simpa using misplanned
  have notable := Failure.isNotable_of_isMisplanned misplanned
  have strays : ∀ {β : Type} {o : Outbox} {queued : Table β}, ¬ o.Strays queued f := by
    rintro β o queued ⟨target, -, -, rfl⟩
    cases misplanned
  have heard : ∀ {lane i} {d : Delivery}, (∀ buffer ∈ d, (s.scene timing count ps).Says lane buffer.1 i buffer.2) →
      ∀ buffer ∈ d, Wire.Headed (timing.start + count) buffer.1 buffer.2 := fun said buffer hb =>
    InScene.headed_of_says sane.company (said buffer hb)
  cases h with
  | @departing i p q state inTime fails =>
    rcases depart_eq_error fails notable with ⟨id, r, u, worked, turn⟩ | ⟨_, _, _, -, -, -, stray⟩
    · obtain ⟨-, a, step, found, current, awake, still⟩ := misplanned_of_dispatch turn notable
      have setting : r.Setting s timing i :=
        (sane.rest.setting i p state).trans (worked.kept.mono LinkView.Balanced.alike)
      have plain := plain id a.cursor step (setting.instructs found current)
      cases action : step.action with
      | traverse link velocity => exact still link velocity action
      | sleepFor | sleepUntil =>
        rw [action] at awake
        cases awake
      | access | egress | stopArrive | stopDelay | stopDepart | wait =>
        rw [action] at plain
        cases plain
    · exact strays stray
  | arriving sent senders said fails =>
    obtain ⟨r, -, stray⟩ := arrive_eq_error (InScene.now_lt_base sent) (heard said) fails notable
    exact strays stray
  | settling sent senders said fails =>
    have unplanned := (unplanned_receiveReleases (InScene.now_lt_base sent) (heard said) fails).2
    rw [misplanned] at unplanned
    cases unplanned

/-- Nobody fails in the run of a fresh scenario in which agents only traverse links and sleep. -/
theorem isSound_of_plain (hs : raw.partition method = .ok s) (fresh : s.Fresh) (plain : s.Plain) (fits : s.Fits)
    (capacities : ∀ spec ∈ s.links.toList, spec.capacity < Wire.base) (last : timing.stop < Clock.last)
    (hm : make s timing = .ok c₀) (hp : play schedule c₀ = some c) : c.isSound = true := by
  have accepted := Scenario.accepted_of_partition hs
  by_contra fails
  obtain ⟨⟨p, stage⟩, listed, failed⟩ := List.all_eq_false.1 (Bool.not_eq_true _ ▸ fails)
  cases stage with
  | failed f =>
    obtain ⟨count, ps, hrun, early, breaks, agrees⟩ :=
      breaks_of_play hs fresh ⟨fits.parts, fits.links, capacities⟩ fits (Clock.lt_base_of_lt_last last) hm hp listed
    have sane := fresh.sane_run hs fits early hrun
    have known := not_stranger_of_direct hs fresh plain.direct fits hrun early breaks
    have planned := not_misplanned_of_plain sane plain breaks
    rcases documented_of_breaks sane accepted fits (Clock.lt_base_of_lt_last last) breaks with
      documented | discord | ⟨same, -⟩
    · unfold Failure.isDocumented at documented
      split at documented
      · cases known
      · cases planned
      · cases planned
      · cases documented
    · rw [agrees] at discord
      cases discord
    · exact absurd same last.ne
  | _ => exact absurd rfl failed

end Ensemble

end Mobility
