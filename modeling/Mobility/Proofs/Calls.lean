import Mobility.Proofs.Passengers.Calls
import Mobility.Proofs.Safety

/-!
# Vehicles at stops

In the run of a fresh scenario every vehicle which takes its turn at a stop calls there: all those who leave there
leave, and then those who have waited longest for the stops which come first board, as many as there are seats
(`Ensemble.vehicles_call`). It can't fail, whatever plans say, and nobody else notices.
-/

set_option autoImplicit false

namespace Mobility

open Act Mobility.Partition

namespace Ensemble

variable {raw s : Scenario} {method : Method} {timing : Timing}

/-- However the turns go in the run of a fresh scenario and whoever fails: whenever an agent takes its turn whose
instruction is to let passengers leave and board, it does so, as `CallsAt` says, and is to act again. -/
theorem vehicles_call (hs : raw.partition method = .ok s) (fresh : s.Fresh) (fits : s.Fits)
    (ordered : timing.start ≤ timing.stop) (last : timing.stop < Clock.last) :
    ∃ c₀, make s timing = .ok c₀ ∧ ∀ schedule c, play schedule c₀ = some c → ∀ x ∈ c.processes,
      ∀ now, x.stage = .working now → ∀ m p, Reaches now x.partition m p → ∀ v, m.Turn now p v →
        ∀ a event stop, p.agents[v]? = some a → a.current = .ok (some ⟨event, .stopDelay stop⟩) →
          ∃ q, Ends (dispatch v now) p false q ∧ CallsAt v a stop now p q := by
  have accepted := Scenario.accepted_of_partition hs
  obtain ⟨c₀, hm⟩ := exists_make s ordered
  refine ⟨c₀, hm, fun schedule c hp x hx now stage m p reaches v turn a event stop found current => ?_⟩
  obtain ⟨⟨d, count, ps, unfailed, hrun, scene⟩, -⟩ := shadows hs fits.parts hm hp
  have early : timing.start + count ≤ Wire.base := scene.now_le.trans (Clock.lt_base_of_lt_last last)
  have sane := fresh.sane_run hs fits early hrun
  have sound : ∀ f, x.stage ≠ .failed f := by
    rw [stage]
    intro f failed
    cases failed
  obtain ⟨i, hi⟩ := List.mem_iff_getElem?.1 hx
  obtain ⟨state, inTime⟩ : ps[i]? = some x.partition ∧ now = timing.start + count ∧ now ≤ timing.stop := by
    cases scene.places i x (unfailed.others i x hi sound) with
    | working state inTime =>
      cases stage
      exact ⟨state, rfl, inTime⟩
    | _ => cases stage
  obtain ⟨rfl, inTime⟩ := inTime
  -- Whatever the partition has done in this second, the next turn finds what it needs.
  obtain ⟨w, ready, -, works⟩ := reaches.follows (Ready.sustains (inTime.trans_lt last)) (sane.ready state)
  obtain rfl : w = p := works (by cases turn <;> rfl)
  obtain ⟨present, free⟩ := turn.free ready.once
  exact ready.callsAt present free found current

/-- The bus is at its first stop, where its passenger waits for it. -/
theorem vehicles_call_bus : ∃ s c₀ c x p a q, Scenario.bus.partition .modulo = .ok s ∧ make s ⟨0, 8, 0, 0⟩ = .ok c₀ ∧
    play [Turn.inTurns].flatten c₀ = some c ∧ x ∈ c.processes ∧ x.stage = .working 1 ∧
    Reaches 1 x.partition (.acting [0]) p ∧ p.agents[0]? = some a ∧ p.boarders a (.of 0 0 0) = [(1, 1)] ∧
    Ends (dispatch 0 1) p false q ∧ CallsAt 0 a (.of 0 0 0) 1 p q := by
  have runs : (trial .bus .modulo ⟨0, 8, 0, 0⟩ [Turn.inTurns].flatten).any
      (fun r => r.1.agents = Scenario.bus.agents ∧ r.1.numParts = 2 ∧ r.1.links.size = 2 ∧
        r.2.processes.any fun x => x.stage = .working 1 ∧
          ((x.partition.dueAgents.visit 1).toOption.any fun visit => visit.1 = [0]) ∧
          (x.partition.agents[0]?).any fun a =>
            a.current.toOption = some (some ⟨low16 0, .stopDelay (.of 0 0 0)⟩) ∧
            x.partition.boarders a (.of 0 0 0) = [(1, 1)]) = true := by
    decide +kernel
  obtain ⟨s, c₀, c, hs, hm, hp, hc⟩ := exists_of_trial runs
  simp only [decide_eq_true_eq, List.any_eq_true] at hc
  obtain ⟨agents, parts, links, x, hx, stage, visit, bus⟩ := hc
  obtain ⟨⟨ids, due⟩, visit, first⟩ := (Option.any_eq_true _ _).1 visit
  obtain ⟨a, found, bus⟩ := (Option.any_eq_true _ _).1 bus
  obtain ⟨current, boards⟩ := of_decide_eq_true bus
  obtain rfl : ids = [0] := of_decide_eq_true first
  have fits : s.Fits := ⟨by rw [parts]; decide, by rw [links]; decide, by rw [agents]; decide⟩
  have ordered : (⟨0, 8, 0, 0⟩ : Timing).start ≤ (⟨0, 8, 0, 0⟩ : Timing).stop := Nat.zero_le 8
  obtain ⟨c₁, hm₁, calls⟩ := vehicles_call hs (Scenario.fresh_bus.of_agents agents) fits ordered (by decide)
  obtain rfl := Except.ok.inj (hm.symm.trans hm₁)
  have called : Reaches 1 x.partition (.acting [0]) { x.partition with dueAgents := due } := by
    refine Reaches.begins.goes ?_
    simp only [Moment.perform, bind_eq_ok, get_eq_ok, attempt_eq_ok, modify_eq_ok, pure_eq_ok]
    exact ⟨_, _, ⟨rfl, rfl⟩, ([0], due), _, ⟨eq_ok_of_toOption visit, rfl⟩, (), _, rfl, rfl, rfl⟩
  obtain ⟨q, ends, callsAt⟩ := calls _ c hp x hx 1 stage _ _ called 0 .due a _ _ found (eq_ok_of_toOption current)
  exact ⟨s, c₀, c, x, _, a, q, hs, hm, hp, hx, stage, called, found, boards, ends, callsAt⟩

end Ensemble

end Mobility
