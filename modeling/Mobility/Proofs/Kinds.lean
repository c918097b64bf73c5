import Mobility.Proofs.Chronicle
import Mobility.Proofs.Ensemble.Completion
import Mobility.Proofs.Ensemble.Obeying
import Mobility.Proofs.Kinds.Turns
import Mobility.Proofs.Passengers

/-!
# Stamps and what they are made for

In the run of a fresh scenario every stamp is made at a moment at which an agent consumes an instruction which asks
for a stamp of this kind (`Ensemble.stamps_match_plans`), but for one exception: waiting only makes sure that an agent
leaves after its next instruction, and with this next instruction it boards, whatever it is. Nobody else gets into the
queue of a stop.
-/

set_option autoImplicit false

namespace Mobility

open Act

namespace Partition

variable {p q r : Partition} {m : Moment} {now n : Nat} {st : Stamp} {f : Failure}

/-! ## Logs -/

/-- The stamp with number `n` is made by what a partition in state `p` does at a moment. -/
structure MadeAt (now : Nat) (m : Moment) (p : Partition) (n : Nat) (st : Stamp) : Prop where
  later : p.log.size ≤ n
  there : ((m.perform now).left p).log[n]? = some st
  makes : Makes now p ((m.perform now).left p) st

theorem Stamps.new (h : Stamps now p q) (later : p.log.size ≤ n) (there : q.log[n]? = some st) : Makes now p q st := by
  obtain ⟨new, log, makes⟩ := h
  rw [← Array.getElem?_toList, log, List.getElem?_append_right (by simpa using later)] at there
  exact makes st (List.mem_of_getElem? there)

/-- The kind is right if the plan doesn't omit boarding. -/
theorem Makes.kind_of_boards {a : Agent} {i : Instruction} (h : Makes now p q st)
    (found : p.agents[st.what.agent]? = some a) (current : a.current = .ok (some i)) (boards : a.plan.Boards) :
    st.what.kind = i.kind.stampKind := by
  cases h with
  | @consumes b j found' current' moves time event kind =>
    obtain rfl := Option.some.inj (found.symm.trans found')
    obtain rfl := Option.some.inj (Except.ok.inj (current.symm.trans current'))
    exact kind.resolve_right fun omits => boards.omits current omits.2
  | @finishes b found' current' =>
    obtain rfl := Option.some.inj (found.symm.trans found')
    cases current.symm.trans current'

end Partition

open Mobility.Partition

namespace Ensemble

variable {raw s : Scenario} {method : Method} {timing : Timing} {c c' c₀ : Ensemble} {turn : Turn}
  {schedule : List Turn} {i rank n now : Nat} {x y : Process} {st : Stamp}

/-! ## In a run -/

section Run

variable (hs : raw.partition method = .ok s) (fresh : s.Fresh) (fits : s.Fits) (last : timing.stop < Wire.base)
  (hm : make s timing = .ok c₀) (hp : play schedule c₀ = some c) (hx : x ∈ c.processes)

include hs fresh fits last hm hp hx

/-- Rows are in step with the plans of those who stand in them. -/
theorem coupled_of_play {hand : Multiset Nat} {q : Partition} (within : x.Within hand q) : q.Coupled hand := by
  have sound : ∀ f, x.stage ≠ .failed f := by
    intro f failed
    cases within with
    | stands sound => exact sound f failed
    | works stage | receives stage => cases stage.symm.trans failed
  obtain ⟨d, count, ps, i, hi, scene, sane, obeys⟩ := scene_of_play hs fresh fits last hm hp hx (fun _ _ _ => trivial)
    (s.governs_coupled timing) sound
  exact scene.coupled sane (Scenario.accepted_of_partition hs) fits obeys hi within

/-- As long as a process works, everybody can go on and is counted once. -/
theorem ready_of_play {m : Moment} {p : Partition} (stage : x.stage = .working now)
    (reaches : Reaches now x.partition m p) (works : m.isWorking = true) : Ready now m.hand p := by
  obtain ⟨i, -, -, w, amid, -, same⟩ := amid_of_play hs fresh fits last hm hp hx (fun _ _ _ => trivial)
    (s.governs_coupled timing) stage reaches
  exact same works ▸ amid.ready

/-- Plans are those of the scenario. -/
theorem plan_of_play {m : Moment} {p : Partition} {id : Nat} {a : Agent} (stage : x.stage = .working now)
    (reaches : Reaches now x.partition m p) (found : p.agents[id]? = some a) :
    ∃ spec, s.agents[id]? = some spec ∧ a.plan = spec.plan := by
  obtain ⟨i, -, setting, w, amid, sheds, -⟩ := amid_of_play hs fresh fits last hm hp hx (fun _ _ _ => trivial)
    (s.governs_coupled timing) stage reaches
  rw [sheds.agents] at found
  obtain ⟨spec, hspec, blank⟩ := (amid.setting setting).agent found
  exact ⟨spec, hspec, Agent.plan_of_blank blank⟩

end Run

/-- However the turns go in the run of a fresh scenario and whoever fails, every stamp is made at a moment of the run
for an agent which consumes an instruction or comes to its end then, and its kind is the one which the instruction asks
for, unless the agent omits boarding, which it doesn't if its plan doesn't. Whoever is in the queue of a stop has just
begun to wait there and leaves after its next instruction; an agent which doesn't leave then isn't put into it, but the
partition fails. -/
theorem stamps_match_plans (hs : raw.partition method = .ok s) (fresh : s.Fresh) (fits : s.Fits)
    (ordered : timing.start ≤ timing.stop) (last : timing.stop < Wire.base) :
    ∃ c₀, make s timing = .ok c₀ ∧ ∀ schedule c, play schedule c₀ = some c → ∀ rank x, c.processes[rank]? = some x →
      (∀ n st, x.partition.log[n]? = some st → ∃ now m p, Passes c₀ schedule rank now m p ∧ MadeAt now m p n st ∧
        ∀ a i, p.agents[st.what.agent]? = some a → a.current = .ok (some i) →
          ∃ spec, s.agents[st.what.agent]? = some spec ∧ spec.plan.get? a.cursor = .ok (some i) ∧
            (spec.plan.Boards → st.what.kind = i.kind.stampKind)) ∧
      (∀ hand q, x.Within hand q → ∀ stop route index, ∀ id ∈ q.platforms.row stop route index,
        ∃ a, q.agents[id]? = some a ∧ a.Waits stop route index) ∧
      ∀ now, x.stage = .working now → ∀ m p, Reaches now x.partition m p → ∀ v, m.Turn now p v →
        ∀ a event route stop, p.agents[v]? = some a → a.current = .ok (some ⟨event, .wait route stop⟩) →
          p.StopAt stop.val p.rank →
          (∃ later leaving q, a.plan.get? (a.cursor + 2) = .ok (some ⟨later, .egress leaving⟩) ∧
            Ends (dispatch v now) p true q ∧ q.platforms = p.platforms.add stop.val route.val leaving.index.val v) ∨
          ∃ next r, a.plan.get? (a.cursor + 2) = .ok next ∧ (∀ later leaving, next ≠ some ⟨later, .egress leaving⟩) ∧
            (depart now).run x.partition = .error (.fault (.noEgress v stop.val next)) r := by
  obtain ⟨c₀, hm⟩ := exists_make s ordered
  refine ⟨c₀, hm, fun schedule c hp rank x hx => ⟨fun n st there => ?_, ?_, ?_⟩⟩
  · obtain ⟨now, m, p, passes, added⟩ := passes_of_log hm hp hx there
    obtain ⟨before, turn, after, b, y, -, -, hb, hy, stage, reaches⟩ := id passes
    have hy := List.mem_of_getElem? hy
    have stamps : Leaves (Stamps now) (m.perform now) p :=
      stamps_perform (ready_of_play hs fresh fits last hm hb hy stage reaches)
        (coupled_of_play hs fresh fits last hm hb hy (.works stage reaches))
    have made : MadeAt now m p n st := ⟨added.later, added.there, stamps.new added.later added.there⟩
    refine ⟨now, m, p, passes, made, fun a i found current => ?_⟩
    obtain ⟨spec, hspec, plan⟩ := plan_of_play hs fresh fits last hm hb hy stage reaches found
    exact ⟨spec, hspec, plan ▸ current, fun boards => made.makes.kind_of_boards found current (plan ▸ boards)⟩
  · intro hand q within stop route index id there
    exact (coupled_of_play hs fresh fits last hm hp (List.mem_of_getElem? hx) within).waiting stop route index id there
  · intro now stage m p reaches v turn a event route stop found current here
    have ready := ready_of_play hs fresh fits last hm hp (List.mem_of_getElem? hx) stage reaches (by cases turn <;> rfl)
    rcases dispatch_wait ready found current here with queues | ⟨next, r, get, stays, fails⟩
    · exact .inl queues
    · exact .inr ⟨next, r, get, stays, depart_of_stops reaches (turn.perform_fails fails)⟩

/-- The passenger of the bus boards with the instruction which says so. -/
theorem stamps_match_plans_bus : ∃ s c₀ c x now m p a i, Scenario.numberedBus.partition .modulo = .ok s ∧
    make s ⟨0, 6, 0, 0⟩ = .ok c₀ ∧ play (List.replicate 2 Turn.inTurns).flatten c₀ = some c ∧
    c.processes[0]? = some x ∧ Passes c₀ (List.replicate 2 Turn.inTurns).flatten 0 now m p ∧
    MadeAt now m p 3 ⟨1, .access, 1, low16 12, some 0⟩ ∧ p.agents[1]? = some a ∧
    Scenario.numberedBus.agents[1].plan.get? a.cursor = .ok (some i) ∧ i.kind = .access := by
  have runs : (trial .numberedBus .modulo ⟨0, 6, 0, 0⟩ (List.replicate 2 Turn.inTurns).flatten).any
      (fun r => r.1.agents = Scenario.numberedBus.agents ∧ r.1.numParts = 2 ∧ r.1.links.size = 2 ∧
        r.2.processes[0]?.any fun x => x.partition.log[3]? = some ⟨1, .access, 1, low16 12, some 0⟩) = true := by
    decide +kernel
  obtain ⟨s, c₀, c, hs, hm, hp, hc⟩ := exists_of_trial runs
  simp only [decide_eq_true_eq] at hc
  obtain ⟨agents, parts, links, log⟩ := hc
  obtain ⟨x, hx, there⟩ := (Option.any_eq_true _ _).1 log
  have fits : s.Fits := ⟨by rw [parts]; decide, by rw [links]; decide, by rw [agents]; decide⟩
  have fresh : Scenario.numberedBus.Fresh := Scenario.fresh_of_isFresh (by decide +kernel)
  have ordered : (⟨0, 6, 0, 0⟩ : Timing).start ≤ (⟨0, 6, 0, 0⟩ : Timing).stop := Nat.zero_le 6
  obtain ⟨c₁, hm₁, stamps⟩ := stamps_match_plans hs (fresh.of_agents agents) fits ordered (by decide)
  obtain rfl := Except.ok.inj (hm.symm.trans hm₁)
  obtain ⟨now, m, p, passes, made, kinds⟩ := (stamps _ c hp 0 x hx).1 3 _ (of_decide_eq_true there)
  cases made.makes with
  | finishes found current time event kind => cases kind
  | @consumes a i found current moves time event kind =>
    obtain ⟨spec, hspec, get, asks⟩ := kinds a i found current
    rw [agents] at hspec
    obtain rfl : Scenario.numberedBus.agents[1] = spec := Option.some.inj hspec
    have asked : StampKind.access = i.kind.stampKind := asks (by decide +kernel)
    refine ⟨s, c₀, c, x, now, m, p, a, i, hs, hm, hp, hx, passes, made, found, get, ?_⟩
    generalize i.kind = kind at asked
    cases kind <;> first | rfl | cases asked

end Ensemble

/-- A bus, and an agent which waits for it but sleeps as soon as it is there. -/
def Scenario.sleeper : Scenario :=
  { bus with
    numParts := 1
    agents := #[
      .fresh 0 ⟨#[Action.wordFor 1 (.wait (low16 3) (low16 0)),
        Action.wordFor 5 (.sleepFor ⟨2, by decide⟩), Action.wordFor 6 (.egress (.of 3 0 1))], by decide⟩ 0 (low16 0),
      .fresh 1 ⟨#[Action.word (.stopArrive (.of 3 0 0)), Action.word (.stopDelay (.of 3 0 0)),
        Action.word (.stopDelay (.of 3 0 1))], by decide⟩ 1 (low16 0)] }

namespace Ensemble

/-- The agent gets into the queue and boards, and its sleep is stamped as boarding. -/
theorem sleeper_boards : ∃ s c₀ c x p served q b, Scenario.sleeper.partition .none = .ok s ∧ s.Fresh ∧
    make s ⟨0, 10, 0, 0⟩ = .ok c₀ ∧ play (List.replicate 7 (⟨0, 0⟩ : Turn)) c₀ = some c ∧ x ∈ c.processes ∧
    x.stage = .working 1 ∧ Reaches 1 x.partition (.acting [1]) p ∧ p.platforms.row 0 3 1 = [0] ∧
    p.agents[0]? = some b ∧ b.current = .ok (some ⟨low16 5, .sleepFor ⟨2, by decide⟩⟩) ∧
    Ends (dispatch 1 1) p served q ∧ q.log = p.log.push ⟨1, .access, 0, low16 5, some 1⟩ ∧
    q.cursorOf 0 = b.cursor + 1 := by
  have runs : (trial .sleeper .none ⟨0, 10, 0, 0⟩ (List.replicate 7 (⟨0, 0⟩ : Turn))).any
      (fun r => r.1.agents = Scenario.sleeper.agents ∧ r.2.processes.any fun x => x.stage = .working 1 ∧
        x.partition.platforms.row 0 3 1 = [0] ∧
        ((x.partition.dueAgents.visit 1).toOption.any fun visit => visit.1 = [1] ∧
          ((dispatch 1 1).outcome { x.partition with dueAgents := visit.2 }).any fun y =>
            y.2.log = x.partition.log.push ⟨1, .access, 0, low16 5, some 1⟩ ∧
            (x.partition.agents[0]?).any fun b =>
              b.current.toOption = some (some ⟨low16 5, .sleepFor ⟨2, by decide⟩⟩) ∧
              y.2.cursorOf 0 = b.cursor + 1)) = true := by
    decide +kernel
  obtain ⟨s, c₀, c, hs, hm, hp, hc⟩ := exists_of_trial runs
  simp only [decide_eq_true_eq, List.any_eq_true] at hc
  obtain ⟨agents, x, hx, stage, queued, visit⟩ := hc
  obtain ⟨⟨ids, due⟩, visit, turn⟩ := (Option.any_eq_true _ _).1 visit
  obtain ⟨first, turn⟩ := of_decide_eq_true turn
  obtain rfl : ids = [1] := first
  obtain ⟨⟨served, q⟩, ends, stamped⟩ := (Option.any_eq_true _ _).1 turn
  obtain ⟨log, sleeps⟩ := of_decide_eq_true stamped
  obtain ⟨b, found, sleeps⟩ := (Option.any_eq_true _ _).1 sleeps
  obtain ⟨current, moved⟩ := of_decide_eq_true sleeps
  have fresh : Scenario.sleeper.Fresh := Scenario.fresh_of_isFresh (by decide +kernel)
  have called : Reaches 1 x.partition (.acting [1]) { x.partition with dueAgents := due } := by
    refine Reaches.begins.goes ?_
    simp only [Moment.perform, bind_eq_ok, get_eq_ok, attempt_eq_ok, modify_eq_ok, pure_eq_ok]
    exact ⟨_, _, ⟨rfl, rfl⟩, ([1], due), _, ⟨eq_ok_of_toOption visit, rfl⟩, (), _, rfl, rfl, rfl⟩
  exact ⟨s, c₀, c, x, _, served, q, b, hs, fresh.of_agents agents, hm, hp, hx, stage, called, queued, found,
    eq_ok_of_toOption current, Act.outcome_eq_some.1 ends, log, moved⟩

end Ensemble

end Mobility
