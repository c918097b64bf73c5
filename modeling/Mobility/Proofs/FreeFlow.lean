import Mobility.Proofs.Ensemble.Completion
import Mobility.Proofs.FreeFlow.Plans

/-!
# Plans keep their time

If agents only traverse links and sleep and nothing holds them up (`Scenario.FreeFlow`), the plan of an agent alone
says in which second each of its instructions is consumed (`Scenario.consumedAt`), and a run of all partitions
consumes it in that second, whatever the schedule is and whoever owns the links (`Ensemble.plans_keep_time`).
-/

set_option autoImplicit false

namespace Mobility

open Act Second Mobility.Partition

namespace Scenario

variable {raw s : Scenario} {method : Method} {timing : Timing} {n now i x : Nat} {ps : List Partition}
  {p : Partition} {a : Agent}

/-- Before second `n` an agent is in one partition, where it has consumed what is to be consumed before. -/
theorem Calm.exists_place (h : s.Calm timing n ps) (free : s.FreeFlow timing) (hs : raw.partition method = .ok s)
    (last : n ≤ Clock.last) (found : s.agents[x]? = some a) :
    ∃ (i : Nat) (p : Partition) (b : Agent), ps[i]? = some p ∧ p.agents[x]? = some b ∧ x ∈ p.places ∧
      (∀ (j : Nat) q, ps[j]? = some q → x ∈ q.places → j = i) ∧
      ∀ k t, s.consumedAt timing a k = some t → (k < b.cursor ↔ t < n) := by
  obtain ⟨below, -⟩ := Array.getElem?_eq_some_iff.1 found
  obtain ⟨i, p, hp, counted⟩ := h.sane.counted.somewhere below
  obtain ⟨b, copy, -⟩ := (h.sane.rest.setting i p hp).copy found
  obtain ⟨site, spot⟩ := exists_spot (h.sane.company.idle i p hp).transfers counted
  have rests := (h.obeys i p hp).spots site x b spot copy
  have place : ∀ {j : Nat} {q : Partition}, ps[j]? = some q → (x ∈ q.places ↔ x ∈ q.census 0) := fun hq => by
    rw [← Multiset.mem_coe, h.sane.rest.coe_places h.sane.company hq]
  exact ⟨i, p, b, hp, copy, (place hp).2 counted,
    fun j q hq there => h.sane.counted.unique hq hp ((place hq).1 there) counted,
    fun k t consumed => rests.lt_cursor_iff free hs last found consumed⟩

end Scenario

namespace Ensemble

variable {raw s : Scenario} {method : Method} {timing : Timing}

/-- In a world of fresh agents in free flow nobody fails, whatever the schedule is. Every run can be continued
until everybody is done, and then it has passed every second of the horizon. When all partitions have completed
second `t`, every agent is in one partition, where it has consumed the instructions which it is to consume in second
`t` or before, and no others. -/
theorem plans_keep_time (hs : raw.partition method = .ok s) (fresh : s.Fresh) (free : s.FreeFlow timing)
    (fits : s.Fits) (capacities : ∀ spec ∈ s.links.toList, spec.capacity < Wire.base)
    (ordered : timing.start ≤ timing.stop) (last : timing.stop < Clock.last) :
    ∃ c₀, make s timing = .ok c₀ ∧ ∀ schedule c, play schedule c₀ = some c →
      c.isSound = true ∧
      (∃ more c', play (schedule ++ more) c₀ = some c' ∧ c'.isDone = true) ∧
      (c.isDone = true → ∀ t, timing.start ≤ t → t ≤ timing.stop → ∃ before after d,
        schedule = before ++ after ∧ play before c₀ = some d ∧ d.isAfter timing.stop t = true) ∧
      ∀ t, c.isAfter timing.stop t = true → ∀ (x : Nat) a, s.agents[x]? = some a →
        ∃ z ∈ c.processes, x ∈ z.partition.places ∧
          (∀ y ∈ c.processes, x ∈ y.partition.places → y = z) ∧
          ∃ b, z.partition.agents[x]? = some b ∧
            ∀ k e, s.consumedAt timing a k = some e → (k < b.cursor ↔ e ≤ t) := by
  obtain ⟨c₀, hm⟩ := exists_make s ordered
  have sound : ∀ schedule c, play schedule c₀ = some c → c.isSound = true := fun schedule c hp =>
    isSound_of_plain hs fresh free.plain fits capacities last hm hp
  refine ⟨c₀, hm, fun schedule c hp => ?_⟩
  obtain ⟨goesOn, passes⟩ := completes_run hs fits.parts hm sound hp
  refine ⟨sound schedule c hp, goesOn, passes, fun t after x a found => ?_⟩
  obtain ⟨count, now, inTime, hrun⟩ := run_of_isAfter hs fits.parts hm hp after
  have early : timing.start + count ≤ timing.stop + 1 := now ▸ Nat.succ_le_succ inTime
  have calm := fresh.calm_run hs free fits capacities early last hrun
  rw [now] at calm
  obtain ⟨i, p, b, hi, copy, place, only, keeps⟩ := calm.exists_place free hs (inTime.trans_lt last) found
  rw [List.getElem?_map, Option.map_eq_some_iff] at hi
  obtain ⟨z, hz, rfl⟩ := hi
  refine ⟨z, List.mem_of_getElem? hz, place, fun y hy there => ?_, b, copy, fun k e consumed => ?_⟩
  · obtain ⟨j, hj⟩ := List.mem_iff_getElem?.1 hy
    obtain rfl := only j y.partition (by rw [List.getElem?_map, hj]; rfl) there
    exact Option.some.inj (hj.symm.trans hz)
  · rw [keeps k e consumed, Nat.lt_succ_iff]

end Ensemble

/-! ## Two roads -/

namespace Scenario

/-- Two links which aren't connected, with room for three agents. The agent of the ring takes one after the other.
Another one sleeps for a second, and it takes the second link twice. -/
def gap : Scenario where
  numParts := 2
  links := #[⟨0, 0, 1, ⟨0x3f800000⟩, ⟨0x3f800000⟩, 3, 0⟩, ⟨1, 2, 3, ⟨0x3f800000⟩, ⟨0x3f800000⟩, 3, 0⟩]
  stops := #[]
  agents := ring.agents ++ #[.fresh 1
    ⟨#[Action.word (.sleepFor (low32 1)), Action.wordOnto 1, Action.wordOnto 1], by decide⟩ 0 (low16 0)]
  homes := #[]
  crossings := []
  neighbors := .empty

/-- Whether nothing holds agents up. -/
def isFree (s : Scenario) (timing : Timing) : Bool :=
  s.steps.all (fun (_, _, i) => i.action.isPlain) &&
  s.links.toList.all (fun spec => s.agents.size < spec.capacity) &&
  s.steps.all fun (_, _, i) => s.steps.all fun (_, _, j) =>
    match i.action, j.action with
    | .traverse link velocity, .traverse link' velocity' =>
      !(link' = link) ||
        s.travelTime link.val velocity.val timing.delay = s.travelTime link.val velocity'.val timing.delay
    | _, _ => true

theorem freeFlow_of_isFree {s : Scenario} {timing : Timing} (h : s.isFree timing = true) : s.FreeFlow timing := by
  obtain ⟨h, even⟩ := Bool.and_eq_true_iff.1 h
  obtain ⟨plain, spacious⟩ := Bool.and_eq_true_iff.1 h
  refine ⟨fun x k i next => List.all_eq_true.1 plain _ next.mem_steps,
    fun spec listed => of_decide_eq_true (List.all_eq_true.1 spacious spec listed), ?_⟩
  intro x k i y l j link velocity velocity' first second action action'
  have both := List.all_eq_true.1 (List.all_eq_true.1 even _ first.mem_steps) _ second.mem_steps
  dsimp only at both
  rw [action, action'] at both
  simpa using both

end Scenario

namespace Ensemble

/-- The first agent of the gap comes to the end of its link in second 1, but it has to be handed over, and takes the
other link in second 2. The second agent hasn't to wait for anything. -/
theorem plans_keep_time_gap : ∃ s c₀ c y z a b, Scenario.gap.partition .modulo = .ok s ∧ make s ⟨0, 3, 0, 0⟩ = .ok c₀ ∧
    play (List.replicate 2 Turn.inTurns).flatten c₀ = some c ∧
    (∃ more c', play ((List.replicate 2 Turn.inTurns).flatten ++ more) c₀ = some c' ∧ c'.isDone = true) ∧
    y ∈ c.processes ∧ 0 ∈ y.partition.places ∧ y.partition.agents[0]? = some a ∧ a.cursor = 1 ∧
    z ∈ c.processes ∧ 1 ∈ z.partition.places ∧ z.partition.agents[1]? = some b ∧ b.cursor = 2 := by
  have runs : (trial .gap .modulo ⟨0, 3, 0, 0⟩ (List.replicate 2 Turn.inTurns).flatten).any (fun r =>
      r.1.isFresh ∧ r.1.isFree ⟨0, 3, 0, 0⟩ ∧ r.1.numParts = 2 ∧ r.1.links.size = 2 ∧ r.1.agents.size = 2 ∧
        r.1.links.toList.all (fun spec => spec.capacity < Wire.base) ∧ r.2.isAfter 3 1 ∧
        (r.1.agents[0]?).map (fun a => [0, 1].map (r.1.consumedAt ⟨0, 3, 0, 0⟩ a)) = some [some 0, some 2] ∧
        (r.1.agents[1]?).map (fun a => [0, 1, 2].map (r.1.consumedAt ⟨0, 3, 0, 0⟩ a)) =
          some [some 0, some 1, some 2]) = true := by
    decide +kernel
  obtain ⟨s, c₀, c, hs, hm, hp, hc⟩ := exists_of_trial runs
  simp only [decide_eq_true_eq] at hc
  obtain ⟨fresh, free, parts, links, agents, capacities, after, first, second⟩ := hc
  obtain ⟨a, ha, first⟩ := Option.map_eq_some_iff.1 first
  obtain ⟨b, hb, second⟩ := Option.map_eq_some_iff.1 second
  have fits : s.Fits := ⟨by rw [parts]; decide, by rw [links]; decide, by rw [agents]; decide⟩
  obtain ⟨c₁, hm₁, every⟩ := plans_keep_time hs (Scenario.fresh_of_isFresh fresh)
    (Scenario.freeFlow_of_isFree free) fits
    (fun spec hspec => of_decide_eq_true (List.all_eq_true.1 capacities spec hspec))
    (show (⟨0, 3, 0, 0⟩ : Timing).start ≤ (⟨0, 3, 0, 0⟩ : Timing).stop from Nat.zero_le 3) (by decide)
  obtain rfl := Except.ok.inj (hm.symm.trans hm₁)
  obtain ⟨-, goesOn, -, keeps⟩ := every _ c hp
  obtain ⟨y, hy, here, -, a', copy, consumed⟩ := keeps 1 after 0 a ha
  obtain ⟨z, hz, there, -, b', copy', consumed'⟩ := keeps 1 after 1 b hb
  simp only [List.map_cons, List.map_nil, List.cons.injEq, and_true] at first second
  refine ⟨s, c₀, c, y, z, a', b', hs, hm, hp, goesOn, hy, here, copy, ?_, hz, there, copy', ?_⟩
  · have began := consumed 0 0 first.1
    have waits := consumed 1 2 first.2
    omega
  · have went := consumed' 1 1 second.2.1
    have waits := consumed' 2 2 second.2.2
    omega

end Ensemble

end Mobility
