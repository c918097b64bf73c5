import Mobility.Proofs.Ensemble.Schedules
import Mobility.Proofs.Partition.Timetable
import Mobility.Proofs.Rested

/-!
# No link is forgotten

Whenever a partition has completed a second, every link which it owns and on which there are agents
stands in its agenda once, for the second at which the first of them may leave, and no other link does.
Nobody is on a link beyond its capacity, and nobody waits in front of a link which has room
(`Ensemble.links_scheduled`).
-/

set_option autoImplicit false

namespace Mobility

open Act Second Mobility.Partition

namespace Scenario

variable {s : Scenario} {timing : Timing} {now rank : Nat} {p q : Partition}

/-! ## A run of one partition -/

theorem FirstView.packed {spec : LinkSpec} {v : LinkView} (h : FirstView s rank spec v) :
    v.front? = none ∧ v.Packed := by
  cases h with
  | owned | gateway =>
    refine ⟨rfl, fun l hl => ?_, ?_⟩
    · obtain rfl := Option.some.inj hl
      exact Nat.zero_le _
    · rintro _ ⟨⟩
      try exact fun waiting => absurd rfl waiting
  | proxy | remote => exact ⟨rfl, .of_foreign rfl⟩

theorem scheduled_initial (s : Scenario) (timing : Timing) (rank : Nat) :
    (Partition.initial s timing rank).Scheduled timing.stop timing.start [] := by
  have first : ∀ link, ((Partition.initial s timing rank).seen link).front? = none ∧
      ((Partition.initial s timing rank).seen link).Packed := by
    intro link
    cases h : (s.views rank)[link]? with
    | none =>
      have seen : (Partition.initial s timing rank).seen link = .remote 0 0 := by
        show ((s.views rank)[link]?).getD _ = _
        rw [h]
        rfl
      rw [seen]
      exact ⟨rfl, .of_foreign rfl⟩
    | some v =>
      rw [Partition.seen_of_view (p := Partition.initial s timing rank) h]
      obtain ⟨spec, -, first⟩ := firstView h
      exact first.packed
  refine ⟨rfl, rfl, fun link => ?_, fun link => (first link).2⟩
  rw [if_neg List.not_mem_nil, Partition.headDates, (first link).1]
  rfl

/-- Partition `rank` after all seconds before `now`. -/
structure Timely (s : Scenario) (timing : Timing) (now rank : Nat) (p : Partition) : Prop where
  setting : Kept LinkView.Alike (Partition.initial s timing rank) p
  scheduled : p.Scheduled timing.stop now []

theorem Timely.second {r u : Partition} {b b' : Buffers} {d d' : Delivery}
    (h : s.Timely timing now rank p) (depart : Ends (Partition.depart now) p b r)
    (arrive : Ends (Partition.arrive now d) r b' u)
    (settle : Ends (Partition.receiveReleases now d') u () q) : s.Timely timing (now + 1) rank q := by
  refine ⟨h.setting.trans ((kept_depart depart).trans (((kept_arrive arrive).mono
    LinkView.Same.alike).trans ((kept_receiveReleases settle).mono LinkView.Same.alike))), ?_⟩
  obtain ⟨messages, ⟨w, work, mailed⟩, -⟩ := depart_ends depart
  obtain ⟨ids, dueAgents, links, dueLinks, w', -, -, due, -⟩ := work_ends work
  exact (((h.scheduled.work work).mailed mailed).arrive (Agenda.visit_eq_ok due).2.1 arrive).settle
    settle

theorem timely_run {count : Nat} {ps : List Partition}
    (h : run count timing.start (s.cast timing) = some ps) :
    ∀ (i : Nat) p, ps[i]? = some p → s.Timely timing (timing.start + count) i p :=
  run_keeps (P := s.Timely timing) (fun h depart arrive settle => h.second depart arrive settle)
    (fun i p hp => by
      rw [getElem?_cast hp]
      exact ⟨Std.Refl.refl _, s.scheduled_initial timing i⟩) h

/-- What a partition knows of one of its links after all seconds before `now`. -/
theorem Timely.link {link : Nat} {v : LinkView} {l : Link} (h : s.Timely timing now rank p)
    (view : p.links[link]? = some v) (owned : v.link? = some l) :
    p.dueLinks.dates link =
        (l.queue.head?.map fun head => Agenda.slot timing.stop (max head.finish now)).toList ∧
      ∃ spec, s.links[link]? = some spec ∧ l.queue.length ≤ max 1 spec.capacity ∧
        ∀ g, v = .gateway g → g.inbound ≠ [] → l.queue.length = max 1 spec.capacity := by
  have dates := h.scheduled.dates link
  have packed := h.scheduled.packed link
  rw [if_neg List.not_mem_nil, headDates, seen_of_view view, LinkView.front_eq owned] at dates
  rw [seen_of_view view] at packed
  obtain ⟨v₀, hv₀, alike⟩ := h.setting.view view
  obtain ⟨spec, hspec, first⟩ := firstView hv₀
  have capacity : l.capacity = max 1 spec.capacity := by
    have cleared : v.cleared.link?.map (·.capacity) = v₀.cleared.link?.map (·.capacity) := by rw [alike]
    rw [Nat.max_comm]
    cases v with
    | owned l' =>
      obtain rfl := Option.some.inj owned
      cases first with
      | owned | gateway => exact Option.some.inj cleared
      | proxy | remote => cases cleared
    | gateway g =>
      obtain rfl := Option.some.inj owned
      cases first with
      | owned | gateway => exact Option.some.inj cleared
      | proxy | remote => cases cleared
    | proxy | remote => cases owned
  have room := packed.room l owned
  refine ⟨dates, spec, hspec, capacity ▸ room, fun g hg waiting => ?_⟩
  have full := packed.inbound g hg waiting
  obtain rfl : g.link = l := by
    rw [hg] at owned
    exact Option.some.inj owned
  have : g.link.capacity ≤ g.link.queue.length := by simpa [Link.isFull] using full
  omega

end Scenario

/-! ## Completed seconds of a process -/

/-- The process has completed second `t` and has not begun the next one, in a run until second `stop`. -/
def Stage.isAfter (stop t : Nat) : Stage → Bool
  | .arriving now | .waiting now _ => now = t
  | .working now => now = t + 1
  | .done => t = stop
  | .sending .. | .receiving .. | .failed _ => false

namespace Ensemble

variable {raw s : Scenario} {method : Method} {timing : Timing} {schedule : List Turn}
  {c c₀ : Ensemble} {x : Process} {t : Nat}

/-- Whatever schedule and whoever fails: a process which has completed a second has gone through all
seconds before. -/
theorem timely_of_play (hs : raw.partition method = .ok s) (hsize : s.numParts ≤ Wire.base)
    (hm : make s timing = .ok c₀) (hp : play schedule c₀ = some c) (hx : x ∈ c.processes)
    (after : x.stage.isAfter timing.stop t = true) :
    ∃ i, s.Timely timing (t + 1) i x.partition := by
  obtain ⟨⟨d, count, ps, unfailed, hrun, scene⟩, -⟩ := shadows hs hsize hm hp
  obtain ⟨i, hi⟩ := List.mem_iff_getElem?.1 hx
  have hi := unfailed.others i x hi fun f hf => by rw [hf] at after; cases after
  have start : ∀ p, ps[i]? = some p → s.Timely timing (timing.start + count) i p :=
    Scenario.timely_run hrun i
  have ends : ∀ p, settled (timing.start + count) ps i = some p →
      s.Timely timing (timing.start + count + 1) i p := by
    intro p hsettled
    obtain ⟨q, b, r, e, b', u, e', hq, depart, arrive, settle⟩ := acts_of_settled hsettled
    exact (start q hq).second depart arrive settle
  refine ⟨i, ?_⟩
  cases scene.places i x hi with
  | @late p second since state inTime before ended ahead =>
    have : second = t := of_decide_eq_true after
    have before : second + 1 = timing.start + count := before
    rw [← this, before]
    exact start p state
  | @working p state inTime =>
    have : timing.start + count = t + 1 := of_decide_eq_true after
    rw [← this]
    exact start p state
  | @arriving p state inTime =>
    have : timing.start + count = t := of_decide_eq_true after
    rw [← this]
    exact ends p state
  | @waiting p state inTime =>
    have : timing.start + count = t := of_decide_eq_true after
    rw [← this]
    exact ends p state
  | @done p state ended =>
    have : t = timing.stop := of_decide_eq_true after
    have ended : timing.start + count = timing.stop + 1 := ended
    rw [this, ← ended]
    exact start p state
  | sending | receiving => simp [Stage.isAfter] at after

/-- However the turns went and whoever has failed: when a partition has completed second `t`, then on
each link `l` which it owns there are no more agents than the link has room for. The link stands in the
agenda once if there are any, and not at all if there are none: it is due when the first agent may leave,
but not before the next second, or after the end of the horizon. If agents wait in front of the link, it
is full. -/
theorem links_scheduled (hs : raw.partition method = .ok s) (hsize : s.numParts ≤ Wire.base)
    (hm : make s timing = .ok c₀) (hp : play schedule c₀ = some c) (hx : x ∈ c.processes)
    (after : x.stage.isAfter timing.stop t = true) {link : Nat} {v : LinkView} {l : Link}
    (view : x.partition.links[link]? = some v) (owned : v.link? = some l) :
    ∃ spec, s.links[link]? = some spec ∧ l.queue.length ≤ max 1 spec.capacity ∧
      x.partition.dueLinks.dates link = (l.queue.head?.map fun head =>
        if max head.finish (t + 1) ≤ timing.stop then some (max head.finish (t + 1)) else none).toList ∧
      ∀ g, v = .gateway g → g.inbound ≠ [] → l.queue.length = max 1 spec.capacity := by
  obtain ⟨i, timely⟩ := timely_of_play hs hsize hm hp hx after
  obtain ⟨dates, spec, hspec, room, full⟩ := timely.link view owned
  exact ⟨spec, hspec, room, dates, full⟩

end Ensemble

/-! ## A jam -/

/-- The ring with a second agent, which takes its time on the second link. -/
def Scenario.jam : Scenario :=
  { ring with
    links := #[⟨0, 0, 1, ⟨0x3f800000⟩, ⟨0x3f800000⟩, 1, 0⟩,
      ⟨1, 1, 0, ⟨0x41000000⟩, ⟨0x3f800000⟩, 1, 0⟩]
    agents := ring.agents ++ #[.fresh 1 ⟨#[Action.wordOnto 1], by decide⟩ 0 (low16 0)] }

namespace Ensemble

/-- Second 1 of the jam: the first agent waits in front of the second link until second 8, when the other
one leaves it. -/
theorem links_scheduled_jam : ∃ s c₀ c x gate, Scenario.jam.partition .modulo = .ok s ∧
    make s ⟨0, 9, 0, 0⟩ = .ok c₀ ∧ play (List.replicate 2 Turn.inTurns).flatten c₀ = some c ∧
    x ∈ c.processes ∧ x.stage = .working 2 ∧ x.partition.links[1]? = some (.gateway gate) ∧
    gate.inbound = [(0, 0)] ∧ gate.link.queue = [⟨1, 8, none⟩] ∧
    (∃ spec, s.links[1]? = some spec ∧ gate.link.queue.length = max 1 spec.capacity) ∧
    x.partition.dueLinks.dates 1 = [some 8] := by
  have runs : (trial .jam .modulo ⟨0, 9, 0, 0⟩ (List.replicate 2 Turn.inTurns).flatten).any (fun r =>
      r.1.numParts = 2 ∧ r.2.processes.any fun x => x.stage = .working 2 ∧
        (x.partition.links[1]?).any fun v => v = .gateway ⟨[0], ⟨1, ⟨0x41000000⟩, ⟨0x3f800000⟩, 1,
          [⟨1, 8, none⟩]⟩, [(0, 0)], .empty⟩) = true := by decide +kernel
  obtain ⟨s, c₀, c, hs, hm, hp, hc⟩ := exists_of_trial runs
  simp only [decide_eq_true_eq, List.any_eq_true, Option.any_eq_true] at hc
  obtain ⟨parts, x, hx, stage, v, view, rfl⟩ := hc
  obtain ⟨spec, hspec, -, dates, full⟩ := links_scheduled hs (by rw [parts]; decide) hm hp hx
    (t := 1) (by rw [stage]; decide) view rfl
  exact ⟨s, c₀, c, x, _, hs, hm, hp, hx, stage, view, rfl, rfl, ⟨spec, hspec, full _ rfl (by simp)⟩,
    dates⟩

end Ensemble

end Mobility
