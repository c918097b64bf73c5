import Mobility.Proofs.Ensemble.Schedules
import Mobility.Proofs.Queue.Points

/-!
# Links are queues

In every run, whatever the schedule and whether or not somebody fails, each owned link is one queue, also if agents
enter it from other partitions: agents leave it in the order in which they came to it, whoever comes from here stays
behind those from a neighbor who wait in front of it, nobody is lost between the front of the link and the link, and
nobody leaves before the second which was noted when it entered (`Ensemble.links_are_queues`). Who has come and who has
left is what the acts of the process have written down, turn by turn (`Ensemble.Watched`), and the link is in order at
every point of every turn.
-/

set_option autoImplicit false

namespace Mobility

open Act

/-! ## The second of a process -/

/-- A second in which messages travel isn't the last one that can be named. -/
def Stage.InTime : Stage → Prop
  | sending _ now _ | receiving _ now _ _ => now < Clock.last
  | working _ | arriving _ | waiting .. | done | failed _ => True

/-- A second in which work has been done isn't the last one that can be named. -/
theorem Partition.last_of_depart {p q : Partition} {now : Nat} {b : Buffers} (h : Ends (Partition.depart now) p b q) :
    now < Clock.last := by
  obtain ⟨messages, ⟨w, works, -⟩, -⟩ := Partition.depart_ends h
  obtain ⟨ids, due, -, -, -, visited, -⟩ := Partition.work_ends works
  exact (Agenda.visit_eq_ok visited).2.1

namespace Process

variable {x : Process} {p : Partition} {now : Nat} {lane : Lane} {received : Delivery}

/-- What a process does first in its step can be done. -/
theorem ready_of_inTime (inTime : x.stage.InTime) : x.begins.2.Ready x.begins.1 x.partition := by
  obtain ⟨p, stage⟩ := x
  cases stage with
  | receiving lane now missing received =>
    cases missing with
    | cons => cases lane <;> trivial
    | nil =>
      cases lane with
      | releases => trivial
      | transfers =>
        simp only [begins]
        split
        · exact inTime
        · trivial
  | working | sending | arriving | waiting | done | failed => trivial

theorem inTime_perform {α : Type} {act : Act α} {stage : α → Stage}
    (inTime : ∀ a q, Ends act p a q → (stage a).InTime) : (perform p act stage).stage.InTime := by
  unfold perform
  cases run : act.run p with
  | ok a q => exact inTime a q run
  | error f q => trivial

theorem inTime_proceed (last : now < Clock.last) : (proceed p now received lane).stage.InTime := by
  cases lane with
  | transfers => exact inTime_perform fun _ _ _ => last
  | releases => exact inTime_perform fun _ _ _ => trivial

end Process

namespace Ensemble

variable {c c' d : Ensemble} {turn : Turn}

theorem inTime_of_step (hs : c.step turn = some c') :
    ∃ x y, c.processes[turn.rank]? = some x ∧ c'.processes = c.processes.set turn.rank y ∧
      (x.stage.InTime → y.stage.InTime) := by
  unfold step at hs
  split at hs
  · cases hs
  · rename_i p stage hx
    refine ⟨⟨p, stage⟩, ?_⟩
    split at hs
    · cases hs
      exact ⟨_, hx, rfl, fun _ => Process.inTime_perform fun _ _ ends => Partition.last_of_depart ends⟩
    · unfold post at hs
      split at hs
      · cases hs
        exact ⟨_, hx, rfl, id⟩
      · obtain ⟨data, -, rfl⟩ := Option.map_eq_some_iff.1 hs
        split
        · exact ⟨_, hx, rfl, id⟩
        · exact ⟨_, hx, rfl, fun _ => trivial⟩
    · cases hs
      exact ⟨_, hx, rfl, Process.inTime_proceed⟩
    · unfold take at hs
      split at hs
      · cases hs
      · cases hs
        split
        · exact ⟨_, hx, rfl, id⟩
        · exact ⟨_, hx, rfl, fun _ => trivial⟩
    · cases hs
      exact ⟨_, hx, rfl, fun _ => trivial⟩
    · split at hs
      · cases hs
        refine ⟨_, hx, rfl, fun _ => ?_⟩
        dsimp only
        split <;> trivial
      · cases hs
    · cases hs
    · cases hs

/-- How process `rank` sees a link. -/
def view? (c : Ensemble) (rank link : Nat) : Option LinkView :=
  c.processes[rank]?.bind fun x => x.partition.links[link]?

/-- No process is in the last second that can be named. -/
def InTime (c : Ensemble) : Prop := ∀ x ∈ c.processes, x.stage.InTime

theorem InTime.step (h : c.InTime) (hs : c.step turn = some c') : c'.InTime := by
  obtain ⟨x, y, hx, processes, inTime⟩ := inTime_of_step hs
  intro z hz
  rw [processes] at hz
  rcases List.mem_or_eq_of_mem_set hz with hz | rfl
  · exact h z hz
  · exact inTime (h x (List.mem_of_getElem? hx))

/-! ## Watching a link -/

/-- `h` is what has been done to a link at process `rank` along the turns from `c₀` on, turn by turn: in a turn of this
process what it writes down from point to point, and nothing in the turn of somebody else. -/
inductive Watched (rank link : Nat) (c₀ : Ensemble) : List Turn → Ensemble → History → Prop where
  | start : Watched rank link c₀ [] c₀ []
  | turn {turns : List Turn} {turn : Turn} {c d : Ensemble} {h k : History} {x : Process}
      (before : Watched rank link c₀ turns c h) (steps : c.step turn = some d)
      (process : c.processes[rank]? = some x) (does : if turn.rank = rank then x.Does? link k else k = []) :
      Watched rank link c₀ (turns ++ [turn]) d (h ++ k)

/-- The turns say what has been done. -/
theorem Watched.unique {rank link : Nat} {c₀ : Ensemble} {turns : List Turn} {h k : History}
    (f : Watched rank link c₀ turns c h) (g : Watched rank link c₀ turns d k) : c = d ∧ h = k := by
  induction f generalizing d k with
  | start =>
    generalize hturns : ([] : List Turn) = turns at g
    cases g with
    | start => exact ⟨rfl, rfl⟩
    | turn => exact absurd hturns (by simp)
  | @turn turns turn c c' h h' x before steps process does ih =>
    generalize hturns : turns ++ [turn] = turns' at g
    cases g with
    | start => exact absurd hturns (by simp)
    | @turn turns'' turn'' c'' _ k k' y before' steps' process' does' =>
      obtain ⟨rfl, last⟩ := List.append_inj' hturns rfl
      obtain rfl := List.singleton_inj.1 last
      obtain ⟨rfl, rfl⟩ := ih before'
      obtain rfl := Option.some.inj (steps.symm.trans steps')
      obtain rfl := Option.some.inj (process.symm.trans process')
      refine ⟨rfl, congrArg _ ?_⟩
      split at does
      · rename_i own
        rw [if_pos own] at does'
        exact does.unique does'
      · rename_i other
        rw [if_neg other] at does'
        rw [does, does']

/-- What has been done to a link which the process owns has turned its view `v₀` into the one that is there. -/
structure Watching (rank link : Nat) (c₀ : Ensemble) (v₀ : LinkView) (turns : List Turn) (c : Ensemble) (h : History) :
    Prop where
  watched : Watched rank link c₀ turns c h
  inTime : c.InTime
  view : ∃ v, c.view? rank link = some v ∧ v.isOwned = true ∧ Follows v₀ h v

namespace Watching

variable {rank link : Nat} {c₀ : Ensemble} {v₀ : LinkView} {turns rest : List Turn} {h : History}

/-- Whatever a step does, the link can be watched. -/
theorem step (f : Watching rank link c₀ v₀ turns c h) (hs : c.step turn = some d) :
    ∃ k, Watching rank link c₀ v₀ (turns ++ [turn]) d (h ++ k) := by
  obtain ⟨v, seen, owned, follows⟩ := f.view
  obtain ⟨x, hx, view⟩ := Option.bind_eq_some_iff.1 seen
  obtain ⟨y, q, stage, hy, processes, acts⟩ := step_acts hs
  by_cases own : turn.rank = rank
  · subst own
    obtain rfl := Option.some.inj (hx.symm.trans hy)
    obtain ⟨n, ended, there⟩ := Process.ended_of_acts acts view owned
    obtain ⟨w, here, done⟩ :=
      Process.follows_point (Process.ready_of_inTime (f.inTime x (List.mem_of_getElem? hx))) view owned n
    obtain ⟨inside, -⟩ := List.getElem?_eq_some_iff.1 hx
    refine ⟨_, .turn f.watched hs hx (by rw [if_pos rfl]; exact ⟨n, ended, rfl⟩), f.inTime.step hs, w, ?_,
      done.isOwned owned, follows.trans done⟩
    rw [view?, processes, List.getElem?_set_self inside, Option.bind_some, ← there, here]
  · refine ⟨[], .turn f.watched hs hx (by rw [if_neg own]), f.inTime.step hs, v, ?_, owned, ?_⟩
    · rw [view?, processes, List.getElem?_set_ne own, hx, Option.bind_some, view]
    · rwa [List.append_nil]

theorem play (f : Watching rank link c₀ v₀ turns c h) (hp : Ensemble.play rest c = some d) :
    ∃ k, Watching rank link c₀ v₀ (turns ++ rest) d k := by
  induction rest generalizing turns c h with
  | nil =>
    obtain rfl := Option.some.inj hp
    exact ⟨h, by rwa [List.append_nil]⟩
  | cons turn rest ih =>
    obtain ⟨e, hs, hp⟩ := Option.bind_eq_some_iff.1 hp
    obtain ⟨k, f'⟩ := f.step hs
    have later := ih f' hp
    rwa [List.append_assoc] at later

end Watching

/-! ## Every link is a queue -/

variable {s : Scenario} {timing : Timing} {c₀ : Ensemble} {rank link : Nat} {v v₀ : LinkView}
  {turns : List Turn}

/-- Nobody is on a link or in front of it before the first second. -/
theorem empty_of_make (hm : make s timing = .ok c₀) (view : c₀.view? rank link = some v) :
    v.queue = [] ∧ v.inbound = [] := by
  obtain ⟨rfl, -⟩ := make_eq_ok hm
  obtain ⟨x, hx, hv⟩ := Option.bind_eq_some_iff.1 view
  obtain ⟨p, hp, rfl⟩ := List.mem_map.1 (List.mem_of_getElem? hx)
  obtain ⟨i, -, rfl⟩ := List.mem_map.1 hp
  obtain ⟨spec, -, rfl⟩ := Array.mem_map.1 (Array.mem_of_getElem? hv)
  split
  · split <;> exact ⟨rfl, rfl⟩
  · split <;> exact ⟨rfl, rfl⟩

theorem inTime_of_make (hm : make s timing = .ok c₀) : c₀.InTime := by
  obtain ⟨rfl, -⟩ := make_eq_ok hm
  intro x hx
  obtain ⟨p, -, rfl⟩ := List.mem_map.1 hx
  trivial

/-- However the turns go, and whether or not somebody fails, a link which a process owns behaves as one queue. The
turns say what has been done to it, which is what the acts of the process have written down: whoever has come to it in
its turn or from a neighbor, and whoever was taken from it. And at every point of every turn, whoever has come has
left, is on the link or waits in front of it, all in the order of coming, and nobody has left before its time. Every
turn of the process leads through these points to the view of the link which it leaves, and whatever state the process
reaches in its turn is there at one of them. -/
theorem links_are_queues (hm : make s timing = .ok c₀) (hp : play turns c₀ = some c)
    (view : c₀.view? rank link = some v₀) (owned : v₀.isOwned = true) :
    ∃ h x, Watched rank link c₀ turns c h ∧ (∀ d k, Watched rank link c₀ turns d k → k = h) ∧
      c.processes[rank]? = some x ∧
      (∀ n, ∃ v, (x.point link n).partition.links[link]? = some v ∧ v.isOwned = true ∧
        Follows v₀ (h ++ (x.point link n).done) v ∧ v.InOrder (h ++ (x.point link n).done) ∧
        (x.point link n).partition.Registers x.begins.1 link) ∧
      (∀ k, k <+: h → ∃ v, Follows v₀ k v ∧ v.InOrder k) ∧
      (∀ turn d, c.step turn = some d → turn.rank = rank →
        ∃ n, (x.point link n).task = .ended ∧ d.view? rank link = (x.point link n).partition.links[link]?) ∧
      (∀ now m p, x.stage = .working now → Partition.Reaches now x.partition m p →
        ∃ n, (x.point link n).partition = p) ∧
      ∀ now delivery entrants p, x.stage = .receiving .transfers now [] delivery →
        Partition.Receives now delivery x.partition entrants p → ∃ n, (x.point link n).partition = p := by
  obtain ⟨queue, inbound⟩ := empty_of_make hm view
  have start : Watching rank link c₀ v₀ [] c₀ [] := ⟨.start, inTime_of_make hm, v₀, view, owned, .nil⟩
  obtain ⟨h, watched, inTime, v, seen, owned, follows⟩ := start.play hp
  obtain ⟨x, hx, there⟩ := Option.bind_eq_some_iff.1 seen
  have ready := Process.ready_of_inTime (inTime x (List.mem_of_getElem? hx))
  refine ⟨h, x, watched, fun d k g => (g.unique watched).2, hx, fun n => ?_, fun k before => ?_,
    fun turn d hs own => ?_, fun now m p stage reaches => ?_, fun now delivery entrants p stage receives => ?_⟩
  · obtain ⟨w, here, done⟩ := Process.follows_point ready there owned n
    have later := follows.trans done
    exact ⟨w, here, done.isOwned owned, later, later.inOrder queue inbound,
      Partition.registers here (done.isOwned owned)⟩
  · obtain ⟨w, reached⟩ := follows.prefixes before
    exact ⟨w, reached, reached.inOrder queue inbound⟩
  · subst own
    obtain ⟨y, q, stage, hy, processes, acts⟩ := step_acts hs
    obtain rfl := Option.some.inj (hx.symm.trans hy)
    obtain ⟨n, ended, leads⟩ := Process.ended_of_acts acts there owned
    obtain ⟨inside, -⟩ := List.getElem?_eq_some_iff.1 hx
    exact ⟨n, ended, by rw [view?, processes, List.getElem?_set_self inside, Option.bind_some, leads]⟩
  · obtain ⟨n, done, -, here⟩ : x.At now link (.work m) p := Process.at_of_reaches stage reaches
    exact ⟨n, by rw [here]⟩
  · obtain ⟨n, done, -, here⟩ : x.At now link (.receive entrants) p := Process.at_of_receives stage receives
    exact ⟨n, by rw [here]⟩

/-- The ring after two seconds: the agent has left the link of the first process and has come to the link of the second
one, where it is still. -/
theorem links_are_queues_ring : ∃ s c₀ c v₀ x h, Scenario.ring.partition .modulo = .ok s ∧
    make s ⟨0, 3, 0, 0⟩ = .ok c₀ ∧ play (List.replicate 2 Turn.inTurns).flatten c₀ = some c ∧
    c₀.view? 1 1 = some v₀ ∧ v₀.isOwned = true ∧ c.processes[1]? = some x ∧
    Watched 1 1 c₀ (List.replicate 2 Turn.inTurns).flatten c h ∧
    (∀ n, ∃ v, (x.point 1 n).partition.links[1]? = some v ∧ v.InOrder (h ++ (x.point 1 n).done)) ∧
    h.arrivals = h.departed ++ [0] := by
  have start : (trial .ring .modulo ⟨0, 3, 0, 0⟩ []).any
      (fun r => (r.2.view? 1 1).any (·.isOwned)) = true := by decide +kernel
  have runs : (trial .ring .modulo ⟨0, 3, 0, 0⟩ (List.replicate 2 Turn.inTurns).flatten).any
      (fun r => (r.2.view? 1 1).any fun v => v.queue.map (·.agent) = [0] ∧ v.inbound = []) = true := by
    decide +kernel
  obtain ⟨s, c₁, c₀, hs, hm, h₀, hc₀⟩ := exists_of_trial start
  obtain ⟨s', c₂, c, hs', hm', hp, hc⟩ := exists_of_trial runs
  obtain rfl := Option.some.inj h₀
  obtain rfl := Except.ok.inj (hs.symm.trans hs')
  obtain rfl := Except.ok.inj (hm.symm.trans hm')
  obtain ⟨v₀, view₀, owned⟩ := (Option.any_eq_true _ _).1 hc₀
  obtain ⟨v, view, seen⟩ := (Option.any_eq_true _ _).1 hc
  obtain ⟨queue, inbound⟩ := of_decide_eq_true seen
  obtain ⟨h, x, watched, -, hx, inOrder, -⟩ := links_are_queues hm hp view₀ owned
  refine ⟨s, c₁, c, v₀, x, h, hs, hm, hp, view₀, owned, hx, watched, fun n => ?_, ?_⟩
  · obtain ⟨w, there, -, -, ordered, -⟩ := inOrder n
    exact ⟨w, there, ordered⟩
  · obtain ⟨w, there, -, -, ordered, -⟩ := inOrder 0
    rw [view?, hx, Option.bind_some] at view
    obtain rfl := Option.some.inj (there.symm.trans view)
    have agents := ordered.agents
    rw [queue, inbound, List.append_nil] at agents
    rwa [show (x.point 1 0).done = [] from rfl, List.append_nil] at agents

end Ensemble

end Mobility
