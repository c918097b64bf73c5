import Mobility.Proofs.Ensemble.Step
import Mobility.Proofs.Queue.Work
import Mobility.Proofs.Stopping

/-!
# Points between operations

A step of a process is a sequence of tasks, each of which does no more than one thing to a link. A `Point` is a point
between two of them, with all that has been done to one link since the step began: `Point.next` performs the task and
writes down its operations (`Task.operations`), which are those of its acts. So there is only one sequence of points
(`Process.point`), and it leads to where the step leads to (`Process.ended_of_acts`). At every point the operations
which have been written down turn the view of the link before the step into the one which is there
(`Process.follows_point`).
-/

set_option autoImplicit false

namespace Mobility

open Act

theorem Act.fails_return {α : Type} {act : Act Unit} {a : α} {p q : Partition} {f : Failure} :
    (do act; return a : Act α).run p = .error f q ↔ act.run p = .error f q := by
  rw [EStateM.run_bind]
  cases act.run p with
  | ok b r => exact iff_of_false nofun nofun
  | error g r => exact ⟨fun fails => by cases fails; rfl, fun fails => by cases fails; rfl⟩

theorem Act.links_left_bind {α β : Type} {act : Act α} {next : α → Act β} {p : Partition}
    (later : ∀ a, OffLinks (next a)) : ((act >>= next).left p).links = (act.left p).links := by
  cases run : act.run p with
  | ok a q =>
    rw [left_of_ends run, left, run_bind_of_ends run]
    exact later a q
  | error f q => rw [left_of_fails run, left_of_fails (run_bind_of_fails run)]

/-- What a process does next in its step. -/
inductive Task where
  | work (m : Moment)
  /-- The first agent of the link, which has taken its turn, leaves it. -/
  | leave (link budget : Nat) (links : List Nat)
  /-- Those who wait in front of the link are let in. -/
  | usher (link budget : Nat) (links : List Nat)
  /-- The first of these agents is taken in. -/
  | receive (entrants : List Entrant)
  | ended

namespace Task

/-- Does it. -/
def perform (now : Nat) : Task → Act Task
  | work (.serving link (budget + 1) rest) => do
    if ← Partition.tryHead link now then return leave link budget rest
    else return work (.visiting rest)
  | work .posting => return ended
  | work m => do return work (← m.perform now)
  | leave link budget rest => do
    Partition.popHead link
    return usher link budget rest
  | usher link budget rest => do
    Partition.drainInbound link now
    return work (.serving link budget rest)
  | receive [] => return ended
  | receive (e :: rest) => do
    Partition.receiveAgent e.2.2 e.2.1 e.1 now
    return receive rest
  | ended => return ended

/-- What it does to a link. -/
def operations (now link : Nat) (p : Partition) : Task → List Operation
  | work (.acting (id :: _)) => p.entering id link now
  | work (.serving l (_ + 1) _) => p.trying l link now
  | work (.reporting (l :: _)) => if l = link then p.reporting l else []
  | leave l _ _ => if l = link then p.popping l else []
  | usher l _ _ => if l = link then p.draining l now else []
  | receive (e :: _) => p.arriving e link now
  | _ => []

/-- It can be done: unless the second has just begun, it isn't the last one that there is, and whoever leaves a link is
due. -/
def Ready (now : Nat) (p : Partition) : Task → Prop
  | work .calling | ended => True
  | leave link _ _ =>
    now < Clock.last ∧ ∃ v head, p.links[link]? = some v ∧ v.front? = some head ∧ head.finish ≤ now
  | work _ | usher .. | receive _ => now < Clock.last

end Task

/-- A point between two tasks, and what has been done to a link before. -/
structure Point where
  task : Task
  partition : Partition
  done : History

/-- The point after the next task. Whoever fails does nothing else. -/
def Point.next (now link : Nat) (x : Point) : Point :=
  let done := x.done ++ History.at now (x.task.operations now link x.partition)
  match (x.task.perform now).run x.partition with
  | .ok task p => ⟨task, p, done⟩
  | .error _ p => ⟨.ended, p, done⟩

namespace Process

/-- The second in which the process takes its next step, and what it does first. -/
def begins (x : Process) : Nat × Task :=
  match x.stage with
  | .working now => (now, .work .calling)
  | .receiving .transfers now [] received =>
    match Outbox.readTransfers x.partition.rank now x.partition.isVehicle received with
    | .ok transfers =>
      (now, .receive ((transfers.mergeSort fun a b => a.sender ≤ b.sender).flatMap Transfer.entrants))
    | .error _ => (now, .ended)
  | .receiving _ now _ _ | .sending _ now _ | .arriving now | .waiting now _ => (now, .ended)
  | .done | .failed _ => (0, .ended)

/-- The point of the next step of the process after `n` tasks. -/
def point (x : Process) (link n : Nat) : Point :=
  (Point.next x.begins.1 link)^[n] ⟨x.begins.2, x.partition, []⟩

/-- All that is done to a link in the next step of the process. -/
def Does? (x : Process) (link : Nat) (h : History) : Prop :=
  ∃ n, (x.point link n).task = .ended ∧ (x.point link n).done = h

end Process

namespace Task

open Mobility.Partition

variable {now link : Nat} {p q : Partition} {t t' : Task}

theorem handles_perform (ready : t.Ready now p) :
    Leaves (Handles now link (t.operations now link p)) (t.perform now) p := by
  cases t with
  | work m =>
    cases m with
    | calling => exact handles_off (OffLinks.bind (.bind .get fun _ => (attempt_off _).bind fun _ =>
        (OffLinks.modify _ (by intro p; rfl)).bind fun _ => .pure _) fun _ => .pure _)
    | acting ids =>
      cases ids with
      | nil => exact handles_off (OffLinks.bind (.bind .get fun _ => (attempt_off _).bind fun _ =>
          (OffLinks.modify _ (by intro p; rfl)).bind fun _ => .pure _) fun _ => .pure _)
      | cons id rest =>
        have turn : Leaves (Handles now link (p.entering id link now)) (actOrRetry id now) p := by
          refine handles_then (handles_dispatch ready) fun done => ?_
          split
          · exact .pure ()
          · exact wake_off
        exact handles_then (handles_then turn fun _ => .pure _) fun _ => .pure _
    | visiting links =>
      cases links with
      | nil => exact handles_off (OffLinks.bind (.bind .get fun _ => .pure _) fun _ => .pure _)
      | cons l rest =>
        refine handles_off (OffLinks.bind (view_off.bind fun v => ?_) fun _ => .pure _)
        split <;> exact .pure _
    | serving l budget rest =>
      cases budget with
      | zero => exact handles_off (OffLinks.bind (revisitHead_off.bind fun _ => .pure _) fun _ => .pure _)
      | succ budget =>
        refine handles_then (handles_tryHead ready) fun gone => ?_
        split <;> exact .pure _
    | collecting links =>
      cases links with
      | nil => exact handles_off (OffLinks.bind (.bind .get fun _ => .pure _) fun _ => .pure _)
      | cons l rest => exact handles_then (handles_then handles_emptyProxy fun _ => .pure _) fun _ => .pure _
    | reporting links =>
      cases links with
      | nil => exact handles_off (.bind (.pure _) fun _ => .pure _)
      | cons l rest => exact handles_then (handles_then handles_reportGateway fun _ => .pure _) fun _ => .pure _
    | posting => exact handles_off (.pure _)
  | leave l budget rest =>
    obtain ⟨-, v, head, view, front, due⟩ := ready
    exact handles_then (handles_popHead view front due) fun _ => .pure _
  | usher l budget rest => exact handles_then (handles_drainInbound ready) fun _ => .pure _
  | receive entrants =>
    cases entrants with
    | nil => exact handles_off (.pure _)
    | cons e rest => exact handles_then (handles_receiveAgent ready) fun _ => .pure _
  | ended => exact handles_off (.pure _)

theorem ready_work {m : Moment} (last : now < Clock.last) : (work m).Ready now p := by
  cases m with
  | calling => trivial
  | acting | visiting | serving | collecting | reporting | posting => exact last

theorem Ready.last (ready : t.Ready now p) (begun : t ≠ .work .calling) (goes : t ≠ .ended) : now < Clock.last := by
  cases t with
  | work m =>
    cases m with
    | calling => exact absurd rfl begun
    | acting | visiting | serving | collecting | reporting | posting => exact ready
  | leave => exact ready.1
  | usher | receive => exact ready
  | ended => exact absurd rfl goes

/-- But for the first agent of a link and for the end of a second, to work is to do what comes next at a moment. -/
theorem perform_work {m : Moment} (tries : ∀ l budget rest, m ≠ .serving l (budget + 1) rest) (sends : m ≠ .posting) :
    (work m).perform now = (do return work (← m.perform now)) := by
  cases m with
  | serving l budget rest =>
    cases budget with
    | zero => rfl
    | succ budget => exact absurd rfl (tries l budget rest)
  | posting => exact absurd rfl sends
  | calling | acting | visiting | collecting | reporting => rfl

/-- What is done next can be done. -/
theorem Ready.perform (ready : t.Ready now p) (ends : Ends (t.perform now) p t' q) : t'.Ready now q := by
  cases t with
  | work m =>
    by_cases calls : m = .calling
    · subst calls
      obtain ⟨m, r, called, ends⟩ := bind_eq_ok.1 ends
      obtain ⟨rfl, -⟩ := pure_eq_ok.1 ends
      simp only [Moment.perform, bind_eq_ok, get_eq_ok, attempt_eq_ok] at called
      obtain ⟨_, _, -, _, _, ⟨visit, -⟩, -⟩ := called
      exact ready_work (Agenda.visit_eq_ok visit).2.1
    have last := ready.last (by simpa using calls) (by simp)
    by_cases sends : m = .posting
    · subst sends
      obtain ⟨rfl, -⟩ := pure_eq_ok.1 ends
      trivial
    by_cases tries : ∃ l budget rest, m = .serving l (budget + 1) rest
    · obtain ⟨l, budget, rest, rfl⟩ := tries
      obtain ⟨gone, r, tries, ends⟩ := bind_eq_ok.1 ends
      cases tryHead_ends tries with
      | nobody | later | blocked =>
        obtain ⟨rfl, -⟩ := pure_eq_ok.1 ends
        exact last
      | gone view front due turn =>
        -- Whoever has taken its turn still stands first, even if it has entered this link again.
        obtain ⟨rfl, rfl⟩ := pure_eq_ok.1 ends
        obtain ⟨v, there, stays⟩ := front_dispatched turn view front
        exact ⟨last, v, _, there, stays, due⟩
    · rw [perform_work (fun l budget rest same => tries ⟨l, budget, rest, same⟩) sends] at ends
      obtain ⟨m', r, -, ends⟩ := bind_eq_ok.1 ends
      obtain ⟨rfl, -⟩ := pure_eq_ok.1 ends
      exact ready_work last
  | leave l budget rest =>
    obtain ⟨-, rfl⟩ := ends_return.1 ends
    exact ready.1
  | usher l budget rest =>
    obtain ⟨-, rfl⟩ := ends_return.1 ends
    exact ready_work ready
  | receive entrants =>
    cases entrants with
    | nil =>
      obtain ⟨rfl, -⟩ := pure_eq_ok.1 ends
      trivial
    | cons e rest =>
      obtain ⟨-, rfl⟩ := ends_return.1 ends
      exact ready
  | ended =>
    obtain ⟨rfl, -⟩ := pure_eq_ok.1 ends
    trivial

end Task

namespace Process

open Mobility.Partition

variable {x : Process} {now link n k : Nat} {p q r : Partition} {t t' : Task} {m : Moment} {h : History}
  {d : Delivery} {entrants : List Entrant} {f : Failure}

theorem point_succ (x : Process) (link n : Nat) : x.point link (n + 1) = (x.point link n).next x.begins.1 link := by
  unfold point
  rw [Function.iterate_succ_apply']

/-! ## What has been done -/

/-- The operations which have been written down are what has become of the link since the step began. -/
structure Accounts (x : Process) (link : Nat) (y : Point) : Prop where
  ready : y.task.Ready x.begins.1 y.partition
  handles : ∃ ops, y.done = History.at x.begins.1 ops ∧ Handles x.begins.1 link ops x.partition y.partition

theorem Accounts.next {y : Point} (h : x.Accounts link y) : x.Accounts link (y.next x.begins.1 link) := by
  obtain ⟨ops, done, before⟩ := h.handles
  have after := before.trans (Task.handles_perform h.ready)
  unfold Point.next
  rw [done, ← History.at_append]
  unfold left at after
  cases run : (y.task.perform x.begins.1).run y.partition with
  | ok t q =>
    rw [run] at after
    exact ⟨h.ready.perform run, _, rfl, after⟩
  | error f q =>
    rw [run] at after
    exact ⟨trivial, _, rfl, after⟩

theorem accounts_point (link : Nat) (inTime : x.begins.2.Ready x.begins.1 x.partition) :
    ∀ n, x.Accounts link (x.point link n)
  | 0 => ⟨inTime, [], rfl, Std.Refl.refl (r := Handles x.begins.1 link []) x.partition⟩
  | n + 1 => by
    rw [point_succ]
    exact (accounts_point link inTime n).next

/-! ## Where the points lead to -/

/-- Once a step is over nothing else is done. -/
theorem point_ended (ended : (x.point link n).task = .ended) : x.point link (n + k) = x.point link n := by
  induction k with
  | zero => rfl
  | succ k ih =>
    rw [← Nat.add_assoc, point_succ, ih]
    generalize x.point link n = y at ended
    obtain ⟨task, p, done⟩ := y
    obtain rfl : task = .ended := ended
    show (⟨.ended, p, done ++ []⟩ : Point) = ⟨.ended, p, done⟩
    rw [List.append_nil]

/-- So a step does only one thing to a link. -/
theorem Does?.unique {h' : History} (does : x.Does? link h) (does' : x.Does? link h') : h = h' := by
  obtain ⟨n, ended, rfl⟩ := does
  obtain ⟨n', ended', rfl⟩ := does'
  rcases Nat.le_total n n' with le | le <;> obtain ⟨k, rfl⟩ := Nat.exists_eq_add_of_le le
  · rw [point_ended ended]
  · rw [point_ended ended']

/-- The process comes to this task in its step, and its partition is in this state then. -/
def At (x : Process) (now link : Nat) (t : Task) (p : Partition) : Prop :=
  ∃ n h, x.begins.1 = now ∧ x.point link n = ⟨t, p, h⟩

namespace At

theorem goes (h : x.At now link t p) (ends : Ends (t.perform now) p t' q) : x.At now link t' q := by
  obtain ⟨n, done, rfl, here⟩ := h
  refine ⟨n + 1, done ++ History.at x.begins.1 (t.operations x.begins.1 link p), rfl, ?_⟩
  rw [point_succ, here, Point.next, ends]

theorem stops (h : x.At now link t p) (fails : (t.perform now).run p = .error f q) : x.At now link .ended q := by
  obtain ⟨n, done, rfl, here⟩ := h
  refine ⟨n + 1, done ++ History.at x.begins.1 (t.operations x.begins.1 link p), rfl, ?_⟩
  rw [point_succ, here, Point.next, fails]

theorem works (h : x.At now link (.work m) p) (tries : ∀ l budget rest, m ≠ .serving l (budget + 1) rest)
    (sends : m ≠ .posting) : (∀ m' q, Ends (m.perform now) p m' q → x.At now link (.work m') q) ∧
      ∀ f q, (m.perform now).run p = .error f q → x.At now link .ended q := by
  refine ⟨fun m' q ends => h.goes ?_, fun f q fails => h.stops (f := f) ?_⟩
  · rw [Task.perform_work tries sends]
    exact bind_eq_ok.2 ⟨m', q, ends, pure_eq_ok.2 ⟨rfl, rfl⟩⟩
  · rw [Task.perform_work tries sends]
    exact run_bind_of_fails fails

/-- The first agent of a link takes its turn, leaves the link, and makes room for others. -/
theorem serves {l budget : Nat} {rest : List Nat} (h : x.At now link (.work (.serving l (budget + 1) rest)) p) :
    (∀ m' q, Ends ((Moment.serving l (budget + 1) rest).perform now) p m' q → x.At now link (.work m') q) ∧
      ∀ f q, ((Moment.serving l (budget + 1) rest).perform now).run p = .error f q → x.At now link .ended q := by
  -- What is one thing at a moment is two tasks here, since two different things are done to the link.
  have takes : takeHead l now = (do popHead l; drainInbound l now) := by simp only [takeHead, popHead, bind_assoc]
  have leaves : ∀ {r}, Ends (tryHead l now) p true r → x.At now link (.leave l budget rest) r := fun tries =>
    h.goes (bind_eq_ok.2 ⟨true, _, tries, pure_eq_ok.2 ⟨rfl, rfl⟩⟩)
  have admits : ∀ {r s}, Ends (tryHead l now) p true r → Ends (popHead l) r () s →
      x.At now link (.usher l budget rest) s := fun tries pops => (leaves tries).goes (ends_return.2 ⟨pops, rfl⟩)
  rw [perform_serving, takes]
  refine ⟨fun m' q ends => ?_, fun f q fails => ?_⟩
  · obtain ⟨gone, r, tries, ends⟩ := bind_eq_ok.1 ends
    cases gone with
    | false =>
      obtain ⟨rfl, rfl⟩ := pure_eq_ok.1 ends
      exact h.goes (bind_eq_ok.2 ⟨false, r, tries, pure_eq_ok.2 ⟨rfl, rfl⟩⟩)
    | true =>
      obtain ⟨takes, rfl⟩ := ends_return.1 ends
      obtain ⟨⟨⟩, s, pops, drains⟩ := bind_eq_ok.1 takes
      exact (admits tries pops).goes (ends_return.2 ⟨drains, rfl⟩)
  · rw [EStateM.run_bind] at fails
    split at fails
    · rename_i gone r tries
      cases gone with
      | false => cases fails
      | true =>
        rw [if_pos rfl, fails_return, EStateM.run_bind] at fails
        split at fails
        · rename_i pops
          exact (admits tries pops).stops (fails_return.2 fails)
        · rename_i pops
          cases fails
          exact (leaves tries).stops (fails_return.2 pops)
    · rename_i tries
      cases fails
      exact h.stops (run_bind_of_fails tries)

/-- Whatever comes next at a moment. -/
theorem performs (h : x.At now link (.work m) p) :
    (∀ m' q, Ends (m.perform now) p m' q → x.At now link (.work m') q) ∧
      ∀ f q, (m.perform now).run p = .error f q → x.At now link .ended q := by
  by_cases sends : m = .posting
  · subst sends
    refine ⟨fun m' q ends => ?_, nofun⟩
    obtain ⟨rfl, rfl⟩ := pure_eq_ok.1 ends
    exact h
  by_cases tries : ∃ l budget rest, m = .serving l (budget + 1) rest
  · obtain ⟨l, budget, rest, rfl⟩ := tries
    exact h.serves
  · exact h.works (fun l budget rest same => tries ⟨l, budget, rest, same⟩) sends

end At

theorem at_of_reaches (stage : x.stage = .working now) (reaches : Reaches now x.partition m p) :
    x.At now link (.work m) p := by
  induction reaches with
  | begins => exact ⟨0, [], by rw [begins, stage], by rw [point, begins, stage]; rfl⟩
  | goes _ performs ih => exact ih.performs.1 _ _ performs

theorem at_of_receives (stage : x.stage = .receiving .transfers now [] d)
    (receives : Receives now d x.partition entrants p) : x.At now link (.receive entrants) p := by
  induction receives with
  | @begins transfers read =>
    have first : x.begins = (now, .receive ((transfers.mergeSort fun a b => a.sender ≤ b.sender).flatMap
        Transfer.entrants)) := by rw [begins, stage]; simp only [read]
    exact ⟨0, [], by rw [first], by rw [point, first]; rfl⟩
  | goes _ receives ih => exact ih.goes (ends_return.2 ⟨receives, rfl⟩)

/-- The points of the work of a second lead to where it ends or fails. -/
theorem ended_of_depart (link : Nat) (stage : x.stage = .working now) :
    ∃ q, x.At now link .ended q ∧ ((depart now).left x.partition).links = q.links := by
  cases run : (depart now).run x.partition with
  | ok b q =>
    obtain ⟨r, outbox, reaches, rfl⟩ := reaches_of_depart run
    exact ⟨r, (at_of_reaches stage reaches).goes (pure_eq_ok.2 ⟨rfl, rfl⟩), by rw [left_of_ends run]⟩
  | error f q =>
    rw [left_of_fails run]
    cases stops_of_depart run with
    | @amid m r reaches fails => exact ⟨q, (at_of_reaches stage reaches).performs.2 f q fails, rfl⟩
    | @posting r outbox reaches left =>
      exact ⟨r, (at_of_reaches stage reaches).goes (pure_eq_ok.2 ⟨rfl, rfl⟩), by rw [left]⟩

theorem ended_of_receives (h : x.At now link (.receive entrants) p) :
    x.At now link .ended ((entrants.forM fun e => receiveAgent e.2.2 e.2.1 e.1 now).left p) := by
  induction entrants generalizing p with
  | nil => exact h.goes (pure_eq_ok.2 ⟨rfl, rfl⟩)
  | cons e rest ih =>
    have goes : ((e :: rest).forM fun e => receiveAgent e.2.2 e.2.1 e.1 now) = (do
        receiveAgent e.2.2 e.2.1 e.1 now
        rest.forM fun e => receiveAgent e.2.2 e.2.1 e.1 now) := rfl
    rw [goes]
    cases run : (receiveAgent e.2.2 e.2.1 e.1 now).run p with
    | ok b q =>
      have later := ih (h.goes (ends_return.2 ⟨run, rfl⟩))
      unfold left at later ⊢
      rwa [run_bind_of_ends run]
    | error f q =>
      rw [left_of_fails (run_bind_of_fails run)]
      exact h.stops (fails_return.2 run)

/-- The points at which agents are taken in lead to where this ends or fails. -/
theorem ended_of_arrive (link : Nat) (stage : x.stage = .receiving .transfers now [] d) :
    ∃ q, x.At now link .ended q ∧ ((arrive now d).left x.partition).links = q.links := by
  -- Making the releases leaves links alone, so it is enough to get to where everybody is taken in.
  refine ⟨(receiveTransfers now d).left x.partition, ?_, links_left_bind fun _ => sendReleases_off⟩
  cases read : Outbox.readTransfers x.partition.rank now x.partition.isVehicle d with
  | error e =>
    have fails : (receiveTransfers now d).run x.partition = .error (.exchange e) x.partition := by
      rw [receiveTransfers, run_bind_of_ends (ends_get x.partition), read]
      rfl
    have begins : x.begins = (now, .ended) := by rw [begins, stage]; simp only [read]
    rw [left_of_fails fails]
    exact ⟨0, [], by rw [begins], by rw [point, begins]; rfl⟩
  | ok transfers =>
    have reads : (receiveTransfers now d).left x.partition =
        (((transfers.mergeSort fun a b => a.sender ≤ b.sender).flatMap Transfer.entrants).forM fun e =>
          receiveAgent e.2.2 e.2.1 e.1 now).left x.partition := by
      simp only [receiveTransfers, left, run_bind_of_ends (ends_get x.partition), read]
      simp only [receiveTransfer_eq]
      rw [forM_flatMap]
      rfl
    rw [reads]
    exact ended_of_receives (at_of_receives stage (.begins read))

theorem begins_of_idle (idle : x.stage.isBusy = false) : x.begins.2 = .ended := by
  unfold begins
  cases stage : x.stage with
  | working now =>
    rw [stage] at idle
    cases idle
  | receiving lane now missing received =>
    cases missing with
    | nil =>
      rw [stage] at idle
      cases idle
    | cons => cases lane <;> rfl
  | sending | arriving | waiting | done | failed => rfl

theorem begins_of_settles (stage : x.stage = .receiving .releases now [] d) : x.begins = (now, .ended) := by
  rw [begins, stage]

/-- Whatever a process does in its step, the points lead to what comes of a link which it owns. -/
theorem ended_of_acts {v : LinkView} (acts : Ensemble.Acts x q) (view : x.partition.links[link]? = some v)
    (owned : v.isOwned = true) :
    ∃ n, (x.point link n).task = .ended ∧ (x.point link n).partition.links[link]? = q.links[link]? := by
  cases acts with
  | rests idle => exact ⟨0, begins_of_idle idle, rfl⟩
  | works stage =>
    obtain ⟨r, ⟨n, done, -, here⟩, links⟩ := ended_of_depart link stage
    exact ⟨n, by rw [here], by rw [here, links]⟩
  | receives stage =>
    obtain ⟨r, ⟨n, done, -, here⟩, links⟩ := ended_of_arrive link stage
    exact ⟨n, by rw [here], by rw [here, links]⟩
  | settles stage =>
    -- Counts are about links of others, so there is only one point.
    obtain ⟨w, there, becomes⟩ := handles_receiveReleases v view owned
    obtain rfl := Follows.nil_iff.1 becomes
    exact ⟨0, by rw [point, begins_of_settles stage]; rfl, view.trans there.symm⟩

/-- At every point what has been done turns the view of an owned link before the step into the one which is there. -/
theorem follows_point {v : LinkView} (inTime : x.begins.2.Ready x.begins.1 x.partition)
    (view : x.partition.links[link]? = some v) (owned : v.isOwned = true) (n : Nat) :
    ∃ w, (x.point link n).partition.links[link]? = some w ∧ Mobility.Follows v (x.point link n).done w := by
  obtain ⟨-, ops, done, handles⟩ := accounts_point link inTime n
  obtain ⟨w, there, becomes⟩ := handles v view owned
  exact ⟨w, there, done ▸ becomes⟩

end Process

end Mobility
