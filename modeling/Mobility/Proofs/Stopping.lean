import Mobility.Proofs.Moments

/-!
# Where a second stops

What a partition still has to do at a moment, up to its transfers, is an act of its own (`Moment.onward`), and doing
the next thing first makes no difference (`Moment.perform_onward`). So a second which fails has come to a moment at
which the next thing fails (`Partition.stops_of_depart`), and the second fails with whatever is done at a moment
(`Partition.depart_of_stops`).
-/

set_option autoImplicit false

namespace Mobility

theorem Act.run_bind_of_ends {α β : Type} {act : Act α} {next : α → Act β} {a : α} {p q : Partition}
    (h : Ends act p a q) : (act >>= next).run p = (next a).run q := by
  rw [EStateM.run_bind, h]

theorem Act.run_bind_of_fails {α β : Type} {act : Act α} {next : α → Act β} {f : Failure} {p q : Partition}
    (h : act.run p = .error f q) : (act >>= next).run p = .error f q := by
  rw [EStateM.run_bind, h]

open Act

namespace Partition

/-- Takes the transfers out of the outbox. -/
def postTransfers (now : Nat) : Act Buffers := do
  let (buffers, outbox) := (← get).outbox.takeTransfers now
  modify fun p => { p with outbox := outbox }
  communicate buffers

end Partition

namespace Moment

variable {m m' : Moment} {now link budget : Nat} {ids links rest : List Nat} {p q r : Partition}

/-- What a partition does from a moment on, up to its transfers. -/
def onward (now : Nat) : Moment → Act Buffers
  | calling => Partition.depart now
  | acting ids => do
    ids.forM fun id => Partition.actOrRetry id now
    Partition.serveLinks now
    Partition.sendTransfers now
  | visiting links => do
    links.forM fun link => Partition.serveLink link now
    Partition.sendTransfers now
  | serving link budget rest => do
    Partition.serve link now budget
    rest.forM fun link => Partition.serveLink link now
    Partition.sendTransfers now
  | collecting links => do
    links.forM (Partition.emptyProxy now)
    Partition.collectReleases now
    Partition.postTransfers now
  | reporting links => do
    links.forM (Partition.reportGateway now)
    Partition.postTransfers now
  | posting => Partition.postTransfers now

theorem sendTransfers_eq (now : Nat) : Partition.sendTransfers now = (do
    (← get).proxies.forM (Partition.emptyProxy now)
    Partition.collectReleases now
    Partition.postTransfers now) := by
  unfold Partition.sendTransfers Partition.collectAgents Partition.postTransfers
  rw [bind_assoc]

/-- The first agent of a link comes first. -/
theorem perform_onward_serving :
    ((serving link (budget + 1) rest).perform now >>= onward now) = (serving link (budget + 1) rest).onward now := by
  simp only [perform, onward, Partition.serve, bind_assoc]
  refine bind_congr fun v => ?_
  cases v.front? with
  | none => simp only [pure_bind, onward]
  | some head =>
    dsimp only
    split
    · simp only [bind_assoc, pure_bind, onward]
    · simp only [bind_assoc]
      refine bind_congr fun passes => ?_
      cases passes with
      | false => simp only [Bool.false_eq_true, if_false, bind_assoc, pure_bind, onward]
      | true => simp only [if_true, bind_assoc, pure_bind, onward]

/-- Doing the next thing and then what follows is doing all of it. -/
theorem perform_onward (m : Moment) (now : Nat) : (m.perform now >>= onward now) = m.onward now := by
  cases m with
  | calling =>
    simp only [perform, onward, Partition.depart, Partition.work, Partition.serveAgents, bind_assoc, pure_bind]
  | acting ids =>
    cases ids with
    | nil =>
      simp only [perform, onward, Partition.serveLinks, List.forM_nil, List.forM_eq_forM, bind_assoc, pure_bind]
    | cons id rest =>
      simp only [perform, onward, List.forM_eq_forM, List.forM_cons, bind_assoc, pure_bind]
  | visiting links =>
    cases links with
    | nil =>
      simp only [perform, onward, List.forM_nil, List.forM_eq_forM, sendTransfers_eq, bind_assoc, pure_bind]
    | cons link rest =>
      simp only [perform, onward, List.forM_eq_forM, List.forM_cons, Partition.serveLink, bind_assoc]
      refine bind_congr fun v => ?_
      cases v.link? with
      | none => simp only [pure_bind, onward, List.forM_eq_forM, Partition.serveLink]
      | some queue => simp only [pure_bind, onward, List.forM_eq_forM, Partition.serveLink]
  | serving link budget rest =>
    cases budget with
    | zero => simp only [perform, onward, Partition.serve, bind_assoc, pure_bind]
    | succ budget => exact perform_onward_serving
  | collecting links =>
    cases links with
    | nil =>
      simp only [perform, onward, List.forM_nil, List.forM_eq_forM, Partition.collectReleases, bind_assoc, pure_bind]
    | cons link rest => simp only [perform, onward, List.forM_eq_forM, List.forM_cons, bind_assoc, pure_bind]
  | reporting links =>
    cases links with
    | nil => simp only [perform, onward, List.forM_nil, List.forM_eq_forM, pure_bind]
    | cons link rest => simp only [perform, onward, List.forM_eq_forM, List.forM_cons, bind_assoc, pure_bind]
  | posting => simp only [perform, onward, pure_bind]

end Moment

namespace Partition

variable {m m' : Moment} {now link budget : Nat} {ids links rest : List Nat} {p q r : Partition} {f : Failure}

/-- What is left to do at a moment is what is left of the second. -/
theorem Reaches.depart_run (h : Reaches now p m q) : (depart now).run p = (m.onward now).run q := by
  induction h with
  | begins => rfl
  | @goes m m' q r _ performs ih =>
    rw [ih, ← Moment.perform_onward m, run_bind_of_ends performs]

/-- A second fails with whatever is done at its moments. -/
theorem depart_of_stops (h : Reaches now p m q) (fails : (m.perform now).run q = .error f r) :
    (depart now).run p = .error f r := by
  rw [h.depart_run, ← Moment.perform_onward m]
  exact run_bind_of_fails fails

/-- A second which began in state `p` has come to a moment at which the next thing fails, or in which the buffers for
the neighbors aren't right. -/
inductive Stops (now : Nat) (p : Partition) (f : Failure) (r : Partition) : Prop where
  | amid {m : Moment} {q : Partition} (reaches : Reaches now p m q) (fails : (m.perform now).run q = .error f r)
  | posting {q : Partition} {outbox : Outbox} (reaches : Reaches now p .posting q)
      (left : r = { q with outbox := outbox })

theorem Stops.next (h : Reaches now p m q) (fails : (m.onward now).run q = .error f r)
    (later : ∀ m' s, Ends (m.perform now) q m' s → (m'.onward now).run s = .error f r → Stops now p f r) :
    Stops now p f r := by
  rw [← Moment.perform_onward m, EStateM.run_bind] at fails
  split at fails
  · rename_i m' s ends
    exact later m' s ends fails
  · rename_i failed
    cases fails
    exact .amid h failed

theorem stops_posting (h : Reaches now p .posting q) (fails : (Moment.posting.onward now).run q = .error f r) :
    Stops now p f r := by
  have posts : (postTransfers now).run q = (communicate (q.outbox.takeTransfers now).1).run
      { q with outbox := (q.outbox.takeTransfers now).2 } := rfl
  change (postTransfers now).run q = .error f r at fails
  rw [posts] at fails
  have left : r = { q with outbox := (q.outbox.takeTransfers now).2 } := by
    unfold communicate at fails
    split at fails
    · cases fails
    · cases fails
      rfl
  exact .posting h left

theorem stops_reporting (h : Reaches now p (.reporting links) q)
    (fails : ((Moment.reporting links).onward now).run q = .error f r) : Stops now p f r := by
  induction links generalizing q with
  | nil =>
    refine Stops.next h fails fun m' s ends later => ?_
    obtain ⟨rfl, rfl⟩ := pure_eq_ok.1 ends
    exact stops_posting (h.goes ends) later
  | cons link rest ih =>
    refine Stops.next h fails fun m' s ends later => ?_
    obtain ⟨-, rfl⟩ := ends_return.1 ends
    exact ih (h.goes ends) later

theorem stops_collecting (h : Reaches now p (.collecting links) q)
    (fails : ((Moment.collecting links).onward now).run q = .error f r) : Stops now p f r := by
  induction links generalizing q with
  | nil =>
    refine Stops.next h fails fun m' s ends later => ?_
    have after := h.goes ends
    simp only [Moment.perform, bind_eq_ok, get_eq_ok, pure_eq_ok] at ends
    obtain ⟨_, _, ⟨rfl, rfl⟩, rfl, rfl⟩ := ends
    exact stops_reporting after later
  | cons link rest ih =>
    refine Stops.next h fails fun m' s ends later => ?_
    obtain ⟨-, rfl⟩ := ends_return.1 ends
    exact ih (h.goes ends) later

/-- Agents leave a link until the partition looks at the next one. -/
theorem stops_serving (visits : ∀ s, Reaches now p (.visiting rest) s →
      ((Moment.visiting rest).onward now).run s = .error f r → Stops now p f r)
    (h : Reaches now p (.serving link budget rest) q)
    (fails : ((Moment.serving link budget rest).onward now).run q = .error f r) : Stops now p f r := by
  induction budget generalizing q with
  | zero =>
    refine Stops.next h fails fun m' s ends later => ?_
    obtain ⟨-, rfl⟩ := ends_return.1 ends
    exact visits s (h.goes ends) later
  | succ budget ih =>
    refine Stops.next h fails fun m' s ends later => ?_
    have after := h.goes ends
    simp only [Moment.perform, bind_eq_ok] at ends
    obtain ⟨v, t, -, ends⟩ := ends
    split at ends
    · obtain ⟨rfl, -⟩ := pure_eq_ok.1 ends
      exact visits s after later
    · split at ends
      · obtain ⟨-, rfl⟩ := ends_return.1 ends
        exact visits s after later
      · obtain ⟨passes, u, -, ends⟩ := bind_eq_ok.1 ends
        cases passes with
        | false =>
          obtain ⟨-, rfl⟩ := ends_return.1 ends
          exact visits s after later
        | true =>
          simp only [if_true, bind_eq_ok, pure_eq_ok] at ends
          obtain ⟨w, _, -, x, _, -, ⟨⟩, _, -, ⟨⟩, _, -, rfl, -⟩ := ends
          exact ih after later

theorem stops_visiting (h : Reaches now p (.visiting links) q)
    (fails : ((Moment.visiting links).onward now).run q = .error f r) : Stops now p f r := by
  induction links generalizing q with
  | nil =>
    refine Stops.next h fails fun m' s ends later => ?_
    have after := h.goes ends
    simp only [Moment.perform, bind_eq_ok, get_eq_ok, pure_eq_ok] at ends
    obtain ⟨_, _, ⟨rfl, rfl⟩, rfl, rfl⟩ := ends
    exact stops_collecting after later
  | cons link rest ih =>
    refine Stops.next h fails fun m' s ends later => ?_
    have after := h.goes ends
    simp only [Moment.perform, bind_eq_ok] at ends
    obtain ⟨v, t, -, ends⟩ := ends
    split at ends
    · obtain ⟨rfl, -⟩ := pure_eq_ok.1 ends
      exact ih after later
    · obtain ⟨rfl, -⟩ := pure_eq_ok.1 ends
      exact stops_serving (fun s => ih) after later

theorem stops_acting (h : Reaches now p (.acting ids) q)
    (fails : ((Moment.acting ids).onward now).run q = .error f r) : Stops now p f r := by
  induction ids generalizing q with
  | nil =>
    refine Stops.next h fails fun m' s ends later => ?_
    have after := h.goes ends
    simp only [Moment.perform, bind_eq_ok, pure_eq_ok] at ends
    obtain ⟨_, _, -, x, _, -, ⟨⟩, _, -, rfl, -⟩ := ends
    exact stops_visiting after later
  | cons id rest ih =>
    refine Stops.next h fails fun m' s ends later => ?_
    obtain ⟨-, rfl⟩ := ends_return.1 ends
    exact ih (h.goes ends) later

/-- A second which fails has come to a moment at which it stops. -/
theorem stops_of_depart (fails : (depart now).run p = .error f r) : Stops now p f r := by
  refine Stops.next (m := .calling) .begins fails fun m' s ends later => ?_
  have after := Reaches.begins.goes ends
  simp only [Moment.perform, bind_eq_ok, pure_eq_ok] at ends
  obtain ⟨_, _, -, x, _, -, ⟨⟩, _, -, rfl, -⟩ := ends
  exact stops_acting after later

end Partition

end Mobility
