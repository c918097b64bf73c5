import Mobility.Proofs.Partition.Setting
import Mobility.Proofs.Wire

/-!
# Failures

Most failures of a partition are about its own state. Two of them are about what partitions have
told each other: a message is about another second, or more agents are released than were sent.
Another is that a plan leads to a partition which isn't a neighbor, and two are about steps which a plan
has in the wrong place. These are notable (`Failure.isNotable`), and few acts fail in such a way: the ones
which read messages and apply counts, the ones which empty the outbox, and turns of agents. For all others
this is seen from their parts (`Act.Quiet`).
-/

set_option autoImplicit false

namespace Mobility

/-- More agents were released than were sent. -/
def Fault.isDiscord : Fault → Bool
  | .releasedTooMany .. => true
  | _ => false

/-- Two partitions disagree about the second or about the agents on a link. -/
def Failure.isDiscord : Failure → Bool
  | .fault f => f.isDiscord
  | .exchange (.unexpectedTime ..) => true
  | .exchange _ => false

/-- A plan leads to a partition which isn't a neighbor. -/
def Failure.isStranger : Failure → Bool
  | .exchange (.notANeighbor _) => true
  | _ => false

/-- An agent dispatches a step which only a vehicle executes, or it waits without saying where it leaves. -/
def Failure.isMisplanned : Failure → Bool
  | .fault (.notAboard ..) | .fault (.noEgress ..) => true
  | _ => false

/-- It isn't only the state of a partition that is wrong. -/
def Failure.isNotable (f : Failure) : Bool := f.isDiscord || f.isStranger || f.isMisplanned

theorem Failure.isNotable_eq_false {f : Failure} :
    f.isNotable = false ↔ f.isDiscord = false ∧ f.isStranger = false ∧ f.isMisplanned = false := by
  rw [isNotable, Bool.or_eq_false_iff, Bool.or_eq_false_iff, and_assoc]

theorem Failure.isNotable_of_isDiscord {f : Failure} (h : f.isDiscord = true) : f.isNotable = true := by
  rw [isNotable, h, Bool.true_or, Bool.true_or]

theorem Failure.isNotable_of_isStranger {f : Failure} (h : f.isStranger = true) : f.isNotable = true := by
  rw [isNotable, h, Bool.or_true, Bool.true_or]

theorem Failure.isNotable_of_isMisplanned {f : Failure} (h : f.isMisplanned = true) :
    f.isNotable = true := by
  rw [isNotable, h, Bool.or_true]

theorem Failure.isStranger_of_isMisplanned {f : Failure} (h : f.isMisplanned = true) : f.isStranger = false := by
  unfold isMisplanned at h
  split at h
  · rfl
  · rfl
  · cases h

theorem Failure.isDiscord_of_isMisplanned {f : Failure} (h : f.isMisplanned = true) : f.isDiscord = false := by
  unfold isMisplanned at h
  split at h
  · rfl
  · rfl
  · cases h

/-- The act never fails in a notable way. -/
def Act.Quiet {α : Type} (act : Act α) : Prop :=
  ∀ p f q, act.run p = .error f q → f.isNotable = false

/-- The result isn't a notable fault. -/
def Harmless {α : Type} (x : Except Fault α) : Prop :=
  ∀ f, x = .error f → (Failure.fault f).isNotable = false

namespace Act.Quiet

variable {α β : Type} {act : Act α} {next : α → Act β}

/-! ## Acts made of acts -/

theorem pure (a : α) : Quiet (pure a) := by
  intro p f q h
  cases h

theorem get : Quiet (α := Partition) MonadState.get := by
  intro p f q h
  cases h

theorem modify (g : Partition → Partition) : Quiet (modify g) := by
  intro p f q h
  cases h

theorem fail {f : Failure} (h : f.isNotable = false) : Quiet (throw f : Act α) := by
  intro p f' q hf
  cases hf
  exact h

theorem bind (h : act.Quiet) (hn : ∀ a, (next a).Quiet) : (act >>= next).Quiet := by
  intro p f q hf
  rw [EStateM.run_bind] at hf
  split at hf
  · exact hn _ _ _ _ hf
  · rename_i e s hr
    cases hf
    exact h _ _ _ hr

theorem forM {xs : List α} {each : α → Act Unit} (h : ∀ x ∈ xs, (each x).Quiet) :
    Quiet (xs.forM each) := by
  induction xs with
  | nil => exact pure ()
  | cons x rest ih =>
    exact (h x List.mem_cons_self).bind fun _ => ih fun y hy => h y (List.mem_cons_of_mem _ hy)

theorem mapM {xs : List α} {each : α → Act β} (h : ∀ x ∈ xs, (each x).Quiet) :
    Quiet (xs.mapM each) := by
  induction xs with
  | nil => exact pure []
  | cons x rest ih =>
    rw [List.mapM_cons]
    exact (h x List.mem_cons_self).bind fun _ =>
      (ih fun y hy => h y (List.mem_cons_of_mem _ hy)).bind fun _ => pure _

/-- If the first of two acts is quiet, something notable goes wrong in the second. -/
theorem later {p q : Partition} {f : Failure} (h : act.Quiet) (fails : (act >>= next).run p = .error f q)
    (notable : f.isNotable = true) : ∃ a r, Ends act p a r ∧ (next a).run r = .error f q := by
  rw [EStateM.run_bind] at fails
  split at fails
  · rename_i a r ends
    exact ⟨a, r, ends, fails⟩
  · rename_i e s stops
    cases fails
    exact absurd ((h _ _ _ stops).symm.trans notable) Bool.false_ne_true

/-- A quiet act doesn't fail in a notable way. -/
theorem elim {p q : Partition} {f : Failure} {P : Prop} (h : act.Quiet) (fails : act.run p = .error f q)
    (notable : f.isNotable = true) : P :=
  absurd ((h _ _ _ fails).symm.trans notable) Bool.false_ne_true

end Act.Quiet

namespace Act

/-- A loop fails in one of its rounds. -/
theorem forM_eq_error {α : Type} {xs : List α} {each : α → Act Unit} {p q : Partition} {f : Failure}
    (h : (xs.forM each).run p = .error f q) :
    ∃ before x after r, xs = before ++ x :: after ∧
      Along (fun x p q => Ends (each x) p () q) before p r ∧ (each x).run r = .error f q := by
  induction xs generalizing p with
  | nil => cases h
  | cons x rest ih =>
    change (each x >>= fun _ => rest.forM each).run p = .error f q at h
    rw [EStateM.run_bind] at h
    split at h
    · rename_i r hx
      obtain ⟨before, y, after, s, rfl, ha, hy⟩ := ih h
      exact ⟨x :: before, y, after, s, rfl, .cons hx ha, hy⟩
    · rename_i hx
      cases h
      exact ⟨[], x, rest, p, rfl, .nil, hx⟩

end Act

/-! ## Operations which may be a fault -/

namespace Harmless

variable {α β : Type}

theorem ok (a : α) : Harmless (.ok a) := by
  intro f h
  cases h

theorem error {f : Fault} (h : (Failure.fault f).isNotable = false) : Harmless (.error f : Except Fault α) := by
  intro f' hf
  cases hf
  exact h

theorem bind {x : Except Fault α} {next : α → Except Fault β} (h : Harmless x)
    (hn : ∀ a, Harmless (next a)) : Harmless (x >>= next) := by
  cases x with
  | ok a => exact hn a
  | error f => exact error (h f rfl)

theorem map {x : Except Fault α} {g : α → β} (h : Harmless x) : Harmless (x.map g) := by
  cases x with
  | ok a => exact ok (g a)
  | error f => exact error (h f rfl)

theorem add (a : Agenda α) (value : α) (time : Nat) : Harmless (a.add value time) := by
  unfold Agenda.add
  split
  · exact error rfl
  · split
    · exact ok _
    · exact ok _

theorem visit (a : Agenda α) (now : Nat) : Harmless (a.visit now) := by
  unfold Agenda.visit
  split
  · refine bind ?_ fun next => ok _
    unfold Clock.next
    split
    · exact ok _
    · exact error rfl
  · exact error rfl

theorem instruction (plan : Plan) (index : Nat) : Harmless (plan.get? index) := by
  unfold Plan.get?
  split
  · exact ok _
  · split
    · exact ok _
    · exact error rfl

theorem previous (a : Agent) : Harmless a.previous := by
  unfold Agent.previous
  split
  · exact ok _
  · exact instruction _ _

theorem consume (a : Agent) (how : Consumption) : Harmless (a.consume how) := by
  unfold Agent.consume
  refine bind (instruction _ _) fun i => ?_
  cases i with
  | none => exact error rfl
  | some i => exact ok _

theorem moveCursor (a : Agent) (cursor : Nat) : Harmless (a.moveCursor cursor) := by
  unfold Agent.moveCursor
  split
  · exact ok _
  · exact error rfl

theorem replacePassengers (a : Agent) (passengers : List (Nat × Nat)) :
    Harmless (a.replacePassengers passengers) := by
  unfold Agent.replacePassengers
  split
  · exact ok _
  · exact error rfl

theorem egress (s : Seats) (index : Nat) : Harmless (s.egress index) := by
  unfold Seats.egress
  dsimp only
  split
  · exact ok _
  · exact error rfl

theorem push (v : LinkView) (id finish : Nat) : Harmless (v.push id finish) := by
  cases v with
  | remote => exact error rfl
  | _ => exact ok _

theorem pop (v : LinkView) : Harmless v.pop := by
  have link : ∀ l : Link, Harmless l.pop := by
    intro l
    unfold Link.pop
    split
    · exact error rfl
    · exact ok _
  cases v with
  | owned l => exact (link l).map
  | gateway gate => exact ((link gate.link).bind fun _ => ok _).map
  | proxy proxy => exact error rfl
  | remote => exact error rfl

end Harmless

/-! ## The acts of a partition -/

namespace Outbox

variable {β : Type} {o : Outbox} {queued : Table β} {f : Failure}

/-- Something queued in the outbox is for somebody who isn't a neighbor, as `f` says. -/
def Strays (o : Outbox) (queued : Table β) (f : Failure) : Prop :=
  ∃ target ∈ queued.keys, o.neighbors.contains target = false ∧ f = .exchange (.notANeighbor target)

theorem Strays.isDiscord (h : o.Strays queued f) : f.isDiscord = false := by
  obtain ⟨target, -, -, rfl⟩ := h
  rfl

end Outbox

namespace Partition

open Act

variable {α : Type} {id link now : Nat} {p q : Partition} {f : Failure}

theorem attempt_quiet {x : Except Fault α} (h : Harmless x) : Quiet (attempt x) := by
  unfold attempt
  cases x with
  | ok a => exact .pure a
  | error f => exact .fail (h f rfl)

theorem entry_quiet {xs : Array α} {index : Nat} : Quiet (entry xs index) := by
  unfold entry
  split
  · exact .pure _
  · exact .fail rfl

theorem agent_quiet : Quiet (agent id) := Quiet.get.bind fun _ => entry_quiet

theorem view_quiet : Quiet (view link) := Quiet.get.bind fun _ => entry_quiet

theorem wake_quiet {time : Nat} : Quiet (wake id time) :=
  Quiet.get.bind fun _ => (attempt_quiet (.add _ _ _)).bind fun _ => .modify _

theorem revisit_quiet {time : Nat} : Quiet (revisit link time) :=
  Quiet.get.bind fun _ => (attempt_quiet (.add _ _ _)).bind fun _ => .modify _

theorem consume_quiet {how : Consumption} : Quiet (consume id how now) := by
  refine agent_quiet.bind fun a => (attempt_quiet (.consume a how)).bind fun ⟨b, event⟩ =>
    (Quiet.modify _).bind fun _ => ?_
  cases event with
  | none => exact .pure ()
  | some event => exact .modify _

theorem stopOwner_quiet {stop : Nat} : Quiet (stopOwner stop) :=
  Quiet.get.bind fun _ => entry_quiet.bind fun _ =>
    view_quiet.bind fun _ => Quiet.get.bind fun _ => .pure _

theorem record_quiet : Quiet (record id) := by
  refine agent_quiet.bind fun a => ?_
  split
  · exact (Quiet.mapM fun _ _ => agent_quiet.bind fun _ => .pure _).bind fun _ => .pure _
  · exact .pure _

theorem send_quiet {target : Nat} {link : Option Nat} : Quiet (send target link id now) :=
  record_quiet.bind fun _ => .modify _

theorem enter_quiet {velocity : Velocity} {v : LinkView} {queue : Link} :
    Quiet (enter id link velocity now v queue) := by
  refine Quiet.get.bind fun p => (attempt_quiet (.push _ _ _)).bind fun entered => ?_
  cases entered with
  | none => exact .pure _
  | some v =>
    refine (Quiet.modify _).bind fun _ => agent_quiet.bind fun _ => (Quiet.modify _).bind fun _ =>
      consume_quiet.bind fun _ => ?_
    split
    · exact revisit_quiet.bind fun _ => .pure _
    · exact .pure _

theorem traverse_quiet {velocity : Velocity} : Quiet (traverse id link velocity now) := by
  refine view_quiet.bind fun v => ?_
  cases v with
  | remote id owner => exact send_quiet.bind fun _ => .pure _
  | proxy proxy =>
    dsimp only
    cases proxy.push id with
    | none => exact .pure _
    | some pushed =>
      exact (Quiet.modify _).bind fun _ => agent_quiet.bind fun _ => (Quiet.modify _).bind fun _ =>
        consume_quiet.bind fun _ => .pure _
  | owned queue => exact enter_quiet
  | gateway gate => exact enter_quiet

/-- Waiting only fails in a notable way if the plan doesn't say where the agent leaves. -/
theorem misplanned_of_wait {route : RouteId} {stop : StopId} (h : (wait id route stop now).run p = .error f q)
    (notable : f.isNotable = true) : f.isMisplanned = true := by
  obtain ⟨owner, _, -, h⟩ := stopOwner_quiet.later h notable
  obtain ⟨_, _, -, h⟩ := Quiet.get.later h notable
  split at h
  · exact (send_quiet.bind fun _ => .pure _).elim h notable
  · obtain ⟨_, _, -, h⟩ := consume_quiet.later h notable
    obtain ⟨_, _, -, h⟩ := agent_quiet.later h notable
    obtain ⟨_, _, -, h⟩ := (attempt_quiet (.instruction _ _)).later h notable
    split at h
    · exact ((Quiet.modify _).bind fun _ => .pure _).elim h notable
    · cases h
      rfl

theorem stopArrive_quiet {stop : StopRef} : Quiet (stopArrive id stop now) := by
  refine stopOwner_quiet.bind fun owner => Quiet.get.bind fun p => ?_
  split
  · exact send_quiet.bind fun _ => .pure _
  · exact consume_quiet.bind fun _ => wake_quiet.bind fun _ => .pure _

theorem exchangePassengers_quiet {stop : StopRef} : Quiet (exchangePassengers id stop now) := by
  refine consume_quiet.bind fun _ => agent_quiet.bind fun vehicle =>
    (attempt_quiet (.egress _ _)).bind fun ⟨leaving, seats⟩ => (Quiet.modify _).bind fun _ => ?_
  refine Quiet.bind (.forM fun _ _ => consume_quiet.bind fun _ => wake_quiet) fun _ =>
    agent_quiet.bind fun vehicle => Quiet.get.bind fun p => ?_
  exact (Quiet.modify _).bind fun _ => (Quiet.modify _).bind fun _ =>
    .forM fun _ _ => consume_quiet

theorem sleep_quiet {time : Nat} : Quiet (sleep id time now) := consume_quiet.bind fun _ => wake_quiet

/-- A turn only fails in a notable way if the plan has the instruction in the wrong place, and links and pauses
are nowhere in the wrong place. -/
theorem misplanned_of_dispatch (h : (dispatch id now).run p = .error f q) (notable : f.isNotable = true) :
    f.isMisplanned = true ∧ ∃ a i, p.agents[id]? = some a ∧ a.current = .ok (some i) ∧
      i.action.wakeTime now = none ∧ ∀ link velocity, i.action ≠ .traverse link velocity := by
  obtain ⟨a, _, reads, h⟩ := agent_quiet.later h notable
  obtain ⟨found, rfl⟩ := agent_eq_ok.1 reads
  obtain ⟨next, _, looks, h⟩ := (attempt_quiet (.instruction _ _)).later h notable
  obtain ⟨current, rfl⟩ := attempt_eq_ok.1 looks
  cases next with
  | none =>
    exact (Quiet.bind (agent_quiet.bind fun _ => (Quiet.modify _).bind fun _ => .modify _)
      fun _ => .pure _).elim h notable
  | some instruction =>
    obtain ⟨event, action⟩ := instruction
    cases action with
    | traverse => exact traverse_quiet.elim h notable
    | sleepFor => exact (sleep_quiet.bind fun _ => .pure _).elim h notable
    | sleepUntil => exact (sleep_quiet.bind fun _ => .pure _).elim h notable
    | stopArrive => exact stopArrive_quiet.elim h notable
    | stopDelay => exact (exchangePassengers_quiet.bind fun _ => .pure _).elim h notable
    | stopDepart => exact (consume_quiet.bind fun _ => .pure _).elim h notable
    | wait => exact ⟨misplanned_of_wait h notable, a, _, found, current, rfl, nofun⟩
    | access =>
      cases h
      exact ⟨rfl, a, _, found, current, rfl, nofun⟩
    | egress =>
      cases h
      exact ⟨rfl, a, _, found, current, rfl, nofun⟩

/-! ## Serving agents and links -/

theorem requestedVelocity_quiet : Quiet (requestedVelocity id) := by
  refine agent_quiet.bind fun a => (attempt_quiet (.previous _)).bind fun instruction => ?_
  split
  · exact .pure _
  · exact .fail rfl

theorem letIn_quiet {gate : Gateway} {fromPart : Nat} {velocity : Velocity} :
    Quiet (letIn gate id fromPart now velocity) :=
  Quiet.get.bind fun _ => agent_quiet.bind fun _ => (Quiet.modify _).bind fun _ => .pure _

theorem admitWaiting_quiet {waiting : List (Nat × Nat)} (gate : Gateway) :
    Quiet (admitWaiting gate now waiting) := by
  induction waiting generalizing gate with
  | nil => exact .pure _
  | cons first rest ih =>
    unfold admitWaiting
    split
    · exact .pure _
    · exact requestedVelocity_quiet.bind fun _ => letIn_quiet.bind fun gate => ih gate

theorem drainInbound_quiet : Quiet (drainInbound link now) := by
  refine view_quiet.bind fun v => ?_
  cases v with
  | gateway gate => exact (admitWaiting_quiet gate).bind fun _ => .modify _
  | _ => exact .pure ()

theorem revisitHead_quiet : Quiet (revisitHead link) := by
  refine view_quiet.bind fun v => ?_
  split
  · exact .pure ()
  · exact revisit_quiet

/-- What goes wrong in a notable way while a link is served goes wrong in a turn. -/
theorem turn_of_serve {budget : Nat} (h : (serve link now budget).run p = .error f q)
    (notable : f.isNotable = true) :
    ∃ id r s, Worked now p r ∧ (dispatch id now).run r = .error f s := by
  induction budget generalizing p with
  | zero => exact revisitHead_quiet.elim h notable
  | succ budget ih =>
    obtain ⟨v, _, view, h⟩ := view_quiet.later h notable
    obtain ⟨-, rfl⟩ := view_eq_ok.1 view
    split at h
    · exact (Quiet.pure ()).elim h notable
    · rename_i head _
      split at h
      · exact revisit_quiet.elim h notable
      · rw [EStateM.run_bind] at h
        split at h
        · rename_i gone r turn
          have worked : Worked now p r := worked_dispatched (dispatch_ends turn)
          split at h
          · obtain ⟨w, _, looks, h⟩ := view_quiet.later h notable
            obtain ⟨after, rfl⟩ := view_eq_ok.1 looks
            obtain ⟨_, _, leaves, h⟩ := (attempt_quiet (.pop w)).later h notable
            obtain ⟨pops, rfl⟩ := attempt_eq_ok.1 leaves
            obtain ⟨_, _, sets, h⟩ := (Quiet.modify _).later h notable
            obtain rfl := setView_eq_ok.1 sets
            obtain ⟨_, t, drains, h⟩ := drainInbound_quiet.later h notable
            obtain ⟨id, u, s, later, fails⟩ := ih h
            have popped : Worked now r _ := (Kept.setView after (LinkView.balanced_pop pops)).worked rfl
            exact ⟨id, u, s, worked.trans (popped.trans ((worked_drained drains).trans later)), fails⟩
          · exact revisit_quiet.elim h notable
        · rename_i stops
          cases h
          exact ⟨head.agent, p, _, Std.Refl.refl p, stops⟩

theorem turn_of_serveLink (h : (serveLink link now).run p = .error f q) (notable : f.isNotable = true) :
    ∃ id r s, Worked now p r ∧ (dispatch id now).run r = .error f s := by
  obtain ⟨_, _, view, h⟩ := view_quiet.later h notable
  obtain ⟨-, rfl⟩ := view_eq_ok.1 view
  split at h
  · exact (Quiet.pure ()).elim h notable
  · exact turn_of_serve h notable

theorem turn_of_actOrRetry (h : (actOrRetry id now).run p = .error f q) (notable : f.isNotable = true) :
    (dispatch id now).run p = .error f q := by
  unfold actOrRetry at h
  rw [EStateM.run_bind] at h
  split at h
  · split at h
    · exact (Quiet.pure ()).elim h notable
    · exact wake_quiet.elim h notable
  · rename_i stops
    cases h
    exact stops

theorem worked_serveAgents (h : Ends (serveAgents now) p () q) : Worked now p q := by
  simp only [serveAgents, bind_eq_ok, get_eq_ok, attempt_eq_ok, modify_eq_ok] at h
  obtain ⟨_, _, ⟨rfl, rfl⟩, ⟨ids, due⟩, _, ⟨-, rfl⟩, ⟨⟩, _, rfl, acts⟩ := h
  have taken : Worked now p { p with dueAgents := due } :=
    (Kept.aside p due p.dueLinks p.platforms p.log p.finished).worked rfl
  have along := along_of_forM (R := fun id => Acted id now) (fun _ _ _ h => actOrRetry_ends h) acts
  exact taken.trans (along.relates fun _ _ _ _ h => worked_acted h)

theorem turn_of_serveAgents (h : (serveAgents now).run p = .error f q) (notable : f.isNotable = true) :
    ∃ id r s, Worked now p r ∧ (dispatch id now).run r = .error f s := by
  obtain ⟨_, _, reads, h⟩ := Quiet.get.later h notable
  obtain ⟨rfl, rfl⟩ := get_eq_ok.1 reads
  obtain ⟨⟨ids, due⟩, _, visits, h⟩ := (attempt_quiet (.visit _ _)).later h notable
  obtain ⟨-, rfl⟩ := attempt_eq_ok.1 visits
  obtain ⟨_, _, takes, h⟩ := (Quiet.modify _).later h notable
  obtain rfl := modify_eq_ok.1 takes
  obtain ⟨before, id, after, t, -, acts, h⟩ := forM_eq_error h
  have taken : Worked now p { p with dueAgents := due } :=
    (Kept.aside p due p.dueLinks p.platforms p.log p.finished).worked rfl
  have acted : Worked now { p with dueAgents := due } t :=
    acts.relates fun _ _ _ _ h => worked_acted (actOrRetry_ends h)
  exact ⟨id, t, _, taken.trans acted, turn_of_actOrRetry h notable⟩

theorem turn_of_serveLinks (h : (serveLinks now).run p = .error f q) (notable : f.isNotable = true) :
    ∃ id r s, Worked now p r ∧ (dispatch id now).run r = .error f s := by
  obtain ⟨_, _, reads, h⟩ := Quiet.get.later h notable
  obtain ⟨rfl, rfl⟩ := get_eq_ok.1 reads
  obtain ⟨⟨links, due⟩, _, visits, h⟩ := (attempt_quiet (.visit _ _)).later h notable
  obtain ⟨-, rfl⟩ := attempt_eq_ok.1 visits
  obtain ⟨_, _, takes, h⟩ := (Quiet.modify _).later h notable
  obtain rfl := modify_eq_ok.1 takes
  obtain ⟨before, link, after, t, -, served, h⟩ := forM_eq_error h
  obtain ⟨id, u, s, later, fails⟩ := turn_of_serveLink h notable
  have taken : Worked now p { p with dueLinks := due } :=
    (Kept.aside p p.dueAgents due p.platforms p.log p.finished).worked rfl
  have visited : Worked now { p with dueLinks := due } t :=
    served.relates fun _ _ _ _ h => worked_visited (serveLink_ends h)
  exact ⟨id, u, s, taken.trans (visited.trans later), fails⟩

/-- What goes wrong in a notable way in the work of a second goes wrong in a turn. -/
theorem turn_of_work (h : (work now).run p = .error f q) (notable : f.isNotable = true) :
    ∃ id r s, Worked now p r ∧ (dispatch id now).run r = .error f s := by
  unfold work at h
  rw [EStateM.run_bind] at h
  split at h
  · rename_i r agents
    obtain ⟨id, u, s, later, fails⟩ := turn_of_serveLinks h notable
    exact ⟨id, u, s, (worked_serveAgents agents).trans later, fails⟩
  · rename_i stops
    cases h
    exact turn_of_serveAgents stops notable

/-! ## Exchanging messages -/

theorem collectAgents_quiet : Quiet (collectAgents now) := by
  refine Quiet.get.bind fun p => .forM fun link _ => view_quiet.bind fun v => ?_
  cases v with
  | proxy proxy => exact (Quiet.modify _).bind fun _ => .forM fun _ _ => send_quiet
  | _ => exact .pure ()

theorem collectReleases_quiet : Quiet (collectReleases now) := by
  refine Quiet.get.bind fun p => .forM fun link _ => view_quiet.bind fun v => ?_
  cases v with
  | gateway gate => exact (Quiet.modify _).bind fun _ => .forM fun _ _ => .modify _
  | _ => exact .pure ()

/-- Nothing notable is wrong with an outbox but that something in it is for somebody who isn't a neighbor. -/
theorem stranger_of_complete {β γ : Type} {neighbors : Table Unit} {queued : Table β} {blank : Nat → β}
    {g : Table β → γ} (h : (communicate ((Outbox.complete neighbors queued blank).map g)).run p = .error f q) :
    ∃ target ∈ queued.keys, neighbors.contains target = false ∧ f = .exchange (.notANeighbor target) := by
  unfold Outbox.complete at h
  split at h
  · rename_i target found
    cases h
    exact ⟨target, List.mem_of_find?_eq_some found, by simpa using List.find?_some found, rfl⟩
  · cases h

theorem strays_of_sendTransfers (h : (sendTransfers now).run p = .error f q) (notable : f.isNotable = true) :
    ∃ r s, Along (Emptied now) p.proxies p r ∧ Along (Reported now) r.gateways r s ∧
      s.outbox.Strays s.outbox.transfers f := by
  obtain ⟨_, r, agents, h⟩ := collectAgents_quiet.later h notable
  obtain ⟨_, s, releases, h⟩ := collectReleases_quiet.later h notable
  obtain ⟨_, _, hget, h⟩ := Quiet.get.later h notable
  obtain ⟨rfl, rfl⟩ := get_eq_ok.1 hget
  obtain ⟨_, _, -, h⟩ := (Quiet.modify _).later h notable
  exact ⟨r, s, collectAgents_ends agents, collectReleases_ends releases, stranger_of_complete h⟩

theorem strays_of_sendReleases (h : (sendReleases now).run p = .error f q) :
    p.outbox.Strays p.outbox.releases f :=
  stranger_of_complete h

theorem enterGateway_quiet {fromPart : Nat} : Quiet (enterGateway id link fromPart now) := by
  refine requestedVelocity_quiet.bind fun velocity => Quiet.get.bind fun p => ?_
  split
  · rename_i gate _
    have rest : Quiet (do
        if !gate.inbound.isEmpty || gate.link.isFull then
          setView link (.gateway (gate.pushInbound id fromPart))
        else
          let entered ← letIn gate id fromPart now velocity
          setView link (.gateway entered)
          if gate.link.queue.isEmpty then do
            let finish := (← agent id).linkFinish
            revisit link (max finish (now + 1))) := by
      split
      · exact .modify _
      · refine letIn_quiet.bind fun entered => (Quiet.modify _).bind fun _ => ?_
        split
        · exact agent_quiet.bind fun _ => revisit_quiet
        · exact .pure ()
    by_cases known : (!gate.fromParts.contains fromPart) = true
    · simp only [known, if_true]
      exact Quiet.bind (.fail rfl) fun _ => rest
    · simp only [known]
      exact rest
  · exact .fail rfl

theorem receivePassenger_quiet {r : PassengerRecord} : Quiet (receivePassenger r) := by
  refine Quiet.get.bind fun p => ?_
  split
  · exact .fail rfl
  · exact (attempt_quiet (.moveCursor _ _)).bind fun _ => (Quiet.modify _).bind fun _ => .pure _

theorem receiveAgent_quiet {r : AgentRecord} {link : Option Nat} {fromPart : Nat} :
    Quiet (receiveAgent r link fromPart now) := by
  have moved : ∀ {next : Act Unit}, next.Quiet → Quiet (do
      setAgent r.id (← attempt ((← agent r.id).moveCursor r.cursor))
      next) := fun h =>
    agent_quiet.bind fun _ => (attempt_quiet (.moveCursor _ _)).bind fun _ =>
      (Quiet.modify _).bind fun _ => h
  have seated : ∀ {passengers : List PassengerRecord} {next : Act Unit}, next.Quiet → Quiet (do
      let seated ← passengers.mapM receivePassenger
      setAgent r.id (← attempt ((← agent r.id).replacePassengers seated))
      next) := fun h =>
    Quiet.bind (.mapM fun _ _ => receivePassenger_quiet) fun _ =>
      agent_quiet.bind fun _ => (attempt_quiet (.replacePassengers _ _)).bind fun _ =>
        (Quiet.modify _).bind fun _ => h
  unfold receiveAgent
  cases link with
  | none =>
    cases r.passengers with
    | none => exact moved wake_quiet
    | some passengers => exact seated (moved wake_quiet)
  | some link =>
    cases r.passengers with
    | none => exact moved enterGateway_quiet
    | some passengers => exact seated (moved enterGateway_quiet)

end Partition

/-! ## Reading messages -/

/-- The reader never complains about the second of a message. -/
def Wire.Reader.Quiet {α : Type} (reader : Wire.Reader α) : Prop :=
  ∀ place e, reader place = .error e → (Failure.exchange e).isNotable = false

namespace Wire.Reader.Quiet

variable {α β : Type} {reader : Wire.Reader α}

theorem pure (a : α) : Quiet (Pure.pure a) := by
  intro place e h
  cases h

theorem bind {next : α → Wire.Reader β} (h : Quiet reader) (hn : ∀ a, Quiet (next a)) :
    Quiet (reader >>= next) := by
  intro place e he
  cases hr : reader place with
  | error e' =>
    simp only [Bind.bind, StateT.bind, Except.bind, hr] at he
    cases he
    exact h place e hr
  | ok r =>
    simp only [Bind.bind, StateT.bind, Except.bind, hr] at he
    exact hn r.1 r.2 e he

theorem field (name : String) : Quiet (readField name) := by
  intro place e h
  unfold readField at h
  split at h
  · cases h
  · cases h
    rfl

theorem refuse (place : Nat) (name : String) :
    Quiet (throw (.truncated place name) : Wire.Reader α) := by
  intro place e h
  cases h
  rfl

theorem count (name : String) : Quiet (readCount name) := by
  refine (field name).bind fun count => Quiet.bind (fun place e h => by cases h) fun place => ?_
  split
  · exact bind (refuse _ _) fun _ => pure _
  · exact pure _

theorem many (h : Quiet reader) (n : Nat) : Quiet (readMany reader n) := by
  induction n with
  | zero => exact pure []
  | succ n ih => exact h.bind fun _ => ih.bind fun _ => pure _

theorem all {data : List UInt8} {e : ExchangeError} (h : Quiet reader)
    (he : readAll data reader = .error e) : (Failure.exchange e).isNotable = false := by
  unfold readAll at he
  cases hr : StateT.run reader ⟨0, data⟩ with
  | ok r => rw [hr] at he; cases he
  | error e' =>
    rw [hr] at he
    cases he
    exact h _ e hr

end Wire.Reader.Quiet

open Wire.Reader in
theorem Transfer.decode_quiet {data : List UInt8} {target : Nat} {isVehicle : Nat → Option Bool}
    {e : ExchangeError} (h : Transfer.decode data target isVehicle = .error e) :
    (Failure.exchange e).isNotable = false := by
  have passenger : Quiet PassengerRecord.reader :=
    (Quiet.field _).bind fun _ => (Quiet.field _).bind fun _ => (Quiet.field _).bind fun _ => .pure _
  have agent : Quiet (AgentRecord.reader isVehicle) := by
    refine (Quiet.field _).bind fun id => (Quiet.field _).bind fun cursor => ?_
    split
    · intro place e h
      cases h
      rfl
    · exact .pure _
    · exact (Quiet.count _).bind fun n => (passenger.many n).bind fun _ => .pure _
  have group : Quiet (LinkRecord.reader isVehicle) :=
    (Quiet.field _).bind fun _ => (Quiet.count _).bind fun n => (agent.many n).bind fun _ => .pure _
  refine Quiet.all ?_ h
  exact (Quiet.field _).bind fun _ => (Quiet.field _).bind fun _ => (Quiet.count _).bind fun n =>
    (group.many n).bind fun _ => .pure _

open Wire.Reader in
theorem Release.decode_quiet {data : List UInt8} {target : Nat} {e : ExchangeError}
    (h : Release.decode data target = .error e) : (Failure.exchange e).isNotable = false := by
  refine Quiet.all ?_ h
  refine (Quiet.field _).bind fun _ => (Quiet.field _).bind fun _ => (Quiet.count _).bind fun n =>
    (Quiet.many ?_ n).bind fun _ => .pure _
  exact (Quiet.field _).bind fun _ => (Quiet.field _).bind fun _ => .pure _

namespace Outbox

variable {now rank : Nat} {d : Delivery} {e : ExchangeError}

/-- Whatever is sent in a second is read in that second. -/
theorem checkTime_now {sender : Nat} (hnow : now < Wire.base) :
    checkTime sender (now % Wire.base) now = .ok () := by
  rw [Nat.mod_eq_of_lt hnow]
  exact if_pos rfl

/-- An item which can't be read is one of the list. -/
theorem mapM_eq_error {α β ε : Type} {f : α → Except ε β} {xs : List α} {e : ε}
    (h : xs.mapM f = .error e) : ∃ x ∈ xs, f x = .error e := by
  induction xs with
  | nil => cases h
  | cons x rest ih =>
    rw [List.mapM_cons] at h
    cases hx : f x with
    | error e' =>
      rw [hx] at h
      cases h
      exact ⟨x, List.mem_cons_self, hx⟩
    | ok y =>
      cases hr : rest.mapM f with
      | ok ys => rw [hx, hr] at h; cases h
      | error e' =>
        rw [hx, hr] at h
        cases h
        obtain ⟨z, hz, he⟩ := ih hr
        exact ⟨z, List.mem_cons_of_mem _ hz, he⟩

theorem readTransfers_quiet {isVehicle : Nat → Option Bool} (hnow : now < Wire.base)
    (headed : ∀ buffer ∈ d, Wire.Headed now buffer.1 buffer.2)
    (h : readTransfers rank now isVehicle d = .error e) : (Failure.exchange e).isNotable = false := by
  obtain ⟨⟨sender, data⟩, hb, he⟩ := mapM_eq_error h
  dsimp only at he
  cases ht : Transfer.decode data rank isVehicle with
  | error e' =>
    rw [ht] at he
    cases he
    exact Transfer.decode_quiet ht
  | ok t =>
    rw [ht] at he
    change (checkTime sender t.time now >>= fun _ => .ok t) = .error e at he
    rw [(Transfer.decode_headed (headed _ hb) ht).1, checkTime_now hnow] at he
    cases he

theorem readReleases_quiet (hnow : now < Wire.base)
    (headed : ∀ buffer ∈ d, Wire.Headed now buffer.1 buffer.2)
    (h : readReleases rank now d = .error e) : (Failure.exchange e).isNotable = false := by
  obtain ⟨⟨sender, data⟩, hb, he⟩ := mapM_eq_error h
  dsimp only at he
  cases hr : Release.decode data rank with
  | error e' =>
    rw [hr] at he
    cases he
    exact Release.decode_quiet hr
  | ok r =>
    rw [hr] at he
    change (checkTime sender r.time now >>= fun _ => .ok r) = .error e at he
    rw [(Release.decode_headed (headed _ hb) hr).1, checkTime_now hnow] at he
    cases he

end Outbox

namespace Partition

open Act

variable {now : Nat} {d : Delivery}

section Sending

variable {p q : Partition} {f : Failure}

/-- What goes wrong in a notable way up to the transfers of a second goes wrong in a turn, or it is that
somebody is queued who can't be sent. -/
theorem depart_eq_error (h : (depart now).run p = .error f q) (notable : f.isNotable = true) :
    (∃ id r s, Worked now p r ∧ (dispatch id now).run r = .error f s) ∨
      ∃ w r s, Ends (work now) p () w ∧ Along (Emptied now) w.proxies w r ∧
        Along (Reported now) r.gateways r s ∧ s.outbox.Strays s.outbox.transfers f := by
  unfold depart at h
  rw [EStateM.run_bind] at h
  split at h
  · rename_i w ends
    obtain ⟨r, s, emptied, reported, strays⟩ := strays_of_sendTransfers h notable
    exact .inr ⟨w, r, s, ends, emptied, reported, strays⟩
  · rename_i stops
    cases h
    exact .inl (turn_of_work stops notable)

theorem depart_agrees (h : (depart now).run p = .error f q) : f.isDiscord = false := by
  by_contra discord
  have discord : f.isDiscord = true := by simpa using discord
  rcases depart_eq_error h (Failure.isNotable_of_isDiscord discord) with
    ⟨id, r, s, -, turn⟩ | ⟨_, _, _, -, -, -, strays⟩
  · have misplanned := (misplanned_of_dispatch turn (Failure.isNotable_of_isDiscord discord)).1
    rw [Failure.isDiscord_of_isMisplanned misplanned] at discord
    cases discord
  · rw [strays.isDiscord] at discord
    cases discord

/-- A partition takes in what was sent in this second, without anything notable. -/
theorem receiveTransfers_quiet (hnow : now < Wire.base)
    (headed : ∀ buffer ∈ d, Wire.Headed now buffer.1 buffer.2) : Quiet (receiveTransfers now d) := by
  refine Quiet.get.bind fun p => Quiet.bind ?_ fun transfers => ?_
  · cases hr : Outbox.readTransfers p.rank now p.isVehicle d with
    | ok transfers => exact .pure _
    | error e => exact .fail (Outbox.readTransfers_quiet hnow headed hr)
  · exact .forM fun t _ => .forM fun g _ => .forM fun r _ => receiveAgent_quiet

/-- What goes wrong in a notable way while transfers arrive is that a report is queued which can't be sent. -/
theorem arrive_eq_error (hnow : now < Wire.base)
    (headed : ∀ buffer ∈ d, Wire.Headed now buffer.1 buffer.2) (h : (arrive now d).run p = .error f q)
    (notable : f.isNotable = true) :
    ∃ r, Ends (receiveTransfers now d) p () r ∧ r.outbox.Strays r.outbox.releases f := by
  obtain ⟨_, r, ends, h⟩ := (receiveTransfers_quiet hnow headed).later h notable
  exact ⟨r, ends, strays_of_sendReleases h⟩

theorem arrive_agrees (hnow : now < Wire.base)
    (headed : ∀ buffer ∈ d, Wire.Headed now buffer.1 buffer.2) (h : (arrive now d).run p = .error f q) :
    f.isDiscord = false := by
  by_contra discord
  have discord : f.isDiscord = true := by simpa using discord
  obtain ⟨r, -, strays⟩ := arrive_eq_error hnow headed h (Failure.isNotable_of_isDiscord discord)
  rw [strays.isDiscord] at discord
  cases discord

end Sending

/-- A count which can't be applied is notable only if it is greater than the occupancy. -/
theorem applyCount_fails {p q : Partition} {fromPart link count : Nat} {f : Failure}
    (h : (applyCount fromPart link count).run p = .error f q) :
    f.isNotable = false ∨ ∃ proxy, p.links[link]? = some (.proxy proxy) ∧ proxy.toPart = fromPart ∧
      proxy.occupancy < count ∧
      f = .fault (.releasedTooMany proxy.toPart proxy.id count proxy.occupancy) := by
  unfold applyCount at h
  rw [EStateM.run_bind] at h
  dsimp only [EStateM.run_get] at h
  split at h
  · rename_i proxy hv
    by_cases owner : proxy.toPart ≠ fromPart
    · rw [if_pos owner] at h
      cases h
      exact .inl rfl
    · rw [if_neg owner] at h
      unfold Proxy.release at h
      split at h
      · cases h
      · rename_i more
        cases h
        exact .inr ⟨proxy, hv, not_not.1 owner, Nat.lt_of_not_le more, rfl⟩
  · cases h
    exact .inl rfl

/-- The room released by one of the releases is more than was taken: `f` says so, after the ones
before have been applied. -/
structure Overdrawn (releases : List Release) (p : Partition) (f : Failure) : Prop where
  found : ∃ before r after s counts link count counts' t proxy,
    releases = before ++ r :: after ∧ Along Credited before p s ∧
    r.counts = counts ++ (link, count) :: counts' ∧ Credited { r with counts := counts } s t ∧
    t.links[link]? = some (.proxy proxy) ∧ proxy.toPart = r.sender ∧ proxy.occupancy < count ∧
    f = .fault (.releasedTooMany proxy.toPart proxy.id count proxy.occupancy)

theorem Overdrawn.failure_eq {releases : List Release} {p : Partition} {f : Failure}
    (h : Overdrawn releases p f) :
    ∃ part link released sent, f = .fault (.releasedTooMany part link released sent) := by
  obtain ⟨_, _, _, _, _, _, _, _, _, _, -, -, -, -, -, -, -, hf⟩ := h.found
  exact ⟨_, _, _, _, hf⟩

/-- Applying releases of this second fails for nothing notable but the counts. -/
theorem receiveReleases_fails {p q : Partition} {f : Failure} (hnow : now < Wire.base)
    (headed : ∀ buffer ∈ d, Wire.Headed now buffer.1 buffer.2)
    (h : (receiveReleases now d).run p = .error f q) :
    f.isNotable = false ∨
      ∃ releases, Outbox.readReleases p.rank now d = .ok releases ∧ Overdrawn releases p f := by
  unfold receiveReleases at h
  rw [EStateM.run_bind] at h
  change (communicate (Outbox.readReleases p.rank now d) >>= _).run p = .error f q at h
  cases hr : Outbox.readReleases p.rank now d with
  | ok releases =>
    rw [hr] at h
    obtain ⟨before, r, after, s, split, credited, h⟩ := forM_eq_error h
    obtain ⟨counts, ⟨link, count⟩, counts', t, split', credited', h⟩ := forM_eq_error h
    refine (applyCount_fails h).imp_right fun ⟨proxy, found, owner, more, hf⟩ => ?_
    refine ⟨releases, rfl, before, r, after, s, counts, link, count, counts', t, proxy, split, ?_,
      split', credited', found, owner, more, hf⟩
    exact credited.mono fun _ _ _ h => (forM_iff_along fun _ _ _ => Iff.rfl).1 h
  | error e =>
    have quiet := Outbox.readReleases_quiet hnow headed hr
    rw [hr] at h
    change EStateM.Result.error (.exchange e) p = .error f q at h
    cases h
    exact .inl quiet

theorem receiveReleases_discord {p q : Partition} {f : Failure} (hnow : now < Wire.base)
    (headed : ∀ buffer ∈ d, Wire.Headed now buffer.1 buffer.2)
    (h : (receiveReleases now d).run p = .error f q) (discord : f.isDiscord = true) :
    ∃ releases, Outbox.readReleases p.rank now d = .ok releases ∧ Overdrawn releases p f := by
  rcases receiveReleases_fails hnow headed h with quiet | overdrawn
  · exact absurd (quiet.symm.trans (Failure.isNotable_of_isDiscord discord)) Bool.false_ne_true
  · exact overdrawn

/-- Applying releases has nothing to do with who is a neighbor, and nothing with plans. -/
theorem unplanned_receiveReleases {p q : Partition} {f : Failure} (hnow : now < Wire.base)
    (headed : ∀ buffer ∈ d, Wire.Headed now buffer.1 buffer.2)
    (h : (receiveReleases now d).run p = .error f q) : f.isStranger = false ∧ f.isMisplanned = false := by
  rcases receiveReleases_fails hnow headed h with quiet | ⟨releases, -, overdrawn⟩
  · exact (Failure.isNotable_eq_false.1 quiet).2
  · obtain ⟨part, link, released, sent, rfl⟩ := overdrawn.failure_eq
    exact ⟨rfl, rfl⟩

end Partition

end Mobility
