import Mobility.Proofs.Partition.Links
import Mobility.Proofs.Passengers.Calls

/-!
# Acts which stamp nothing

Few acts stamp an event or move an agent on in its plan. All others leave both alone, whether they end well or fail
(`Partition.Unmoved`), and those which bring somebody up to date stamp nothing (`Partition.SameLog`). Acts which only
look at the state (`Act.Looks`) leave all of it alone. So what comes of the turn of an agent is seen from what comes of
its instruction (`Partition.Spans.dispatch`), and what comes of whatever a partition does next from what comes of turns
(`Partition.leaves_perform`).
-/

set_option autoImplicit false

namespace Mobility

namespace Act

variable {α β : Type} {act : Act α} {next : α → Act β} {p q : Partition} {R S T : Partition → Partition → Prop}

theorem left_of_fails {f : Failure} (h : act.run p = .error f q) : act.left p = q := by
  unfold left
  rw [h]

/-- The act only looks at the state. -/
def Looks (act : Act α) : Prop := ∀ p, act.left p = p

namespace Leaves

theorem of_ends {a : α} (h : Ends act p a q) (related : R p q) : Leaves R act p := by
  unfold Leaves
  rwa [left_of_ends h]

theorem ends {a : α} (h : Leaves R act p) (ends : Ends act p a q) : R p q := by
  unfold Leaves at h
  rwa [left_of_ends ends] at h

theorem pure [Std.Refl R] (a : α) (p : Partition) : Leaves R (pure a) p := Std.Refl.refl (r := R) p

theorem throw [Std.Refl R] (f : Failure) (p : Partition) : Leaves R (throw f : Act α) p := Std.Refl.refl (r := R) p

theorem modify {g : Partition → Partition} (h : R p (g p)) : Leaves R (modify g) p := h

/-- Two acts in turn, where the second one isn't done if the first one fails. -/
theorem seq (stops : ∀ q, R p q → T p q) (goes : ∀ q r, R p q → S q r → T p r) (h : Leaves R act p)
    (later : ∀ a q, Ends act p a q → Leaves S (next a) q) : Leaves T (act >>= next) p := by
  unfold Leaves left at h ⊢
  rw [EStateM.run_bind]
  cases hr : act.run p with
  | error f q =>
    rw [hr] at h
    exact stops q h
  | ok a q =>
    rw [hr] at h
    exact goes q _ h (later a q hr)

/-- What is looked at first makes no difference. -/
theorem look [Std.Refl R] (looks : act.Looks) (later : ∀ a, Ends act p a p → Leaves R (next a) p) :
    Leaves R (act >>= next) p := by
  refine seq (R := fun p q => p = q) (S := R) (fun q same => ?_) (fun q r same related => ?_) (looks p).symm
    fun a q ends => ?_
  · exact same ▸ Std.Refl.refl (r := R) p
  · exact same ▸ related
  · obtain rfl : p = q := (looks p).symm.trans (left_of_ends ends)
    exact later a ends

theorem mapM [Std.Refl R] [IsTrans Partition R] {xs : List α} {each : α → Act β}
    (h : ∀ x ∈ xs, ∀ p, Leaves R (each x) p) : Leaves R (xs.mapM each) p := by
  induction xs generalizing p with
  | nil => exact pure [] p
  | cons x rest ih =>
    rw [List.mapM_cons]
    exact (h x List.mem_cons_self p).bind fun _ _ _ =>
      (ih fun y hy => h y (List.mem_cons_of_mem _ hy)).bind fun _ q _ => pure _ q

end Leaves

namespace Looks

theorem pure (a : α) : Looks (pure a) := fun _ => rfl

theorem get : (MonadState.get : Act Partition).Looks := fun _ => rfl

theorem fail (f : Failure) : Looks (throw f : Act α) := fun _ => rfl

theorem bind (h : act.Looks) (later : ∀ a, (next a).Looks) : (act >>= next).Looks := fun p =>
  (Leaves.look (R := fun p q => q = p) h fun a _ => later a p : _)

theorem mapM {xs : List α} {each : α → Act β} (h : ∀ x ∈ xs, (each x).Looks) : Looks (xs.mapM each) := by
  induction xs with
  | nil => exact pure []
  | cons x rest ih =>
    rw [List.mapM_cons]
    exact (h x List.mem_cons_self).bind fun _ =>
      (ih fun y hy => h y (List.mem_cons_of_mem _ hy)).bind fun _ => pure _

theorem leaves [Std.Refl R] (h : act.Looks) : Leaves R act p := by
  unfold Leaves
  rw [h p]
  exact Std.Refl.refl (r := R) p

end Looks

end Act

namespace Partition

open Act

variable {α : Type} {p q r : Partition} {id link now time : Nat}

/-! ## Looking -/

theorem looks_attempt (x : Except Fault α) : Looks (attempt x) := by
  cases x with
  | ok a => exact .pure a
  | error f => exact .fail _

theorem looks_communicate (x : Except ExchangeError α) : Looks (communicate x) := by
  cases x with
  | ok a => exact .pure a
  | error f => exact .fail _

theorem looks_entry (xs : Array α) (index : Nat) : Looks (entry xs index) := by
  unfold entry
  split
  · exact .pure _
  · exact .fail _

theorem looks_agent (id : Nat) : Looks (agent id) := Looks.get.bind fun _ => looks_entry _ _

theorem looks_view (link : Nat) : Looks (view link) := Looks.get.bind fun _ => looks_entry _ _

theorem looks_stopOwner (stop : Nat) : Looks (stopOwner stop) :=
  Looks.get.bind fun _ => (looks_entry _ _).bind fun _ => (looks_view _).bind fun _ => Looks.get.bind fun _ => .pure _

theorem looks_record (id : Nat) : Looks (record id) := by
  refine (looks_agent id).bind fun a => ?_
  split
  · exact (Looks.mapM fun _ _ => (looks_agent _).bind fun _ => .pure _).bind fun _ => .pure _
  · exact .pure _

theorem looks_requestedVelocity (id : Nat) : Looks (requestedVelocity id) := by
  refine (looks_agent id).bind fun a => (looks_attempt _).bind fun previous => ?_
  split
  · exact .pure _
  · exact .fail _

/-! ## Where everybody is -/

end Partition

/-- What never changes of an agent, and how far it has come in its plan. -/
def Agent.place (a : Agent) : Agent × Nat := (a.blank, a.cursor)

namespace Partition

/-- Nothing is stamped. -/
def SameLog (p q : Partition) : Prop := q.log = p.log

instance : Std.Refl SameLog := ⟨fun _ => rfl⟩

instance : IsTrans Partition SameLog := ⟨fun _ _ _ h k => Eq.trans k h⟩

/-- Nothing is stamped, and everybody is where they were in their plans. -/
structure Unmoved (p q : Partition) : Prop where
  log : q.log = p.log
  places : ∀ x : Nat, q.agents[x]?.map Agent.place = p.agents[x]?.map Agent.place

instance : Std.Refl Unmoved := ⟨fun _ => ⟨rfl, fun _ => rfl⟩⟩

instance : IsTrans Partition Unmoved where
  trans _ _ _ h k := ⟨k.log.trans h.log, fun x => (k.places x).trans (h.places x)⟩

variable {p q : Partition} {id link now time : Nat}

namespace Unmoved

theorem of_agents (agents : q.agents = p.agents) (log : q.log = p.log) : Unmoved p q :=
  ⟨log, fun x => by rw [agents]⟩

theorem setAgent {a b : Agent} (found : p.agents[id]? = some a) (place : b.place = a.place) :
    Unmoved p { p with agents := p.agents.setIfInBounds id b } := by
  obtain ⟨hlt, -⟩ := Array.getElem?_eq_some_iff.1 found
  refine ⟨rfl, fun x => ?_⟩
  by_cases own : id = x
  · subst own
    rw [Array.getElem?_setIfInBounds_self_of_lt hlt, found, Option.map_some, Option.map_some, place]
  · rw [Array.getElem?_setIfInBounds_ne own]

/-- Whoever is found in one of the states is at the same place in the other one. -/
theorem found (h : Unmoved p q) {b : Agent} (hb : q.agents[id]? = some b) :
    ∃ a, p.agents[id]? = some a ∧ a.blank = b.blank ∧ a.cursor = b.cursor := by
  have same := h.places id
  rw [hb, Option.map_some] at same
  obtain ⟨a, ha, place⟩ := Option.map_eq_some_iff.1 same.symm
  obtain ⟨blank, cursor⟩ := Prod.mk.inj place
  exact ⟨a, ha, blank, cursor⟩

theorem cursorOf (h : Unmoved p q) (x : Nat) : q.cursorOf x = p.cursorOf x := by
  have cursor : ∀ r : Partition, r.cursorOf x = (r.agents[x]?.map Agent.place).elim 0 Prod.snd := by
    intro r
    unfold Partition.cursorOf
    cases r.agents[x]? <;> rfl
  rw [cursor, cursor, h.places]

end Unmoved

/-! ## Acts which move nobody -/

open Act

theorem unmoved_wake : Leaves Unmoved (wake id time) p :=
  .look .get fun _ _ => .look (looks_attempt _) fun _ _ => .modify (.of_agents rfl rfl)

theorem unmoved_revisit : Leaves Unmoved (revisit link time) p :=
  .look .get fun _ _ => .look (looks_attempt _) fun _ _ => .modify (.of_agents rfl rfl)

theorem unmoved_setView {v : LinkView} : Leaves Unmoved (setView link v) p := .modify (.of_agents rfl rfl)

theorem unmoved_send {target : Nat} {way : Option Nat} : Leaves Unmoved (send target way id now) p :=
  .look (looks_record id) fun _ _ => .modify (.of_agents rfl rfl)

theorem unmoved_onLink {a : Agent} {start finish : Nat} (found : p.agents[id]? = some a) :
    Leaves Unmoved (setAgent id (a.onLink start finish)) p :=
  .modify (.setAgent found rfl)

theorem unmoved_letIn {g : Gateway} {part : Nat} {velocity : Velocity} :
    Leaves Unmoved (letIn g id part now velocity) p := by
  refine .look .get fun _ _ => .look (looks_agent id) fun a found => ?_
  exact (unmoved_onLink (agent_eq_ok.1 found).1).bind fun _ q _ => .pure _ q

theorem unmoved_admitWaiting {g : Gateway} {waiting : List (Nat × Nat)} :
    Leaves Unmoved (admitWaiting g now waiting) p := by
  induction waiting generalizing g p with
  | nil => exact .pure _ p
  | cons first rest ih =>
    unfold admitWaiting
    split
    · exact .pure _ p
    · exact .look (looks_requestedVelocity _) fun _ _ => unmoved_letIn.bind fun _ _ _ => ih

theorem unmoved_drainInbound : Leaves Unmoved (drainInbound link now) p := by
  refine .look (looks_view link) fun v _ => ?_
  split
  · exact unmoved_admitWaiting.bind fun _ _ _ => unmoved_setView
  · exact .pure _ p

theorem unmoved_takeHead : Leaves Unmoved (takeHead link now) p :=
  .look (looks_view link) fun _ _ => .look (looks_attempt _) fun _ _ =>
    unmoved_setView.bind fun _ _ _ => unmoved_drainInbound

theorem unmoved_emptyProxy : Leaves Unmoved (emptyProxy now link) p := by
  refine .look (looks_view link) fun v _ => ?_
  split
  · exact unmoved_setView.bind fun _ _ _ => .forM fun _ _ _ => unmoved_send
  · exact .pure _ p

theorem unmoved_reportGateway : Leaves Unmoved (reportGateway now link) p := by
  refine .look (looks_view link) fun v _ => ?_
  split
  · exact unmoved_setView.bind fun _ _ _ => .forM fun _ _ _ => .modify (.of_agents rfl rfl)
  · exact .pure _ p

theorem unmoved_applyCount {part count : Nat} : Leaves Unmoved (applyCount part link count) p := by
  refine .look .get fun _ _ => ?_
  split
  · dsimp only
    split
    · exact .look (.fail _) fun _ ends => absurd ends throw_ne_ok
    · exact .look (looks_attempt _) fun _ _ => unmoved_setView
  · exact .throw _ p

theorem unmoved_receiveReleases {delivery : Delivery} : Leaves Unmoved (receiveReleases now delivery) p :=
  .look .get fun _ _ => .look (looks_communicate _) fun _ _ =>
    .forM fun _ _ _ => .forM fun _ _ _ => unmoved_applyCount

/-! ## Acts which stamp nothing -/

end Partition

theorem Act.Leaves.sameLog {α : Type} {act : Act α} {p : Partition} (h : Leaves Partition.Unmoved act p) :
    Leaves Partition.SameLog act p :=
  Partition.Unmoved.log h

namespace Partition

open Act

variable {p q r : Partition} {id link now time : Nat}

theorem log_setAgent {a : Agent} : Leaves SameLog (setAgent id a) p := .modify rfl

theorem log_enterGateway {part : Nat} : Leaves SameLog (enterGateway id link part now) p := by
  refine .look (looks_requestedVelocity id) fun velocity _ => .look .get fun _ _ => ?_
  split
  · dsimp only
    split
    · exact .look (.fail _) fun _ ends => absurd ends throw_ne_ok
    · split
      · exact unmoved_setView.sameLog
      · refine unmoved_letIn.sameLog.bind fun entered _ _ => unmoved_setView.sameLog.bind fun _ _ _ => ?_
        split
        · exact .look (looks_agent id) fun _ _ => unmoved_revisit.sameLog
        · exact .pure _ _
  · exact .throw _ p

theorem log_receivePassenger {x : PassengerRecord} : Leaves SameLog (receivePassenger x) p := by
  refine .look .get fun _ _ => ?_
  split
  · exact .throw _ p
  · exact .look (looks_attempt _) fun _ _ => log_setAgent.bind fun _ q _ => .pure _ q

theorem log_receiveAgent {record : AgentRecord} {way : Option Nat} {part : Nat} :
    Leaves SameLog (receiveAgent record way part now) p := by
  -- The agent itself is taken in as if it had no passengers.
  have moves : ∀ q, Leaves SameLog (receiveAgent { record with passengers := none } way part now) q := by
    intro q
    unfold receiveAgent
    refine .look (looks_agent _) fun _ _ => .look (looks_attempt _) fun _ _ => log_setAgent.bind fun _ _ _ => ?_
    cases way with
    | none => exact unmoved_wake.sameLog
    | some link => exact log_enterGateway
  obtain ⟨id, cursor, passengers⟩ := record
  cases passengers with
  | none => exact moves p
  | some passengers =>
    unfold receiveAgent
    refine Leaves.bind (Leaves.mapM fun _ _ _ => log_receivePassenger) fun seated _ _ => ?_
    refine .look (looks_agent _) fun _ _ => .look (looks_attempt _) fun _ _ => log_setAgent.bind fun _ q _ => ?_
    exact moves q

theorem log_receiveTransfers {delivery : Delivery} : Leaves SameLog (receiveTransfers now delivery) p :=
  .look .get fun _ _ => .look (looks_communicate _) fun _ _ =>
    .forM fun _ _ _ => .forM fun _ _ _ => .forM fun _ _ _ => log_receiveAgent

theorem log_sendReleases : Leaves SameLog (sendReleases now) p :=
  .look .get fun _ _ => Leaves.bind (.modify rfl) fun _ _ _ => (looks_communicate _).leaves

theorem log_arrive {delivery : Delivery} : Leaves SameLog (arrive now delivery) p :=
  log_receiveTransfers.bind fun _ _ _ => log_sendReleases

/-! ## Turns -/

/-- The relation holds if nobody moves, and those who move nobody make no difference to it. -/
structure Spans (R : Partition → Partition → Prop) : Prop where
  still : ∀ {p q : Partition}, Unmoved p q → R p q
  before : ∀ {p q r : Partition}, Unmoved p q → R q r → R p r
  after : ∀ {p q r : Partition}, R p q → Unmoved q r → R p r

namespace Spans

variable {R : Partition → Partition → Prop} {α β : Type} {act : Act α} {next : α → Act β} {v : Nat} (spans : Spans R)

include spans

theorem refl : Std.Refl R := ⟨fun p => spans.still (Std.Refl.refl p)⟩

theorem idle (h : Leaves Unmoved act p) : Leaves R act p := spans.still h

/-- First nobody moves. -/
theorem prelude (h : Leaves Unmoved act p) (later : ∀ a q, Ends act p a q → Unmoved p q → Leaves R (next a) q) :
    Leaves R (act >>= next) p :=
  .seq (fun _ => spans.still) (fun _ _ => spans.before) h fun a q ends => later a q ends (h.ends ends)

/-- In the end nobody moves. -/
theorem coda (h : Leaves R act p) (later : ∀ a q, Ends act p a q → Leaves Unmoved (next a) q) :
    Leaves R (act >>= next) p :=
  .seq (fun _ related => related) (fun _ _ => spans.after) h later

variable (consumes : ∀ q, Unmoved p q → Leaves R (consume v .advance now) q)

include consumes

theorem enter {velocity : Velocity} {view : LinkView} {queue : Link} :
    Leaves R (enter v link velocity now view queue) p := by
  have := spans.refl
  refine .look .get fun _ _ => .look (looks_attempt _) fun pushed _ => ?_
  cases pushed with
  | none => exact .pure _ p
  | some w =>
    refine spans.prelude unmoved_setView fun _ q _ still => .look (looks_agent v) fun b hb => ?_
    refine spans.prelude (unmoved_onLink (agent_eq_ok.1 hb).1) fun _ r _ still' => ?_
    refine spans.coda (consumes r (IsTrans.trans _ _ _ still still')) fun _ s _ => ?_
    split
    · exact unmoved_revisit.bind fun _ t _ => .pure _ t
    · exact .pure _ s

theorem traverse {velocity : Velocity} : Leaves R (traverse v link velocity now) p := by
  have := spans.refl
  refine .look (looks_view link) fun view _ => ?_
  cases view with
  | remote _ owner => exact spans.idle (unmoved_send.bind fun _ q _ => .pure _ q)
  | proxy x =>
    dsimp only
    cases x.push v with
    | none => exact .pure _ p
    | some y =>
      refine spans.prelude unmoved_setView fun _ q _ still => .look (looks_agent v) fun b hb => ?_
      refine spans.prelude (unmoved_onLink (agent_eq_ok.1 hb).1) fun _ r _ still' => ?_
      exact spans.coda (consumes r (IsTrans.trans _ _ _ still still')) fun _ s _ => .pure _ s
  | owned queue => exact spans.enter consumes
  | gateway gate => exact spans.enter consumes

theorem wait {route : RouteId} {stop : StopId} : Leaves R (wait v route stop now) p := by
  have := spans.refl
  refine .look (looks_stopOwner _) fun owner _ => .look .get fun _ _ => ?_
  split
  · exact spans.idle (unmoved_send.bind fun _ q _ => .pure _ q)
  · refine spans.coda (consumes p (Std.Refl.refl p)) fun _ q _ => ?_
    refine .look (looks_agent v) fun a _ => .look (looks_attempt _) fun next _ => ?_
    split
    · exact Leaves.bind (.modify (.of_agents rfl rfl)) fun _ r _ => .pure _ r
    · exact .throw _ q

theorem stopArrive {stop : StopRef} : Leaves R (stopArrive v stop now) p := by
  have := spans.refl
  refine .look (looks_stopOwner _) fun owner _ => .look .get fun _ _ => ?_
  split
  · exact spans.idle (unmoved_send.bind fun _ q _ => .pure _ q)
  · exact spans.coda (consumes p (Std.Refl.refl p)) fun _ q _ => unmoved_wake.bind fun _ r _ => .pure _ r

end Spans

/-- What holds across the consumption of its instruction holds across the turn of an agent, unless it has come to its
end or lets passengers leave and board. -/
theorem Spans.dispatch {R : Partition → Partition → Prop} {a : Agent} (spans : Spans R)
    (found : p.agents[id]? = some a) (ended : a.current = .ok none → Leaves R (finish id now) p)
    (calls : ∀ event stop, a.current = .ok (some ⟨event, .stopDelay stop⟩) → Leaves R (dispatch id now) p)
    (consumes : ∀ i, a.current = .ok (some i) → i.kind ≠ .access → i.kind ≠ .egress →
      ∀ q, Unmoved p q → Leaves R (consume id .advance now) q) : Leaves R (dispatch id now) p := by
  have := spans.refl
  by_cases stops : ∃ event stop, a.current = .ok (some ⟨event, .stopDelay stop⟩)
  · obtain ⟨event, stop, ahead⟩ := stops
    exact calls event stop ahead
  refine .after (ends_agent found) (.look (looks_attempt _) fun current seen => ?_)
  obtain ⟨ahead, -⟩ := attempt_eq_ok.1 seen
  cases current with
  | none => exact spans.coda (ended ahead) fun _ q _ => .pure _ q
  | some i =>
    have consumes := consumes i ahead
    obtain ⟨event, action⟩ := i
    cases action with
    | traverse link velocity => exact spans.traverse (consumes nofun nofun)
    | sleepFor duration | sleepUntil time =>
      refine spans.coda (spans.coda (consumes nofun nofun p (Std.Refl.refl p)) fun _ _ _ => unmoved_wake) ?_
      exact fun _ q _ => .pure _ q
    | wait route stop => exact spans.wait (consumes nofun nofun)
    | stopArrive stop => exact spans.stopArrive (consumes nofun nofun)
    | stopDelay stop => exact absurd ⟨event, stop, ahead⟩ stops
    | stopDepart stop => exact spans.coda (consumes nofun nofun p (Std.Refl.refl p)) fun _ q _ => .pure _ q
    | access stop | egress stop => exact .throw _ p

/-! ## Moments -/

/-- The relation holds across what a partition does beside the turns of its agents. -/
structure Attends (now : Nat) (U : Partition → Partition → Prop) : Prop where
  aside : ∀ {p q : Partition}, q.agents = p.agents → q.links = p.links → q.log = p.log → U p q
  empties : ∀ {link : Nat} {p : Partition}, Leaves U (emptyProxy now link) p
  reports : ∀ {link : Nat} {p : Partition}, Leaves U (reportGateway now link) p

theorem attends_unmoved : Attends now Unmoved where
  aside agents _ log := .of_agents agents log
  empties := unmoved_emptyProxy
  reports := unmoved_reportGateway

/-- What holds across the turn of an agent, and isn't touched by what is done beside it, holds across whatever a
partition does next. -/
theorem leaves_perform {R U : Partition → Partition → Prop} [Std.Refl U] [IsTrans Partition U] {m : Moment}
    (attends : Attends now U) (still : ∀ {p q}, U p q → R p q) (coda : ∀ {p q r}, R p q → U q r → R p r)
    (turns : ∀ v, m.Turn now p v → Leaves R (dispatch v now) p)
    (takes : ∀ {link budget rest v head q}, m = .serving link (budget + 1) rest → p.links[link]? = some v →
      v.front? = some head → head.finish ≤ now → Dispatched head.agent now p true q →
      Leaves U (takeHead link now) q) : Leaves R (m.perform now) p := by
  have : Std.Refl R := ⟨fun p => still (Std.Refl.refl p)⟩
  have idle : ∀ {α : Type} {act : Act α} {p : Partition}, Leaves U act p → Leaves R act p := still
  have after : ∀ {α β : Type} {act : Act α} {next : α → Act β} {p : Partition}, Leaves R act p →
      (∀ a q, Ends act p a q → Leaves U (next a) q) → Leaves R (act >>= next) p := fun turn later =>
    .seq (fun _ related => related) (fun _ _ => coda) turn later
  have wakes : ∀ {id time : Nat} {p : Partition}, Leaves U (wake id time) p :=
    .look .get fun _ _ => .look (looks_attempt _) fun _ _ => .modify (attends.aside rfl rfl rfl)
  have revisits : ∀ {link time : Nat} {p : Partition}, Leaves U (revisit link time) p :=
    .look .get fun _ _ => .look (looks_attempt _) fun _ _ => .modify (attends.aside rfl rfl rfl)
  cases m with
  | calling =>
    exact idle (.look .get fun _ _ => .look (looks_attempt _) fun _ _ =>
      Leaves.bind (.modify (attends.aside rfl rfl rfl)) fun _ q _ => .pure _ q)
  | acting ids =>
    cases ids with
    | nil =>
      exact idle (.look .get fun _ _ => .look (looks_attempt _) fun _ _ =>
        Leaves.bind (.modify (attends.aside rfl rfl rfl)) fun _ q _ => .pure _ q)
    | cons v rest =>
      have turn : Leaves R (actOrRetry v now) p := by
        refine after (turns v .due) fun done q _ => ?_
        split
        · exact .pure _ q
        · exact wakes
      exact after turn fun _ q _ => .pure _ q
  | visiting links =>
    cases links with
    | nil => exact idle (.look .get fun _ _ => .pure _ p)
    | cons link rest =>
      refine .look (looks_view link) fun view _ => ?_
      split <;> exact .pure _ p
  | serving link budget rest =>
    cases budget with
    | zero =>
      refine idle (Leaves.bind (.look (looks_view link) fun v _ => ?_) fun _ q _ => .pure _ q)
      split
      · exact .pure _ p
      · exact revisits
    | succ budget =>
      rw [perform_serving]
      simp only [tryHead, bind_assoc]
      refine .look (looks_view link) fun v seen => ?_
      obtain ⟨view, -⟩ := view_eq_ok.1 seen
      cases front : v.front? with
      | none => exact .pure _ p
      | some head =>
        dsimp only
        split
        · rw [bind_assoc]
          exact idle (revisits.bind fun _ q _ => .pure _ q)
        · rename_i due
          have due := Nat.le_of_not_lt due
          rw [bind_assoc]
          refine after (turns head.agent (.front view front due)) fun gone q ends => ?_
          cases gone with
          | true => exact (takes rfl view front due (dispatch_ends ends)).bind fun _ r _ => .pure _ r
          | false =>
            rw [if_neg Bool.false_ne_true, bind_assoc]
            exact revisits.bind fun _ r _ => .pure _ r
  | collecting links =>
    cases links with
    | nil => exact idle (.look .get fun _ _ => .pure _ p)
    | cons link rest => exact idle (attends.empties.bind fun _ q _ => .pure _ q)
  | reporting links =>
    cases links with
    | nil => exact .pure _ p
    | cons link rest => exact idle (attends.reports.bind fun _ q _ => .pure _ q)
  | posting => exact .pure _ p

theorem Spans.perform {R : Partition → Partition → Prop} {m : Moment} (spans : Spans R)
    (turns : ∀ v, m.Turn now p v → Leaves R (Partition.dispatch v now) p) : Leaves R (m.perform now) p :=
  leaves_perform attends_unmoved spans.still spans.after turns fun _ _ _ _ _ => unmoved_takeHead

end Partition

end Mobility
