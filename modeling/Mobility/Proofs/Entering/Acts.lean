import Mobility.Proofs.Kinds.Turns
import Mobility.Proofs.Queue.Work

/-!
# Entering links as planned

There are three ways onto an owned link: an agent of the partition enters the link in its turn, and an agent from a
neighbor enters it when it arrives, or after it has waited in front of it. The first one reads the velocity from the
instruction which the agent is about to consume, and the others from the last one which it has consumed. Whatever a
partition does, the entry on the link and what is noted of the agent agree with the plan of the agent
(`Partition.LetsIn`), and whoever waits stays where it is in its plan (`Partition.Stays`).
-/

set_option autoImplicit false

namespace Mobility

open Act

/-! ## What plans say -/

/-- Agent `x`, with `k` instructions behind it, has just consumed the instruction to traverse a link. -/
def Scenario.HeadsFor (s : Scenario) (x k link : Nat) : Prop :=
  ∃ j event ref velocity, k = j + 1 ∧ s.Instructs x j ⟨event, .traverse ref velocity⟩ ∧ ref.val = link

namespace Agent

variable {a : Agent} {link link' : Nat} {velocity velocity' : Velocity}

/-- The last instruction which the agent has consumed is to traverse this link, with this velocity. -/
def Traverses (a : Agent) (link : Nat) (velocity : Velocity) : Prop :=
  ∃ event ref, a.previous = .ok (some ⟨event, .traverse ref velocity⟩) ∧ ref.val = link

/-- It is only one link, and only one velocity. -/
theorem Traverses.unique (h : a.Traverses link velocity) (k : a.Traverses link' velocity') :
    link = link' ∧ velocity = velocity' := by
  obtain ⟨event, ref, last, rfl⟩ := h
  obtain ⟨event', ref', last', rfl⟩ := k
  have same := Option.some.inj (Except.ok.inj (last.symm.trans last'))
  obtain ⟨-, action⟩ := Instruction.mk.inj same
  obtain ⟨rfl, rfl⟩ := Action.traverse.inj action
  exact ⟨rfl, rfl⟩

theorem traverses_of_current {event : EventId} {ref : LinkRef}
    (current : a.current = .ok (some ⟨event, .traverse ref velocity⟩)) :
    Traverses { a with cursor := a.cursor + 1 } ref.val velocity := by
  refine ⟨event, ref, ?_, rfl⟩
  rw [previous, if_neg (Nat.succ_ne_zero a.cursor)]
  exact current

theorem Traverses.traversed (h : a.Traverses link velocity) : a.plan.Traversed a.cursor := by
  obtain ⟨event, ref, last, -⟩ := h
  unfold previous at last
  split at last
  · cases last
  · rename_i begun
    obtain ⟨k, hk⟩ := Nat.exists_eq_succ_of_ne_zero begun
    rw [hk] at last ⊢
    exact ⟨k, event, ref, velocity, rfl, last⟩

/-- The agent has entered the link in second `now` and may leave it at `finish`, as its plan says: it has just consumed
the instruction to traverse this link, and this is how long the traversal takes. -/
structure Entered (a : Agent) (s : Scenario) (timing : Timing) (now link finish : Nat) : Prop where
  planned : ∃ velocity, a.Traverses link velocity ∧
    finish = Clock.after now (s.travelTime link velocity.val timing.delay)
  start : a.linkStart = now
  finish : a.linkFinish = finish

end Agent

/-! ## What happens to links -/

namespace LinkView

variable {now : Nat} {P Q : Entry → Prop} {v w x : LinkView}

/-- The second view of a link comes from the first one by a history of second `now` in which only such agents enter. -/
def Takes (now : Nat) (P : Entry → Prop) (v w : LinkView) : Prop :=
  ∃ h : History, h.Within now ∧ Follows v h w ∧ ∀ e ∈ h.entries, P e

namespace Takes

theorem refl : Takes now P v v := ⟨[], nofun, .nil, nofun⟩

theorem one {o : Operation} (h : Operated now o v w) (enters : ∀ e, o.entrant? = some e → P e) : Takes now P v w := by
  refine ⟨[(now, o)], by simp [History.Within], .snoc .nil h, fun e he => ?_⟩
  rw [History.entries_one] at he
  exact enters e (Option.mem_toList.1 he)

theorem mono (h : Takes now P v w) (imp : ∀ e, P e → Q e) : Takes now Q v w := by
  obtain ⟨k, within, follows, only⟩ := h
  exact ⟨k, within, follows, fun e he => imp e (only e he)⟩

theorem trans (h : Takes now P v w) (k : Takes now P w x) : Takes now P v x := by
  obtain ⟨h, within, follows, only⟩ := h
  obtain ⟨k, within', follows', only'⟩ := k
  refine ⟨h ++ k, within.append within', follows.trans follows', fun e he => ?_⟩
  rw [History.entries_append] at he
  exact (List.mem_append.1 he).elim (only e) (only' e)

theorem isOwned (h : Takes now P v w) (owned : v.isOwned = true) : w.isOwned = true := by
  obtain ⟨h, -, follows, -⟩ := h
  exact follows.isOwned owned

end Takes

end LinkView

namespace Partition

variable {s : Scenario} {timing : Timing} {now link id i : Nat} {p q r : Partition} {v w : LinkView} {e : Entry}
  {α : Type} {act : Act α}

/-- The agent of the entry has entered the link in second `now`, as its plan says. -/
def Agrees (s : Scenario) (timing : Timing) (now link : Nat) (p : Partition) (e : Entry) : Prop :=
  ∃ a, p.agents[e.agent]? = some a ∧ a.Entered s timing now link e.finish

/-- What happens to each owned link between two states is a history of second `now`, and whoever enters the link does
so as its plan says. -/
def LetsIn (s : Scenario) (timing : Timing) (now : Nat) (p q : Partition) : Prop :=
  ∀ (link : Nat) (v : LinkView), p.links[link]? = some v → v.isOwned = true →
    ∃ w, q.links[link]? = some w ∧ v.Takes now (Agrees s timing now link q) w

/-- Besides, what is known of those who have entered before is still so. -/
structure Ushers (s : Scenario) (timing : Timing) (now : Nat) (p q : Partition) : Prop where
  letsIn : LetsIn s timing now p q
  agreed : ∀ link e, Agrees s timing now link p e → Agrees s timing now link q e

namespace LetsIn

theorem of_links (links : q.links = p.links) : LetsIn s timing now p q := fun link v view _ =>
  ⟨v, by rw [links, view], .refl⟩

theorem of_same (h : LetsIn s timing now q r) (links : q.links = p.links) : LetsIn s timing now p r :=
  fun link v view => h link v (links ▸ view)

/-- One link is replaced by what it becomes. -/
theorem of_set (view : p.links[link]? = some v) (links : q.links = p.links.setIfInBounds link w)
    (takes : v.isOwned = true → v.Takes now (Agrees s timing now link q) w) : LetsIn s timing now p q := by
  intro other u seen owned
  by_cases own : link = other
  · subst own
    obtain rfl := Option.some.inj (view.symm.trans seen)
    obtain ⟨inside, -⟩ := Array.getElem?_eq_some_iff.1 view
    exact ⟨w, by rw [links, Array.getElem?_setIfInBounds_self_of_lt inside], takes owned⟩
  · exact ⟨u, by rw [links, Array.getElem?_setIfInBounds_ne own, seen], .refl⟩

theorem ushered (h : LetsIn s timing now p q) (k : Ushers s timing now q r) : LetsIn s timing now p r := by
  intro link v view owned
  obtain ⟨w, there, takes⟩ := h link v view owned
  obtain ⟨x, after, goesOn⟩ := k.letsIn link w there (takes.isOwned owned)
  exact ⟨x, after, (takes.mono (k.agreed link)).trans goesOn⟩

end LetsIn

instance : Std.Refl (LetsIn s timing now) := ⟨fun _ => .of_links rfl⟩

instance : Std.Refl (Ushers s timing now) := ⟨fun _ => ⟨.of_links rfl, fun _ _ agrees => agrees⟩⟩

instance : IsTrans Partition (Ushers s timing now) where
  trans _ _ _ h k := ⟨h.letsIn.ushered k, fun link e agrees => k.agreed link e (h.agreed link e agrees)⟩

/-- What is known of agents doesn't change where they don't. -/
theorem Ushers.of_agents (agents : q.agents = p.agents) (letsIn : LetsIn s timing now p q) :
    Ushers s timing now p q :=
  ⟨letsIn, fun _ _ ⟨a, found, entered⟩ => ⟨a, by rw [agents, found], entered⟩⟩

theorem Ushers.aside (agents : q.agents = p.agents) (links : q.links = p.links) : Ushers s timing now p q :=
  .of_agents agents (.of_links links)

/-! ## Acts which let nobody else in -/

theorem ushers_revisit {time : Nat} : Leaves (Ushers s timing now) (revisit link time) p :=
  .look .get fun _ _ => .look (looks_attempt _) fun _ _ => .modify (.aside rfl rfl)

theorem ushers_send {target : Nat} {way : Option Nat} : Leaves (Ushers s timing now) (send target way id now) p :=
  .look (looks_record id) fun _ _ => .modify (.aside rfl rfl)

theorem ushers_setView (view : p.links[link]? = some v)
    (takes : v.isOwned = true → v.Takes now (fun _ => False) w) :
    Leaves (Ushers s timing now) (setView link w) p :=
  .modify (.of_agents rfl (.of_set view rfl fun owned => (takes owned).mono fun _ => False.elim))

theorem ushers_emptyProxy : Leaves (Ushers s timing now) (emptyProxy now link) p := by
  refine .look (looks_view link) fun v seen => ?_
  obtain ⟨view, -⟩ := view_eq_ok.1 seen
  cases v with
  | proxy x => exact (ushers_setView view nofun).bind fun _ _ _ => .forM fun _ _ _ => ushers_send
  | owned | gateway | remote => exact .pure _ p

theorem ushers_reportGateway : Leaves (Ushers s timing now) (reportGateway now link) p := by
  refine .look (looks_view link) fun v seen => ?_
  obtain ⟨view, -⟩ := view_eq_ok.1 seen
  cases v with
  | gateway g =>
    refine Leaves.bind (ushers_setView view fun _ => .one .report nofun) fun _ _ _ => .forM fun _ _ _ => ?_
    exact .modify (.aside rfl rfl)
  | owned | proxy | remote => exact .pure _ p

theorem attends_ushers : Attends now (Ushers s timing now) where
  aside agents links _ := .aside agents links
  empties := ushers_emptyProxy
  reports := ushers_reportGateway

theorem ushers_applyCount {part count : Nat} : Leaves (Ushers s timing now) (applyCount part link count) p := by
  refine .look .get fun _ seen => ?_
  obtain ⟨rfl, -⟩ := get_eq_ok.1 seen
  split
  · rename_i x view
    dsimp only
    split
    · exact .look (.fail _) fun _ ends => absurd ends throw_ne_ok
    · exact .look (looks_attempt _) fun _ _ => ushers_setView view nofun
  · exact .throw _ p

theorem ushers_receiveReleases {delivery : Delivery} : Leaves (Ushers s timing now) (receiveReleases now delivery) p :=
  .look .get fun _ _ => .look (looks_communicate _) fun _ _ =>
    .forM fun _ _ _ => .forM fun _ _ _ => ushers_applyCount

/-! ## From in front of a link -/

/-- What the scenario says about the agent is so. -/
theorem Setting.traverses {x : Nat} {a : Agent} (h : p.Setting s timing i) (found : p.agents[x]? = some a)
    (heads : s.HeadsFor x a.cursor link) : ∃ velocity, a.Traverses link velocity := by
  obtain ⟨j, event, ref, velocity, cursor, next, rfl⟩ := heads
  have get := h.plan_get? found next
  refine ⟨velocity, event, ref, ?_, rfl⟩
  rw [Agent.previous, if_neg (by simp [cursor]), cursor]
  exact get

/-- Everybody who waits in front of a link has just consumed the instruction to traverse it. -/
def Bound (p : Partition) : Prop :=
  ∀ link, ∀ x ∈ (p.seen link).inFront, ∃ a velocity, p.agents[x]? = some a ∧ a.Traverses link velocity

/-- An agent which has just consumed the traversal of a link enters the link, which is noted. -/
theorem agrees_onLink {a : Agent} {velocity : Velocity} {finish : Nat} (found : p.agents[id]? = some a)
    (planned : a.Traverses link velocity)
    (time : finish = Clock.after now (s.travelTime link velocity.val timing.delay)) :
    (∀ part, Agrees s timing now link { p with agents := p.agents.setIfInBounds id (a.onLink now finish) }
      ⟨id, finish, part⟩) ∧
    ∀ other e, Agrees s timing now other p e →
      Agrees s timing now other { p with agents := p.agents.setIfInBounds id (a.onLink now finish) } e := by
  have onLink := Array.getElem?_setIfInBounds_self_of_lt (a := a.onLink now finish)
    (Array.getElem?_eq_some_iff.1 found).1
  refine ⟨fun part => ⟨_, onLink, ⟨velocity, planned, time⟩, rfl, rfl⟩, fun other e ⟨b, hb, entered⟩ => ?_⟩
  by_cases own : id = e.agent
  · -- It enters the link which it has entered then, and it takes as long.
    obtain rfl := Option.some.inj (found.symm.trans (own ▸ hb))
    obtain ⟨⟨velocity', planned', time'⟩, -, -⟩ := entered
    obtain ⟨rfl, rfl⟩ := planned.unique planned'
    exact ⟨a.onLink now finish, own ▸ onLink, ⟨velocity, planned, time'⟩, rfl, time.trans time'.symm⟩
  · exact ⟨b, (Array.getElem?_setIfInBounds_ne own).trans hb, entered⟩

/-- Whoever enters a link takes as long as the traversal which it has just consumed. -/
theorem Enters.planned {a : Agent} {queue : Link} {finish : Nat} (h : p.Enters queue id now finish a)
    (timed : p.timing = timing)
    (travel : ∀ velocity delay, queue.travelTime velocity delay = s.travelTime link velocity delay)
    (bound : ∃ velocity, a.Traverses link velocity) :
    ∃ velocity, a.Traverses link velocity ∧
      finish = Clock.after now (s.travelTime link velocity.val timing.delay) := by
  obtain ⟨-, event, requested, velocity, previous, time⟩ := h
  obtain ⟨asked, planned⟩ := bound
  obtain ⟨-, rfl⟩ := planned.unique ⟨event, requested, previous, rfl⟩
  exact ⟨asked, planned, by rw [time, travel, timed]⟩

/-- Those who wait in front of a gateway enter it as their plans say. -/
theorem takes_admitted {g k : Gateway} {waiting : List (Nat × Nat)} (h : Admitted now g waiting p k q)
    (last : now < Clock.last) (timed : p.timing = timing)
    (travel : ∀ velocity delay, g.link.travelTime velocity delay = s.travelTime link velocity delay)
    (bound : ∀ row ∈ waiting, ∃ a velocity, p.agents[row.1]? = some a ∧ a.Traverses link velocity) :
    (LinkView.gateway { g with inbound := waiting }).Takes now (Agrees s timing now link q) (.gateway k) ∧
      q.links = p.links ∧ ∀ other e, Agrees s timing now other p e → Agrees s timing now other q e := by
  induction h with
  | nobody | full => exact ⟨.refl, rfl, fun _ _ agrees => agrees⟩
  | @entered g k p q id part finish rest a room enters later ih =>
    have found := enters.found
    obtain ⟨velocity, planned, takes⟩ := enters.planned timed travel (by
      obtain ⟨b, asked, hb, planned⟩ := bound (id, part) List.mem_cons_self
      exact ⟨asked, Option.some.inj (found.symm.trans hb) ▸ planned⟩)
    obtain ⟨entered, agreed⟩ := agrees_onLink (s := s) found planned takes
    have onLink := Array.getElem?_setIfInBounds_self_of_lt (a := a.onLink now finish)
      (Array.getElem?_eq_some_iff.1 found).1
    obtain ⟨others, links, still⟩ := ih timed travel fun row hrow => by
      obtain ⟨b, asked, hb, bound⟩ := bound row (List.mem_cons_of_mem _ hrow)
      by_cases own : id = row.1
      · obtain rfl := Option.some.inj (found.symm.trans (own ▸ hb))
        exact ⟨a.onLink now finish, asked, own ▸ onLink, bound⟩
      · exact ⟨b, asked, (Array.getElem?_setIfInBounds_ne own).trans hb, bound⟩
    refine ⟨LinkView.Takes.trans (.one (.letIn rfl room ?_) fun e he => ?_) others, links, fun other e agrees =>
      still other e (agreed other e agrees)⟩
    · obtain ⟨event, requested, asked, -, time⟩ := enters.time
      exact time ▸ Clock.lt_after last (Link.travelTime_pos ..)
    · obtain rfl := Option.some.inj he
      exact still link _ (entered _)

theorem ushers_drained (h : Ends (drainInbound link now) p () q) (last : now < Clock.last)
    (setting : p.Setting s timing i) (bound : p.Bound) : Ushers s timing now p q := by
  obtain ⟨v, view, ⟨g, k, r, rfl, admitted, rfl⟩ | ⟨-, rfl⟩⟩ := drainInbound_ends h
  · obtain ⟨-, -, -, -, travel⟩ := setting.owned view rfl
    obtain ⟨takes, links, agreed⟩ := takes_admitted (s := s) admitted last setting.timing travel fun row hrow => by
      refine bound link row.1 ?_
      rw [seen_of_view view]
      exact List.mem_map_of_mem (f := Prod.fst) hrow
    exact ⟨.of_set view (by rw [links]) fun _ => takes, agreed⟩
  · exact Std.Refl.refl p

/-- Whoever waits can be let in. -/
theorem ushers_drainInbound (view : p.links[link]? = some v) (last : now < Clock.last)
    (setting : p.Setting s timing i) (bound : p.Bound) : Leaves (Ushers s timing now) (drainInbound link now) p := by
  have drains : Fails (fun _ => False) (drainInbound link now) p := by
    refine fails_drainInbound view ?_
    rintro g rfl row hrow
    obtain ⟨a, velocity, found, planned⟩ := bound link row.1 (by
      rw [seen_of_view view]
      exact List.mem_map_of_mem (f := Prod.fst) hrow)
    exact ⟨a, found, planned.traversed⟩
  obtain ⟨⟨⟩, q, ends⟩ := ends_of_never drains
  exact .of_ends ends (ushers_drained ends last setting bound)

/-! ## In a turn -/

theorem letsIn_off (off : OffLinks act) : Leaves (LetsIn s timing now) act p := .of_links (off p)

section Turn

variable {a : Agent} {event : EventId} {ref : LinkRef} {velocity : Velocity} {queue : Link} {hand : Multiset Nat}

/-- An agent of the partition enters a link with the velocity of the instruction which it consumes then. -/
theorem letsIn_enter (found : p.agents[id]? = some a)
    (current : a.current = .ok (some ⟨event, .traverse ref velocity⟩)) (view : p.links[ref.val]? = some v)
    (owned : v.link? = some queue) (last : now < Clock.last) (setting : p.Setting s timing i)
    (soon : p.dueLinks.next ≤ now + 1) : Leaves (LetsIn s timing now) (enter id ref.val velocity now v queue) p := by
  obtain ⟨b, q, ends⟩ := ends_of_never (fails_enter found current owned soon)
  refine .of_ends ends ?_
  have answer := enter_ends ends
  obtain ⟨-, -, -, -, travel⟩ := setting.owned view owned
  have timed : p.timing = timing := setting.timing
  have takes : Clock.after now (queue.travelTime velocity.val p.timing.delay) =
      Clock.after now (s.travelTime ref.val velocity.val timing.delay) := by rw [travel, timed]
  have later := Clock.lt_after last (queue.travelTime_pos velocity.val p.timing.delay)
  generalize Clock.after now (queue.travelTime velocity.val p.timing.delay) = finish at answer takes later
  rcases answer with ⟨-, rfl, -⟩ | ⟨-, w, b, r, pushed, found', consumes, scheduled⟩
  · exact Std.Refl.refl p
  obtain rfl := Option.some.inj (found'.symm.trans found)
  have inside := (Array.getElem?_eq_some_iff.1 found).1
  -- The traversal is noted on the agent before the agent consumes its instruction.
  have noted : r.agents[id]? = some { b.onLink now finish with cursor := b.cursor + 1 } := by
    obtain ⟨c, j, hc, -, rfl⟩ := consume_ends consumes
    obtain rfl := Option.some.inj ((Array.getElem?_setIfInBounds_self_of_lt inside).symm.trans hc)
    exact Array.getElem?_setIfInBounds_self_of_lt (by simpa using inside)
  have mine : v.isOwned = true := by rw [LinkView.isOwned, owned]; rfl
  have entered : LetsIn s timing now p r := by
    refine .of_set view (offRoad_consume consumes).links fun _ => .one (.push mine later pushed) fun e he => ?_
    obtain rfl := Option.some.inj he
    exact ⟨_, noted, ⟨velocity, Agent.traverses_of_current current, takes⟩, rfl, rfl⟩
  exact entered.ushered (relates_scheduled ushers_revisit.ends scheduled Eq.symm)

theorem letsIn_traverse (found : p.agents[id]? = some a)
    (current : a.current = .ok (some ⟨event, .traverse ref velocity⟩)) (last : now < Clock.last)
    (setting : p.Setting s timing i) (soon : p.dueLinks.next ≤ now + 1) :
    Leaves (LetsIn s timing now) (traverse id ref.val velocity now) p := by
  refine .look (looks_view _) fun v seen => ?_
  obtain ⟨view, -⟩ := view_eq_ok.1 seen
  cases v with
  | remote _ owner => exact letsIn_off (send_off.bind fun _ => .pure _)
  | proxy x =>
    dsimp only
    cases x.push id with
    | none => exact .pure _ p
    | some y =>
      have noted : OffLinks (do
          setAgent id ((← agent id).onLink now now)
          consume id .advance now
          return true) := agent_off.bind fun _ => setAgent_off.bind fun _ => consume_off.bind fun _ => .pure _
      exact .seq (R := fun p q => q.links = p.links.setIfInBounds ref.val (.proxy y))
        (S := fun q r => r.links = q.links) (fun q links => .of_set view links nofun)
        (fun q r links same => .of_set view (same.trans links) nofun) rfl fun _ q _ => noted q
  | owned l => exact letsIn_enter found current view rfl last setting soon
  | gateway g => exact letsIn_enter found current view rfl last setting soon

/-- Whoever takes its turn enters a link as its plan says, if at all. -/
theorem letsIn_dispatch (ready : Ready now hand p) (present : id ∈ hand + p.roots) (last : now < Clock.last)
    (setting : p.Setting s timing i) : Leaves (LetsIn s timing now) (dispatch id now) p := by
  obtain ⟨a, found⟩ := ready.found present
  refine .after (ends_agent found) (.look (looks_attempt _) fun current seen => ?_)
  obtain ⟨ahead, -⟩ := attempt_eq_ok.1 seen
  cases current with
  | none =>
    exact letsIn_off (OffLinks.bind (agent_off.bind fun _ =>
      (OffLinks.modify _ (by intro p; rfl)).bind fun _ => .modify _ (by intro p; rfl)) fun _ => .pure _)
  | some step =>
    obtain ⟨event, action⟩ := step
    cases action with
    | traverse ref velocity => exact letsIn_traverse found ahead last setting ready.links
    | sleepFor duration => exact letsIn_off ((consume_off.bind fun _ => wake_off).bind fun _ => .pure _)
    | sleepUntil time => exact letsIn_off ((consume_off.bind fun _ => wake_off).bind fun _ => .pure _)
    | wait route stop => exact letsIn_off wait_off
    | stopArrive stop => exact letsIn_off stopArrive_off
    | stopDelay stop => exact letsIn_off (exchangePassengers_off.bind fun _ => .pure _)
    | stopDepart stop => exact letsIn_off (consume_off.bind fun _ => .pure _)
    | access stop | egress stop => exact letsIn_off (.fail _)

end Turn

/-! ## Coming from a neighbor -/

/-- Whoever is welcomed in front of a link enters it as its plan says, at once or later. -/
theorem letsIn_welcomed {part : Nat} (welcomed : Welcomed id link part now p q) (last : now < Clock.last)
    (setting : p.Setting s timing i) (bound : ∃ a velocity, p.agents[id]? = some a ∧ a.Traverses link velocity) :
    LetsIn s timing now p q := by
  cases welcomed with
  | waits view known closed => exact .of_set view rfl fun _ => .one (.wait closed) nofun
  | @enters g a finish _ view known empty room enters scheduled =>
    obtain ⟨-, -, -, -, travel⟩ := setting.owned view rfl
    obtain ⟨b, asked, found, consumed⟩ := bound
    obtain rfl := Option.some.inj (enters.found.symm.trans found)
    obtain ⟨velocity, planned, takes⟩ := enters.planned setting.timing travel ⟨asked, consumed⟩
    obtain ⟨entered, -⟩ := agrees_onLink (s := s) found planned takes
    have later : now < finish := by
      obtain ⟨event, requested, asked, -, time⟩ := enters.time
      exact time ▸ Clock.lt_after last (Link.travelTime_pos ..)
    have letIn : LetsIn s timing now p { p with
        agents := p.agents.setIfInBounds id (a.onLink now finish)
        links := p.links.setIfInBounds link (.gateway (g.append id part finish)) } :=
      .of_set view rfl fun _ => .one (.come empty room later) fun e he => Option.some.inj he ▸ entered (some part)
    exact letIn.ushered (relates_scheduled ushers_revisit.ends scheduled fun same => same)

/-- Whoever is taken in enters the link for which it has consumed a traversal, at once or later. -/
theorem letsIn_takenIn {record : AgentRecord} {entry : Option Nat} {part : Nat}
    (taken : TakenIn record entry part now p q) (last : now < Clock.last) (setting : p.Setting s timing i)
    (heads : ∀ l, entry = some l → s.HeadsFor record.id record.cursor l) : LetsIn s timing now p q := by
  obtain ⟨boarded, before, boards, own, grows, placed⟩ := taken
  have brought := (setting.trans (kept_boarded boards)).trans
    (Kept.setAgent (b := { before with cursor := record.cursor }) own rfl fun honest => honest)
  have links : boarded.links = p.links := (offRoad_boarded boards).links
  refine LetsIn.of_same (q := { boarded with
    agents := boarded.agents.setIfInBounds record.id { before with cursor := record.cursor } }) ?_ links
  cases entry with
  | none =>
    obtain ⟨due, -, rfl⟩ := wake_eq_ok.1 placed
    exact .of_links rfl
  | some l =>
    have moved := Array.getElem?_setIfInBounds_self_of_lt (a := { before with cursor := record.cursor })
      (Array.getElem?_eq_some_iff.1 own).1
    obtain ⟨velocity, consumed⟩ := Setting.traverses brought moved (heads l rfl)
    exact letsIn_welcomed placed last brought ⟨_, velocity, moved, consumed⟩

/-! ## Staying behind -/

/-- The agent stays where it is in its plan. -/
def Stays (x : Nat) (p q : Partition) : Prop := q.agents[x]?.map Agent.place = p.agents[x]?.map Agent.place

instance {x : Nat} : Std.Refl (Stays x) := ⟨fun _ => rfl⟩

instance {x : Nat} : IsTrans Partition (Stays x) := ⟨fun _ _ _ h k => Eq.trans k h⟩

section Stays

variable {x : Nat} {hand : Multiset Nat}

theorem Unmoved.stays (h : Unmoved p q) : Stays x p q := h.places x

theorem spans_stays : Spans (Stays x) where
  still := Unmoved.stays
  before still stays := Eq.trans stays still.stays
  after stays still := Eq.trans still.stays stays

theorem stays_consume {how : Consumption} (other : id ≠ x) : Leaves (Stays x) (consume id how now) p := by
  refine .look (looks_agent id) fun a _ => .look (looks_attempt _) fun ⟨b, event⟩ _ => ?_
  have moves : Leaves (Stays x) (setAgent id b) p :=
    .modify (congrArg (Option.map Agent.place) (Array.getElem?_setIfInBounds_ne other))
  refine moves.bind fun _ q _ => ?_
  cases event with
  | none => exact .pure _ q
  | some event => exact .modify rfl

/-- Whoever heads for a link neither is the one who acts nor leaves or boards a vehicle. -/
theorem Ready.stays_callsAt {a : Agent} {stop : StopRef} (h : Ready now hand p) (present : id ∈ hand + p.roots)
    (free : Free hand id p) (heads : x ∈ p.heading) (calls : CallsAt id a stop now p q) : Stays x p q := by
  obtain ⟨-, apart, riders⟩ := aboard_of_nodup h.once
  have here : x ∈ hand + p.roots := Multiset.mem_add.2 (.inr (Multiset.mem_add.2
    (.inr (Multiset.mem_of_le p.heading_le_standing heads))))
  refine congrArg (Option.map Agent.place) (calls.others x fun moves => ?_)
  rcases List.mem_cons.1 moves with rfl | moves
  · exact free.heading heads
  · rcases List.mem_append.1 moves with leaves | boards
    · exact ((riders id present).2 x (mem_crew.2 ⟨_, leaves⟩)).1 here
    · obtain ⟨⟨index, y⟩, hy, rfl⟩ := List.mem_map.1 boards
      obtain ⟨-, waits⟩ := Platforms.mem_waiting (List.mem_of_mem_take hy)
      exact apart y here (Platforms.mem_everybody.2 ⟨_, _, _, waits⟩)

/-- Whoever heads for a link stays where it is in its plan while another one takes its turn. -/
theorem stays_dispatch (h : Ready now hand p) (present : id ∈ hand + p.roots) (free : Free hand id p)
    (heads : x ∈ p.heading) : Leaves (Stays x) (dispatch id now) p := by
  obtain ⟨a, found⟩ := h.found present
  have other : id ≠ x := fun same => free.heading (same ▸ heads)
  refine spans_stays.dispatch found (fun _ => ?_) (fun event stop ahead => ?_) fun _ _ _ _ _ _ => stays_consume other
  · exact .look (looks_agent id) fun _ _ => Leaves.bind (.modify rfl) fun _ _ _ => .modify rfl
  · obtain ⟨q, ends, calls⟩ := h.callsAt present free found ahead
    exact .of_ends ends (h.stays_callsAt present free heads calls)

/-- Whoever waits in front of a link heads for it. -/
theorem mem_heading_of_inFront (h : x ∈ (p.seen link).inFront) : x ∈ p.heading := by
  cases view : p.links[link]? with
  | none =>
    rw [seen, view] at h
    cases h
  | some v =>
    rw [seen_of_view view] at h
    have there : v ∈ p.links.toList := Array.mem_toList_iff.2 (Array.mem_of_getElem? view)
    refine Multiset.mem_of_le (le_sum_map (f := LinkView.heading) there) ?_
    cases v with
    | gateway g => exact h
    | owned | proxy | remote => cases h

/-- Whoever heads for a link stays where it is in its plan, whatever is done next. -/
theorem stays_perform {m : Moment} (ready : m.isWorking = true → Ready now m.hand p) (heads : x ∈ p.heading) :
    Leaves (Stays x) (m.perform now) p := by
  refine spans_stays.perform fun v turn => ?_
  have ready := ready (by cases turn <;> rfl)
  obtain ⟨present, free⟩ := turn.free ready.once
  exact stays_dispatch ready present free heads

/-- Whoever is here stays where it is in its plan while others are taken in. -/
theorem stays_receiveAgent {first : Entrant} {rest : List Entrant} (hosts : Hosts now (first :: rest) p)
    (here : x ∈ p.census 0) : Leaves (Stays x) (receiveAgent first.2.2 first.2.1 first.1 now) p := by
  obtain ⟨⟨⟩, q, ends⟩ := ends_of_never hosts.safe
  obtain ⟨taken⟩ := receiveAgent_ends ends
  have once := hosts.once
  rw [List.map_cons, List.sum_cons, ← add_assoc] at once
  obtain ⟨-, loaded, apart⟩ := Multiset.nodup_add.1 (Multiset.nodup_add.1 once).1
  have brought := brought_takenIn (Multiset.coe_nodup.1 (first.2.2.coe_cursors ▸ loaded)) taken
  refine .of_ends ends (congrArg (Option.map Agent.place) (brought.others x fun comes => ?_))
  exact Multiset.disjoint_left.1 apart here (first.2.2.coe_cursors ▸ Multiset.mem_coe.2 comes)

end Stays

end Partition

end Mobility
