import Mobility.Proofs.Whereabouts.Sites

/-!
# Places and elementary acts

What a partition knows of the network and of plans is what the scenario says (`Partition.Setting`), and
elementary acts put at most one agent to a new place.
-/

set_option autoImplicit false

namespace Mobility

open Act

namespace LinkView

/-- The length, the velocity and the capacity of an owned link. -/
def measures (v : LinkView) : Option (Measure × Measure × Nat) :=
  v.link?.map fun l => (l.length, l.velocity, l.capacity)

theorem Alike.measures {v w : LinkView} (h : Alike v w) : w.measures = v.measures := by
  have cleared : ∀ u : LinkView, u.cleared.measures = u.measures := by rintro (_ | _ | _ | _) <;> rfl
  rw [← cleared w, ← cleared v, h]

end LinkView

namespace Partition

variable {s : Scenario} {timing : Timing} {now i id x k link time : Nat} {crowd : Prop} {rule : Rule}
  {c c' : Scope} {p q r : Partition} {site : Site} {v : LinkView}

/-! ## The setting -/

/-- The partition is partition `i` of the scenario, at any time of a run. -/
abbrev Setting (s : Scenario) (timing : Timing) (i : Nat) (p : Partition) : Prop :=
  Kept LinkView.Alike (Partition.initial s timing i) p

namespace Setting

theorem instructs {a : Agent} {step : Instruction} (h : p.Setting s timing i) (found : p.agents[x]? = some a)
    (next : a.plan.get? k = .ok (some step)) : s.Instructs x k step := by
  obtain ⟨spec, hspec, blank⟩ := h.agent found
  exact ⟨spec, hspec, Agent.plan_of_blank blank ▸ next⟩

theorem completes {a : Agent} (h : p.Setting s timing i) (found : p.agents[x]? = some a)
    (ended : a.current = .ok none) : s.Completes x a.cursor := by
  obtain ⟨spec, hspec, blank⟩ := h.agent found
  exact ⟨spec, hspec, Agent.plan_of_blank blank ▸ Plan.get?_eq_none.1 ended⟩

/-- How a link of the scenario is seen at first. -/
theorem first (h : p.Setting s timing i) (view : p.links[link]? = some v) :
    ∃ spec w, s.links[link]? = some spec ∧ (s.views i)[link]? = some w ∧ LinkView.Alike w v := by
  obtain ⟨w, first, alike⟩ := h.view view
  obtain ⟨spec, hspec, -⟩ := Scenario.firstView first
  exact ⟨spec, w, hspec, first, alike⟩

/-- A link which the partition owns. -/
theorem owned {l : Link} (h : p.Setting s timing i) (view : p.links[link]? = some v)
    (owned : v.link? = some l) :
    ∃ spec, s.links[link]? = some spec ∧ s.linkPart link = i ∧ l.capacity = max spec.capacity 1 ∧
      ∀ velocity delay, l.travelTime velocity delay = s.travelTime link velocity delay := by
  obtain ⟨spec, w, hspec, first, alike⟩ := h.first view
  have part := Scenario.linkPart_eq hspec
  have same : w.measures = v.measures := alike.measures.symm
  have there : v.measures = some (l.length, l.velocity, l.capacity) := by rw [LinkView.measures, owned]; rfl
  rw [there] at same
  obtain ⟨spec', hspec', kind⟩ := Scenario.firstView first
  obtain rfl := Option.some.inj (hspec.symm.trans hspec')
  have mine : spec.part = i ∧ w.measures = some (spec.length, spec.velocity, max spec.capacity 1) := by
    cases kind with
    | owned mine | gateway mine => exact ⟨mine, rfl⟩
    | proxy | remote => cases same
  obtain ⟨mine, measures⟩ := mine
  obtain ⟨length, velocity, capacity⟩ : l.length = spec.length ∧ l.velocity = spec.velocity ∧
      l.capacity = max spec.capacity 1 := by
    simpa only [Option.some.injEq, Prod.mk.injEq] using same.symm.trans measures
  refine ⟨spec, hspec, part.trans mine, capacity, fun requested delay => ?_⟩
  unfold Scenario.travelTime Link.travelTime Link.motionSeconds Link.flowVelocity
  rw [hspec, length, velocity]
  rfl

/-- A link to which the partition sends agents. -/
theorem proxy {y : Proxy} (h : p.Setting s timing i) (hs : s.Accepted)
    (view : p.links[link]? = some (.proxy y)) :
    ∃ spec, s.links[link]? = some spec ∧ y.toPart = s.linkPart link ∧ s.Feeds i link ∧
      y.capacity = max spec.capacity 1 := by
  obtain ⟨spec, w, hspec, first, alike⟩ := h.first view
  have part := Scenario.linkPart_eq hspec
  cases w with
  | proxy y' =>
    have crossing := hs.mem_crossings.1 (hs.crossing_of_proxy first)
    obtain ⟨spec', hspec', owner, feeds⟩ := crossing
    obtain rfl := Option.some.inj (hspec.symm.trans hspec')
    have toPart : y.toPart = y'.toPart := congrArg (LinkView.owner 0) alike
    have capacity : y.capacity = y'.capacity := congrArg LinkView.room alike
    rw [hs.views_feeder hspec feeds] at first
    obtain rfl := LinkView.proxy.inj (Option.some.inj first)
    exact ⟨spec, hspec, toPart.trans part.symm, ⟨spec, hspec, feeds⟩, capacity⟩
  | owned | gateway | remote => cases alike

/-- A link of which the partition knows only the owner. -/
theorem remote {n owner : Nat} (h : p.Setting s timing i) (hs : s.Accepted)
    (view : p.links[link]? = some (.remote n owner)) :
    s.linkPart link = owner ∧ owner ≠ i ∧ ¬ s.Feeds i link := by
  obtain ⟨spec, w, hspec, first, alike⟩ := h.first view
  have part := Scenario.linkPart_eq hspec
  cases w with
  | remote n' owner' =>
    obtain ⟨rfl, rfl⟩ := LinkView.remote.inj alike
    obtain ⟨spec', hspec', kind⟩ := Scenario.firstView first
    obtain rfl := Option.some.inj (hspec.symm.trans hspec')
    cases kind with
    | remote other =>
      refine ⟨part, other, fun ⟨spec', hspec', feeds⟩ => ?_⟩
      obtain rfl := Option.some.inj (hspec.symm.trans hspec')
      rw [hs.views_feeder hspec feeds] at first
      cases first
  | owned | gateway | proxy => cases alike

/-- Who owns a link. -/
theorem owner (h : p.Setting s timing i) (hs : s.Accepted) (view : p.links[link]? = some v) :
    v.owner p.rank = s.linkPart link := by
  have rank : p.rank = i := h.rank
  cases v with
  | owned | gateway =>
    obtain ⟨-, -, mine, -⟩ := h.owned view rfl
    rw [mine]
    exact rank
  | proxy =>
    obtain ⟨-, -, owner, -⟩ := h.proxy hs view
    exact owner
  | remote => exact (h.remote hs view).1.symm

theorem stopAt {stop owner : Nat} (h : p.Setting s timing i) (hs : s.Accepted) (place : p.StopAt stop owner) :
    s.stopPart stop = owner := by
  obtain ⟨link, v, located, view, rfl⟩ := place
  have stops : p.stopLinks = s.stops.map (·.link) := h.stopLinks
  rw [stops, Array.getElem?_map, Option.map_eq_some_iff] at located
  obtain ⟨spec, hspec, rfl⟩ := located
  unfold Scenario.stopPart
  rw [hspec, h.owner hs view]

/-- What is up to another partition starts there. -/
theorem startOf_of_isUpTo {target : Nat} {action : Action} (h : p.Setting s timing i) (hs : s.Accepted)
    (up : p.IsUpTo target action) : s.startOf action = some target ∧ target ≠ p.rank ∧
      ∀ link velocity, action = .traverse link velocity → ¬ s.Feeds p.rank link.val := by
  have rank : p.rank = i := h.rank
  cases action with
  | traverse link velocity =>
    obtain ⟨n, view⟩ := up
    obtain ⟨owner, other, unfed⟩ := h.remote hs view
    refine ⟨congrArg some owner, rank ▸ other, ?_⟩
    rintro _ _ ⟨⟩
    exact rank ▸ unfed
  | wait route stop => exact ⟨congrArg some (h.stopAt hs up.2), up.1, nofun⟩
  | stopArrive stop => exact ⟨congrArg some (h.stopAt hs up.2), up.1, nofun⟩
  | sleepFor | sleepUntil | access | egress | stopDelay | stopDepart => exact up.elim

end Setting

/-! ## Moves -/

theorem rowOf_eq {a : Agent} {index : Nat} (h : p.agents[x]? = some a) :
    p.rowOf x index = a.seats.passengers.row index := by
  rw [rowOf, h]
  rfl

theorem mem_crew : x ∈ p.crew id ↔ ∃ index, x ∈ p.rowOf id index := by
  unfold crew rowOf
  cases p.agents[id]? with
  | none => simp
  | some a => exact Seats.mem_riders

theorem rowOf_setIfInBounds {a b : Agent} {index : Nat} (h : p.agents[id]? = some a) (x : Nat) :
    rowOf { p with agents := p.agents.setIfInBounds id b } x index =
      if x = id then b.seats.passengers.row index else p.rowOf x index := by
  obtain ⟨hlt, -⟩ := Array.getElem?_eq_some_iff.1 h
  unfold rowOf
  by_cases hx : x = id
  · subst hx
    rw [if_pos rfl, Array.getElem?_setIfInBounds_self_of_lt hlt]
    rfl
  · rw [if_neg hx, Array.getElem?_setIfInBounds_ne (Ne.symm hx)]

namespace Held

/-- Nobody goes on in a plan, and whoever has come to a site may be there. -/
theorem lingers (h : p.Held rule c) (rank : q.rank = p.rank)
    (cursors : ∀ (x : Nat) b, q.agents[x]? = some b → ∃ a, p.agents[x]? = some a ∧ b.cursor = a.cursor)
    (spots : ∀ site x a, q.Spot c' site x → p.agents[x]? = some a →
      p.Spot c site x ∨ rule x ⟨p.rank, site, a.cursor⟩)
    (mail : q.outbox.Every (rule.Sends p.rank)) (horizon : q.dueAgents.stop = q.timing.stop) :
    q.Held rule c' := by
  refine ⟨fun site x b spot hb => ?_, rank ▸ mail, horizon⟩
  obtain ⟨a, ha, cursor⟩ := cursors x b hb
  rw [rank, cursor]
  exact (spots site x a spot ha).elim (fun spot => h.spots site x a spot ha) fun obeys => obeys

end Held

/-! ## Elementary acts -/

theorem spot_consume {how : Consumption} (h : Ends (consume id how now) p () q) (spot : q.Spot c site x) :
    p.Spot c site x := by
  obtain ⟨a, step, ha, -, rfl⟩ := consume_ends h
  cases site with
  | aboard vehicle index =>
    obtain ⟨car, row⟩ := spot
    have same : rowOf { p with agents := p.agents.setIfInBounds id { a with cursor := a.cursor + 1 } } vehicle index =
        if vehicle = id then a.seats.passengers.row index else p.rowOf vehicle index := rowOf_setIfInBounds ha vehicle
    refine ⟨car, ?_⟩
    have row : x ∈ rowOf { p with agents := p.agents.setIfInBounds id { a with cursor := a.cursor + 1 } }
        vehicle index := row
    rw [same] at row
    split at row
    · rename_i own
      rw [own, rowOf_eq ha]
      exact row
    · exact row
  | gone time =>
    obtain ⟨stamp, stamped, kind, at_⟩ := spot
    refine ⟨stamp, ?_, kind, at_⟩
    dsimp only at stamped
    split at stamped
    · exact stamped
    · rw [EventLog.of_push] at stamped
      refine (List.mem_append.1 stamped).resolve_right fun last => ?_
      split at last
      · obtain rfl := List.mem_singleton.1 last
        exact how.kind_stamp a.id step.event kind
      · cases last
  | acting | due | beyond | queued | inbound | outbound | stop | mailed => exact spot

/-- Consuming moves the cursor of the agent behind the current instruction. -/
theorem cursor_consume {how : Consumption} {b : Agent} (h : Ends (consume id how now) p () q)
    (hb : q.agents[id]? = some b) :
    ∃ a step, p.agents[id]? = some a ∧ a.current = .ok (some step) ∧ b.cursor = a.cursor + 1 := by
  obtain ⟨a, step, ha, current, rfl⟩ := consume_ends h
  obtain ⟨hlt, -⟩ := Array.getElem?_eq_some_iff.1 ha
  rw [Array.getElem?_setIfInBounds_self_of_lt hlt] at hb
  obtain rfl := Option.some.inj hb
  exact ⟨a, step, ha, current, rfl⟩

theorem cursor_of_consume {how : Consumption} {a b : Agent} (found : p.agents[id]? = some a)
    (h : Ends (consume id how now) p () q) (hb : q.agents[id]? = some b) : b.cursor = a.cursor + 1 := by
  obtain ⟨a', step, ha', -, cursor⟩ := cursor_consume h hb
  obtain rfl := Option.some.inj (found.symm.trans ha')
  exact cursor

theorem spot_setAgent {a b : Agent} (found : p.agents[id]? = some a)
    (rows : ∀ index, ∀ y ∈ b.seats.passengers.row index, y ∈ a.seats.passengers.row index)
    (spot : Spot c { p with agents := p.agents.setIfInBounds id b } site x) : p.Spot c site x := by
  cases site with
  | aboard vehicle index =>
    obtain ⟨car, row⟩ := spot
    rw [rowOf_setIfInBounds found] at row
    refine ⟨car, ?_⟩
    split at row
    · rename_i own
      rw [own, rowOf_eq found]
      exact rows index x row
    · exact row
  | acting | due | beyond | queued | inbound | outbound | stop | mailed | gone => exact spot

/-- The cursors are what they were after an agent has changed in other ways. -/
theorem cursors_setAgent {a b : Agent} (found : p.agents[id]? = some a) (cursor : b.cursor = a.cursor)
    (y : Nat) (b' : Agent) (h : (p.agents.setIfInBounds id b)[y]? = some b') :
    ∃ a', p.agents[y]? = some a' ∧ b'.cursor = a'.cursor := by
  obtain ⟨hlt, -⟩ := Array.getElem?_eq_some_iff.1 found
  by_cases hy : id = y
  · subst hy
    rw [Array.getElem?_setIfInBounds_self_of_lt hlt] at h
    obtain rfl := Option.some.inj h
    exact ⟨a, found, cursor⟩
  · rw [Array.getElem?_setIfInBounds_ne hy] at h
    exact ⟨b', h, rfl⟩

/-- What a link shows at a site. -/
theorem spot_setView {w : LinkView} (view : p.links[link]? = some v)
    (spot : Spot c { p with links := p.links.setIfInBounds link w } site x) :
    p.Spot c site x ∨
      (∃ finish fromPart, site = .queued link finish ∧ (⟨x, finish, fromPart⟩ : Entry) ∈
        if c.skip = some link then w.entries.tail else w.entries) ∨
      (site = .inbound link ∧ x ∈ w.inFront) ∨ (site = .outbound link ∧ x ∈ w.outgoing) := by
  cases site with
  | queued l finish =>
    obtain ⟨fromPart, entry⟩ := spot
    rw [seen_setView view] at entry
    by_cases own : l = link
    · subst own
      rw [if_pos rfl] at entry
      exact .inr (.inl ⟨finish, fromPart, rfl, entry⟩)
    · rw [if_neg own] at entry
      exact .inl ⟨fromPart, entry⟩
  | inbound l =>
    have there : x ∈ (seen { p with links := p.links.setIfInBounds link w } l).inFront := spot
    rw [seen_setView view] at there
    by_cases own : l = link
    · subst own
      rw [if_pos rfl] at there
      exact .inr (.inr (.inl ⟨rfl, there⟩))
    · rw [if_neg own] at there
      exact .inl there
  | outbound l =>
    have there : x ∈ (seen { p with links := p.links.setIfInBounds link w } l).outgoing := spot
    rw [seen_setView view] at there
    by_cases own : l = link
    · subst own
      rw [if_pos rfl] at there
      exact .inr (.inr (.inr ⟨rfl, there⟩))
    · rw [if_neg own] at there
      exact .inl there
  | acting | due | beyond | stop | aboard | mailed | gone => exact .inl spot

namespace Held

/-- An agent which is nowhere consumes an instruction. -/
theorem consume {how : Consumption} (h : p.Held rule c) (nowhere : ∀ site, ¬ p.Spot c site id)
    (consumes : Ends (consume id how now) p () q) : q.Held rule c := by
  have kept : Kept Eq p q := kept_consume consumes
  have mail : q.outbox = p.outbox ∧ q.dueAgents = p.dueAgents := by
    obtain ⟨a, step, -, -, rfl⟩ := consume_ends consumes
    exact ⟨rfl, rfl⟩
  refine ⟨fun site x b spot hb => ?_, ?_, ?_⟩
  · have before := spot_consume consumes spot
    have other : x ≠ id := fun own => nowhere site (own ▸ before)
    rw [kept.rank]
    exact h.spots site x b before (same_consume consumes other ▸ hb)
  · rw [mail.1, kept.rank]
    exact h.mail
  · rw [mail.2, kept.timing]
    exact h.horizon

/-- An agent is scheduled for a second at which it may be due. -/
theorem wake (h : p.Held rule c) (closed : rule.Closed s timing now crowd) (horizon : p.timing = timing)
    (wakes : Ends (wake id time) p () q)
    (obeys : ∀ a, p.agents[id]? = some a → rule id ⟨p.rank, .due time, a.cursor⟩) : q.Held rule c := by
  obtain ⟨due, added, rfl⟩ := wake_eq_ok.1 wakes
  refine h.lingers rfl (fun x b hb => ⟨b, hb, rfl⟩) (fun site x a spot ha => ?_) h.mail
    ((Agenda.stop_add added).trans h.horizon)
  cases site with
  | due t =>
    refine (Agenda.mem_row_add added spot).imp (fun old => old) ?_
    rintro ⟨rfl, rfl⟩
    exact obeys a ha
  | beyond =>
    refine (Agenda.mem_beyond_add added spot).imp (fun old => old) ?_
    rintro ⟨late, rfl⟩
    rw [h.horizon, horizon] at late
    exact closed x _ _ (.late late) (obeys a ha)
  | acting | queued | inbound | outbound | stop | aboard | mailed | gone => exact .inl spot

theorem revisit (h : p.Held rule c) (revisits : Ends (revisit link time) p () q) : q.Held rule c := by
  obtain ⟨due, -, rfl⟩ := revisit_eq_ok.1 revisits
  refine h.lingers rfl (fun x b hb => ⟨b, hb, rfl⟩) (fun site x a spot _ => .inl ?_) h.mail h.horizon
  cases site <;> exact spot

/-- An agent changes in ways which have nothing to do with its plan and its passengers. -/
theorem setAgent {a b : Agent} (h : p.Held rule c) (found : p.agents[id]? = some a)
    (cursor : b.cursor = a.cursor)
    (rows : ∀ index, ∀ y ∈ b.seats.passengers.row index, y ∈ a.seats.passengers.row index) :
    Held rule c { p with agents := p.agents.setIfInBounds id b } :=
  h.lingers rfl (cursors_setAgent found cursor) (fun _ _ _ spot _ => .inl (spot_setAgent found rows spot))
    h.mail h.horizon

/-- A record tells who is sent. -/
theorem sends {record : AgentRecord} {target : Nat} {l : Option Nat} (h : p.Held rule c)
    (records : p.Records record) (car : record.id ∈ c.cars)
    (obeys : ∀ a, p.agents[record.id]? = some a → rule record.id ⟨p.rank, .mailed target l, a.cursor⟩) :
    rule.Sends p.rank target l record := by
  obtain ⟨a, ha, cursor, -, seated⟩ := records
  refine ⟨cursor ▸ obeys a ha, fun row hrow => ?_⟩
  cases hp : record.passengers with
  | none =>
    rw [hp] at hrow
    cases hrow
  | some passengers =>
    rw [hp] at hrow
    obtain ⟨seat, hseat, index, hid, b, hb, cursor⟩ := exists_of_forall₂ (seated passengers hp) hrow
    rw [cursor, index, hid]
    have sits : seat.2 ∈ p.rowOf record.id seat.1 := by
      rw [rowOf_eq ha]
      exact Seats.mem_carried.1 hseat
    exact h.spots (.aboard record.id seat.1) seat.2 b ⟨car, sits⟩ hb

end Held

end Partition

end Mobility
