import Mobility.Proofs.Whereabouts.Acts

/-!
# Turns move agents

In its turn an agent moves on, and with it whoever leaves or boards it. Nobody else does, and as nobody
is in two places (`Partition.Clear`), everybody obeys a closed rule again afterwards
(`Partition.Held.dispatched`).
-/

set_option autoImplicit false

namespace Mobility

open Act

namespace LinkView

variable {v w : LinkView} {id finish : Nat}

theorem entries_eq {l : Link} (h : v.link? = some l) : v.entries = l.queue := by
  rw [entries, h]
  rfl

/-- Whoever enters an owned link stands at its end. -/
theorem entries_push {l : Link} (h : v.push id finish = .ok (some w)) (owned : v.link? = some l) :
    w.entries = v.entries ++ [⟨id, finish, none⟩] ∧ w.inFront = v.inFront ∧ w.outgoing = v.outgoing := by
  rcases push_eq_ok h with ⟨l, m, rfl, rfl, pushed⟩ | ⟨g, m, rfl, rfl, -, pushed⟩ | ⟨x, y, rfl, rfl, -⟩
  · obtain ⟨-, rfl⟩ := Link.push_eq_some pushed
    exact ⟨rfl, rfl, rfl⟩
  · obtain ⟨-, rfl⟩ := Link.push_eq_some pushed
    exact ⟨rfl, rfl, rfl⟩
  · cases owned

/-- The first agent is taken from a link. -/
theorem entries_pop {entry : Entry} (h : v.pop = .ok (entry, w)) :
    v.entries = entry :: w.entries ∧ w.inFront = v.inFront ∧ w.outgoing = v.outgoing := by
  rcases pop_eq_ok h with ⟨l, m, rfl, rfl, popped⟩ | ⟨g, k, rfl, rfl, popped⟩
  · exact ⟨(Link.pop_eq_ok popped).1, rfl, rfl⟩
  · obtain ⟨queue, same⟩ := Gateway.pop_eq_ok popped
    rw [same]
    exact ⟨queue, rfl, rfl⟩

theorem mem_standing_of_entry {fromPart : Option Nat} (h : (⟨id, finish, fromPart⟩ : Entry) ∈ v.entries) :
    id ∈ v.standing := by
  cases v with
  | owned l => exact Multiset.mem_coe.2 (List.mem_map_of_mem (f := (·.agent)) h)
  | gateway g =>
    exact Multiset.mem_add.2 (.inl (Multiset.mem_coe.2 (List.mem_map_of_mem (f := (·.agent)) h)))
  | proxy | remote => cases h

theorem mem_standing_of_inFront (h : id ∈ v.inFront) : id ∈ v.standing := by
  cases v with
  | gateway g => exact Multiset.mem_add.2 (.inr (Multiset.mem_coe.2 h))
  | owned | proxy | remote => cases h

theorem mem_standing_of_outgoing (h : id ∈ v.outgoing) : id ∈ v.standing := by
  cases v with
  | proxy x => exact Multiset.mem_coe.2 h
  | owned | gateway | remote => cases h

/-- Whoever stands at a link is on it, in front of it, or to be sent to it. -/
theorem place_of_standing (h : id ∈ v.standing) :
    (∃ finish fromPart, (⟨id, finish, fromPart⟩ : Entry) ∈ v.entries) ∨ id ∈ v.inFront ∨ id ∈ v.outgoing := by
  have entered : ∀ {queue : List Entry}, id ∈ ((queue.map (·.agent) : List Nat) : Multiset Nat) →
      ∃ finish fromPart, (⟨id, finish, fromPart⟩ : Entry) ∈ queue := fun {queue} there => by
    obtain ⟨⟨_, finish, fromPart⟩, entry, rfl⟩ := List.mem_map.1 (Multiset.mem_coe.1 there)
    exact ⟨finish, fromPart, entry⟩
  cases v with
  | owned l => exact .inl (entered h)
  | gateway g => exact (Multiset.mem_add.1 h).imp entered fun waits => .inl (Multiset.mem_coe.1 waits)
  | proxy y => exact .inr (.inr (Multiset.mem_coe.1 h))
  | remote => exact absurd h (Multiset.notMem_zero id)

end LinkView

namespace Partition

variable {s : Scenario} {timing : Timing} {now i id x link time : Nat} {crowd : Prop} {rule : Rule}
  {c : Scope} {p q r : Partition} {site : Site} {v : LinkView} {hand : Multiset Nat}

/-! ## Nobody is in two places -/

theorem mem_standing_of_seen (h : x ∈ (p.seen link).standing) : x ∈ p.standing := by
  cases view : p.links[link]? with
  | none =>
    rw [seen, view] at h
    exact absurd h (Multiset.notMem_zero x)
  | some v =>
    rw [seen_of_view view] at h
    have there : v ∈ p.links.toList := Array.mem_toList_iff.2 (Array.mem_iff_getElem?.2 ⟨link, view⟩)
    exact Multiset.mem_of_le (le_sum_map there) h

/-- Whoever stands on links or is to be sent there is counted in the partition. -/
theorem all_standing_le_census : p.standing ≤ p.census hand := by
  have root : p.standing ≤ hand + p.roots := (Multiset.le_add_left _ _).trans (Multiset.le_add_left _ _)
  unfold census aboardOf
  exact root.trans ((Multiset.le_add_right _ _).trans
    ((Multiset.le_add_right _ _).trans (Multiset.le_add_right _ _)))

theorem standing_le_census (view : p.links[link]? = some v) : v.standing ≤ p.census hand := by
  have listed : v ∈ p.links.toList := Array.mem_toList_iff.2 (Array.mem_of_getElem? view)
  have stands : v.standing ≤ p.standing := le_sum_map listed
  exact stands.trans all_standing_le_census

/-- Whoever is at a site waits at a stop, sits in a vehicle, or is in the partition by itself. -/
theorem present_of_spot (h : p.Spot c site x) :
    (∃ stop route index, site = .stop stop route index ∧ x ∈ p.platforms.everybody) ∨
      (∃ vehicle index, site = .aboard vehicle index ∧ vehicle ∈ c.cars ∧ x ∈ p.crew vehicle) ∨
      x ∈ c.hand + p.roots := by
  have root : x ∈ p.roots → x ∈ c.hand + p.roots := fun h => Multiset.mem_add.2 (.inr h)
  have due : x ∈ p.dueAgents.held → x ∈ p.roots := fun h =>
    Multiset.mem_add.2 (.inl (Multiset.mem_add.2 (.inr h)))
  have stands : ∀ l, x ∈ (p.seen l).standing → x ∈ p.roots := fun _ h =>
    Multiset.mem_add.2 (.inr (mem_standing_of_seen h))
  cases site with
  | acting => exact .inr (.inr (Multiset.mem_add.2 (.inl h)))
  | due time => exact .inr (.inr (root (due (Agenda.mem_held.2 (.inl ⟨time, h⟩)))))
  | beyond => exact .inr (.inr (root (due (Agenda.mem_held.2 (.inr h)))))
  | queued l finish =>
    obtain ⟨fromPart, entry⟩ := h
    have there : (⟨x, finish, fromPart⟩ : Entry) ∈ (p.seen l).entries := by
      split at entry
      · exact List.mem_of_mem_tail entry
      · exact entry
    exact .inr (.inr (root (stands l (LinkView.mem_standing_of_entry there))))
  | inbound l => exact .inr (.inr (root (stands l (LinkView.mem_standing_of_inFront h))))
  | outbound l => exact .inr (.inr (root (stands l (LinkView.mem_standing_of_outgoing h))))
  | stop stop route index => exact .inl ⟨stop, route, index, rfl, Platforms.mem_everybody.2 ⟨_, _, _, h⟩⟩
  | aboard vehicle index => exact .inr (.inl ⟨vehicle, index, rfl, h.1, mem_crew.2 ⟨index, h.2⟩⟩)
  | mailed => exact h.elim
  | gone time =>
    obtain ⟨stamp, stamped, kind, -⟩ := h
    refine .inr (.inr (root (Multiset.mem_add.2 (.inl (Multiset.mem_add.2 (.inl (Multiset.mem_coe.2 ?_)))))))
    exact EventLog.mem_finishers.2 ⟨stamp, stamped, kind⟩

/-- Whoever is counted is at a site, if nobody is amid a turn or on the way. -/
theorem exists_spot (idle : p.outbox.transfers = .empty) (h : x ∈ p.census 0) :
    ∃ site, p.Spot ⟨0, none, 0 + p.roots⟩ site x := by
  have unsent : p.outbox.queued = 0 := by
    rw [Outbox.queued, idle]
    rfl
  rw [census, aboardOf, unsent, add_zero] at h
  obtain (root | rides) | waits := (Multiset.mem_add.1 h).imp_left Multiset.mem_add.1
  · rw [zero_add] at root
    obtain (finished | due) | stands := (Multiset.mem_add.1 root).imp_left Multiset.mem_add.1
    · obtain ⟨stamp, stamped, kind⟩ := EventLog.mem_finishers.1 (Multiset.mem_coe.1 finished)
      exact ⟨.gone stamp.time, stamp, stamped, kind, rfl⟩
    · obtain ⟨time, row⟩ | beyond := Agenda.mem_held.1 due
      · exact ⟨.due time, row⟩
      · exact ⟨.beyond, beyond⟩
    · obtain ⟨v, listed, stands⟩ := mem_sum_map.1 stands
      obtain ⟨link, view⟩ := Array.mem_iff_getElem?.1 (Array.mem_toList_iff.1 listed)
      rw [← seen_of_view view] at stands
      obtain ⟨finish, fromPart, entry⟩ | waits | sent := LinkView.place_of_standing stands
      · exact ⟨.queued link finish, fromPart, entry⟩
      · exact ⟨.inbound link, waits⟩
      · exact ⟨.outbound link, sent⟩
  · obtain ⟨vehicle, present, rides⟩ := Multiset.mem_bind.1 rides
    obtain ⟨index, row⟩ := mem_crew.1 rides
    exact ⟨.aboard vehicle index, present, row⟩
  · obtain ⟨stop, route, index, row⟩ := Platforms.mem_everybody.1 waits
    exact ⟨.stop stop route index, row⟩

/-- The agent is nowhere but amid its turn, and everybody else is in one place. -/
structure Clear (c : Scope) (id : Nat) (p : Partition) : Prop where
  nowhere : ∀ site, ¬ p.Spot c site id
  car : id ∈ c.cars
  seats : (p.crew id).Nodup
  stops : p.platforms.everybody.Nodup
  waiting : ∀ x ∈ p.platforms.everybody, ∀ site, p.Spot c site x →
    ∃ stop route index, site = .stop stop route index
  riders : ∀ x ∈ p.crew id, ∀ site, p.Spot c site x → ∃ index, site = .aboard id index

/-- Nobody is in two places if nobody is counted twice. -/
theorem clear_of_nodup {others : Multiset Nat} (nodup : (p.census hand).Nodup)
    (split : hand + p.roots = id ::ₘ others) (cars : c.cars = hand + p.roots)
    (only : ∀ site x, p.Spot c site x → (∃ stop route index, site = .stop stop route index ∧
      x ∈ p.platforms.everybody) ∨ (∃ vehicle index, site = .aboard vehicle index ∧ vehicle ∈ c.cars ∧
        x ∈ p.crew vehicle) ∨ x ∈ others) : p.Clear c id := by
  obtain ⟨stops, walkers, aboard⟩ := aboard_of_nodup nodup
  have once : (id ::ₘ others).Nodup := split ▸ Multiset.nodup_of_le
    ((Multiset.le_add_right _ _).trans ((Multiset.le_add_right _ _).trans (Multiset.le_add_right _ _))) nodup
  have present : id ∈ hand + p.roots := split ▸ Multiset.mem_cons_self id others
  have other : ∀ x ∈ others, x ∈ hand + p.roots := fun x hx => split ▸ Multiset.mem_cons_of_mem hx
  refine ⟨fun site spot => ?_, cars ▸ present, (aboard id present).1, stops, fun x hx site spot => ?_,
    fun x hx site spot => ?_⟩
  · obtain ⟨-, -, -, -, waits⟩ | ⟨vehicle, -, -, car, rides⟩ | elsewhere := only site id spot
    · exact walkers id present waits
    · exact ((aboard vehicle (cars ▸ car)).2 id rides).1 present
    · exact (Multiset.nodup_cons.1 once).1 elsewhere
  · obtain ⟨stop, route, index, place, -⟩ | ⟨vehicle, -, -, car, rides⟩ | elsewhere := only site x spot
    · exact ⟨stop, route, index, place⟩
    · exact absurd hx ((aboard vehicle (cars ▸ car)).2 x rides).2.1
    · exact absurd hx (walkers x (other x elsewhere))
  · have rider := (aboard id present).2 x hx
    obtain ⟨-, -, -, -, waits⟩ | ⟨vehicle, index, place, car, rides⟩ | elsewhere := only site x spot
    · exact absurd waits rider.2.1
    · by_cases own : vehicle = id
      · exact ⟨index, own ▸ place⟩
      · exact absurd rides (rider.2.2 vehicle (cars ▸ car) own)
    · exact absurd (other x elsewhere) rider.1

/-- An agent which was due is nowhere else. -/
theorem clear_of_hand (nodup : (p.census (id ::ₘ hand)).Nodup) :
    p.Clear ⟨hand, none, (id ::ₘ hand) + p.roots⟩ id :=
  clear_of_nodup nodup (Multiset.cons_add id hand p.roots) rfl fun _ _ => present_of_spot

/-- Once the first agent has left a link, everybody else is where they were. -/
theorem spot_pop {w : LinkView} {entry : Entry} {cars : Multiset Nat} (view : p.links[link]? = some v)
    (pops : v.pop = .ok (entry, w)) :
    Spot ⟨hand, none, cars⟩ { p with links := p.links.setIfInBounds link w } site x ↔
      p.Spot ⟨hand, some link, cars⟩ site x := by
  obtain ⟨queue, inFront, outgoing⟩ := LinkView.entries_pop pops
  have seen : ∀ l, seen { p with links := p.links.setIfInBounds link w } l = if l = link then w else p.seen l :=
    seen_setView view
  have same := seen_of_view view
  cases site with
  | queued l finish =>
    refine exists_congr fun fromPart => ?_
    rw [if_neg (by simp), seen]
    by_cases own : l = link
    · rw [if_pos own, if_pos (by rw [own]), own, same, queue, List.tail_cons]
    · rw [if_neg own, if_neg (by simpa using Ne.symm own)]
  | inbound l =>
    show x ∈ (Partition.seen _ l).inFront ↔ x ∈ (p.seen l).inFront
    rw [seen]
    split
    · rename_i own
      rw [own, same, inFront]
    · rfl
  | outbound l =>
    show x ∈ (Partition.seen _ l).outgoing ↔ x ∈ (p.seen l).outgoing
    rw [seen]
    split
    · rename_i own
      rw [own, same, outgoing]
    · rfl
  | acting | due | beyond | stop | aboard | mailed | gone => rfl

/-- An agent which stands first on a link is nowhere else. -/
theorem clear_of_front {head : Entry} (nodup : (p.census 0).Nodup) (view : p.links[link]? = some v)
    (front : v.front? = some head) : p.Clear ⟨0, some link, 0 + p.roots⟩ head.agent := by
  obtain ⟨⟨entry, w⟩, pops⟩ := LinkView.pop_of_front front
  obtain ⟨standing, first⟩ := LinkView.standing_pop pops
  obtain rfl := Option.some.inj (front.symm.trans first)
  -- Whoever is somewhere in the partition is also there once the agent has left.
  have rest : p.roots = head.agent ::ₘ roots { p with links := p.links.setIfInBounds link w } := by
    have total := standing_setView (w := w) view
    rw [standing, add_comm w.standing, ← add_assoc] at total
    unfold roots
    rw [← add_right_cancel total, ← add_assoc, add_comm, Multiset.singleton_add]
  refine clear_of_nodup nodup (by rw [zero_add, rest]) rfl fun site x spot => ?_
  exact (present_of_spot ((spot_pop view pops).2 spot)).imp_right (Or.imp_right fun there =>
    (Multiset.mem_add.1 there).resolve_left (Multiset.notMem_zero x))

/-! ## Going onto a link -/

/-- Whoever enters an owned link stands at its end. -/
theorem spot_push {finish : Nat} {w : LinkView} {l : Link} (view : p.links[link]? = some v)
    (owned : v.link? = some l) (pushed : v.push id finish = .ok (some w))
    (front : c.skip = some link → v.entries ≠ [])
    (spot : Spot c { p with links := p.links.setIfInBounds link w } site x) :
    p.Spot c site x ∨ site = .queued link finish ∧ x = id := by
  obtain ⟨queue, inFront, outgoing⟩ := LinkView.entries_push pushed owned
  have same := seen_of_view view
  obtain old | ⟨time, fromPart, rfl, entry⟩ | ⟨rfl, there⟩ | ⟨rfl, there⟩ := spot_setView view spot
  · exact .inl old
  · have appended : (⟨x, time, fromPart⟩ : Entry) ∈
        (if c.skip = some link then v.entries.tail else v.entries) ++ [⟨id, finish, none⟩] := by
      by_cases skipped : c.skip = some link
      · rw [if_pos skipped] at entry ⊢
        rwa [queue, List.tail_append_of_ne_nil (front skipped)] at entry
      · rw [if_neg skipped] at entry ⊢
        rwa [queue] at entry
    refine (List.mem_append.1 appended).imp (fun old => ⟨fromPart, same ▸ old⟩) fun last => ?_
    obtain ⟨rfl, rfl, -⟩ := Entry.mk.inj (List.mem_singleton.1 last)
    exact ⟨rfl, rfl⟩
  · exact .inl (show x ∈ (p.seen link).inFront by rw [same, ← inFront]; exact there)
  · exact .inl (show x ∈ (p.seen link).outgoing by rw [same, ← outgoing]; exact there)

/-- Whoever goes to a link of a neighbor is to be sent there. -/
theorem spot_push_proxy {y z : Proxy} (view : p.links[link]? = some (.proxy y)) (pushed : y.push id = some z)
    (spot : Spot c { p with links := p.links.setIfInBounds link (.proxy z) } site x) :
    p.Spot c site x ∨ site = .outbound link ∧ x = id := by
  obtain ⟨-, rfl⟩ := Proxy.push_eq_some pushed
  have same := seen_of_view view
  obtain old | ⟨time, fromPart, rfl, entry⟩ | ⟨rfl, there⟩ | ⟨rfl, there⟩ := spot_setView view spot
  · exact .inl old
  · split at entry <;> cases entry
  · cases there
  · refine (List.mem_append.1 there).imp (fun old => ?_) fun last => ⟨rfl, List.mem_singleton.1 last⟩
    exact (show x ∈ (p.seen link).outgoing by rw [same]; exact old)

namespace Held

/-- An agent which is nowhere comes to a link. -/
theorem enters {start finish : Nat} {w : LinkView} {a : Agent} {place : Site} (h : p.Held rule c)
    (nowhere : ∀ site, ¬ p.Spot c site id) (found : p.agents[id]? = some a)
    (spots : ∀ site x, Spot c { p with links := p.links.setIfInBounds link w } site x →
      p.Spot c site x ∨ site = place ∧ x = id)
    (consumes : Ends (Partition.consume id .advance now)
      { p with
        links := p.links.setIfInBounds link w
        agents := p.agents.setIfInBounds id (a.onLink start finish) } () q)
    (obeys : rule id ⟨p.rank, place, a.cursor + 1⟩) : q.Held rule c := by
  have mail : q.outbox = p.outbox ∧ q.dueAgents = p.dueAgents ∧ q.timing = p.timing ∧ q.rank = p.rank := by
    obtain ⟨b, step, -, -, rfl⟩ := consume_ends consumes
    exact ⟨rfl, rfl, rfl, rfl⟩
  obtain ⟨outbox, due, timing, rank⟩ := mail
  refine ⟨fun site x b spot hb => ?_, ?_, ?_⟩
  · have entered := spot_consume consumes spot
    have before := spots site x (spot_setAgent (p := { p with links := p.links.setIfInBounds link w })
      (b := a.onLink start finish) found (fun _ _ hy => hy) entered)
    rw [rank]
    rcases before with old | ⟨rfl, rfl⟩
    · have other : x ≠ id := fun own => nowhere site (own ▸ old)
      refine h.spots site x b old ?_
      rw [same_consume consumes other] at hb
      exact (Array.getElem?_setIfInBounds_ne (Ne.symm other)).symm.trans hb
    · obtain ⟨hlt, -⟩ := Array.getElem?_eq_some_iff.1 found
      obtain ⟨b', step, hb', -, cursor⟩ := cursor_consume consumes hb
      have same : (p.agents.setIfInBounds x (a.onLink start finish))[x]? = some b' := hb'
      rw [Array.getElem?_setIfInBounds_self_of_lt hlt] at same
      obtain rfl := Option.some.inj same
      rw [cursor]
      exact obeys
  · rw [outbox, rank]
    exact h.mail
  · rw [due, timing]
    exact h.horizon

end Held

/-! ## Leaving and boarding a vehicle -/

theorem spot_wake {time : Nat} (h : Ends (wake id time) p () q) (spot : q.Spot c site x) :
    p.Spot c site x ∨ x = id := by
  obtain ⟨due, added, rfl⟩ := wake_eq_ok.1 h
  cases site with
  | due t => exact (Agenda.mem_row_add added spot).imp (fun old => old) And.right
  | beyond => exact (Agenda.mem_beyond_add added spot).imp (fun old => old) And.right
  | acting | queued | inbound | outbound | stop | aboard | mailed | gone => exact .inl spot

/-- Passengers who are nowhere any more act again in the next second. -/
theorem Held.left {vehicle : Nat} {leaving : List Nat} (h : p.Held rule c)
    (closed : rule.Closed s timing now crowd) (horizon : p.timing = timing) (once : leaving.Nodup)
    (nowhere : ∀ y ∈ leaving, ∀ site, ¬ p.Spot c site y)
    (obeys : ∀ y ∈ leaving, ∀ a step, p.agents[y]? = some a → a.current = .ok (some step) →
      rule y ⟨p.rank, .due (now + 1), a.cursor + 1⟩)
    (leaves : Along (LeftAt vehicle now) leaving p q) :
    q.Held rule c ∧ ∀ site x, x ∉ leaving → q.Spot c site x → p.Spot c site x := by
  induction leaves with
  | nil => exact ⟨h, fun _ _ _ spot => spot⟩
  | @cons y rest p r q first later ih =>
    obtain ⟨m, consumes, wakes⟩ := first
    obtain ⟨own, once⟩ := List.nodup_cons.1 once
    have kept : Kept Eq p m := kept_consume consumes
    have kept' : Kept Eq m r := kept_wake wakes
    have spots : ∀ site x, r.Spot c site x → p.Spot c site x ∨ x = y := fun site x spot =>
      (spot_wake wakes spot).imp_left (spot_consume consumes)
    have others : ∀ x, x ≠ y → r.agents[x]? = p.agents[x]? := fun x other => by
      obtain ⟨due, -, rfl⟩ := wake_eq_ok.1 wakes
      show m.agents[x]? = _
      exact same_consume consumes other
    have later : r.Held rule c := by
      have consumed := h.consume (nowhere y List.mem_cons_self) consumes
      refine consumed.wake closed (kept.timing.trans horizon) wakes fun b hb => ?_
      obtain ⟨a, step, ha, current, cursor⟩ := cursor_consume consumes hb
      rw [cursor, kept.rank]
      exact obeys y List.mem_cons_self a step ha current
    have ne : ∀ x ∈ rest, x ≠ y := fun x hx same => own (same ▸ hx)
    obtain ⟨held, back⟩ := ih later (kept'.timing.trans (kept.timing.trans horizon)) once
      (fun x hx site spot => (spots site x spot).elim (nowhere x (List.mem_cons_of_mem _ hx) site) (ne x hx))
      (fun x hx a step ha => by
        rw [kept'.rank, kept.rank]
        exact obeys x (List.mem_cons_of_mem _ hx) a step (others x (ne x hx) ▸ ha))
    refine ⟨held, fun site x hx spot => ?_⟩
    obtain ⟨notFirst, notLater⟩ := not_or.1 (mt List.mem_cons.2 hx)
    exact (spots site x (back site x notLater spot)).resolve_right notFirst

/-- Passengers who board consume one instruction each. -/
theorem boards_along {vehicle : Nat} {rows : List (Nat × Nat)}
    (h : Along (fun row p q => Ends (Partition.consume row.2 (.access vehicle) now) p () q) rows p q) :
    (∀ site x, q.Spot c site x → p.Spot c site x) ∧ q.rank = p.rank ∧ q.timing = p.timing ∧
      q.outbox = p.outbox ∧ q.dueAgents = p.dueAgents ∧
      (∀ x, x ∉ rows.map Prod.snd → q.agents[x]? = p.agents[x]?) ∧
      ((rows.map Prod.snd).Nodup → ∀ x ∈ rows.map Prod.snd, ∀ b, q.agents[x]? = some b →
        ∃ a, p.agents[x]? = some a ∧ b.cursor = a.cursor + 1) := by
  induction h with
  | nil => exact ⟨fun _ _ spot => spot, rfl, rfl, rfl, rfl, fun _ _ => rfl, fun _ x hx => by cases hx⟩
  | @cons row rest p r q first later ih =>
    obtain ⟨spots, rank, timing, outbox, due, others, boards⟩ := ih
    have plain : r.rank = p.rank ∧ r.timing = p.timing ∧ r.outbox = p.outbox ∧ r.dueAgents = p.dueAgents := by
      obtain ⟨a, step, -, -, rfl⟩ := consume_ends first
      exact ⟨rfl, rfl, rfl, rfl⟩
    refine ⟨fun site x spot => spot_consume first (spots site x spot), rank.trans plain.1,
      timing.trans plain.2.1, outbox.trans plain.2.2.1, due.trans plain.2.2.2, fun x hx => ?_,
      fun once x hx b hb => ?_⟩
    · rw [List.map_cons, List.mem_cons, not_or] at hx
      exact (others x hx.2).trans (same_consume first hx.1)
    · rw [List.map_cons, List.nodup_cons] at once
      rw [List.map_cons, List.mem_cons] at hx
      by_cases here : x ∈ rest.map Prod.snd
      · obtain ⟨a, ha, cursor⟩ := boards once.2 x here b hb
        have other : x ≠ row.2 := fun same => once.1 (same ▸ here)
        exact ⟨a, same_consume first other ▸ ha, cursor⟩
      · obtain rfl := hx.resolve_right here
        rw [others _ here] at hb
        obtain ⟨a, step, ha, -, cursor⟩ := cursor_consume first hb
        exact ⟨a, ha, cursor⟩

/-- Those who board have waited at a stop, and sit in the vehicle afterwards. -/
theorem Held.boarded {boarded : List (Nat × Nat)} {platforms : Platforms} {seats : Seats} {a : Agent}
    (h : p.Held rule c) (found : p.agents[id]? = some a) (once : (boarded.map Prod.snd).Nodup)
    (rows : ∀ index x, x ∈ seats.passengers.row index → x ∈ a.seats.passengers.row index ∨ (index, x) ∈ boarded)
    (stays : ∀ stop route index x, x ∈ platforms.row stop route index → x ∈ p.platforms.row stop route index)
    (gone : ∀ row ∈ boarded, row.2 ∉ platforms.everybody)
    (waiting : ∀ row ∈ boarded, ∀ site, p.Spot c site row.2 → ∃ stop route index, site = .stop stop route index)
    (other : ∀ row ∈ boarded, row.2 ≠ id)
    (obeys : ∀ row ∈ boarded, ∀ a, p.agents[row.2]? = some a →
      rule row.2 ⟨p.rank, .aboard id row.1, a.cursor + 1⟩)
    (boards : Along (fun row p q => Ends (Partition.consume row.2 (.access id) now) p () q) boarded
      { p with agents := p.agents.setIfInBounds id { a with seats := seats }, platforms := platforms } q) :
    q.Held rule c := by
  obtain ⟨spots, rank, timing, outbox, due, others, cursors⟩ := boards_along (c := c) boards
  obtain ⟨hlt, -⟩ := Array.getElem?_eq_some_iff.1 found
  -- Nobody is anywhere else than before but those who sit in the vehicle now.
  have before : ∀ site x, q.Spot c site x → p.Spot c site x ∨
      ∃ index, site = .aboard id index ∧ (index, x) ∈ boarded := by
    intro site x spot
    have spot := spots site x spot
    cases site with
    | aboard vehicle index =>
      obtain ⟨car, row⟩ := spot
      have row : x ∈ rowOf { p with agents := p.agents.setIfInBounds id { a with seats := seats } }
        vehicle index := row
      rw [rowOf_setIfInBounds found] at row
      split at row
      · rename_i own
        refine (rows index x row).imp (fun old => ?_) fun new => ⟨index, by rw [own], new⟩
        exact ⟨car, by rw [own, rowOf_eq found]; exact old⟩
      · exact .inl ⟨car, row⟩
    | stop stop route index => exact .inl (stays stop route index x spot)
    | acting | due | beyond | queued | inbound | outbound | mailed | gone => exact .inl spot
  refine ⟨fun site x b spot hb => ?_, ?_, ?_⟩
  · rw [rank]
    by_cases hx : x ∈ boarded.map Prod.snd
    · obtain ⟨row, hrow, rfl⟩ := List.mem_map.1 hx
      obtain ⟨a', ha', cursor⟩ := cursors once row.2 hx b hb
      rw [cursor]
      have old : p.agents[row.2]? = some a' :=
        (Array.getElem?_setIfInBounds_ne (Ne.symm (other row hrow))).symm.trans ha'
      rcases before site row.2 spot with there | ⟨index, rfl, boards⟩
      · -- Whoever boards doesn't wait any more.
        obtain ⟨stop, route, index, rfl⟩ := waiting row hrow site there
        exact absurd (Platforms.mem_everybody.2 ⟨_, _, _, spots _ _ spot⟩) (gone row hrow)
      · exact obeys (index, row.2) boards a' old
    · have same : (p.agents.setIfInBounds id { a with seats := seats })[x]? = some b :=
        (others x hx).symm.trans hb
      obtain ⟨a', ha', cursor⟩ := cursors_setAgent (b := { a with seats := seats }) found rfl x b same
      rw [cursor]
      refine (before site x spot).elim (fun old => h.spots site x a' old ha') ?_
      rintro ⟨index, -, boards⟩
      exact absurd (List.mem_map_of_mem (f := Prod.snd) boards) hx
  · rw [outbox, rank]
    exact h.mail
  · rw [due, timing]
    exact h.horizon

/-- Those who sit in the row of the stop leave. -/
theorem Exchanged.leaving_eq {stop : StopRef} (e : Exchanged id stop now p q) :
    e.leaving = p.rowOf id stop.index.val := by
  obtain ⟨a, step, found, -, -⟩ := consume_ends e.consumes
  obtain ⟨leaving, -⟩ := Seats.mem_row_egress (x := 0) (i := 0) e.egress
  rw [leaving, e.before_eq found, rowOf_eq found]

/-- Everybody obeys the rule after passengers have left, and whoever is somewhere then and hasn't left was there
before. -/
theorem Held.unloaded {stop : StopRef} {a : Agent} {step : Instruction} (h : p.Held rule c)
    (closed : rule.Closed s timing now crowd) (setting : p.Setting s timing i) (clear : p.Clear c id)
    (found : p.agents[id]? = some a) (current : a.current = .ok (some step))
    (action : step.action = .stopDelay stop) (acts : rule id ⟨p.rank, .acting, a.cursor⟩)
    (e : Exchanged id stop now p q) :
    e.left.Held rule c ∧ (∀ y ∈ e.leaving, y ≠ id) ∧
      ∀ site x, x ∉ e.leaving → e.left.Spot c site x → p.Spot c site x := by
  have stops := setting.instructs found current
  have kept : Kept LinkView.Alike p e.consumed := kept_consume e.consumes
  have seats : e.before.seats = a.seats := by rw [e.before_eq found]
  have crew : p.crew id = a.seats.riders := by
    unfold Partition.crew
    rw [found]
    rfl
  have rows : ∀ index, ∀ y ∈ e.seatsLeft.passengers.row index, y ∈ e.before.seats.passengers.row index :=
    fun index y hy => (Seats.mem_row_egress e.egress).2 hy
  have riders : (e.seatsLeft.riders + (e.leaving : Multiset Nat)).Nodup := by
    rw [Seats.riders_egress e.egress, seats, ← crew]
    exact clear.seats
  have aboard : ∀ y ∈ e.leaving, y ∈ p.rowOf id stop.index.val := fun y hy => e.leaving_eq ▸ hy
  have other : ∀ y ∈ e.leaving, y ≠ id := fun y hy own =>
    clear.nowhere (.aboard id stop.index.val) ⟨clear.car, own ▸ aboard y hy⟩
  -- Those who leave are nowhere, once they have given up their seats.
  have vacated := (h.consume clear.nowhere e.consumes).setAgent (b := { e.before with seats := e.seatsLeft })
    e.vehicle rfl rows
  have earlier : ∀ site x, Spot c { e.consumed with
      agents := e.consumed.agents.setIfInBounds id { e.before with seats := e.seatsLeft } } site x →
      p.Spot c site x := fun site x spot =>
    spot_consume e.consumes (spot_setAgent (b := { e.before with seats := e.seatsLeft }) e.vehicle rows spot)
  have nowhere : ∀ y ∈ e.leaving, ∀ site, ¬ Spot c { e.consumed with
      agents := e.consumed.agents.setIfInBounds id { e.before with seats := e.seatsLeft } } site y := by
    intro y hy site spot
    obtain ⟨index, rfl⟩ := clear.riders y (mem_crew.2 ⟨_, aboard y hy⟩) site (earlier site y spot)
    obtain ⟨-, sits⟩ := spot
    rw [rowOf_setIfInBounds e.vehicle, if_pos rfl] at sits
    exact Multiset.disjoint_left.1 (Multiset.nodup_add.1 riders).2.2 (Seats.mem_riders.2 ⟨_, sits⟩) hy
  obtain ⟨left, leftSpots⟩ := vacated.left closed (kept.timing.trans setting.timing)
    (Multiset.nodup_add.1 riders).2.1 nowhere (fun y hy b next hb hnext => by
      have same : p.agents[y]? = some b := by
        rw [← same_consume e.consumes (other y hy)]
        exact (Array.getElem?_setIfInBounds_ne (Ne.symm (other y hy))).symm.trans hb
      have sits := h.spots (.aboard id stop.index.val) y b ⟨clear.car, aboard y hy⟩ same
      show rule y ⟨e.consumed.rank, _, _⟩
      rw [kept.rank]
      exact closed y _ _ (.alights acts stops action (setting.instructs same hnext)) sits) e.leaves
  exact ⟨left, other, fun site x stays spot => earlier site x (leftSpots site x stays spot)⟩

/-- Everybody obeys the rule after passengers have left and boarded, and the vehicle has consumed an
instruction. -/
theorem Held.exchanged {stop : StopRef} {a : Agent} {step : Instruction} (h : p.Held rule c)
    (closed : rule.Closed s timing now crowd) (setting : p.Setting s timing i) (clear : p.Clear c id)
    (found : p.agents[id]? = some a) (current : a.current = .ok (some step))
    (action : step.action = .stopDelay stop) (acts : rule id ⟨p.rank, .acting, a.cursor⟩)
    (e : Exchanged id stop now p q) :
    q.Held rule c ∧ ∀ b, q.agents[id]? = some b → b.cursor = a.cursor + 1 := by
  obtain ⟨left, other, leftSpots⟩ := h.unloaded closed setting clear found current action acts e
  have keptLeft : Kept LinkView.Alike p e.left := (worked_left e).kept.mono LinkView.Balanced.alike
  -- Those who board have waited at the stop.
  have platforms := e.platforms_left
  obtain ⟨admits, queues⟩ := Seats.board_eq e.board
  have everybody := Platforms.everybody_board admits.isPrefix queues
  have once : (e.platforms.everybody + (e.boarded.map Prod.snd : List Nat)).Nodup := by
    rw [everybody, platforms]
    exact clear.stops
  have waits : ∀ row ∈ e.boarded, stop.index.val ≤ row.1 ∧
      row.2 ∈ e.left.platforms.row stop.stop.val stop.route.val row.1 := fun row hrow =>
    Platforms.mem_waiting (admits.isPrefix.subset hrow)
  have waited : ∀ row ∈ e.boarded, row.2 ∈ p.platforms.everybody := fun row hrow =>
    platforms ▸ Platforms.mem_everybody.2 ⟨_, _, _, (waits row hrow).2⟩
  have notId : ∀ row ∈ e.boarded, row.2 ≠ id := fun row hrow own => by
    have stands := (waits row hrow).2
    rw [platforms, own] at stands
    exact clear.nowhere (.stop stop.stop.val stop.route.val row.1) stands
  have stays : ∀ row ∈ e.boarded, row.2 ∉ e.leaving := fun row hrow hy => by
    obtain ⟨a, b, c, place⟩ := clear.waiting row.2 (waited row hrow) (.aboard id stop.index.val)
      ⟨clear.car, e.leaving_eq ▸ hy⟩
    cases place
  have boarded := left.boarded e.vehicleLeft (Multiset.nodup_add.1 once).2.1
    (fun index x hx => admits.mem_row hx) (fun a b c x hx => Platforms.mem_row_board queues hx)
    (fun row hrow there => Multiset.disjoint_left.1 (Multiset.nodup_add.1 once).2.2 there
      (Multiset.mem_coe.2 (List.mem_map_of_mem (f := Prod.snd) hrow)))
    (fun row hrow site spot => clear.waiting row.2 (waited row hrow) site
      (leftSpots site row.2 (stays row hrow) spot))
    notId (fun row hrow b hb => by
      have stood := left.spots (.stop stop.stop.val stop.route.val row.1) row.2 b (waits row hrow).2 hb
      rw [keptLeft.rank] at stood ⊢
      exact closed row.2 _ _ (.boards acts (setting.instructs found current) action (waits row hrow).1) stood)
    e.boards
  refine ⟨boarded, fun b hb => ?_⟩
  have own : id ∉ e.boarded.map Prod.snd := fun hid => by
    obtain ⟨row, hrow, same⟩ := List.mem_map.1 hid
    exact notId row hrow same
  have vehicle := e.vehicle_after found (fun hid => other id hid rfl) own
  rw [← Option.some.inj (vehicle.symm.trans hb)]

/-! ## Turns -/

namespace Held

variable {a b : Agent} {time stop route index : Nat}

/-- Whoever comes to the end of its plan is gone. -/
theorem finished (h : p.Held rule c) (found : p.agents[id]? = some a)
    (gone : rule id ⟨p.rank, .gone now, a.cursor⟩) :
    Held rule c { p with
      log := p.log.push ⟨now, ⟨.finish, id, a.finishEvent, none⟩⟩
      finished := p.finished + 1 } := by
  refine h.lingers rfl (fun x b hb => ⟨b, hb, rfl⟩) (fun site x b spot hb => ?_) h.mail h.horizon
  cases site with
  | gone time =>
    obtain ⟨stamp, stamped, kind, rfl⟩ := spot
    rw [EventLog.of_push] at stamped
    refine (List.mem_append.1 stamped).imp (fun old => ⟨stamp, old, kind, rfl⟩) fun last => ?_
    split at last
    · rename_i own
      obtain rfl : id = x := own
      obtain rfl := List.mem_singleton.1 last
      obtain rfl := Option.some.inj (found.symm.trans hb)
      exact gone
    · cases last
  | acting | due | beyond | queued | inbound | outbound | stop | aboard | mailed => exact .inl spot

/-- Whoever pauses is due when it wakes. -/
theorem paused (h : p.Held rule c) (closed : rule.Closed s timing now crowd) (timed : p.timing = timing)
    (nowhere : ∀ site, ¬ p.Spot c site id) (found : p.agents[id]? = some a)
    (consumes : Ends (Partition.consume id .advance now) p () r) (wakes : Ends (Partition.wake id time) r () q)
    (wakesUp : rule id ⟨p.rank, .due time, a.cursor + 1⟩) : q.Held rule c := by
  have kept : Kept Eq p r := kept_consume consumes
  refine (h.consume nowhere consumes).wake closed (kept.timing.trans timed) wakes fun b hb => ?_
  rw [cursor_of_consume found consumes hb, kept.rank]
  exact wakesUp

/-- Whoever waits is at the end of a queue. -/
theorem queued (h : p.Held rule c) (nowhere : ∀ site, ¬ p.Spot c site id) (found : p.agents[id]? = some a)
    (consumes : Ends (Partition.consume id .advance now) p () r)
    (waits : rule id ⟨p.rank, .stop stop route index, a.cursor + 1⟩) :
    Held rule c { r with platforms := r.platforms.add stop route index id } := by
  have kept : Kept Eq p r := kept_consume consumes
  have consumed := h.consume nowhere consumes
  refine consumed.lingers rfl (fun x b hb => ⟨b, hb, rfl⟩) (fun site x b spot hb => ?_) consumed.mail
    consumed.horizon
  cases site with
  | stop =>
    refine (Platforms.mem_row_add spot).imp (fun old => old) ?_
    rintro ⟨rfl, rfl, rfl, rfl⟩
    rw [cursor_of_consume found consumes hb, kept.rank]
    exact waits
  | acting | due | beyond | queued | inbound | outbound | aboard | mailed | gone => exact .inl spot

end Held

/-- Everybody obeys the rule after a turn. If the turn isn't over, the agent itself does so, wherever it is
put then. -/
theorem Held.dispatched {b : Bool} (h : p.Held rule c) (closed : rule.Closed s timing now crowd)
    (hs : s.Accepted) (setting : p.Setting s timing i) (clear : p.Clear c id)
    (acts : ∀ a, p.agents[id]? = some a → rule id ⟨p.rank, .acting, a.cursor⟩)
    (front : ∀ l, c.skip = some l → (p.seen l).entries ≠ [])
    (room : ∀ (l : Nat) v finish, p.links[l]? = some v → v.push id finish = .ok none → crowd)
    (turn : Dispatched id now p b q) :
    q.Held rule c ∧ (b = false → ∀ a, q.agents[id]? = some a →
      rule id ⟨q.rank, .acting, a.cursor⟩ ∧ s.Stalls crowd id a.cursor) := by
  have rank : p.rank = i := setting.rank
  have timed : p.timing = timing := setting.timing
  cases turn with
  | @finished a found current =>
    exact ⟨h.finished found (closed id _ _ (.finishes (setting.completes found current)) (acts a found)), nofun⟩
  | @handedOver a step target _ found current sent owner =>
    obtain ⟨record, records, rfl, rfl⟩ := send_ends sent
    obtain ⟨place, elsewhere, unfed⟩ := setting.startOf_of_isUpTo hs owner
    refine ⟨h.lingers rfl (fun x b hb => ⟨b, hb, rfl⟩) (fun site x b spot hb => .inl ?_) ?_ h.horizon, nofun⟩
    · cases site <;> exact spot
    · refine Outbox.every_addAgent h.mail (h.sends records clear.car fun b hb => ?_)
      obtain rfl := Option.some.inj (found.symm.trans hb)
      exact closed record.id _ _ (.handedOver (setting.instructs found current) place elsewhere unfed)
        (acts a found)
  | @refused a step link velocity v finish found current action view full =>
    refine ⟨h, fun _ b hb => ?_⟩
    exact ⟨acts b hb, .inl (room link.val v finish view full)⟩
  | @outbound a step link velocity x y _ found current action view pushed consumes =>
    obtain ⟨-, -, -, feeds, -⟩ := setting.proxy hs view
    refine ⟨h.enters clear.nowhere found (fun site x spot => spot_push_proxy view pushed spot) consumes ?_, nofun⟩
    exact closed id _ _ (.outbound (setting.instructs found current) action (rank ▸ feeds)) (acts a found)
  | @entered a step link velocity v w l finish r _ found current action view owned time pushed consumes
      scheduled =>
    obtain ⟨-, -, mine, -, travel⟩ := setting.owned view owned
    have entered : r.Held rule c := by
      refine h.enters clear.nowhere found (fun site x spot => spot_push view owned pushed (fun skipped => ?_) spot)
        consumes ?_
      · rw [← seen_of_view view]
        exact front link.val skipped
      · rw [time, travel, timed]
        exact closed id _ _ (.entered (setting.instructs found current) action (mine.trans rank.symm)) (acts a found)
    refine ⟨?_, nofun⟩
    split at scheduled
    · exact entered.revisit scheduled
    · exact scheduled ▸ entered
  | @paused a step time r _ found current action consumes wakes here =>
    refine ⟨h.paused closed timed clear.nowhere found consumes wakes ?_, nofun⟩
    refine closed id _ _ (.paused (setting.instructs found current) action fun place located => ?_) (acts a found)
    cases hact : step.action with
    | stopArrive stop =>
      rw [hact] at located
      exact (Option.some.inj located).symm.trans (setting.stopAt hs (here stop hact))
    | sleepFor | sleepUntil =>
      rw [hact] at located
      cases located
    | traverse | wait | access | egress | stopDelay | stopDepart =>
      rw [hact] at action
      cases action
  | @queued a b step route stop event leaving r found current action consumes waiting egress here =>
    have setting' : r.Setting s timing i := setting.trans (kept_consume consumes)
    have leaves := setting'.instructs waiting egress
    rw [cursor_of_consume found consumes waiting] at leaves
    refine ⟨h.queued clear.nowhere found consumes ?_, nofun⟩
    exact closed id _ _ (.waits (setting.instructs found current) action (setting.stopAt hs here) leaves)
      (acts a found)
  | @exchanged a step stop _ found current action exchange =>
    obtain ⟨held, cursors⟩ := h.exchanged closed setting clear found current action (acts a found) exchange
    refine ⟨held, fun _ b hb => ?_⟩
    have instructs := setting.instructs found current
    have kept := (worked_exchanged exchange).kept
    rw [cursors b hb, kept.rank]
    exact ⟨closed id _ _ (.serves instructs (.inl action)) (acts a found),
      .inr ⟨a.cursor, step, stop, rfl, instructs, .inl action⟩⟩
  | @departed a step stop _ found current action consumes =>
    refine ⟨h.consume clear.nowhere consumes, fun _ b hb => ?_⟩
    have instructs := setting.instructs found current
    have kept : Kept Eq p q := kept_consume consumes
    rw [cursor_of_consume found consumes hb, kept.rank]
    exact ⟨closed id _ _ (.serves instructs (.inr action)) (acts a found),
      .inr ⟨a.cursor, step, stop, rfl, instructs, .inr action⟩⟩

end Partition

end Mobility
