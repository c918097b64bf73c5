import Mobility.Proofs.Safety.Dispatch

/-!
# What the work of a second sustains

In the work of a second the due agents take their turns, and then agents leave links. What holds before and
between all of these steps, and keeps turns from failing in other ways than `F` says, is sustained
(`Partition.Sustains`). So it holds after the work of a second (`Partition.Sustains.work`), which only fails as `F`
says (`Partition.Sustains.fails_work`).

Links are served until their first agents may not leave yet, but no longer than for as many turns as there
were agents on them. That is enough, because whoever enters a link meanwhile stands behind them and stays for a
second at least (`Partition.Ahead`). So every link can be scheduled again.
-/

set_option autoImplicit false

namespace Mobility

open Act

namespace LinkView

variable {v : LinkView}

/-- A link with somebody on it can be left. -/
theorem pop_of_front {head : Entry} (h : v.front? = some head) : ∃ r, v.pop = .ok r := by
  cases v with
  | owned l =>
    obtain ⟨rest, hq⟩ := List.head?_eq_some_iff.1 (show l.queue.head? = some head from h)
    exact ⟨_, by rw [pop, Link.pop, hq]; rfl⟩
  | gateway g =>
    obtain ⟨rest, hq⟩ := List.head?_eq_some_iff.1 (show g.link.queue.head? = some head from h)
    exact ⟨_, by rw [pop, Gateway.pop, Link.pop, hq]; rfl⟩
  | proxy | remote => cases h

end LinkView

namespace Partition

variable {p q r : Partition} {id link now : Nat} {queue rest : List Entry} {head : Entry}

/-! ## What is left behind -/

theorem paced_admitted {g k : Gateway} {waiting : List (Nat × Nat)} (h : Admitted now g waiting p k q) :
    Paced p q := by
  induction h with
  | nobody | full => exact Std.Refl.refl _
  | entered room enters _ ih => exact ⟨ih.agents, ih.links⟩

theorem paced_drained (h : Ends (drainInbound link now) p () q) : Paced p q := by
  obtain ⟨v, view, ⟨g, k, r, rfl, admitted, rfl⟩ | ⟨-, rfl⟩⟩ := drainInbound_ends h
  · have paced := paced_admitted admitted
    exact ⟨paced.agents, paced.links⟩
  · exact Std.Refl.refl p

theorem paced_acted (h : Acted id now p q) : Paced p q := by
  rcases h with turn | ⟨r, turn, wakes⟩
  · exact paced_dispatched turn
  · exact (paced_dispatched turn).trans (paced_wake wakes)

theorem paced_served (h : Served link now p q) : Paced p q := by
  induction h with
  | empty => exact Std.Refl.refl _
  | later view front scheduled => exact paced_revisit scheduled
  | blocked view front due turn scheduled => exact (paced_dispatched turn).trans (paced_revisit scheduled)
  | left view front due turn after pops drained _ ih =>
    have popped := (paced_dispatched turn).trans ⟨(paced_drained drained).agents, (paced_drained drained).links⟩
    exact popped.trans ih

theorem paced_visited (h : Visited link now p q) : Paced p q := by
  rcases h with ⟨v, -, -, rfl⟩ | served
  · exact Std.Refl.refl p
  · exact paced_served served

/-! ## Who stands on the link -/

/-- On an owned link stand the agents of `queue`, and behind them only agents who may not leave yet. -/
def Ahead (link now : Nat) (queue : List Entry) (p : Partition) : Prop :=
  ∃ v l behind, p.links[link]? = some v ∧ v.link? = some l ∧ l.queue = queue ++ behind ∧
    ∀ e ∈ behind, now < e.finish

/-- Whoever is let in stands behind the others and stays for a second at least. -/
theorem admitted_behind {g k : Gateway} {waiting : List (Nat × Nat)} (last : now < Clock.last)
    (h : Admitted now g waiting p k q) : OffRoad p q ∧
      ∃ behind, k.link.queue = g.link.queue ++ behind ∧ ∀ e ∈ behind, now < e.finish := by
  induction h with
  | nobody | full => exact ⟨Std.Refl.refl _, [], (List.append_nil _).symm, by simp⟩
  | @entered g k p q id part finish rest a room enters _ ih =>
    obtain ⟨off, behind, queue, late⟩ := ih
    obtain ⟨event, ref, velocity, -, time⟩ := enters.time
    refine ⟨⟨off.links, off.dueLinks⟩, ⟨id, finish, some part⟩ :: behind, ?_, fun e he => ?_⟩
    · rw [queue, Gateway.append, List.append_assoc]
      rfl
    · rcases List.mem_cons.1 he with rfl | he
      · exact time ▸ Clock.lt_after last (Link.travelTime_pos ..)
      · exact late e he

namespace Ahead

theorem refl {v : LinkView} {l : Link} (view : p.links[link]? = some v) (owned : v.link? = some l) :
    Ahead link now l.queue p := ⟨v, l, [], view, owned, (List.append_nil _).symm, by simp⟩

/-- The first one of those who stand on the link is the first one of `queue`, or may not leave yet. -/
theorem front {v : LinkView} (h : Ahead link now queue p) (view : p.links[link]? = some v)
    (first : v.front? = some head) (due : head.finish ≤ now) : ∃ rest, queue = head :: rest := by
  obtain ⟨u, l, behind, hu, owned, stands, late⟩ := h
  obtain rfl := Option.some.inj (view.symm.trans hu)
  rw [LinkView.front_eq owned, stands] at first
  cases queue with
  | nil =>
    have := late head (List.mem_of_mem_head? first)
    omega
  | cons e rest => exact ⟨rest, by rw [Option.some.inj first]⟩

/-- A turn adds to the end of the link at most. -/
theorem moved (h : Ahead link now queue p) (last : now < Clock.last) (turn : Moved id now p q) :
    Ahead link now queue q := by
  obtain ⟨v, l, behind, view, owned, stands, late⟩ := h
  have lt := (Array.getElem?_eq_some_iff.1 view).1
  cases turn with
  | nowhere stays => exact ⟨v, l, behind, by rw [stays.links, view], owned, stands, late⟩
  | @outbound i x y viewed pushed links =>
    by_cases own : i = link
    · subst own
      obtain rfl := Option.some.inj (viewed.symm.trans view)
      cases owned
    · exact ⟨v, l, behind, by rw [links, Array.getElem?_setIfInBounds_ne own, view], owned, stands, late⟩
  | @entered i velocity finish u w m viewed owned' time pushed links =>
    by_cases own : i = link
    · subst own
      obtain rfl := Option.some.inj (viewed.symm.trans view)
      refine ⟨w, _, behind ++ [⟨id, finish, none⟩], by rw [links, Array.getElem?_setIfInBounds_self_of_lt lt],
        (LinkView.link_push pushed owned).2, ?_, fun e he => ?_⟩
      · show l.queue ++ _ = _
        rw [stands, List.append_assoc]
      · rcases List.mem_append.1 he with he | he
        · exact late e he
        · rw [List.mem_singleton.1 he]
          exact time ▸ Clock.lt_after last (Link.travelTime_pos ..)
    · exact ⟨v, l, behind, by rw [links, Array.getElem?_setIfInBounds_ne own, view], owned, stands, late⟩

theorem drained (h : Ahead link now queue p) (last : now < Clock.last)
    (drains : Ends (drainInbound link now) p () q) : Ahead link now queue q ∧ q.dueLinks = p.dueLinks := by
  obtain ⟨v, l, behind, view, owned, stands, late⟩ := h
  obtain ⟨u, hu, ⟨g, k, r, rfl, admitted, rfl⟩ | ⟨-, rfl⟩⟩ := drainInbound_ends drains
  · obtain rfl := Option.some.inj (hu.symm.trans view)
    obtain rfl := Option.some.inj owned
    obtain ⟨off, more, queue, later⟩ := admitted_behind last admitted
    have lt := (Array.getElem?_eq_some_iff.1 view).1
    refine ⟨⟨.gateway k, k.link, behind ++ more,
      Array.getElem?_setIfInBounds_self_of_lt (by rw [off.links]; exact lt), rfl, ?_, fun e he => ?_⟩, off.dueLinks⟩
    · rw [queue, stands, List.append_assoc]
    · exact (List.mem_append.1 he).elim (late e) (later e)
  · exact ⟨⟨v, l, behind, view, owned, stands, late⟩, rfl⟩

/-- Once the first one has left, the others of `queue` are ahead. -/
theorem taken (h : Ahead link now (head :: rest) p) (last : now < Clock.last)
    (takes : Ends (takeHead link now) p () q) : Ahead link now rest q ∧ q.dueLinks = p.dueLinks := by
  obtain ⟨v, entry, w, view, pops, drains⟩ := takeHead_ends takes
  obtain ⟨u, l, behind, hu, owned, stands, late⟩ := h
  obtain rfl := Option.some.inj (view.symm.trans hu)
  have viewed : (p.links.setIfInBounds link w)[link]? = some w :=
    Array.getElem?_setIfInBounds_self_of_lt (Array.getElem?_eq_some_iff.1 view).1
  have popped : ∃ m, w.link? = some m ∧ m.queue = rest ++ behind := by
    rcases LinkView.pop_eq_ok pops with ⟨l', m, rfl, rfl, hm⟩ | ⟨g, k, rfl, rfl, hk⟩
    · obtain rfl := Option.some.inj owned
      exact ⟨m, rfl, (List.cons.inj ((Link.pop_eq_ok hm).1.symm.trans stands)).2⟩
    · obtain rfl := Option.some.inj owned
      exact ⟨k.link, rfl, (List.cons.inj ((Gateway.pop_eq_ok hk).1.symm.trans stands)).2⟩
  obtain ⟨m, after, others⟩ := popped
  have before : Ahead link now rest { p with links := p.links.setIfInBounds link w } :=
    ⟨w, m, behind, viewed, after, others, late⟩
  exact before.drained last drains

end Ahead

/-! ## Sustained invariants -/

/-- What holds of a partition before each step of the work of a second, with the agents which are still at hand.
Turns only fail as `F` says then, and every step leaves it behind. -/
structure Sustains (F : Failure → Prop) (now : Nat) (I : Multiset Nat → Partition → Prop) : Prop where
  soonAgents : ∀ {hand : Multiset Nat} {p : Partition}, I hand p → p.dueAgents.next ≤ now + 1
  soonLinks : ∀ {hand : Multiset Nat} {p : Partition}, I hand p → p.dueLinks.next ≤ now + 1
  called : ∀ {p : Partition} {ids : List Nat} {due : Agenda Nat}, I 0 p →
    p.dueAgents.visit now = .ok (ids, due) → I ids { p with dueAgents := due }
  looked : ∀ {p : Partition} {links : List Nat} {due : Agenda Nat}, I 0 p →
    p.dueLinks.visit now = .ok (links, due) → I 0 { p with dueLinks := due }
  acts : ∀ {id : Nat} {hand : Multiset Nat} {p : Partition}, I (id ::ₘ hand) p → Fails F (dispatch id now) p
  acted : ∀ {id : Nat} {hand : Multiset Nat} {p q : Partition}, I (id ::ₘ hand) p → Acted id now p q → I hand q
  leaves : ∀ {link : Nat} {v : LinkView} {head : Entry} {p : Partition}, I 0 p → p.links[link]? = some v →
    v.front? = some head → head.finish ≤ now → Fails F (dispatch head.agent now) p
  blocked : ∀ {link : Nat} {v : LinkView} {head : Entry} {p q : Partition}, I 0 p → p.links[link]? = some v →
    v.front? = some head → head.finish ≤ now → Dispatched head.agent now p false q → I 0 q
  popped : ∀ {link : Nat} {v w w' : LinkView} {head entry : Entry} {p q : Partition}, I 0 p →
    p.links[link]? = some v → v.front? = some head → head.finish ≤ now → Dispatched head.agent now p true q →
    q.links[link]? = some w → w.pop = .ok (entry, w') → I 0 { q with links := q.links.setIfInBounds link w' }
  drains : ∀ {link : Nat} {v : LinkView} {p : Partition}, I 0 p → p.links[link]? = some v →
    Fails F (drainInbound link now) p
  drained : ∀ {link : Nat} {p q : Partition}, I 0 p → Ends (drainInbound link now) p () q → I 0 q
  revisited : ∀ {link time : Nat} {p q : Partition}, I 0 p → Ends (revisit link time) p () q → I 0 q

namespace Sustains

variable {F : Failure → Prop} {I : Multiset Nat → Partition → Prop} (sustains : Sustains F now I)

include sustains

theorem acted_along {ids : List Nat} (h : I ids p) (acts : Along (fun id => Acted id now) ids p q) : I 0 q := by
  induction acts with
  | nil => exact h
  | @cons id rest p r q first _ ih =>
    have h : I (id ::ₘ (rest : Multiset Nat)) p := h
    exact ih (sustains.acted h first)

theorem served (h : I 0 p) (served : Served link now p q) : I 0 q := by
  induction served with
  | empty => exact h
  | later view front scheduled => exact sustains.revisited h scheduled
  | blocked view front due turn scheduled =>
    exact sustains.revisited (sustains.blocked h view front due turn) scheduled
  | left view front due turn after pops drained _ ih =>
    exact ih (sustains.drained (sustains.popped h view front due turn after pops) drained)

theorem visited (h : I 0 p) (visited : Visited link now p q) : I 0 q := by
  rcases visited with ⟨v, -, -, rfl⟩ | served
  · exact h
  · exact sustains.served h served

/-- It holds after the work of a second. -/
theorem work (h : I 0 p) (ends : Ends (Partition.work now) p () q) : I 0 q := by
  obtain ⟨ids, dueAgents, links, dueLinks, r, visit, agents, visit', visits⟩ := work_ends ends
  have acted := sustains.acted_along (sustains.called h visit) agents
  exact visits.keeps (P := I 0) (fun _ _ _ _ visited h => sustains.visited h visited) (sustains.looked acted visit')

/-! ## Work which doesn't fail otherwise -/

theorem fails_tryHead {v : LinkView} (h : I 0 p) (view : p.links[link]? = some v) : Fails F (tryHead link now) p := by
  refine .after (ends_view view) ?_
  cases front : v.front? with
  | none => exact .pure false
  | some head =>
    dsimp only
    split
    · rename_i later
      exact .bind (safe_revisit ((sustains.soonLinks h).trans later)) fun _ _ _ => .pure false
    · rename_i early
      have due := Nat.le_of_not_lt early
      refine .bind (sustains.leaves h view front due) fun b q ends => ?_
      cases b with
      | false =>
        have blocked := sustains.blocked h view front due (dispatch_ends ends)
        exact .bind (safe_revisit (sustains.soonLinks blocked)) fun _ _ _ => .pure false
      | true => exact .pure true

theorem fails_takeHead {v : LinkView} (h : I 0 p) (view : p.links[link]? = some v) (front : v.front? = some head)
    (due : head.finish ≤ now) (turn : Dispatched head.agent now p true q) : Fails F (takeHead link now) q := by
  obtain ⟨w, after, front'⟩ := front_dispatched turn view front
  obtain ⟨⟨entry, w'⟩, pops⟩ := LinkView.pop_of_front front'
  have viewed : (q.links.setIfInBounds link w')[link]? = some w' :=
    Array.getElem?_setIfInBounds_self_of_lt (Array.getElem?_eq_some_iff.1 after).1
  exact .after (ends_view after) (.after (attempt_eq_ok.2 ⟨pops, rfl⟩) (.after (ends_setView q link w')
    (sustains.drains (sustains.popped h view front due turn after pops) viewed)))

/-- Serving a link doesn't fail otherwise if those behind the agents who get a turn may not leave yet. -/
theorem fails_serve (h : I 0 p) (last : now < Clock.last) (ahead : Ahead link now queue p) :
    Fails F (serve link now queue.length) p := by
  induction queue generalizing p with
  | nil =>
    obtain ⟨v, l, behind, view, owned, stands, late⟩ := ahead
    refine .after (ends_view view) ?_
    cases front : v.front? with
    | none => exact .pure ()
    | some head =>
      have first := (LinkView.front_eq owned).symm.trans front
      rw [stands] at first
      exact safe_revisit ((sustains.soonLinks h).trans (late head (List.mem_of_mem_head? first)))
  | cons head rest ih =>
    have ⟨v, _, _, view, _⟩ := ahead
    rw [List.length_cons, serve_succ]
    refine .bind (sustains.fails_tryHead h view) fun gone q tries => ?_
    cases tryHead_ends tries with
    | nobody | later | blocked => exact .pure ()
    | gone view front due turn =>
      refine .bind (sustains.fails_takeHead h view front due turn) fun _ s takes => ?_
      obtain ⟨w, popped, w', after, pops, drained⟩ := takeHead_ends takes
      exact ih (sustains.drained (sustains.popped h view front due turn after pops) drained)
        ((ahead.moved last turn.moved).taken last takes).1

theorem fails_serveLink (h : I 0 p) (last : now < Clock.last) (inside : link < p.links.size) :
    Fails F (serveLink link now) p := by
  have view := Array.getElem?_eq_getElem inside
  refine .after (ends_view view) ?_
  split
  · exact .pure ()
  · rename_i l owned
    exact sustains.fails_serve h last (.refl view owned)

theorem fails_actOrRetry {hand : Multiset Nat} (h : I (id ::ₘ hand) p) : Fails F (actOrRetry id now) p := by
  refine .bind (sustains.acts h) fun b r ends => ?_
  cases b with
  | true => exact .pure ()
  | false =>
    refine safe_wake ?_
    rw [(paced_dispatched (dispatch_ends ends)).agents]
    exact sustains.soonAgents h

/-- The work of a second doesn't fail otherwise, if it begins at that second. -/
theorem fails_work {stop : Nat} (h : I 0 p) (last : now < Clock.last) (soon : p.dueAgents.next = now)
    (scheduled : p.Scheduled stop now []) : Fails F (Partition.work now) p := by
  obtain ⟨⟨ids, due⟩, visit⟩ := visit_of_next soon last
  have taken := sustains.called h visit
  have agents : Fails F (serveAgents now) p := by
    refine .after (ends_get p) (.after (attempt_eq_ok.2 ⟨visit, rfl⟩) (.after (ends_modify _ p) ?_))
    exact .forM (P := fun rest s => I (rest : Multiset Nat) s)
      (fun x rest s h => sustains.fails_actOrRetry (show I (x ::ₘ (rest : Multiset Nat)) s from h))
      (fun x rest s t h ends =>
        sustains.acted (show I (x ::ₘ (rest : Multiset Nat)) s from h) (actOrRetry_ends ends)) taken
  refine .bind agents fun _ r ends => ?_
  obtain ⟨acted, scheduled⟩ : I 0 r ∧ r.Scheduled stop now [] := by
    simp only [serveAgents, bind_eq_ok, get_eq_ok, attempt_eq_ok, modify_eq_ok] at ends
    obtain ⟨_, _, ⟨rfl, rfl⟩, _, _, ⟨visited, rfl⟩, ⟨⟩, _, rfl, ends⟩ := ends
    obtain ⟨rfl, rfl⟩ := Prod.mk.inj (Except.ok.inj (visit.symm.trans visited))
    have acts := along_of_forM (R := fun id => Acted id now) (fun _ _ _ ends => actOrRetry_ends ends) ends
    exact ⟨sustains.acted_along taken acts, acts.keeps (P := Scheduled stop now [])
      (fun _ _ _ _ acted h => h.acted (Nat.le_succ now) last acted) (scheduled.offRoad ⟨rfl, rfl⟩)⟩
  obtain ⟨⟨links, due⟩, visit⟩ := visit_of_next scheduled.next last
  obtain ⟨-, occupied, -⟩ := scheduled.visit visit
  refine .after (ends_get r) (.after (attempt_eq_ok.2 ⟨visit, rfl⟩) (.after (ends_modify _ r) ?_))
  refine .forM (P := fun rest s => I 0 s ∧ ∀ link ∈ rest, link < s.links.size)
    (fun link rest s h => sustains.fails_serveLink h.1 last (h.2 link List.mem_cons_self))
    (fun link rest s t h ends => ?_) ⟨sustains.looked acted visit, fun link hl => ?_⟩
  · obtain ⟨h, inside⟩ := h
    have visited := serveLink_ends ends
    refine ⟨sustains.visited h visited, fun link hl => ?_⟩
    rw [(worked_visited visited).kept.size]
    exact inside link (List.mem_cons_of_mem _ hl)
  · have view : r.links[link]? = some (r.seen link) :=
      view_of_seen rfl fun missing => occupied link hl (by rw [missing]; rfl)
    exact (Array.getElem?_eq_some_iff.1 view).1

end Sustains

/-- The agents which are due are asked for later seconds only. -/
theorem next_work (ends : Ends (work now) p () q) : q.dueAgents.next = now + 1 := by
  obtain ⟨ids, dueAgents, links, dueLinks, r, visit, agents, visit', visits⟩ := work_ends ends
  have acted : Paced { p with dueAgents := dueAgents } r := agents.relates fun _ _ _ _ => paced_acted
  have visited : Paced { r with dueLinks := dueLinks } q := visits.relates fun _ _ _ _ => paced_visited
  rw [visited.agents]
  exact acted.agents.trans (Agenda.visit_eq_ok visit).2.2.1

end Partition

end Mobility
