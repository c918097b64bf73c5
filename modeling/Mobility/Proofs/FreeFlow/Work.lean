import Mobility.Proofs.FreeFlow.Lines

/-!
# The work of a second in free flow

In free flow nobody who may leave a link by now is still there when the work of a second is done
(`Scenario.Calm.worked`): a link on which somebody may leave is due, as the first agent may leave, too, and
whoever is first then gets on. So whoever is on a link afterwards stays there until a later second.
-/

set_option autoImplicit false

namespace Mobility

open Act Second Mobility.Partition

namespace Partition

variable {raw s : Scenario} {method : Method} {timing : Timing} {now i id link : Nat} {hand : Multiset Nat}
  {links : List Nat} {due : Agenda Nat} {p₀ p q : Partition} {v : LinkView}

/-- A link which isn't due has nobody on it who may leave by now. -/
theorem Scheduled.prompt (h : p.Scheduled timing.stop now []) (line : p.InLine) (inTime : now ≤ timing.stop)
    (visit : p.dueLinks.visit now = .ok (links, due)) (absent : link ∉ links) : Prompt now link p := by
  refine line.prompt_of_front fun head front => Nat.lt_of_not_le fun ripe => ?_
  obtain ⟨-, -, -, -, dates⟩ := Agenda.visit_eq_ok visit
  obtain ⟨perm, left⟩ := dates link
  rw [List.count_eq_zero_of_not_mem absent, h.dates link, if_neg List.not_mem_nil, headDates, front] at perm
  refine left (perm.subset ?_)
  rw [Option.map_some, Option.toList_some, List.mem_singleton, Nat.max_eq_right ripe]
  exact (if_pos inTime).symm

/-- Amid the work of a second in free flow. -/
structure Flowing (s : Scenario) (timing : Timing) (now : Nat) (p₀ : Partition) (hand : Multiset Nat)
    (p : Partition) : Prop extends Amid (s.Flows timing now now) now p₀ hand p where
  inLine : p.InLine

namespace Flowing

variable (free : s.FreeFlow timing) (hs : raw.partition method = .ok s) (last : now < Clock.last)
  (start : p₀.Setting s timing i)

include free last start in
theorem grown {b : Bool} (h : Flowing s timing now p₀ hand p) (turn : Dispatched id now p b q) : Grown now p q :=
  grown_dispatched (h.setting start) last (free.entersLast h.held rfl h.ready.known id) turn

theorem inFront (h : Flowing s timing now p₀ hand p) : (p.seen link).inFront = [] :=
  Scenario.inFront_eq_nil (fun _ _ _ _ => Scenario.Flows.not_inbound) h.held h.ready.known link

variable (room : p₀.Roomy (s.Flows timing now now) now False)

include free hs last start room

/-- Agents stay in line in the work of a second. -/
theorem sustains : Sustains (fun _ => True) now (Flowing s timing now p₀) :=
  have accepted := Scenario.accepted_of_partition hs
  have amid := Amid.sustains (free.closed hs now now (Nat.le_refl now) (Nat.le_succ now) last) accepted start room
  { soonAgents h := h.ready.agents
    soonLinks h := h.ready.links
    called h visit := ⟨amid.called h.toAmid visit, h.inLine.same (sameLines_of_links rfl)⟩
    looked h visit := ⟨amid.looked h.toAmid visit, h.inLine.same (sameLines_of_links rfl)⟩
    acts _ _ _ _ := trivial
    acted h acts := by
      refine ⟨amid.acted h.toAmid acts, ?_⟩
      rcases acts with turn | ⟨r, turn, wakes⟩
      · exact h.inLine.grown (h.grown free last start turn)
      · exact (h.inLine.grown (h.grown free last start turn)).same
          (sameLines_of_links (offRoad_wake wakes).links)
    leaves _ _ _ _ _ _ _ := trivial
    blocked h view front due turn :=
      ⟨amid.blocked h.toAmid view front due turn, h.inLine.grown (h.grown free last start turn)⟩
    popped h view front due turn after pops :=
      ⟨amid.popped h.toAmid view front due turn after pops,
        (h.inLine.grown (h.grown free last start turn)).popped after pops⟩
    drains _ _ _ _ _ := trivial
    drained h ends := ⟨amid.drained h.toAmid ends, h.inLine.same (sameLines_drained h.inFront ends)⟩
    revisited h ends := by
      refine ⟨amid.revisited h.toAmid ends, ?_⟩
      obtain ⟨due, -, rfl⟩ := revisit_eq_ok.1 ends
      exact h.inLine.same (sameLines_of_links rfl) }

/-- In free flow whoever may leave a link gets on. -/
theorem not_blocked {head : Entry} (h : Flowing s timing now p₀ 0 p) (view : p.links[link]? = some v)
    (front : v.front? = some head) (ripe : head.finish ≤ now) : ¬ Dispatched head.agent now p false q := by
  intro turn
  have closed := free.closed hs now now (Nat.le_refl now) (Nat.le_succ now) last
  obtain ⟨-, again⟩ := h.toAmid.turned closed (Scenario.accepted_of_partition hs) start room view front ripe turn
  obtain ⟨l, owned, first⟩ := Option.bind_eq_some_iff.1 front
  have there : head ∈ v.entries := by
    rw [LinkView.entries_eq owned]
    exact List.mem_of_mem_head? first
  have stands : head.agent ∈ p.census 0 :=
    Multiset.mem_of_le (standing_le_census view) (LinkView.mem_standing_of_entry there)
  obtain ⟨a, found⟩ := h.ready.known _ stands
  obtain ⟨b, found', -⟩ := (worked_dispatched turn).kept.copy found
  exact free.not_stalls (again rfl b found').2

/-- Nobody who may leave is on a link which has been served, and those on other links are as late as before. -/
theorem served (h : Flowing s timing now p₀ 0 p) (next : p.dueLinks.next = now + 1)
    (served : Served link now p q) :
    Prompt now link q ∧ ∀ l, l ≠ link → Prompt now l p → Prompt now l q := by
  have sustains := sustains free hs last start room
  induction served with
  | @empty p v view front =>
    refine ⟨h.inLine.prompt_of_front fun head other => ?_, fun _ _ prompt => prompt⟩
    rw [seen_of_view view, front] at other
    cases other
  | @later p q v head view front scheduled =>
    obtain ⟨due, added, rfl⟩ := revisit_eq_ok.1 scheduled
    -- What can be put into the agenda isn't past.
    have later : p.dueLinks.next ≤ head.finish := (Agenda.add_eq_ok added).1
    rw [next] at later
    refine ⟨h.inLine.prompt_of_front fun first same => ?_, fun _ _ prompt => prompt⟩
    rw [seen_of_view view, front] at same
    obtain rfl := Option.some.inj same
    exact later
  | blocked view front ripe turn => exact absurd turn (h.not_blocked free hs last start room view front ripe)
  | @left p r t q v w w' head popped view front ripe turn after pops drained _ ih =>
    have h' := sustains.popped h view front ripe turn after pops
    obtain ⟨clear, others⟩ := ih (sustains.drained h' drained) ((paced_drained drained).links.trans
      ((paced_dispatched turn).links.trans next))
    refine ⟨clear, fun l other prompt => others l other ?_⟩
    have grown := prompt.grown (h.grown free last start turn)
    have popped : Prompt now l { r with links := r.links.setIfInBounds link w' } := fun e he =>
      grown e (by rwa [(entries_popped after pops).2 l other] at he)
    exact popped.same (sameLines_drained h'.inFront drained)

/-- Nobody who may leave is on a link when all links have been served which are due. -/
theorem visitedAll (h : Flowing s timing now p₀ 0 p) (next : p.dueLinks.next = now + 1)
    (others : ∀ l, l ∉ links → Prompt now l p) (visits : Along (fun link => Visited link now) links p q) :
    ∀ l, Prompt now l q := by
  have sustains := sustains free hs last start room
  induction visits with
  | nil => exact fun l => others l List.not_mem_nil
  | @cons link rest p r q first _ ih =>
    refine ih (sustains.visited h first) ((paced_visited first).links.trans next) fun l absent => ?_
    rcases first with ⟨v, view, foreign, rfl⟩ | served
    · by_cases same : l = link
      · subst same
        intro e he
        rw [seen_of_view view, LinkView.entries, foreign] at he
        cases he
      · exact others l (List.not_mem_cons_of_ne_of_not_mem same absent)
    · obtain ⟨clear, kept⟩ := h.served free hs last start room next served
      by_cases same : l = link
      · exact same ▸ clear
      · exact kept l same (others l (List.not_mem_cons_of_ne_of_not_mem same absent))

end Flowing

end Partition

namespace Scenario

variable {raw s : Scenario} {method : Method} {timing : Timing} {now i x r k : Nat} {site : Site}
  {ps : List Partition} {p q : Partition}

/-- Whoever is due now is called, and everybody else stays where it is. -/
theorem Rests.flows (h : s.Rests timing now x ⟨r, site, k⟩) (inTime : now ≤ timing.stop) (other : site ≠ .due now) :
    s.Flows timing now now x ⟨r, site, k⟩ := by
  obtain ⟨a, found, past, stays⟩ := h
  exact ⟨a, found, past.mono (Nat.le_succ now), .inl (stays.succ inTime other)⟩

theorem Rests.acts (h : s.Rests timing now x ⟨r, .due now, k⟩) : s.Flows timing now now x ⟨r, .acting, k⟩ := by
  obtain ⟨a, found, past, stays⟩ := h
  cases stays with
  | due later here => exact ⟨a, found, past.mono (Nat.le_succ now), .inr (.acting (Nat.le_refl now) here)⟩

/-- Whoever isn't about to act and not about to leave a link may be where it is until the next second. -/
theorem Flows.later (h : s.Flows timing now now x ⟨r, site, k⟩) (idle : site ≠ .acting)
    (prompt : ∀ link finish, site = .queued link finish → now < finish) :
    s.Flows timing now (now + 1) x ⟨r, site, k⟩ := by
  obtain ⟨a, found, past, stays | goes⟩ := h
  · exact ⟨a, found, past, .inl (stays.until prompt)⟩
  · refine ⟨a, found, past, .inr ?_⟩
    cases goes with
    | acting => exact absurd rfl idle
    | outbound get action onto consumed here => exact .outbound get action onto consumed here
    | mailed get action onto consumed => exact .mailed get action onto consumed
    | handedOver there => exact .handedOver there

/-- The partitions between two seconds in free flow. -/
structure Calm (s : Scenario) (timing : Timing) (now : Nat) (ps : List Partition) : Prop where
  sane : s.Sane timing now ps
  reconciled : s.Reconciled ps
  obeys : Obeys (s.Rests timing now) ps
  inLine : ∀ (i : Nat) p, ps[i]? = some p → p.InLine

namespace Calm

variable (h : s.Calm timing now ps) (free : s.FreeFlow timing) (hs : raw.partition method = .ok s)
  (inTime : now ≤ timing.stop) (last : now < Clock.last)

include h free hs inTime last

/-- After the work of a second whoever is on a link stays there, and queues are in line. -/
theorem worked (hp : ps[i]? = some p) (work : Ends (Partition.work now) p () q) :
    q.Held (s.Flows timing now (now + 1)) ⟨0, none, 0 + q.roots⟩ ∧ q.InLine := by
  have start : p.Setting s timing i := h.sane.rest.setting i p hp
  have room := free.roomy hs h.sane h.reconciled h.obeys last hp
  have sustains := Flowing.sustains free hs last start room
  obtain ⟨ids, dueAgents, links, dueLinks, u, visit, agents, visit', visits⟩ := work_ends work
  have called : Flowing s timing now p ids { p with dueAgents := dueAgents } :=
    ⟨(h.sane.amid h.obeys hp).called (fun _ _ _ rests => rests.acts)
      (fun _ _ _ _ other rests => rests.flows inTime other) visit, (h.inLine i p hp).same (sameLines_of_links rfl)⟩
  have acted : Flowing s timing now p 0 u := sustains.acted_along called agents
  have scheduled : u.Scheduled timing.stop now [] :=
    agents.keeps (P := Scheduled timing.stop now [])
      (fun _ _ _ _ acts scheduled => scheduled.acted (Nat.le_succ now) last acts)
      ((h.sane.timely i p hp).scheduled.offRoad ⟨rfl, rfl⟩)
  have looked := sustains.looked acted visit'
  have next : dueLinks.next = now + 1 := (Agenda.visit_eq_ok visit').2.2.1
  have others : ∀ link, link ∉ links → Prompt now link { u with dueLinks := dueLinks } := fun link absent =>
    (scheduled.prompt acted.inLine inTime visit' absent).same (sameLines_of_links rfl)
  have done : Flowing s timing now p 0 q := visits.keeps (P := Flowing s timing now p 0)
    (fun _ _ _ _ visited flowing => sustains.visited flowing visited) looked
  have prompt := looked.visitedAll free hs last start room next others visits
  refine ⟨⟨fun site x a spot found => ?_, done.held.mail.mono fun _ _ _ sends => ?_, done.held.horizon⟩, done.inLine⟩
  · refine (done.held.spots site x a spot found).later ?_ ?_
    · rintro rfl
      exact absurd spot (Multiset.notMem_zero x)
    · rintro link finish rfl
      obtain ⟨fromPart, entry⟩ := spot
      exact prompt link _ entry
  · exact ⟨sends.1.later nofun nofun, fun row hrow => (sends.2 row hrow).later nofun nofun⟩

end Calm

end Scenario

end Mobility
