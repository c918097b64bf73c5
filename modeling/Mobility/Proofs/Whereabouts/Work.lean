import Mobility.Proofs.Whereabouts.Turns

/-!
# The work of a second moves agents

In the work of a second agents take turns, links are left, and agents which wait in front of gateways
enter them. All of these are moves, so a closed rule stays obeyed (`Partition.Amid.work`).
-/

set_option autoImplicit false

namespace Mobility

open Act

namespace Partition

variable {s : Scenario} {timing : Timing} {now i id x link time : Nat} {crowd : Prop} {rule : Rule}
  {c c' : Scope} {p p₀ q r : Partition} {site : Site} {v : LinkView} {hand : Multiset Nat}

/-! ## Scopes -/

/-- Everybody obeys the rule if fewer are looked at, or passengers of agents which have none. -/
theorem Held.restrict (h : p.Held rule c) (acting : ∀ x ∈ c'.hand, x ∈ c.hand)
    (skip : c.skip = none ∨ c'.skip = c.skip) (cars : ∀ v ∈ c'.cars, v ∈ c.cars ∨ p.crew v = 0) :
    p.Held rule c' := by
  refine ⟨fun site x a spot ha => ?_, h.mail, h.horizon⟩
  cases site with
  | acting => exact h.spots .acting x a (acting x spot) ha
  | queued l finish =>
    obtain ⟨fromPart, entry⟩ := spot
    refine h.spots (.queued l finish) x a ⟨fromPart, ?_⟩ ha
    rcases skip with everybody | same
    · rw [if_neg (by rw [everybody]; simp)]
      split at entry
      · exact List.mem_of_mem_tail entry
      · exact entry
    · rwa [← same]
  | aboard vehicle index =>
    refine h.spots (.aboard vehicle index) x a ⟨(cars vehicle spot.1).resolve_right fun none => ?_, spot.2⟩ ha
    exact Multiset.notMem_zero x (none ▸ mem_crew.2 ⟨_, spot.2⟩)
  | due time => exact h.spots (.due time) x a spot ha
  | beyond => exact h.spots .beyond x a spot ha
  | inbound l => exact h.spots (.inbound l) x a spot ha
  | outbound l => exact h.spots (.outbound l) x a spot ha
  | stop stop route index => exact h.spots (.stop stop route index) x a spot ha
  | mailed => exact spot.elim
  | gone time => exact h.spots (.gone time) x a spot ha

/-- Whoever is looked for again is the first agent on a link. -/
theorem spot_of_front {head : Entry} {cars : Multiset Nat} (view : p.links[link]? = some v)
    (front : v.front? = some head) (spot : p.Spot ⟨hand, none, cars⟩ site x) :
    p.Spot ⟨hand, some link, cars⟩ site x ∨ site = .queued link head.finish ∧ x = head.agent := by
  cases site with
  | queued l finish =>
    obtain ⟨fromPart, entry⟩ := spot
    rw [if_neg (by simp)] at entry
    by_cases own : l = link
    · subst own
      obtain ⟨⟨first, w⟩, pops⟩ := LinkView.pop_of_front front
      obtain rfl := Option.some.inj (front.symm.trans (LinkView.standing_pop pops).2)
      rw [seen_of_view view, (LinkView.entries_pop pops).1] at entry
      rcases List.mem_cons.1 entry with rfl | behind
      · exact .inr ⟨rfl, rfl⟩
      · refine .inl ⟨fromPart, ?_⟩
        rw [if_pos rfl, seen_of_view view, (LinkView.entries_pop pops).1]
        exact behind
    · refine .inl ⟨fromPart, ?_⟩
      rw [if_neg (by simpa using Ne.symm own)]
      exact entry
  | acting | due | beyond | inbound | outbound | stop | aboard | mailed | gone => exact .inl spot

/-- Whoever comes into the partition by itself in a turn is the agent whose turn it is, or has nobody aboard. -/
theorem cars_dispatched {b : Bool} (o : p.Orderly) (h : Dispatched id now p b q) :
    ∀ v ∈ q.roots, v ∈ p.roots ∨ v = id ∨ q.crew v = 0 := by
  intro v hv
  rcases put_dispatched h with put | ⟨-, stop, ⟨exchange⟩⟩
  · exact (put.roots v hv).imp_right .inl
  · obtain ⟨seated, reseated⟩ := reseated_exchanged exchange
    rw [reseated.roots] at hv
    refine (Multiset.mem_add.1 hv).imp_right fun leaves => ?_
    by_cases own : v = id
    · exact .inl own
    · refine .inr ?_
      rw [reseated.crew, if_neg own]
      exact o.pedestrians v (o.riders id v (Multiset.mem_of_le reseated.aboard leaves))

/-! ## Entering a gateway -/

/-- How agents enter a gateway: in the order in which they have waited, and as long as their traversals take. -/
theorem Held.admitted {g k : Gateway} {waiting : List (Nat × Nat)} (h : Admitted now g waiting p k q)
    (closed : rule.Closed s timing now crowd) (setting : p.Setting s timing i)
    (travel : ∀ velocity delay, g.link.travelTime velocity delay = s.travelTime link velocity delay)
    (obeys : ∀ row ∈ waiting, ∀ a, p.agents[row.1]? = some a → rule row.1 ⟨p.rank, .inbound link, a.cursor⟩) :
    q = { p with agents := q.agents } ∧
      (∀ (x : Nat) b, q.agents[x]? = some b →
        ∃ a, p.agents[x]? = some a ∧ b.cursor = a.cursor ∧ b.seats = a.seats) ∧
      (∀ row ∈ k.inbound, row ∈ waiting) ∧ ∀ e ∈ k.link.queue, e ∈ g.link.queue ∨
        ∀ a, p.agents[e.agent]? = some a → rule e.agent ⟨p.rank, .queued link e.finish, a.cursor⟩ := by
  induction h with
  | nobody => exact ⟨rfl, fun _ b hb => ⟨b, hb, rfl, rfl⟩, nofun, fun _ he => .inl he⟩
  | full => exact ⟨rfl, fun _ b hb => ⟨b, hb, rfl, rfl⟩, fun _ hrow => hrow, fun _ he => .inl he⟩
  | @entered g k p q id part finish rest a room enters later ih =>
    obtain ⟨found, event, requested, velocity, previous, time⟩ := enters
    obtain ⟨hlt, -⟩ := Array.getElem?_eq_some_iff.1 found
    have same : ∀ (x : Nat) b, (p.agents.setIfInBounds id (a.onLink now finish))[x]? = some b →
        ∃ a, p.agents[x]? = some a ∧ b.cursor = a.cursor ∧ b.seats = a.seats := by
      intro x b hb
      by_cases own : id = x
      · subst own
        rw [Array.getElem?_setIfInBounds_self_of_lt hlt] at hb
        obtain rfl := Option.some.inj hb
        exact ⟨a, found, rfl, rfl⟩
      · rw [Array.getElem?_setIfInBounds_ne own] at hb
        exact ⟨b, hb, rfl, rfl⟩
    obtain ⟨plain, cursors, inbound, queue⟩ := ih
      (setting.trans (Kept.setAgent found (Agent.blank_onLink a now finish) fun honest => honest)) travel
      (fun row hrow b hb => by
        obtain ⟨b', hb', cursor, -⟩ := same row.1 b hb
        rw [cursor]
        exact obeys row (List.mem_cons_of_mem _ hrow) b' hb')
    refine ⟨plain, fun x b hb => ?_, fun row hrow => List.mem_cons_of_mem _ (inbound row hrow), fun e he => ?_⟩
    · obtain ⟨b', hb', cursor, seats⟩ := cursors x b hb
      obtain ⟨b'', hb'', cursor', seats'⟩ := same x b' hb'
      exact ⟨b'', hb'', cursor.trans cursor', seats.trans seats'⟩
    · refine (queue e he).elim (fun old => ?_) fun new => .inr fun b hb => ?_
      · refine (List.mem_append.1 old).imp_right fun last => ?_
        obtain rfl := List.mem_singleton.1 last
        intro b hb
        obtain rfl := Option.some.inj (found.symm.trans hb)
        have waited := obeys (id, part) List.mem_cons_self a found
        have timed : p.timing = timing := setting.timing
        unfold Agent.previous at previous
        split at previous
        · cases previous
        · rename_i consumed
          obtain ⟨cursor, hcursor⟩ := Nat.exists_eq_succ_of_ne_zero consumed
          have last : s.Instructs id cursor ⟨event, .traverse requested velocity⟩ :=
            setting.instructs found (by rw [hcursor] at previous; exact previous)
          rw [hcursor] at waited ⊢
          rw [time, travel, timed]
          exact closed id _ _ (.admitted last) waited
      · by_cases own : id = e.agent
        · obtain rfl := Option.some.inj (found.symm.trans (own ▸ hb))
          exact new (a.onLink now finish) (own ▸ Array.getElem?_setIfInBounds_self_of_lt hlt)
        · exact new b ((Array.getElem?_setIfInBounds_ne own).trans hb)

theorem Held.drained (h : p.Held rule c) (closed : rule.Closed s timing now crowd)
    (setting : p.Setting s timing i) (skip : c.skip = none) (drained : Ends (drainInbound link now) p () q) :
    q.Held rule c := by
  obtain ⟨v, view, ⟨g, k, r, rfl, admitted, rfl⟩ | ⟨-, rfl⟩⟩ := drainInbound_ends drained
  · obtain ⟨-, -, -, -, travel⟩ := setting.owned view rfl
    have inbound : ∀ row ∈ g.inbound, ∀ a, p.agents[row.1]? = some a →
        rule row.1 ⟨p.rank, .inbound link, a.cursor⟩ := fun row hrow a ha => by
      refine h.spots (.inbound link) row.1 a ?_ ha
      show row.1 ∈ (p.seen link).inFront
      rw [seen_of_view view]
      exact List.mem_map_of_mem (f := Prod.fst) hrow
    obtain ⟨plain, cursors, waiting, queue⟩ := Held.admitted admitted closed setting travel inbound
    have links : r.links = p.links := by rw [plain]
    have viewed : r.links[link]? = some (.gateway g) := links ▸ view
    have seen : ∀ l, r.seen l = p.seen l := fun l => by rw [plain]; rfl
    refine h.lingers (by rw [plain]) (fun x b hb => ?_) (fun site x a spot ha => ?_) ?_ ?_
    · obtain ⟨a, ha, cursor, -⟩ := cursors x b hb
      exact ⟨a, ha, cursor⟩
    · rcases spot_setView viewed spot with old | ⟨finish, fromPart, rfl, entry⟩ | ⟨rfl, there⟩ | ⟨rfl, there⟩
      · refine .inl ?_
        cases site with
        | aboard vehicle index =>
          refine ⟨old.1, ?_⟩
          have row := old.2
          unfold rowOf at row ⊢
          cases hv : r.agents[vehicle]? with
          | none =>
            rw [hv] at row
            cases row
          | some b =>
            obtain ⟨b', hb', -, seats⟩ := cursors vehicle b hv
            rw [hv] at row
            rw [hb']
            show x ∈ b'.seats.passengers.row index
            rw [← seats]
            exact row
        | acting | due | beyond | queued | inbound | outbound | stop | mailed | gone =>
          rw [plain] at old
          exact old
      · rw [if_neg (by rw [skip]; simp)] at entry
        refine (queue _ entry).imp (fun old => ⟨fromPart, ?_⟩) fun new => new a ha
        rw [if_neg (by rw [skip]; simp), seen_of_view view]
        exact old
      · refine .inl ?_
        show x ∈ (p.seen link).inFront
        rw [seen_of_view view]
        obtain ⟨row, hrow, rfl⟩ := List.mem_map.1 there
        exact List.mem_map_of_mem (f := Prod.fst) (waiting row hrow)
      · cases there
    · rw [plain]
      exact h.mail
    · rw [plain]
      exact h.horizon
  · exact h

/-! ## The work of a second -/

/-- Whoever finds no room on a link in the work of a second finds a crowd; the second begins in state `p`. -/
def Roomy (rule : Rule) (now : Nat) (crowd : Prop) (p : Partition) : Prop :=
  ∀ c hand q (id link : Nat) v finish, Kept LinkView.Balanced p q → Ready now hand q → q.Held rule c →
    q.links[link]? = some v → v.push id finish = .ok none → crowd

/-- Amid the work of a second which begins in state `p₀`, everybody obeys the rule. -/
structure Amid (rule : Rule) (now : Nat) (p₀ : Partition) (hand : Multiset Nat) (p : Partition) : Prop where
  kept : Kept LinkView.Balanced p₀ p
  ready : Ready now hand p
  held : p.Held rule ⟨hand, none, hand + p.roots⟩

namespace Amid

theorem setting (h : Amid rule now p₀ hand p) (start : p₀.Setting s timing i) : p.Setting s timing i :=
  start.trans (h.kept.mono LinkView.Balanced.alike)

theorem revisit (h : Amid rule now p₀ 0 p) (ends : Ends (Partition.revisit link time) p () q) :
    Amid rule now p₀ 0 q where
  kept := h.kept.trans (kept_revisit ends)
  ready := h.ready.revisit ends
  held := by
    rw [(still_revisit ends).roots]
    exact h.held.revisit ends

theorem drained (h : Amid rule now p₀ 0 p) (closed : rule.Closed s timing now crowd)
    (start : p₀.Setting s timing i) (ends : Ends (drainInbound link now) p () q) :
    Amid rule now p₀ 0 q where
  kept := h.kept.trans (worked_drained ends).kept
  ready := h.ready.drained ends
  held := by
    rw [(still_drained ends).roots]
    exact h.held.drained closed (h.setting start) rfl ends

/-- Those who are due are called. Another rule may hold from then on, if it allows those who are called to take
their turns and everybody else to stay where they are. -/
theorem called {rule' : Rule} {ids : List Nat} {due : Agenda Nat} (h : Amid rule now p₀ 0 p)
    (turns : ∀ x r k, rule x ⟨r, .due now, k⟩ → rule' x ⟨r, .acting, k⟩)
    (stays : ∀ x r site k, site ≠ .due now → rule x ⟨r, site, k⟩ → rule' x ⟨r, site, k⟩)
    (visit : p.dueAgents.visit now = .ok (ids, due)) : Amid rule' now p₀ ids { p with dueAgents := due } := by
  obtain ⟨-, -, rfl, after⟩ := Agenda.visit_cases visit
  have left : due.due = p.dueAgents.due.erase now := by rw [after]
  have beyond : due.beyond = p.dueAgents.beyond := by rw [after]
  have stop : due.stop = p.dueAgents.stop := by rw [after]
  refine ⟨h.kept.trans (Kept.aside p due p.dueLinks p.platforms p.log p.finished), h.ready.visitAgents visit, ?_⟩
  refine ⟨fun site x a spot ha => ?_, h.held.mail.mono fun target link record sends => ?_,
    stop.trans h.held.horizon⟩
  · have old : ∀ site, site ≠ .due now → p.Spot ⟨0, none, 0 + p.roots⟩ site x → rule' x ⟨p.rank, site, a.cursor⟩ :=
      fun site other spot => stays x p.rank site a.cursor other (h.held.spots site x a spot ha)
    cases site with
    | acting => exact turns x _ _ (h.held.spots (.due now) x a (Multiset.mem_coe.1 spot) ha)
    | due time =>
      have row : x ∈ due.due.row time := spot
      rw [left] at row
      obtain ⟨row, other⟩ := Table.mem_row_erase row
      exact old (.due time) (fun same => other (Site.due.inj same)) row
    | beyond =>
      have there : x ∈ due.beyond := spot
      rw [beyond] at there
      exact old .beyond nofun there
    | aboard vehicle index =>
      refine old (.aboard vehicle index) nofun ⟨?_, spot.2⟩
      have car := spot.1
      dsimp only at car
      rw [roots_visit visit] at car
      exact Multiset.mem_add.2 (.inr car)
    | queued link finish => exact old (.queued link finish) nofun spot
    | inbound link => exact old (.inbound link) nofun spot
    | outbound link => exact old (.outbound link) nofun spot
    | stop stop route index => exact old (.stop stop route index) nofun spot
    | mailed => exact spot.elim
    | gone time => exact old (.gone time) nofun spot
  · exact ⟨stays _ _ _ _ nofun sends.1, fun row hrow => stays _ _ _ _ nofun (sends.2 row hrow)⟩

theorem looked {ids : List Nat} {due : Agenda Nat} (h : Amid rule now p₀ 0 p)
    (visit : p.dueLinks.visit now = .ok (ids, due)) : Amid rule now p₀ 0 { p with dueLinks := due } := by
  refine ⟨h.kept.trans (Kept.aside p p.dueAgents due p.platforms p.log p.finished), h.ready.visitLinks visit, ?_⟩
  refine h.held.lingers rfl (fun x b hb => ⟨b, hb, rfl⟩) (fun site x a spot _ => .inl ?_) h.held.mail h.held.horizon
  cases site <;> exact spot

section Work

variable (closed : rule.Closed s timing now crowd) (hs : s.Accepted) (start : p₀.Setting s timing i)
  (room : p₀.Roomy rule now crowd)

include closed hs start room

theorem acted (h : Amid rule now p₀ (id ::ₘ hand) p) (acts : Acted id now p q) : Amid rule now p₀ hand q := by
  have setting := h.setting start
  have clear := clear_of_hand h.ready.once
  have held : p.Held rule ⟨hand, none, (id ::ₘ hand) + p.roots⟩ :=
    h.held.restrict (fun x hx => Multiset.mem_cons_of_mem hx) (.inl rfl) fun v hv => .inl hv
  have turn : ∀ b r, Dispatched id now p b r → r.Held rule ⟨hand, none, (id ::ₘ hand) + p.roots⟩ ∧
      (b = false → ∀ a, r.agents[id]? = some a →
        rule id ⟨r.rank, .acting, a.cursor⟩ ∧ s.Stalls crowd id a.cursor) := fun b r turn =>
    held.dispatched closed hs setting clear
      (fun a ha => h.held.spots .acting id a (Multiset.mem_cons_self id hand) ha) nofun
      (fun l v finish => room _ _ p id l v finish h.kept h.ready h.held) turn
  refine ⟨h.kept.trans (worked_acted acts).kept, h.ready.acted acts, ?_⟩
  have here : id ∈ (id ::ₘ hand) + p.roots := Multiset.mem_add.2 (.inl (Multiset.mem_cons_self id hand))
  have cars : ∀ b r, Dispatched id now p b r → ∀ v ∈ hand + r.roots,
      v ∈ (id ::ₘ hand) + p.roots ∨ r.crew v = 0 := by
    intro b r turn v hv
    rcases Multiset.mem_add.1 hv with hv | hv
    · exact .inl (Multiset.mem_add.2 (.inl (Multiset.mem_cons_of_mem hv)))
    · obtain old | rfl | nobody := cars_dispatched h.ready.orderly turn v hv
      · exact .inl (Multiset.mem_add.2 (.inr old))
      · exact .inl here
      · exact .inr nobody
  rcases acts with gone | ⟨r, again, wakes⟩
  · exact (turn true q gone).1.restrict (fun _ hx => hx) (.inl rfl) (cars true q gone)
  · obtain ⟨heldAgain, retries⟩ := turn false r again
    have kept : Kept LinkView.Alike p r := (worked_dispatched again).kept.mono LinkView.Balanced.alike
    have woken := heldAgain.wake closed (kept.timing.trans setting.timing) wakes fun a ha =>
      closed id _ _ (.retries (retries rfl a ha).2) (retries rfl a ha).1
    refine woken.restrict (fun _ hx => hx) (.inl rfl) fun v hv => ?_
    rw [roots_wake wakes, ← add_assoc, Multiset.mem_add, Multiset.mem_singleton] at hv
    rcases hv with hv | rfl
    · obtain ⟨due, -, rfl⟩ := wake_eq_ok.1 wakes
      exact cars false r again v hv
    · exact .inl here

/-- The first agent of a link has taken its turn. -/
theorem turned {head : Entry} {b : Bool} (h : Amid rule now p₀ 0 p) (view : p.links[link]? = some v)
    (front : v.front? = some head) (due : head.finish ≤ now) (turn : Dispatched head.agent now p b q) :
    q.Held rule ⟨0, some link, 0 + q.roots⟩ ∧ (b = false → ∀ a, q.agents[head.agent]? = some a →
      rule head.agent ⟨q.rank, .acting, a.cursor⟩ ∧ s.Stalls crowd head.agent a.cursor) := by
  have setting := h.setting start
  have clear := clear_of_front h.ready.once view front
  obtain ⟨l, owned, first⟩ := Option.bind_eq_some_iff.1 front
  have entries : head ∈ v.entries := by
    rw [LinkView.entries_eq owned]
    exact List.mem_of_mem_head? first
  have held : p.Held rule ⟨0, some link, 0 + p.roots⟩ :=
    h.held.restrict (fun x hx => hx) (.inl rfl) fun v hv => .inl hv
  obtain ⟨done, again⟩ := held.dispatched closed hs setting clear (fun a ha => by
    refine closed head.agent _ _ (.leads due) (h.held.spots (.queued link head.finish) head.agent a ?_ ha)
    refine ⟨head.fromPart, ?_⟩
    rw [if_neg (by simp), seen_of_view view]
    exact entries) (fun l hl => by
      obtain rfl := Option.some.inj hl
      rw [seen_of_view view]
      exact List.ne_nil_of_mem entries)
    (fun l v finish => room _ _ p head.agent l v finish h.kept h.ready h.held) turn
  refine ⟨done.restrict (fun _ hx => hx) (.inr rfl) fun v hv => ?_, again⟩
  rcases Multiset.mem_add.1 hv with hv | hv
  · exact absurd hv (Multiset.notMem_zero v)
  · obtain old | rfl | nobody := cars_dispatched h.ready.orderly turn v hv
    · exact .inl (Multiset.mem_add.2 (.inr old))
    · exact .inl (Multiset.mem_add.2 (.inr (front_mem_roots view front)))
    · exact .inr nobody

/-- Whoever doesn't get off a link stays at its front. -/
theorem blocked {head : Entry} (h : Amid rule now p₀ 0 p) (view : p.links[link]? = some v)
    (front : v.front? = some head) (due : head.finish ≤ now) (turn : Dispatched head.agent now p false q) :
    Amid rule now p₀ 0 q := by
  obtain ⟨held, again⟩ := h.turned closed hs start room view front due turn
  refine ⟨h.kept.trans (worked_dispatched turn).kept, h.ready.blocked view front turn, ?_⟩
  obtain ⟨w, after, front'⟩ := front_dispatched turn view front
  refine held.lingers rfl (fun x b hb => ⟨b, hb, rfl⟩) (fun site x a spot ha => ?_) held.mail held.horizon
  refine (spot_of_front after front' spot).imp (fun there => there) ?_
  rintro ⟨rfl, rfl⟩
  exact closed head.agent _ _ (.stays due (again rfl a ha).2) (again rfl a ha).1

/-- Whoever gets off a link leaves its front, and whoever waits in front of the link enters it. -/
theorem popped {w w' : LinkView} {head entry : Entry} (h : Amid rule now p₀ 0 p)
    (view : p.links[link]? = some v) (front : v.front? = some head) (due : head.finish ≤ now)
    (turn : Dispatched head.agent now p true q) (after : q.links[link]? = some w)
    (pops : w.pop = .ok (entry, w')) :
    Amid rule now p₀ 0 { q with links := q.links.setIfInBounds link w' } := by
  obtain ⟨held, -⟩ := h.turned closed hs start room view front due turn
  have popped : Kept LinkView.Balanced q { q with links := q.links.setIfInBounds link w' } :=
    Kept.setView after (LinkView.balanced_pop pops)
  refine ⟨h.kept.trans ((worked_dispatched turn).kept.trans popped),
    h.ready.popped view front turn after pops, ?_⟩
  obtain ⟨standing, -⟩ := LinkView.standing_pop pops
  have roots : ∀ v ∈ 0 + Partition.roots { q with links := q.links.setIfInBounds link w' }, v ∈ 0 + q.roots := by
    intro v hv
    rw [zero_add] at hv ⊢
    have total := standing_setView (w := w') after
    rw [standing, add_comm w'.standing, ← add_assoc] at total
    refine (Multiset.mem_add.1 hv).elim (fun there => Multiset.mem_add.2 (.inl there)) fun stands =>
      Multiset.mem_add.2 (.inr ?_)
    rw [← add_right_cancel total]
    exact Multiset.mem_add.2 (.inl stands)
  refine Held.restrict (c := ⟨0, none, 0 + q.roots⟩) ?_ (fun _ hx => hx) (.inl rfl) fun v hv => .inl (roots v hv)
  exact held.lingers rfl (fun x b hb => ⟨b, hb, rfl⟩) (fun site x a spot _ => .inl ((spot_pop after pops).1 spot))
    held.mail held.horizon

/-- Every step of the work of a second leaves everybody where the rule allows. -/
theorem sustains : Sustains (fun _ => True) now (Amid rule now p₀) where
  soonAgents h := h.ready.agents
  soonLinks h := h.ready.links
  called h visit := h.called (fun x _ _ => closed x _ _ .called) (fun _ _ _ _ _ obeys => obeys) visit
  looked h visit := h.looked visit
  acts _ _ _ _ := trivial
  acted h acts := h.acted closed hs start room acts
  leaves _ _ _ _ _ _ _ := trivial
  blocked h view front due turn := h.blocked closed hs start room view front due turn
  popped h view front due turn after pops := h.popped closed hs start room view front due turn after pops
  drains _ _ _ _ _ := trivial
  drained h ends := h.drained closed start ends
  revisited h ends := h.revisit ends

/-- Everybody obeys the rule after the work of a second. -/
theorem work (h : Amid rule now p₀ 0 p) (ends : Ends (Partition.work now) p () q) : Amid rule now p₀ 0 q :=
  (sustains closed hs start room).work h ends

end Work

end Amid

end Partition

end Mobility
