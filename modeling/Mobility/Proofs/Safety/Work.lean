import Mobility.Proofs.Safety.Sustained

/-!
# The work of a second is safe

What a turn needs (`Partition.Ready`) is sustained in the work of a second, in which agents leave links and others
enter them from elsewhere (`Partition.Ready.sustains`). So the work of a second only fails because of plans
(`Partition.Ready.safe_work`).
-/

set_option autoImplicit false

namespace Mobility

open Act

namespace Partition

variable {F : Failure → Prop} {p q r : Partition} {id link now : Nat}

/-! ## Entering gateways -/

/-- Whoever has consumed a traversal has requested a velocity. -/
theorem ends_requestedVelocity (h : p.Traversed id) :
    ∃ velocity, Ends (requestedVelocity id) p velocity p := by
  obtain ⟨a, found, traversed⟩ := h
  obtain ⟨event, ref, velocity, previous⟩ := traversed.previous
  refine ⟨velocity, ?_⟩
  unfold requestedVelocity
  simp only [bind_eq_ok, agent_eq_ok, attempt_eq_ok]
  exact ⟨a, p, ⟨found, rfl⟩, _, p, ⟨previous, rfl⟩, pure_eq_ok.2 ⟨rfl, rfl⟩⟩

theorem fails_letIn {g : Gateway} {part : Nat} {velocity : Velocity} (h : p.Traversed id) :
    Fails F (letIn g id part now velocity) p := by
  obtain ⟨a, found, -⟩ := h
  exact .after (ends_get p) (.after (ends_agent found) (.after (ends_setAgent p id _) (.pure _)))

/-- Whoever waits in front of a gateway has consumed a traversal, so it can be let in. -/
theorem fails_admitWaiting {g : Gateway} {waiting : List (Nat × Nat)}
    (traversed : ∀ row ∈ waiting, p.Traversed row.1) : Fails F (admitWaiting g now waiting) p := by
  induction waiting generalizing g p with
  | nil => exact .pure _
  | cons first rest ih =>
    obtain ⟨id, part⟩ := first
    unfold admitWaiting
    split
    · exact .pure _
    · have first : p.Traversed id := traversed (id, part) List.mem_cons_self
      obtain ⟨velocity, requested⟩ := ends_requestedVelocity first
      refine .after requested (.bind (fails_letIn first) fun k r ends => ?_)
      obtain ⟨b, finish, found, -, -, rfl⟩ := letIn_ends ends
      have onLink : Lingers p _ := .setAgent (b := b.onLink now finish) found rfl rfl
      exact ih fun row hrow => onLink.traversed (traversed row (List.mem_cons_of_mem _ hrow))

theorem fails_drainInbound {v : LinkView} (view : p.links[link]? = some v)
    (traversed : ∀ g, v = .gateway g → ∀ row ∈ g.inbound, p.Traversed row.1) :
    Fails F (drainInbound link now) p := by
  refine .after (ends_view view) ?_
  split
  · rename_i g
    exact .bind (fails_admitWaiting (traversed g rfl)) fun _ _ _ => .modify _
  · exact .pure ()

namespace Ready

theorem revisit {time : Nat} (h : Ready now 0 p) (ends : Ends (revisit link time) p () q) :
    Ready now 0 q := by
  have kept : Kept LinkView.Alike p q := kept_revisit ends
  have still := still_revisit ends
  exact h.after (h.able.revisit ends) kept (still.census 0) (still.orderly kept h.orderly)
    (paced_revisit ends)

/-- The first agent of a link which doesn't get on leaves behind what the next turn needs. -/
theorem blocked {v : LinkView} {head : Entry} (h : Ready now 0 p) (view : p.links[link]? = some v)
    (front : v.front? = some head) (turn : Dispatched head.agent now p false q) : Ready now 0 q := by
  have free : Free 0 head.agent p := free_of_nodup h.once (here_of_front view front)
  have present : head.agent ∈ 0 + p.roots := (zero_add p.roots).symm ▸ front_mem_roots view front
  obtain ⟨census, orderly⟩ := census_dispatched h.orderly turn (count_roots_of_nodup h.once present)
  have kept := (worked_dispatched turn).kept.mono LinkView.Balanced.alike
  exact h.after (h.able.dispatched h.orderly h.once free present turn) kept census orderly
    (paced_dispatched turn)

/-- So does the one which gets on. -/
theorem popped {v w w' : LinkView} {head entry : Entry} (h : Ready now 0 p) (view : p.links[link]? = some v)
    (front : v.front? = some head) (turn : Dispatched head.agent now p true q)
    (after : q.links[link]? = some w) (pops : w.pop = .ok (entry, w')) :
    Ready now 0 { q with links := q.links.setIfInBounds link w' } := by
  have free : Free 0 head.agent p := free_of_nodup h.once (here_of_front view front)
  have present : head.agent ∈ 0 + p.roots := (zero_add p.roots).symm ▸ front_mem_roots view front
  obtain ⟨census, orderly⟩ := census_popped h.orderly view front turn after pops
  have able := h.able.dispatched h.orderly h.once free present turn
  have kept := (worked_dispatched turn).kept.mono LinkView.Balanced.alike
  have popped : Kept LinkView.Alike q { q with links := q.links.setIfInBounds link w' } :=
    Kept.setView after (LinkView.balanced_pop pops).alike
  have paced := paced_dispatched turn
  exact h.after (able.popped after pops) (kept.trans popped) census orderly ⟨paced.agents, paced.links⟩

theorem drained (h : Ready now 0 p) (ends : Ends (drainInbound link now) p () q) : Ready now 0 q := by
  obtain ⟨census, orderly⟩ := census_drained h.orderly ends
  have worked : Worked now p q := worked_drained ends
  exact h.after (h.able.drained ends) (worked.kept.mono LinkView.Balanced.alike) census orderly
    (paced_drained ends)

/-! ## Safe work -/

theorem safe_drainInbound {v : LinkView} (h : Ready now 0 p) (view : p.links[link]? = some v) :
    Safe (drainInbound link now) p := by
  refine fails_drainInbound view ?_
  rintro g rfl row hrow
  refine h.able.heading row.1 ?_
  have heads := heading_setView (w := .remote 0 0) view
  rw [show (LinkView.remote 0 0).heading = 0 from rfl, add_zero] at heads
  rw [← heads]
  exact Multiset.mem_add.2 (.inr (Multiset.mem_coe.2 (List.mem_map_of_mem hrow)))

/-- The agents which are due leave behind what the links need. -/
theorem visitAgents {ids : List Nat} {due : Agenda Nat} (h : Ready now 0 p)
    (visit : p.dueAgents.visit now = .ok (ids, due)) : Ready now ids { p with dueAgents := due } := by
  obtain ⟨census, orderly⟩ := census_visit h.orderly visit
  obtain ⟨-, -, next, -⟩ := Agenda.visit_eq_ok visit
  have kept : Kept LinkView.Alike p { p with dueAgents := due } := Kept.aside ..
  have acting : ∀ v ∈ (ids : Multiset Nat) + roots { p with dueAgents := due }, v ∈ 0 + p.roots := by
    intro v hv
    rw [zero_add, ← roots_visit visit]
    exact hv
  refine ⟨h.able.lingers kept (.of_agents rfl) acting (fun _ => rfl) rfl (fun _ h => h) h.able.genuine h.able.queued,
    orderly, census ▸ h.once, fun x hx => h.known x (census ▸ hx), next.le, h.links⟩

theorem visitLinks {ids : List Nat} {due : Agenda Nat} (h : Ready now 0 p)
    (visit : p.dueLinks.visit now = .ok (ids, due)) : Ready now 0 { p with dueLinks := due } := by
  obtain ⟨-, -, next, -⟩ := Agenda.visit_eq_ok visit
  have kept : Kept LinkView.Alike p { p with dueLinks := due } := Kept.aside ..
  exact ⟨h.able.lingers kept (.of_agents rfl) (fun _ h => h) (fun _ => rfl) rfl (fun _ h => h) h.able.genuine h.able.queued,
    (still_dueLinks p due).orderly kept h.orderly, h.once, h.known, h.agents, next.le⟩

/-- What a turn needs is there before every turn. -/
theorem sustains (last : now < Clock.last) :
    Sustains (fun f => f.isDocumented = true ∨ f.isDiscord = true) now (Ready now) where
  soonAgents h := h.agents
  soonLinks h := h.links
  called h visit := h.visitAgents visit
  looked h visit := h.visitLinks visit
  acts {id hand p} h := by
    have free : Free (id ::ₘ hand) id p := free_of_nodup h.once (here_of_hand p id hand)
    exact h.safe_dispatch last (Multiset.mem_add.2 (.inl (Multiset.mem_cons_self id hand))) free
  acted h acts := h.acted acts
  leaves {link v head p} h view front _ := by
    have free : Free 0 head.agent p := free_of_nodup h.once (here_of_front view front)
    exact h.safe_dispatch last (Multiset.mem_add.2 (.inr (front_mem_roots view front))) free
  blocked h view front _ turn := h.blocked view front turn
  popped h view front _ turn after pops := h.popped view front turn after pops
  drains h view := h.safe_drainInbound view
  drained h ends := h.drained ends
  revisited h ends := h.revisit ends

/-- The work of a second only fails because of plans. -/
theorem safe_work {stop : Nat} (h : Ready now 0 p) (last : now < Clock.last) (soon : p.dueAgents.next = now)
    (scheduled : p.Scheduled stop now []) : Safe (work now) p :=
  (sustains last).fails_work h last soon scheduled

/-- The work of a second leaves behind what the exchange needs. -/
theorem work (h : Ready now 0 p) (ends : Ends (Partition.work now) p () q) :
    Ready now 0 q ∧ q.dueAgents.next = now + 1 := by
  obtain ⟨ids, due, -, -, -, visit, -⟩ := work_ends ends
  have last := (Agenda.visit_eq_ok visit).2.1
  exact ⟨(sustains last).work h ends, next_work ends⟩

end Ready

end Partition

end Mobility
