import Mobility.Proofs.Dates
import Mobility.Proofs.Partition.Accounts
import Mobility.Proofs.Partition.Queues

/-!
# The timetable of links

An owned link with agents on it is to be looked at when the first one may leave, and a link without
agents isn't to be looked at. `Partition.Scheduled stop first apart p` says that the agenda of links agrees
with the queues, as long as seconds before `first` count for nothing: while the links of a second are
served, the ones still to come stand apart. Links are put into the agenda in four places: when an agent
enters an empty link, be it from here or from a neighbor, when the first one may not leave yet, and
when it can't get on. Each of them keeps the agenda in agreement with the queues.
-/

set_option autoImplicit false

namespace Mobility

open Act

namespace Link

/-- A traversal takes a second at least. -/
theorem travelTime_pos (l : Link) (requested delay : Nat) : 0 < l.travelTime requested delay :=
  Nat.lt_min.2 ⟨by omega, by decide⟩

end Link

namespace LinkView

variable {v w : LinkView} {id finish : Nat}

/-- There are no more agents on an owned link than there is room for, and nobody waits in front of it
while there is room. -/
structure Packed (v : LinkView) : Prop where
  room : ∀ l, v.link? = some l → l.queue.length ≤ l.capacity
  inbound : ∀ g, v = .gateway g → g.inbound ≠ [] → g.link.isFull = true

theorem Packed.of_foreign (h : v.link? = none) : v.Packed := by
  refine ⟨fun l hl => ?_, fun g hg => ?_⟩
  · rw [h] at hl
    cases hl
  · rw [hg] at h
    cases h

theorem room_append {l : Link} (h : l.isFull = false) (entry : Entry) :
    (l.queue ++ [entry]).length ≤ l.capacity := by
  have : l.queue.length < l.capacity := by simpa [Link.isFull] using h
  rw [List.length_append, List.length_singleton]
  omega

theorem packed_push (h : v.push id finish = .ok (some w)) : w.Packed := by
  rcases push_eq_ok h with ⟨l, m, rfl, rfl, hm⟩ | ⟨g, m, rfl, rfl, empty, hm⟩ | ⟨x, y, rfl, rfl, hy⟩
  · obtain ⟨room, rfl⟩ := Link.push_eq_some hm
    refine ⟨fun l' hl => ?_, by rintro g ⟨⟩⟩
    obtain rfl := Option.some.inj hl
    exact room_append room _
  · obtain ⟨room, rfl⟩ := Link.push_eq_some hm
    refine ⟨fun l' hl => ?_, ?_⟩
    · obtain rfl := Option.some.inj hl
      exact room_append room _
    · rintro _ ⟨⟩ waiting
      exact absurd empty waiting
  · exact .of_foreign rfl

end LinkView

namespace Partition

variable {p q r : Partition} {id link now stop first : Nat} {apart rest : List Nat} {v w : LinkView}

/-! ## Agendas that agree with the queues -/

/-- When a link is to be looked at by its queue, if seconds before `first` count for nothing and those
after `stop` aren't told apart. -/
def headDates (p : Partition) (stop first link : Nat) : List (Option Nat) :=
  ((p.seen link).front?.map fun head => Agenda.slot stop (max head.finish first)).toList

/-- The agenda of links agrees with the queues, except for the links which stand apart: these aren't in
it. -/
structure Scheduled (stop first : Nat) (apart : List Nat) (p : Partition) : Prop where
  horizon : p.dueLinks.stop = stop
  next : p.dueLinks.next = first
  dates : ∀ link, p.dueLinks.dates link = if link ∈ apart then [] else p.headDates stop first link
  packed : ∀ link, (p.seen link).Packed

/-- There are agents on each of these links. -/
def Occupied (links : List Nat) (p : Partition) : Prop := ∀ link ∈ links, (p.seen link).front? ≠ none

theorem seen_of_links (h : q.links = p.links) (link : Nat) : q.seen link = p.seen link := by
  rw [seen, seen, h]

namespace Scheduled

theorem congr (h : p.Scheduled stop first apart) (dueLinks : q.dueLinks = p.dueLinks)
    (front : ∀ link, link ∉ apart → (q.seen link).front? = (p.seen link).front?)
    (packed : ∀ link, (q.seen link).Packed) : q.Scheduled stop first apart := by
  refine ⟨dueLinks ▸ h.horizon, dueLinks ▸ h.next, fun link => ?_, packed⟩
  rw [dueLinks, h.dates]
  split
  · rfl
  · rename_i here
    rw [headDates, headDates, front link here]

theorem offRoad (h : p.Scheduled stop first apart) (off : OffRoad p q) : q.Scheduled stop first apart :=
  h.congr off.dueLinks (fun link _ => by rw [seen_of_links off.links])
    (fun link => by rw [seen_of_links off.links]; exact h.packed link)

/-- A link may change if somebody else becomes the first one only while the link stands apart. -/
theorem setView (h : p.Scheduled stop first apart) (view : p.links[link]? = some v)
    (links : q.links = p.links.setIfInBounds link w) (dueLinks : q.dueLinks = p.dueLinks)
    (front : link ∈ apart ∨ w.front? = v.front?) (packed : w.Packed) : q.Scheduled stop first apart := by
  have seen : ∀ i, q.seen i = if i = link then w else p.seen i := fun i =>
    (seen_of_links (p := { p with links := p.links.setIfInBounds link w }) links i).trans
      (seen_setView view i)
  refine h.congr dueLinks (fun i hi => ?_) (fun i => ?_)
  · rw [seen]
    split
    · rename_i he
      subst he
      rw [seen_of_view view]
      exact front.resolve_left hi
    · rfl
  · rw [seen]
    split
    · exact packed
    · exact h.packed i

/-- A link without agents isn't in the agenda, so it can be said to stand apart. -/
theorem aside (h : p.Scheduled stop first apart) (empty : (p.seen link).front? = none) :
    p.Scheduled stop first (link :: apart) := by
  refine ⟨h.horizon, h.next, fun i => ?_, h.packed⟩
  rw [h.dates]
  by_cases hi : i = link
  · subst hi
    simp [headDates, empty]
  · simp [hi]

/-- A link which stands apart and has no agents needn't stand apart. -/
theorem back (h : p.Scheduled stop first (link :: apart)) (empty : (p.seen link).front? = none) :
    p.Scheduled stop first apart := by
  refine ⟨h.horizon, h.next, fun i => ?_, h.packed⟩
  rw [h.dates]
  by_cases hi : i = link
  · subst hi
    simp [headDates, empty]
  · simp [hi]

/-- A link which stands apart is put into the agenda for when its first agent may leave. -/
theorem place {head : Entry} {time : Nat} (h : p.Scheduled stop first (link :: apart))
    (absent : link ∉ apart) (front : (p.seen link).front? = some head)
    (due : time = max head.finish first) (add : p.dueLinks.add link time = .ok q.dueLinks)
    (links : q.links = p.links) : q.Scheduled stop first apart := by
  obtain ⟨-, next, end_eq, dates⟩ := Agenda.add_eq_ok add
  refine ⟨end_eq.trans h.horizon, next.trans h.next, fun i => ?_, fun i => by rw [seen_of_links links]; exact h.packed i⟩
  have perm := dates i
  have headDates : q.headDates stop first i = p.headDates stop first i := by
    rw [Partition.headDates, Partition.headDates, seen_of_links links]
  rw [headDates]
  rw [h.dates, h.horizon] at perm
  by_cases hi : link = i
  · subst hi
    rw [if_pos rfl, if_pos List.mem_cons_self, List.perm_singleton] at perm
    rw [if_neg absent, perm, Partition.headDates, front, due]
    rfl
  · have same : i ∈ link :: apart ↔ i ∈ apart := by simp [Ne.symm hi]
    rw [if_neg hi] at perm
    simp only [same] at perm
    split at perm
    · rename_i here
      rw [if_pos here, List.perm_nil.1 perm]
    · rename_i here
      rw [if_neg here]
      unfold Partition.headDates at perm ⊢
      cases hf : (p.seen i).front? with
      | none =>
        rw [hf] at perm
        exact List.perm_nil.1 perm
      | some head =>
        rw [hf] at perm
        exact List.perm_singleton.1 perm

/-- Somebody enters a link on which nobody was: the link is put into the agenda for when the agent may
leave. -/
theorem enter {l m : Link} {finish : Nat} {entry : Entry} (h : p.Scheduled stop first apart)
    (soon : first ≤ now + 1) (absent : link ∉ apart ∨ l.queue ≠ []) (view : p.links[link]? = some v)
    (owned : v.link? = some l) (after : w.link? = some m) (queue : m.queue = l.queue ++ [entry])
    (packed : w.Packed) (finish_eq : entry.finish = finish) (later : now + 1 ≤ finish)
    (links : q.links = p.links.setIfInBounds link w)
    (dueLinks : if l.queue = [] then p.dueLinks.add link (max finish (now + 1)) = .ok q.dueLinks
      else q.dueLinks = p.dueLinks) : q.Scheduled stop first apart := by
  split at dueLinks
  · rename_i empty
    have absent : link ∉ apart := absent.resolve_right fun he => he empty
    have nobody : (p.seen link).front? = none := by
      rw [seen_of_view view, LinkView.front_eq owned, empty]
      rfl
    have entered : Scheduled stop first (link :: apart) { q with dueLinks := p.dueLinks } :=
      (h.aside nobody).setView view links rfl (.inl List.mem_cons_self) packed
    have seen : q.seen link = w :=
      seen_of_view (by
        rw [links, Array.getElem?_setIfInBounds_self_of_lt (Array.getElem?_eq_some_iff.1 view).1])
    have front : (q.seen link).front? = some entry := by
      rw [seen, LinkView.front_eq after, queue, empty]
      rfl
    have due : max finish (now + 1) = max entry.finish first := by
      rw [finish_eq]
      omega
    exact entered.place absent front due dueLinks rfl
  · rename_i occupied
    refine h.setView view links dueLinks (.inr ?_) packed
    rw [LinkView.front_eq owned, LinkView.front_eq after, queue]
    cases hq : l.queue with
    | nil => exact absurd hq occupied
    | cons head rest => rfl

end Scheduled

/-! ## The work of a second -/

theorem Scheduled.moved (h : p.Scheduled stop first apart) (soon : first ≤ now + 1)
    (last : now < Clock.last) (occupied : p.Occupied apart) (m : Moved id now p q) :
    q.Scheduled stop first apart := by
  cases m with
  | nowhere stays => exact h.offRoad stays
  | outbound view pushed links dueLinks =>
    exact h.setView view links dueLinks (.inr rfl) (.of_foreign rfl)
  | @entered link velocity finish v w l view owned time pushed links dueLinks =>
    have absent : link ∉ apart ∨ l.queue ≠ [] := by
      by_cases hl : link ∈ apart
      · refine .inr fun empty => occupied link hl ?_
        rw [seen_of_view view, LinkView.front_eq owned, empty]
        rfl
      · exact .inl hl
    exact h.enter soon absent view owned (LinkView.link_push pushed owned).2 rfl
      (LinkView.packed_push pushed) rfl
      (time ▸ Clock.lt_after last (Link.travelTime_pos ..)) links dueLinks

theorem Occupied.dispatched {links : List Nat} {b : Bool} (h : p.Occupied links)
    (turn : Dispatched id now p b q) : q.Occupied links := by
  intro link hl
  cases hf : (p.seen link).front? with
  | none => exact absurd hf (h link hl)
  | some head =>
    have view : p.links[link]? = some (p.seen link) :=
      view_of_seen rfl fun e => by rw [e] at hf; cases hf
    obtain ⟨w, hw, front⟩ := front_dispatched turn view hf
    rw [seen_of_view hw, front]
    simp

theorem Scheduled.acted (h : p.Scheduled stop first []) (soon : first ≤ now + 1)
    (last : now < Clock.last) (acts : Acted id now p q) : q.Scheduled stop first [] := by
  rcases acts with turn | ⟨r, turn, wakes⟩
  · exact h.moved soon last (by simp [Occupied]) turn.moved
  · exact (h.moved soon last (by simp [Occupied]) turn.moved).offRoad (offRoad_wake wakes)

/-- Whoever is let in from the row in front of a gateway goes to the end of the queue, until the link is
full or nobody waits any more. -/
theorem admitted_packed {g k : Gateway} {waiting : List (Nat × Nat)}
    (h : Admitted now g waiting p k q) (room : g.link.queue.length ≤ g.link.capacity) :
    OffRoad p q ∧ (LinkView.gateway k).Packed := by
  induction h with
  | nobody =>
    refine ⟨Std.Refl.refl _, fun l hl => ?_, ?_⟩
    · obtain rfl := Option.some.inj hl
      exact room
    · rintro _ ⟨⟩ waiting
      exact absurd rfl waiting
  | full full =>
    refine ⟨Std.Refl.refl _, fun l hl => ?_, ?_⟩
    · obtain rfl := Option.some.inj hl
      exact room
    · rintro _ ⟨⟩ -
      exact full
  | entered free enters _ ih =>
    obtain ⟨off, packed⟩ := ih (LinkView.room_append free _)
    exact ⟨⟨off.links, off.dueLinks⟩, packed⟩

/-- Taking the first agent from a link and filling the link up changes the link only. -/
theorem Scheduled.refilled {popped : Entry} {s : Partition} (h : r.Scheduled stop first (link :: apart))
    (view : r.links[link]? = some v) (pops : v.pop = .ok (popped, w))
    (drained : Ends (drainInbound link now)
      { r with links := r.links.setIfInBounds link w } () s) :
    s.Scheduled stop first (link :: apart) ∧ ∀ i, i ≠ link → s.seen i = r.seen i := by
  have lt := (Array.getElem?_eq_some_iff.1 view).1
  have before := h.packed link
  rw [seen_of_view view] at before
  obtain ⟨u, hu, drain⟩ := drainInbound_ends drained
  rw [Array.getElem?_setIfInBounds_self_of_lt lt] at hu
  obtain rfl := Option.some.inj hu
  -- Whatever the link has become, it isn't looked at before it is put into the agenda again.
  have changed : ∀ {w' : LinkView}, w'.Packed → s.dueLinks = r.dueLinks →
      s.links = r.links.setIfInBounds link w' →
      s.Scheduled stop first (link :: apart) ∧ ∀ i, i ≠ link → s.seen i = r.seen i := by
    intro w' packed dueLinks links
    refine ⟨h.setView view links dueLinks (.inl List.mem_cons_self) packed, fun i hi => ?_⟩
    rw [seen, seen, links, Array.getElem?_setIfInBounds_ne (Ne.symm hi)]
  rcases LinkView.pop_eq_ok pops with ⟨l, m, rfl, rfl, hm⟩ | ⟨g, k, rfl, rfl, hk⟩
  · obtain ⟨queue, hm⟩ := Link.pop_eq_ok hm
    obtain ⟨g', k', t, hg, -⟩ | ⟨-, rfl⟩ := drain
    · cases hg
    refine changed ⟨fun l' hl => ?_, by rintro _ ⟨⟩⟩ rfl rfl
    obtain rfl := Option.some.inj hl
    have room := before.room l rfl
    rw [queue, List.length_cons] at room
    rw [hm]
    show m.queue.length ≤ l.capacity
    omega
  · obtain ⟨queue, hk⟩ := Gateway.pop_eq_ok hk
    obtain ⟨g', k', t, hg, admitted, rfl⟩ | ⟨kind, -⟩ := drain
    · cases hg
      have room := before.room g.link rfl
      rw [queue, List.length_cons] at room
      have capacity : k.link.capacity = g.link.capacity := by rw [hk]
      obtain ⟨off, packed⟩ := admitted_packed admitted (by omega)
      refine changed packed off.dueLinks ?_
      show t.links.setIfInBounds link _ = _
      rw [off.links, Array.setIfInBounds_setIfInBounds]
    · exact absurd rfl (kind k)

theorem Scheduled.served (h : p.Scheduled stop (now + 1) (link :: rest)) (absent : link ∉ rest)
    (last : now < Clock.last) (occupied : p.Occupied rest) (served : Served link now p q) :
    q.Scheduled stop (now + 1) rest ∧ q.Occupied rest := by
  induction served with
  | empty view front => exact ⟨h.back (by rw [seen_of_view view, front]), occupied⟩
  | @later p q v head view front scheduled =>
    obtain ⟨due, add, rfl⟩ := revisit_eq_ok.1 scheduled
    -- What can be put into the agenda isn't past.
    have time : now + 1 ≤ head.finish := h.next ▸ (Agenda.add_eq_ok add).1
    exact ⟨h.place absent (by rw [seen_of_view view, front]) (Nat.max_eq_left time).symm add rfl,
      occupied⟩
  | @blocked p r q v head view front due turn scheduled =>
    have here : p.Occupied (link :: rest) := by
      rintro i (_ | ⟨_, hi⟩)
      · rw [seen_of_view view, front]
        simp
      · exact occupied i hi
    obtain ⟨w, after, front⟩ := front_dispatched turn view front
    have moved := h.moved (Nat.le_refl _) last here turn.moved
    have occupied := occupied.dispatched turn
    obtain ⟨due', add, rfl⟩ := revisit_eq_ok.1 scheduled
    exact ⟨moved.place absent (by rw [seen_of_view after, front]) (by omega) add rfl, occupied⟩
  | @left p r s q v w w' head popped view front due turn after pops drained _ ih =>
    have here : p.Occupied (link :: rest) := by
      rintro i (_ | ⟨_, hi⟩)
      · rw [seen_of_view view, front]
        simp
      · exact occupied i hi
    obtain ⟨refilled, others⟩ :=
      (h.moved (Nat.le_refl _) last here turn.moved).refilled after pops drained
    refine ih refilled fun i hi => ?_
    rw [others i fun e => absent (e ▸ hi)]
    exact occupied.dispatched turn i hi

theorem Scheduled.visited (h : p.Scheduled stop (now + 1) (link :: rest)) (absent : link ∉ rest)
    (last : now < Clock.last) (occupied : p.Occupied (link :: rest)) (visited : Visited link now p q) :
    q.Scheduled stop (now + 1) rest ∧ q.Occupied rest := by
  obtain ⟨v, view, foreign, -⟩ | served := visited
  · refine absurd ?_ (occupied link List.mem_cons_self)
    rw [seen_of_view view, LinkView.front?, foreign]
    rfl
  · exact h.served absent last (fun i hi => occupied i (List.mem_cons_of_mem _ hi)) served

theorem Scheduled.visitedAll {links : List Nat} (h : p.Scheduled stop (now + 1) links)
    (nodup : links.Nodup) (last : now < Clock.last) (occupied : p.Occupied links)
    (visits : Along (fun link => Visited link now) links p q) : q.Scheduled stop (now + 1) [] := by
  induction visits with
  | nil => exact h
  | cons visited _ ih =>
    obtain ⟨absent, nodup⟩ := List.nodup_cons.1 nodup
    obtain ⟨h, occupied⟩ := h.visited absent last occupied visited
    exact ih h nodup occupied

/-- A link which isn't due now is due later when it would be. -/
theorem headDates_succ {i : Nat} (later : some now ∉ p.headDates stop now i) :
    p.headDates stop (now + 1) i = p.headDates stop now i := by
  show ((p.seen i).front?.map _).toList = ((p.seen i).front?.map _).toList
  unfold headDates at later
  cases hf : (p.seen i).front? with
  | none => rfl
  | some head =>
    rw [hf] at later
    simp only [Option.map_some, Option.toList_some, List.mem_singleton, List.cons.injEq,
      and_true, Agenda.slot] at later ⊢
    split at later
    · have : max head.finish now ≠ now := fun e => later (by rw [e])
      rw [show max head.finish (now + 1) = max head.finish now by omega]
    · rename_i past
      rw [if_neg past, if_neg (by omega)]

/-- A visit finds a link not at all, and leaves the date of its first agent, or it finds the link once, and
leaves nothing: a link has one date at most. -/
theorem Scheduled.each {links : List Nat} {due : Agenda Nat} (h : p.Scheduled stop now [])
    (visit : p.dueLinks.visit now = .ok (links, due)) (i : Nat) :
    (i ∉ links ∧ due.dates i = p.headDates stop now i ∧ some now ∉ p.headDates stop now i) ∨
      (links.count i = 1 ∧ due.dates i = [] ∧ (p.seen i).front? ≠ none) := by
  obtain ⟨perm, later⟩ := (Agenda.visit_eq_ok visit).2.2.2.2 i
  have listed := h.dates i
  rw [if_neg (List.not_mem_nil)] at listed
  rw [listed] at perm
  by_cases hi : i ∈ links
  · refine .inr ?_
    have some_visit := List.count_pos_iff.2 hi
    have length := perm.length_eq
    rw [List.length_append, List.length_replicate] at length
    cases hf : (p.seen i).front? with
    | none =>
      rw [headDates, hf] at length
      have : 0 = links.count i + (due.dates i).length := length
      omega
    | some head =>
      rw [headDates, hf] at length
      have length : 1 = links.count i + (due.dates i).length := length
      exact ⟨by omega, List.length_eq_zero_iff.1 (by omega), by simp⟩
  · rw [List.count_eq_zero_of_not_mem hi] at perm
    refine .inl ⟨hi, ?_, fun hm => later (perm.subset hm)⟩
    unfold headDates at perm ⊢
    cases hf : (p.seen i).front? with
    | none =>
      rw [hf] at perm
      exact List.perm_nil.1 perm.symm
    | some head =>
      rw [hf] at perm
      exact List.perm_singleton.1 perm.symm

/-- The links which are due are the ones whose first agent may leave, each of them once. -/
theorem Scheduled.visit {links : List Nat} {due : Agenda Nat} (h : p.Scheduled stop now [])
    (visit : p.dueLinks.visit now = .ok (links, due)) :
    links.Nodup ∧ p.Occupied links ∧ Scheduled stop (now + 1) links { p with dueLinks := due } := by
  obtain ⟨-, -, next, end_eq, -⟩ := Agenda.visit_eq_ok visit
  refine ⟨List.nodup_iff_count_le_one.2 fun i => ?_, fun i hi => ?_,
    end_eq.trans h.horizon, next, fun i => ?_, h.packed⟩
  · rcases h.each visit i with ⟨hi, -⟩ | ⟨once, -⟩
    · rw [List.count_eq_zero_of_not_mem hi]
      exact Nat.zero_le 1
    · exact Nat.le_of_eq once
  · rcases h.each visit i with ⟨absent, -⟩ | ⟨-, -, front⟩
    · exact absurd hi absent
    · exact front
  · show due.dates i = if i ∈ links then [] else p.headDates stop (now + 1) i
    rcases h.each visit i with ⟨absent, same, later⟩ | ⟨once, none, -⟩
    · rw [if_neg absent, same, headDates_succ later]
    · have here : i ∈ links := List.count_pos_iff.1 (by omega)
      rw [if_pos here, none]

/-- After the work of a second, no link is to be looked at in that second. -/
theorem Scheduled.work (h : p.Scheduled stop now []) (work : Ends (work now) p () q) :
    q.Scheduled stop (now + 1) [] := by
  obtain ⟨ids, dueAgents, links, dueLinks, r, agentsDue, agents, linksDue, visits⟩ := work_ends work
  have last : now < Clock.last := (Agenda.visit_eq_ok linksDue).2.1
  have acted : r.Scheduled stop now [] :=
    agents.keeps (P := Scheduled stop now [])
      (fun id _ p q acts h => h.acted (Nat.le_succ now) last acts) (h.offRoad ⟨rfl, rfl⟩)
  obtain ⟨nodup, occupied, scheduled⟩ := acted.visit linksDue
  exact scheduled.visitedAll nodup last occupied visits

/-! ## The exchange of a second -/

theorem Scheduled.mailed {messages : Table Transfer} (h : p.Scheduled stop first [])
    (mailed : Mailed now messages p q) : q.Scheduled stop first [] := by
  cases mailed with
  | @intro r s emptied reported complete =>
    have hr : r.Scheduled stop first [] := emptied.keeps (P := Scheduled stop first []) (fun link _ p q he h => by
      cases he with
      | @proxy q x view sends =>
        have emptied : Scheduled stop first []
            { p with links := p.links.setIfInBounds link (.proxy { x with outbox := [] }) } :=
          h.setView view rfl rfl (.inr rfl) (.of_foreign rfl)
        exact emptied.offRoad (sends.relates fun _ _ _ _ hs => offRoad_send hs)
      | other => exact h) h
    have hs : s.Scheduled stop first [] := reported.keeps (P := Scheduled stop first []) (fun link _ p q he h => by
      cases he with
      | @gateway g view =>
        have packed := h.packed link
        rw [seen_of_view view] at packed
        refine h.setView view rfl rfl (.inr rfl) ⟨packed.room, ?_⟩
        rintro _ ⟨⟩
        exact packed.inbound g rfl
      | other => exact h) hr
    exact hs.offRoad ⟨rfl, rfl⟩

theorem Scheduled.welcomed {part : Nat} (h : p.Scheduled stop (now + 1) []) (last : now < Clock.last)
    (welcomed : Welcomed id link part now p q) : q.Scheduled stop (now + 1) [] := by
  cases welcomed with
  | @waits g view known closed =>
    have packed := h.packed link
    rw [seen_of_view view] at packed
    refine h.setView view rfl rfl (.inr rfl) ⟨packed.room, ?_⟩
    rintro _ ⟨⟩ -
    exact closed.elim (packed.inbound g rfl) fun full => full
  | @enters g a finish q view known empty room enters scheduled =>
    obtain ⟨event, ref, velocity, -, time⟩ := enters.time
    have packed : (LinkView.gateway (g.append id part finish)).Packed := by
      refine ⟨fun l hl => ?_, ?_⟩
      · obtain rfl := Option.some.inj hl
        exact LinkView.room_append room _
      · rintro _ ⟨⟩ waiting
        exact absurd empty waiting
    have later : now + 1 ≤ finish := time ▸ Clock.lt_after last (Link.travelTime_pos ..)
    have entered : ∀ {q : Partition},
        q.links = p.links.setIfInBounds link (.gateway (g.append id part finish)) →
        (if g.link.queue = [] then p.dueLinks.add link (max finish (now + 1)) = .ok q.dueLinks
          else q.dueLinks = p.dueLinks) → q.Scheduled stop (now + 1) [] := fun links dueLinks =>
      h.enter (Nat.le_refl _) (.inl List.not_mem_nil) view rfl
        (w := .gateway (g.append id part finish)) rfl rfl packed rfl later links dueLinks
    split at scheduled
    · rename_i nobody
      obtain ⟨due, add, rfl⟩ := revisit_eq_ok.1 scheduled
      exact entered rfl (by rw [if_pos nobody]; exact add)
    · rename_i others
      subst scheduled
      exact entered rfl (by rw [if_neg others])

theorem offRoad_boarded {record : AgentRecord} (h : Boarded record p q) : OffRoad p q := by
  cases h with
  | nobody => exact Std.Refl.refl p
  | @seated passengers s a seats listed updated found seated =>
    have off : OffRoad p s := updated.relates fun x _ p q hx => by
      obtain ⟨a, -, -, rfl⟩ := hx
      exact ⟨rfl, rfl⟩
    exact off.trans ⟨rfl, rfl⟩

theorem Scheduled.takenIn {record : AgentRecord} {link : Option Nat} {part : Nat}
    (h : p.Scheduled stop (now + 1) []) (last : now < Clock.last)
    (taken : TakenIn record link part now p q) : q.Scheduled stop (now + 1) [] := by
  obtain ⟨s, a, boards, found, cursor, placed⟩ := taken
  have updated : Scheduled stop (now + 1) []
      { s with agents := s.agents.setIfInBounds record.id { a with cursor := record.cursor } } :=
    h.offRoad ((offRoad_boarded boards).trans ⟨rfl, rfl⟩)
  cases link with
  | none => exact updated.offRoad (offRoad_wake placed)
  | some link => exact updated.welcomed last placed

theorem Scheduled.arrive {delivery : Delivery} {buffers : Buffers} (h : p.Scheduled stop (now + 1) [])
    (last : now < Clock.last) (arrive : Ends (arrive now delivery) p buffers q) :
    q.Scheduled stop (now + 1) [] := by
  obtain ⟨transfers, r, -, absorbed, rfl⟩ := arrive_ends arrive
  have hr : r.Scheduled stop (now + 1) [] := absorbed.keeps (P := Scheduled stop (now + 1) [])
    (fun t _ _ _ groups h => groups.keeps (P := Scheduled stop (now + 1) [])
      (fun group _ _ _ records h => records.keeps (P := Scheduled stop (now + 1) [])
        (fun record _ _ _ ⟨taken⟩ h => h.takenIn last taken) h) h) h
  exact hr.offRoad ⟨rfl, rfl⟩

theorem Scheduled.settle {delivery : Delivery} (h : p.Scheduled stop first [])
    (settle : Ends (receiveReleases now delivery) p () q) : q.Scheduled stop first [] := by
  obtain ⟨releases, -, credited⟩ := receiveReleases_eq_ok.1 settle
  exact credited.keeps (P := Scheduled stop first []) (fun release _ _ _ rows h =>
    rows.keeps (P := Scheduled stop first []) (fun row _ _ _ applied h => by
      obtain ⟨x, y, view, -, -, rfl⟩ := applyCount_eq_ok.1 applied
      exact h.setView view rfl rfl (.inr rfl) (.of_foreign rfl)) h) h

end Partition

end Mobility
