import Mobility.Proofs.Partition.Exchanges

/-!
# Queues on links

Most of what a partition does happens off its links (`Partition.OffRoad`). A turn changes the links
in one way only: it puts the agent behind the others on one of them, and a link on which the agent is
alone is scheduled (`Partition.Moved`). So whoever stands first on a link stays there until it is
taken from the link.
-/

set_option autoImplicit false

namespace Mobility

open Act

namespace LinkView

variable {v w : LinkView} {id finish : Nat}

/-- Whoever enters a link goes behind the first one. -/
theorem front_push {head : Entry} (h : v.push id finish = .ok (some w))
    (hf : v.front? = some head) : w.front? = some head := by
  rcases push_eq_ok h with ⟨l, m, rfl, rfl, hm⟩ | ⟨g, m, rfl, rfl, -, hm⟩ | ⟨x, y, rfl, rfl, hy⟩
  · obtain ⟨-, rfl⟩ := Link.push_eq_some hm
    simp only [front?, link?, Option.bind_some] at hf ⊢
    rw [List.head?_append, hf]
    rfl
  · obtain ⟨-, rfl⟩ := Link.push_eq_some hm
    simp only [front?, link?, Option.bind_some] at hf ⊢
    rw [List.head?_append, hf]
    rfl
  · cases hf

/-- Whoever enters an owned link goes to the end of the queue. -/
theorem link_push {l : Link} (h : v.push id finish = .ok (some w)) (hl : v.link? = some l) :
    l.isFull = false ∧ w.link? = some { l with queue := l.queue ++ [⟨id, finish, none⟩] } := by
  rcases push_eq_ok h with ⟨l', m, rfl, rfl, hm⟩ | ⟨g, m, rfl, rfl, -, hm⟩ | ⟨x, y, rfl, rfl, hy⟩
  · obtain rfl := Option.some.inj hl
    obtain ⟨room, rfl⟩ := Link.push_eq_some hm
    exact ⟨room, rfl⟩
  · obtain rfl := Option.some.inj hl
    obtain ⟨room, rfl⟩ := Link.push_eq_some hm
    exact ⟨room, rfl⟩
  · cases hl

theorem front_eq {l : Link} (h : v.link? = some l) : v.front? = l.queue.head? := by
  rw [front?, h, Option.bind_some]

/-- There is no room on the link for agents of this partition: it is full, others wait in front of it, or the
neighbor who owns it may have no room. -/
def Closed : LinkView → Prop
  | owned link => link.capacity ≤ link.queue.length
  | gateway gate => gate.inbound ≠ [] ∨ gate.link.capacity ≤ gate.link.queue.length
  | proxy x => x.capacity ≤ x.occupancy
  | remote .. => False

theorem link_push_eq_none {l : Link} {entry : Entry} : l.push entry = none ↔ l.capacity ≤ l.queue.length := by
  simp [Link.push, Link.isFull]

/-- Whoever wants to enter is refused by closed links only. -/
theorem push_eq_none_iff : v.push id finish = .ok none ↔ v.Closed := by
  cases v with
  | owned l => simp only [push, Except.ok.injEq, Option.map_eq_none_iff, link_push_eq_none, Closed]
  | gateway g =>
    rw [push, Except.ok.injEq, Closed]
    split
    · rename_i nobody
      rw [Option.map_eq_none_iff, link_push_eq_none]
      exact (or_iff_right fun waiting => waiting (List.isEmpty_iff.1 nobody)).symm
    · rename_i waiting
      exact iff_of_true rfl (.inl fun nobody => waiting (List.isEmpty_iff.2 nobody))
  | proxy x => simp [push, Proxy.push, Closed]
  | remote i owner => simp [push, Closed]

end LinkView

/-- The last of the first `cursor` instructions is a traversal. -/
def Plan.Traversed (plan : Plan) (cursor : Nat) : Prop :=
  ∃ k event link velocity, cursor = k + 1 ∧ plan.get? k = .ok (some ⟨event, .traverse link velocity⟩)

theorem Plan.Traversed.previous {a : Agent} (h : a.plan.Traversed a.cursor) :
    ∃ event link velocity, a.previous = .ok (some ⟨event, .traverse link velocity⟩) := by
  obtain ⟨k, event, link, velocity, cursor, found⟩ := h
  refine ⟨event, link, velocity, ?_⟩
  rw [Agent.previous, cursor, if_neg (Nat.succ_ne_zero k)]
  exact found

namespace Partition

variable {p q r : Partition} {id now : Nat}

/-- The agent has consumed a traversal last. -/
def Traversed (p : Partition) (id : Nat) : Prop :=
  ∃ a, p.agents[id]? = some a ∧ a.plan.Traversed a.cursor

/-! ## Off the links -/

/-- Nothing has happened to the links. -/
structure OffRoad (p q : Partition) : Prop where
  links : q.links = p.links
  dueLinks : q.dueLinks = p.dueLinks

instance : Std.Refl OffRoad := ⟨fun _ => ⟨rfl, rfl⟩⟩

instance : IsTrans Partition OffRoad :=
  ⟨fun _ _ _ h k => ⟨k.links.trans h.links, k.dueLinks.trans h.dueLinks⟩⟩

theorem OffRoad.trans (h : OffRoad p q) (k : OffRoad q r) : OffRoad p r := IsTrans.trans _ _ _ h k

theorem offRoad_consume {how : Consumption} (h : Ends (consume id how now) p () q) : OffRoad p q := by
  obtain ⟨a, i, -, -, rfl⟩ := consume_ends h
  exact ⟨rfl, rfl⟩

theorem offRoad_wake {time : Nat} (h : Ends (wake id time) p () q) : OffRoad p q := by
  obtain ⟨due, -, rfl⟩ := wake_eq_ok.1 h
  exact ⟨rfl, rfl⟩

theorem offRoad_send {target : Nat} {link : Option Nat} (h : Ends (send target link id now) p () q) :
    OffRoad p q := by
  obtain ⟨record, -, -, rfl⟩ := send_ends h
  exact ⟨rfl, rfl⟩

theorem offRoad_exchanged {stop : StopRef} (h : Exchanged id stop now p q) : OffRoad p q :=
  h.relates (fun _ _ _ _ consumes => offRoad_consume consumes) (fun _ _ _ wakes => offRoad_wake wakes)
    fun _ _ _ => ⟨rfl, rfl⟩

/-! ## Turns -/

/-- How a turn changes the links: not at all, or the agent is put onto one of them. -/
inductive Moved (id now : Nat) (p q : Partition) : Prop where
  | nowhere (stays : OffRoad p q)
  /-- The agent is to be sent to the owner of the link. -/
  | outbound {link : Nat} {x y : Proxy} (view : p.links[link]? = some (.proxy x))
      (pushed : x.push id = some y) (links : q.links = p.links.setIfInBounds link (.proxy y))
      (dueLinks : q.dueLinks = p.dueLinks) (traversed : q.Traversed id)
  /-- The agent stands on an owned link. -/
  | entered {link velocity finish : Nat} {v w : LinkView} {l : Link} (view : p.links[link]? = some v)
      (owned : v.link? = some l)
      (time : finish = Clock.after now (l.travelTime velocity p.timing.delay))
      (pushed : v.push id finish = .ok (some w)) (links : q.links = p.links.setIfInBounds link w)
      (dueLinks : if l.queue = [] then p.dueLinks.add link (max finish (now + 1)) = .ok q.dueLinks
        else q.dueLinks = p.dueLinks)

theorem Dispatched.moved {b : Bool} (h : Dispatched id now p b q) : Moved id now p q := by
  cases h with
  | finished | refused => exact .nowhere ⟨rfl, rfl⟩
  | handedOver found current sent => exact .nowhere (offRoad_send sent)
  | @outbound a i link velocity x y q found current action view pushed consumes =>
    have off := offRoad_consume consumes
    refine .outbound view pushed off.links off.dueLinks ?_
    obtain ⟨b, j, hb, -, rfl⟩ := consume_ends consumes
    obtain ⟨hlt, -⟩ := Array.getElem?_eq_some_iff.1 found
    have onLink : b = a.onLink now now :=
      Option.some.inj (hb.symm.trans (Array.getElem?_setIfInBounds_self_of_lt hlt))
    obtain ⟨event, action'⟩ := i
    obtain rfl : action' = .traverse link velocity := action
    refine ⟨{ b with cursor := b.cursor + 1 }, Array.getElem?_setIfInBounds_self_of_lt (by simpa using hlt),
      b.cursor, event, link, velocity, rfl, ?_⟩
    rw [onLink]
    exact current
  | entered found current action view owned time pushed consumes scheduled =>
    have off := offRoad_consume consumes
    split at scheduled
    · rename_i empty
      obtain ⟨due, hadd, rfl⟩ := revisit_eq_ok.1 scheduled
      rw [off.dueLinks] at hadd
      exact .entered view owned time pushed off.links (by rw [if_pos empty]; exact hadd)
    · rename_i occupied
      obtain rfl := scheduled
      exact .entered view owned time pushed off.links (by rw [if_neg occupied]; exact off.dueLinks)
  | paused found current action consumes wakes =>
    exact .nowhere ((offRoad_consume consumes).trans (offRoad_wake wakes))
  | queued found current action consumes waiting egress =>
    have off := offRoad_consume consumes
    exact .nowhere ⟨off.links, off.dueLinks⟩
  | exchanged found current action exchange => exact .nowhere (offRoad_exchanged exchange)
  | departed found current action consumes => exact .nowhere (offRoad_consume consumes)

/-- The first agent on a link stays the first one until it has left. -/
theorem front_dispatched {link : Nat} {b : Bool} {v : LinkView} {head : Entry}
    (h : Dispatched id now p b q) (view : p.links[link]? = some v) (front : v.front? = some head) :
    ∃ w, q.links[link]? = some w ∧ w.front? = some head := by
  have pushed : ∀ {i : Nat} {u w : LinkView} {finish : Nat}, p.links[i]? = some u →
      u.push id finish = .ok (some w) → q.links = p.links.setIfInBounds i w →
      ∃ w, q.links[link]? = some w ∧ w.front? = some head := by
    intro i u w finish hu hpush hl
    obtain ⟨hlt, -⟩ := Array.getElem?_eq_some_iff.1 hu
    by_cases hi : i = link
    · subst hi
      obtain rfl := Option.some.inj (hu.symm.trans view)
      exact ⟨w, by rw [hl, Array.getElem?_setIfInBounds_self_of_lt hlt],
        LinkView.front_push hpush front⟩
    · exact ⟨v, by rw [hl, Array.getElem?_setIfInBounds_ne hi, view], front⟩
  cases h.moved with
  | nowhere stays => exact ⟨v, by rw [stays.links, view], front⟩
  | @outbound i x y view' hpush links =>
    have push : (LinkView.proxy x).push id now = .ok (some (.proxy y)) := by
      simp [LinkView.push, hpush]
    exact pushed view' push links
  | entered view' owned time hpush links => exact pushed view' hpush links

end Partition

end Mobility
