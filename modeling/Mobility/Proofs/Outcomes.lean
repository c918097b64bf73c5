import Mobility.Agent.Basic
import Mobility.Link.View
import Mobility.Platforms

/-!
# What a successful operation has done

Operations on agents, seats and links answer with a new value, or refuse. Each lemma here reads an
answer backwards: which condition held, and what the new value is in terms of the old one.
-/

set_option autoImplicit false

namespace Mobility

/-- What is there has been made without an error. -/
theorem eq_ok_of_toOption {ε α : Type} {x : Except ε α} {a : α} (h : x.toOption = some a) : x = .ok a := by
  cases x with
  | ok b => exact congrArg Except.ok (Option.some.inj h)
  | error e => cases h

namespace Plan

variable {p : Plan} {k : Nat} {i : Instruction}

theorem get?_eq_some : p.get? k = .ok (some i) ↔ ∃ w, p.words[k]? = some w ∧ Instruction.decode w = .ok i := by
  unfold get?
  cases hw : p.words[k]? with
  | none => simp
  | some w => cases hd : Instruction.decode w <;> simp [hd]

theorem get?_eq_none : p.get? k = .ok none ↔ p.length ≤ k := by
  unfold get? length
  cases hw : p.words[k]? with
  | none => simpa using hw
  | some w =>
    obtain ⟨hlt, -⟩ := Array.getElem?_eq_some_iff.1 hw
    cases hd : Instruction.decode w <;> simp [hd, hlt]

theorem lt_length_of_get? (h : p.get? k = .ok (some i)) : k < p.length := by
  obtain ⟨w, hw, -⟩ := get?_eq_some.1 h
  exact (Array.getElem?_eq_some_iff.1 hw).1

end Plan

namespace Agent

/-- Consuming needs an instruction and moves the cursor behind it. -/
theorem consume_eq_ok {a b : Agent} {how : Consumption} {event : Option Event}
    (h : a.consume how = .ok (b, event)) :
    ∃ i, a.current = .ok (some i) ∧ b = { a with cursor := a.cursor + 1 } ∧
      event = if i.event.val = 0 then none else some (how.stamp a.id i.event) := by
  unfold consume at h
  cases hc : a.current with
  | error f => rw [hc] at h; cases h
  | ok found =>
    cases found with
    | none => rw [hc] at h; cases h
    | some i =>
      rw [hc] at h
      cases h
      exact ⟨i, rfl, rfl, rfl⟩

theorem moveCursor_eq_ok {a b : Agent} {cursor : Nat} (h : a.moveCursor cursor = .ok b) :
    a.cursor ≤ cursor ∧ b = { a with cursor := cursor } := by
  unfold moveCursor at h
  split at h
  · rename_i hc
    cases h
    exact ⟨hc, rfl⟩
  · cases h

theorem replacePassengers_eq_ok {a b : Agent} {passengers : List (Nat × Nat)}
    (h : a.replacePassengers passengers = .ok b) :
    ∃ seats, a.seats.replace passengers = some seats ∧ b = { a with seats := seats } := by
  unfold replacePassengers at h
  cases hs : a.seats.replace passengers with
  | none => rw [hs] at h; cases h
  | some seats =>
    rw [hs] at h
    cases h
    exact ⟨seats, rfl, rfl⟩

end Agent

namespace Seats

theorem access_eq_some {s t : Seats} {index passenger : Nat} (h : s.access index passenger = some t) :
    s.taken < s.capacity ∧
      t = { s with taken := s.taken + 1, passengers := seat s.passengers index passenger } := by
  unfold access at h
  split at h
  · rename_i hc
    exact ⟨hc, (Option.some.inj h).symm⟩
  · cases h

theorem egress_eq_ok {s t : Seats} {index : Nat} {leaving : List Nat}
    (h : s.egress index = .ok (leaving, t)) :
    leaving = (s.passengers.get? index).getD [] ∧ leaving.length ≤ s.taken ∧
      t = { s with taken := s.taken - leaving.length, passengers := s.passengers.erase index } := by
  unfold egress at h
  dsimp only at h
  split at h
  · rename_i hc
    cases h
    exact ⟨rfl, hc, rfl⟩
  · cases h

theorem replace_eq_some {s t : Seats} {passengers : List (Nat × Nat)}
    (h : s.replace passengers = some t) :
    passengers.length ≤ s.capacity ∧
      t = { s with
        taken := passengers.length
        passengers := passengers.foldl (fun t p => seat t p.1 p.2) .empty } := by
  unfold replace at h
  split at h
  · rename_i hc
    exact ⟨hc, (Option.some.inj h).symm⟩
  · cases h

theorem capacity_access {s t : Seats} {index passenger : Nat}
    (h : s.access index passenger = some t) : t.capacity = s.capacity := by
  obtain ⟨-, rfl⟩ := access_eq_some h
  rfl

theorem capacity_egress {s t : Seats} {index : Nat} {leaving : List Nat}
    (h : s.egress index = .ok (leaving, t)) : t.capacity = s.capacity := by
  obtain ⟨-, -, rfl⟩ := egress_eq_ok h
  rfl

theorem capacity_replace {s t : Seats} {passengers : List (Nat × Nat)}
    (h : s.replace passengers = some t) : t.capacity = s.capacity := by
  obtain ⟨-, rfl⟩ := replace_eq_some h
  rfl

/-- How agents from the front of a queue board, until the first one is refused. -/
inductive Admits : List (Nat × Nat) → Seats → List (Nat × Nat) → Seats → Prop where
  | nobody {s : Seats} : Admits [] s [] s
  | refused {s : Seats} {index id : Nat} {rest : List (Nat × Nat)} (full : s.access index id = none) :
      Admits ((index, id) :: rest) s [] s
  | admitted {s t u : Seats} {index id : Nat} {rest boarded : List (Nat × Nat)}
      (free : s.access index id = some t) (later : Admits rest t boarded u) :
      Admits ((index, id) :: rest) s ((index, id) :: boarded) u

theorem Admits.capacity {s t : Seats} {queue boarded : List (Nat × Nat)}
    (h : Admits queue s boarded t) : t.capacity = s.capacity := by
  induction h with
  | nobody | refused => rfl
  | admitted free _ ih => exact ih.trans (capacity_access free)

theorem Admits.isPrefix {s t : Seats} {queue boarded : List (Nat × Nat)}
    (h : Admits queue s boarded t) : boarded <+: queue := by
  induction h with
  | nobody | refused => exact List.nil_prefix
  | admitted _ _ ih => exact (List.prefix_cons_inj _).2 ih

/-- The queues at a stop after some of the agents there have boarded. -/
theorem board_eq {platforms after : Platforms} {stop route index : Nat} {s t : Seats}
    {boarded : List (Nat × Nat)}
    (h : platforms.board stop route index
      (fun index passenger seats =>
        match seats.access index passenger with
        | some seats => (true, seats)
        | none => (false, seats)) s = ((boarded, after), t)) :
    Admits (Platforms.waiting (platforms.queuesOf stop route) index) s boarded t ∧
      after.queues = platforms.queues.alter stop fun routes => routes.map fun routes =>
        routes.alter route fun queues => queues.map fun queues => Platforms.without queues boarded := by
  have admits : ∀ (queue : List (Nat × Nat)) (s : Seats),
      let r := Platforms.admitted (σ := Seats) (fun index passenger seats =>
        match seats.access index passenger with
        | some seats => (true, seats)
        | none => (false, seats)) queue s
      Admits queue s r.1 r.2 := by
    intro queue
    induction queue with
    | nil => intro s; exact .nobody
    | cons row rest ih =>
      intro s
      obtain ⟨index, id⟩ := row
      cases ha : s.access index id with
      | none =>
        simp only [Platforms.admitted, ha, bind, StateT.bind, pure]
        exact .refused ha
      | some t =>
        simp only [Platforms.admitted, ha, bind, StateT.bind, pure]
        exact .admitted ha (ih t)
  change (_, _) = ((boarded, _), _) at h
  cases h
  exact ⟨admits _ _, rfl⟩

end Seats

/-- Whoever boards is subtracted from those who wait. -/
theorem Platforms.size_board {platforms after : Platforms} {stop route index : Nat} {s t : Seats}
    {boarded : List (Nat × Nat)}
    (h : platforms.board stop route index
      (fun index passenger seats =>
        match seats.access index passenger with
        | some seats => (true, seats)
        | none => (false, seats)) s = ((boarded, after), t)) :
    after.size = platforms.size - boarded.length := by
  change (_, _) = ((boarded, _), _) at h
  cases h
  rfl

namespace Link

theorem push_eq_some {l m : Link} {entry : Entry} (h : l.push entry = some m) :
    l.isFull = false ∧ m = { l with queue := l.queue ++ [entry] } := by
  unfold push at h
  split at h
  · cases h
  · rename_i hf
    exact ⟨by simpa using hf, (Option.some.inj h).symm⟩

theorem pop_eq_ok {l m : Link} {entry : Entry} (h : l.pop = .ok (entry, m)) :
    l.queue = entry :: m.queue ∧ m = { l with queue := m.queue } := by
  unfold pop at h
  split at h
  · cases h
  · rename_i head rest hq
    cases h
    exact ⟨hq, rfl⟩

end Link

theorem Proxy.push_eq_some {x y : Proxy} {id : Nat} (h : x.push id = some y) :
    x.occupancy < x.capacity ∧
      y = { x with occupancy := x.occupancy + 1, outbox := x.outbox ++ [id] } := by
  unfold Proxy.push at h
  split at h
  · rename_i hc
    exact ⟨hc, (Option.some.inj h).symm⟩
  · cases h

theorem Proxy.release_eq_ok {x y : Proxy} {count : Nat} (h : x.release count = .ok y) :
    count ≤ x.occupancy ∧ y = { x with occupancy := x.occupancy - count } := by
  unfold Proxy.release at h
  split at h
  · rename_i hc
    cases h
    exact ⟨hc, rfl⟩
  · cases h

namespace Gateway

/-- The gateway after `part` has got one more agent to release. -/
def count (g : Gateway) : Option Nat → Table Nat
  | some part => g.released.alter part fun n => some (n.getD 0 + 1)
  | none => g.released

theorem pop_eq_ok {g h : Gateway} {entry : Entry} (hp : g.pop = .ok (entry, h)) :
    g.link.queue = entry :: h.link.queue ∧
      h = { g with
        link := { g.link with queue := h.link.queue }
        released := g.count entry.fromPart } := by
  unfold pop at hp
  cases hl : g.link.pop with
  | error f => rw [hl] at hp; cases hp
  | ok r =>
    obtain ⟨e, m⟩ := r
    rw [hl] at hp
    obtain ⟨hq, hm⟩ := Link.pop_eq_ok hl
    cases hp
    refine ⟨hq, ?_⟩
    rw [hm]
    rfl

end Gateway

namespace LinkView

/-- What taking the head of a link leaves behind. -/
theorem pop_eq_ok {v w : LinkView} {entry : Entry} (h : v.pop = .ok (entry, w)) :
    (∃ l m, v = owned l ∧ w = owned m ∧ l.pop = .ok (entry, m)) ∨
      ∃ g k, v = gateway g ∧ w = gateway k ∧ g.pop = .ok (entry, k) := by
  cases v with
  | owned l =>
    simp only [pop] at h
    cases hl : l.pop with
    | error f => rw [hl] at h; cases h
    | ok r =>
      rw [hl] at h
      cases h
      exact .inl ⟨l, r.2, rfl, rfl, hl⟩
  | gateway g =>
    simp only [pop] at h
    cases hg : g.pop with
    | error f => rw [hg] at h; cases h
    | ok r =>
      rw [hg] at h
      cases h
      exact .inr ⟨g, r.2, rfl, rfl, hg⟩
  | proxy x => cases h
  | remote id owner => cases h

/-- What putting an agent onto a link changes. -/
theorem push_eq_ok {v w : LinkView} {id finish : Nat} (h : v.push id finish = .ok (some w)) :
    (∃ l m, v = owned l ∧ w = owned m ∧ l.push ⟨id, finish, none⟩ = some m) ∨
      (∃ g m, v = gateway g ∧ w = gateway { g with link := m } ∧ g.inbound = [] ∧
        g.link.push ⟨id, finish, none⟩ = some m) ∨
      ∃ x y, v = proxy x ∧ w = proxy y ∧ x.push id = some y := by
  cases v with
  | owned l =>
    simp only [push, Except.ok.injEq, Option.map_eq_some_iff] at h
    obtain ⟨m, hm, rfl⟩ := h
    exact .inl ⟨l, m, rfl, rfl, hm⟩
  | gateway g =>
    simp only [push, Except.ok.injEq] at h
    split at h
    · rename_i hi
      obtain ⟨m, hm, rfl⟩ := Option.map_eq_some_iff.1 h
      exact .inr (.inl ⟨g, m, rfl, rfl, by simpa using hi, hm⟩)
    · cases h
  | proxy x =>
    simp only [push, Except.ok.injEq, Option.map_eq_some_iff] at h
    obtain ⟨y, hy, rfl⟩ := h
    exact .inr (.inr ⟨x, y, rfl, rfl, hy⟩)
  | remote i owner => cases h

end LinkView

end Mobility
