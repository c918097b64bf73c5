import Mobility.Proofs.Partition.Queues
import Mobility.Partition.Report

/-!
# Histories of a link

The owner of a link does six things to it (`Operation`): an agent of its own enters, an agent from a
neighbor enters at once or waits in front of the link, the first of those who wait enters, the head
leaves, and the counts of the departed are taken. A history lists what was done, each operation with
its second. Whatever the history is, the link is a queue: who has come, in the order of coming, is who
has left, then who is on the link, then who waits in front of it.

A history isn't part of the state of a partition: what acts do to a link is written down beside it.
-/

set_option autoImplicit false

namespace Mobility

/-! ## Views as queues -/

namespace LinkView

/-- The agents on the link, if it is owned. -/
def queue : LinkView → List Entry
  | owned link => link.queue
  | gateway gate => gate.link.queue
  | proxy _ | remote .. => []

/-- The agents which wait in front of the link, if it is owned. -/
def inbound : LinkView → List Nat
  | owned _ | proxy _ | remote .. => []
  | gateway gate => gate.inbound.map (·.1)

/-- The partition owns the link. -/
def isOwned (v : LinkView) : Bool := v.link?.isSome

theorem agents_eq (v : LinkView) : v.agents = v.queue.map (·.agent) ++ v.inbound := by
  cases v <;> simp [agents, queue, inbound]

end LinkView

/-! ## Operations -/

/-- What the owner of a link does to it. -/
inductive Operation where
  /-- An agent of the owner enters. -/
  | push (entry : Entry)
  /-- An agent from a neighbor enters at once. -/
  | come (entry : Entry)
  /-- An agent from a neighbor has to wait in front of the link. -/
  | wait (agent : Nat)
  /-- The first agent in front of the link enters it. -/
  | letIn (entry : Entry)
  /-- The head leaves the link. -/
  | pop (entry : Entry)
  /-- The counts of departed agents are taken, to be sent to the neighbors. -/
  | report

namespace Operation

/-- Who comes to the link, to enter it or to wait in front of it. -/
def arrival? : Operation → Option Nat
  | push entry | come entry => some entry.agent
  | wait agent => some agent
  | letIn _ | pop _ | report => none

/-- What is put into the queue of the link. -/
def entrant? : Operation → Option Entry
  | push entry | come entry | letIn entry => some entry
  | wait _ | pop _ | report => none

/-- What is taken from the queue of the link. -/
def departure? : Operation → Option Entry
  | pop entry => some entry
  | push _ | come _ | wait _ | letIn _ | report => none

end Operation

/-- In second `now`, the operation turns the first view of the link into the second one. -/
inductive Operated (now : Nat) : Operation → LinkView → LinkView → Prop where
  | push {agent finish : Nat} {v w : LinkView} (owned : v.isOwned = true) (later : now < finish)
      (pushed : v.push agent finish = .ok (some w)) :
      Operated now (.push ⟨agent, finish, none⟩) v w
  | come {agent part finish : Nat} {g : Gateway} (nobody : g.inbound = [])
      (room : g.link.isFull = false) (later : now < finish) :
      Operated now (.come ⟨agent, finish, some part⟩) (.gateway g)
        (.gateway (g.append agent part finish))
  | wait {agent part : Nat} {g : Gateway} (closed : g.inbound ≠ [] ∨ g.link.isFull = true) :
      Operated now (.wait agent) (.gateway g) (.gateway (g.pushInbound agent part))
  | letIn {agent part finish : Nat} {g k : Gateway} (first : g.popInbound = .ok ((agent, part), k))
      (room : g.link.isFull = false) (later : now < finish) :
      Operated now (.letIn ⟨agent, finish, some part⟩) (.gateway g)
        (.gateway (k.append agent part finish))
  | pop {entry : Entry} {v w : LinkView} (due : entry.finish ≤ now)
      (popped : v.pop = .ok (entry, w)) : Operated now (.pop entry) v w
  | report {g : Gateway} : Operated now .report (.gateway g) (.gateway g.takeReleased.2)

/-- What was done to a link, each operation with its second. -/
abbrev History := List (Nat × Operation)

namespace History

/-- The agents which have come to the link. -/
def arrivals (h : History) : List Nat := h.filterMap (·.2.arrival?)

/-- What was put into the queue of the link. -/
def entries (h : History) : List Entry := h.filterMap (·.2.entrant?)

/-- What was taken from the queue of the link, and when. -/
def departures (h : History) : List (Nat × Entry) :=
  h.filterMap fun row => row.2.departure?.map fun entry => (row.1, entry)

/-- The agents which have left the link. -/
def departed (h : History) : List Nat := h.departures.map (·.2.agent)

variable {h k : History} {now : Nat} {o : Operation}

theorem arrivals_append : (h ++ k : History).arrivals = h.arrivals ++ k.arrivals :=
  List.filterMap_append

theorem entries_append : (h ++ k : History).entries = h.entries ++ k.entries :=
  List.filterMap_append

theorem departures_append : (h ++ k : History).departures = h.departures ++ k.departures :=
  List.filterMap_append

theorem arrivals_one : History.arrivals [(now, o)] = o.arrival?.toList := by
  unfold arrivals
  cases ha : o.arrival? <;> simp [ha]

theorem entries_one : History.entries [(now, o)] = o.entrant?.toList := by
  unfold entries
  cases he : o.entrant? <;> simp [he]

theorem departures_one :
    History.departures [(now, o)] = o.departure?.toList.map fun entry => (now, entry) := by
  unfold departures
  cases hd : o.departure? <;> simp [hd]

end History

/-- The operations of a history, one after the other, turn the first view of a link into the second
one. -/
inductive Follows (v : LinkView) : History → LinkView → Prop where
  | nil : Follows v [] v
  | snoc {h : History} {now : Nat} {o : Operation} {w x : LinkView} (before : Follows v h w)
      (last : Operated now o w x) : Follows v (h ++ [(now, o)]) x

/-! ## First in, first out -/

/-- What one operation does to the queue and to who waits in front of it. -/
theorem Operated.queue {now : Nat} {o : Operation} {v w : LinkView} (h : Operated now o v w) :
    v.queue ++ o.entrant?.toList = o.departure?.toList ++ w.queue ∧
      v.agents ++ o.arrival?.toList = o.departure?.toList.map (·.agent) ++ w.agents := by
  simp only [LinkView.agents_eq]
  cases h with
  | push owned later pushed =>
    rcases LinkView.push_eq_ok pushed with
      ⟨l, m, rfl, rfl, hm⟩ | ⟨g, m, rfl, rfl, empty, hm⟩ | ⟨x, y, rfl, rfl, -⟩
    · obtain ⟨-, rfl⟩ := Link.push_eq_some hm
      simp [LinkView.queue, LinkView.inbound, Operation.entrant?, Operation.departure?,
        Operation.arrival?]
    · obtain ⟨-, rfl⟩ := Link.push_eq_some hm
      simp [LinkView.queue, LinkView.inbound, Operation.entrant?, Operation.departure?,
        Operation.arrival?, empty]
    · cases owned
  | come nobody room later =>
    simp [LinkView.queue, LinkView.inbound, Operation.entrant?, Operation.departure?,
      Operation.arrival?, Gateway.append, nobody]
  | wait closed =>
    simp [LinkView.queue, LinkView.inbound, Operation.entrant?, Operation.departure?,
      Operation.arrival?, Gateway.pushInbound]
  | @letIn agent part finish g k first room later =>
    obtain ⟨rest, waiting, rfl⟩ : ∃ rest, g.inbound = (agent, part) :: rest ∧
        k = { g with inbound := rest } := by
      unfold Gateway.popInbound at first
      split at first
      · cases first
      · rename_i waiting
        cases first
        exact ⟨_, waiting, rfl⟩
    simp [LinkView.queue, LinkView.inbound, Operation.entrant?, Operation.departure?,
      Operation.arrival?, Gateway.append, waiting]
  | pop due popped =>
    rcases LinkView.pop_eq_ok popped with ⟨l, m, rfl, rfl, hl⟩ | ⟨g, k, rfl, rfl, hg⟩
    · obtain ⟨hq, -⟩ := Link.pop_eq_ok hl
      simp [LinkView.queue, LinkView.inbound, Operation.entrant?, Operation.departure?,
        Operation.arrival?, hq]
    · obtain ⟨hq, hk⟩ := Gateway.pop_eq_ok hg
      have waiting : k.inbound = g.inbound := by rw [hk]
      simp [LinkView.queue, LinkView.inbound, Operation.entrant?, Operation.departure?,
        Operation.arrival?, hq, waiting]
  | report =>
    simp [LinkView.queue, LinkView.inbound, Operation.entrant?, Operation.departure?,
      Operation.arrival?, Gateway.takeReleased]

theorem Operated.isOwned {now : Nat} {o : Operation} {v w : LinkView} (h : Operated now o v w) :
    v.isOwned = true ∧ w.isOwned = true := by
  cases h with
  | push owned later pushed =>
    rcases LinkView.push_eq_ok pushed with
      ⟨l, m, rfl, rfl, -⟩ | ⟨g, m, rfl, rfl, -⟩ | ⟨x, y, rfl, rfl, -⟩
    · exact ⟨rfl, rfl⟩
    · exact ⟨rfl, rfl⟩
    · cases owned
  | pop due popped =>
    rcases LinkView.pop_eq_ok popped with ⟨l, m, rfl, rfl, -⟩ | ⟨g, k, rfl, rfl, -⟩
    · exact ⟨rfl, rfl⟩
    · exact ⟨rfl, rfl⟩
  | come | wait | letIn | report => exact ⟨rfl, rfl⟩

/-- Nobody leaves before its time. -/
theorem Operated.due {now : Nat} {o : Operation} {v w : LinkView} {entry : Entry}
    (h : Operated now o v w) (leaves : o.departure? = some entry) : entry.finish ≤ now := by
  cases h <;> cases leaves
  assumption

namespace Follows

variable {v w x : LinkView} {h k : History}

theorem nil_iff : Follows v [] w ↔ w = v := by
  constructor
  · intro f
    generalize none : ([] : History) = h at f
    cases f with
    | nil => rfl
    | snoc => exact absurd none (by simp)
  · rintro rfl
    exact .nil

theorem trans (hv : Follows v h w) (hw : Follows w k x) : Follows v (h ++ k) x := by
  induction hw with
  | nil => rwa [List.append_nil]
  | snoc _ last ih => rw [← List.append_assoc]; exact .snoc ih last

theorem isOwned (f : Follows v h w) (owned : v.isOwned = true) : w.isOwned = true := by
  induction f with
  | nil => exact owned
  | snoc _ last _ => exact last.isOwned.2

/-- Who was there and who has come are, in this order, who has left and who is there. -/
theorem agents (f : Follows v h w) : v.agents ++ h.arrivals = h.departed ++ w.agents := by
  induction f with
  | nil => exact List.append_nil _
  | @snoc h now o w x _ last ih =>
    unfold History.departed at ih ⊢
    rw [History.arrivals_append, History.departures_append, ← List.append_assoc, ih,
      List.append_assoc, History.arrivals_one, last.queue.2, History.departures_one]
    simp

/-- The same for the queue of the link alone. -/
theorem queue (f : Follows v h w) : v.queue ++ h.entries = h.departures.map (·.2) ++ w.queue := by
  induction f with
  | nil => exact List.append_nil _
  | @snoc h now o w x _ last ih =>
    rw [History.entries_append, History.departures_append, ← List.append_assoc, ih,
      List.append_assoc, History.entries_one, last.queue.1, History.departures_one]
    simp [Function.comp_def]

/-- Nobody has left before its time. -/
theorem due (f : Follows v h w) : ∀ row ∈ h.departures, row.2.finish ≤ row.1 := by
  induction f with
  | nil => simp [History.departures]
  | @snoc h now o w x _ last ih =>
    rw [History.departures_append, History.departures_one]
    intro row hrow
    rcases List.mem_append.1 hrow with hrow | hrow
    · exact ih row hrow
    · obtain ⟨entry, he, rfl⟩ := List.mem_map.1 hrow
      exact last.due (Option.mem_toList.1 he)

/-- Every point of a history is one of these views. -/
theorem prefixes (f : Follows v h w) (before : k <+: h) : ∃ u, Follows v k u := by
  induction f with
  | nil => exact ⟨v, List.prefix_nil.1 before ▸ .nil⟩
  | snoc f last ih =>
    rcases List.prefix_concat_iff.1 before with rfl | before
    · exact ⟨_, .snoc f last⟩
    · exact ih before

end Follows

/-- The link, seen as `v`, is one queue, if it was empty before the history `h`. -/
structure LinkView.InOrder (h : History) (v : LinkView) : Prop where
  /-- Those who have come are those who have left, then those on the link, then those who wait in front
  of it, in the order in which they came. -/
  agents : h.arrivals = h.departed ++ v.queue.map (·.agent) ++ v.inbound
  /-- What was put into the queue is what was taken from it, then what is there. -/
  entries : h.entries = h.departures.map (·.2) ++ v.queue
  /-- Nobody has left before the second which was noted when it entered. -/
  due : ∀ row ∈ h.departures, row.2.finish ≤ row.1

theorem Follows.inOrder {v w : LinkView} {h : History} (f : Follows v h w) (queue : v.queue = [])
    (inbound : v.inbound = []) : w.InOrder h := by
  have agents := f.agents
  have entries := f.queue
  rw [LinkView.agents_eq, LinkView.agents_eq, queue, inbound, List.map_nil, List.nil_append,
    List.nil_append, ← List.append_assoc] at agents
  rw [queue, List.nil_append] at entries
  exact ⟨agents, entries, f.due⟩

/-! ## Within one second -/

/-- Everything in the history was done in second `now`. -/
def History.Within (now : Nat) (h : History) : Prop := ∀ row ∈ h, row.1 = now

theorem History.Within.append {now : Nat} {h k : History} (hh : h.Within now) (hk : k.Within now) :
    (h ++ k : History).Within now := by
  intro row hrow
  rcases List.mem_append.1 hrow with hrow | hrow
  · exact hh row hrow
  · exact hk row hrow

/-- The operations, all of them in second `now`. -/
def History.at (now : Nat) (ops : List Operation) : History := ops.map fun o => (now, o)

theorem History.at_append (now : Nat) (xs ys : List Operation) :
    History.at now (xs ++ ys) = History.at now xs ++ History.at now ys := List.map_append

theorem History.arrivals_at (now : Nat) (ops : List Operation) :
    (History.at now ops).arrivals = ops.filterMap Operation.arrival? := List.filterMap_map

end Mobility
