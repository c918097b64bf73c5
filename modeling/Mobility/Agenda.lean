import Mobility.Table
import Mobility.Clock

/-!
# Agendas

An agenda keeps values by the second at which they are due. Every second from the start is visited
exactly once and in order, and a visit takes what is due then, in the order in which it was added.
What is due after the end of the horizon is kept aside, so that it can be reported after a run.
-/

set_option autoImplicit false

namespace Mobility

/-- Values by the second at which they are due. `next` is the first second not visited yet. -/
structure Agenda (α : Type) where
  stop : Nat
  next : Nat
  due : Table (List α)
  /-- The number of values in `due`. -/
  size : Nat
  /-- What is due after `stop`, in order of addition. -/
  beyond : List α
deriving DecidableEq

namespace Agenda

variable {α : Type}

/-- The agenda without values for the seconds from `start` to `stop`. -/
def vacant (start stop : Nat) : Agenda α := ⟨stop, start, .empty, 0, []⟩

/-- The agenda without values for the seconds from `start` to `stop`, if these are any. -/
def make (start stop : Nat) : Except Fault (Agenda α) :=
  if start ≤ stop then .ok (vacant start stop) else .error (.startAfterEnd start stop)

/-- The agenda with `values` due at `start`, for the seconds from `start` to `stop`. -/
def starting (start stop : Nat) (values : List α) : Agenda α :=
  if values.isEmpty then vacant start stop
  else { (vacant start stop : Agenda α) with
    due := Table.empty.insert start values
    size := values.length }

/-- Schedules `value` for `time`, behind what is scheduled for that second already. -/
def add (a : Agenda α) (value : α) (time : Nat) : Except Fault (Agenda α) :=
  if time < a.next then .error (.secondVisited time a.next)
  else if time ≤ a.stop then
    .ok { a with
      due := a.due.alter time fun list => some (list.getD [] ++ [value])
      size := a.size + 1 }
  else .ok { a with beyond := a.beyond ++ [value] }

/-- Visits second `now`: takes what is due. -/
def visit (a : Agenda α) (now : Nat) : Except Fault (List α × Agenda α) :=
  if a.next = now then do
    let next ← Clock.next now
    let values := (a.due.get? now).getD []
    .ok (values, { a with next := next, due := a.due.erase now, size := a.size - values.length })
  else .error .secondOutOfOrder

/-- Everything pending within the horizon, with the second at which it is due. -/
def pending (a : Agenda α) : List (Nat × α) :=
  a.due.entries.flatMap fun row => row.2.map fun v => (row.1, v)

/-! ## What an addition and a visit do -/

variable {a b : Agenda α} {value : α} {values : List α} {now time : Nat}

theorem add_cases (h : a.add value time = .ok b) : a.next ≤ time ∧
    (time ≤ a.stop ∧
        b = { a with due := a.due.alter time fun list => some (list.getD [] ++ [value]), size := a.size + 1 } ∨
      a.stop < time ∧ b = { a with beyond := a.beyond ++ [value] }) := by
  unfold add at h
  split at h
  · cases h
  · rename_i unvisited
    refine ⟨Nat.le_of_not_lt unvisited, ?_⟩
    split at h
    · rename_i within
      exact .inl ⟨within, (Except.ok.inj h).symm⟩
    · rename_i past
      exact .inr ⟨Nat.lt_of_not_le past, (Except.ok.inj h).symm⟩

/-- Only a second which is visited already can't get a value. -/
theorem add_eq_error {f : Fault} :
    a.add value time = .error f ↔ time < a.next ∧ f = .secondVisited time a.next := by
  unfold add
  split
  · rename_i visited
    exact ⟨fun h => ⟨visited, (Except.error.inj h).symm⟩, fun h => by rw [h.2]⟩
  · rename_i unvisited
    refine ⟨fun h => ?_, fun h => absurd h.1 unvisited⟩
    split at h <;> cases h

theorem visit_cases (h : a.visit now = .ok (values, b)) : a.next = now ∧ now < Clock.last ∧
    values = (a.due.get? now).getD [] ∧
      b = { a with next := now + 1, due := a.due.erase now, size := a.size - values.length } := by
  unfold visit Clock.next at h
  split at h
  · rename_i next
    split at h
    · rename_i more
      cases h
      exact ⟨next, more, rfl, rfl⟩
    · cases h
  · cases h

/-- Only the next second can be visited, and there has to be a second after it. -/
theorem visit_eq_error {f : Fault} : a.visit now = .error f ↔
    now ≠ a.next ∧ f = .secondOutOfOrder ∨ now = a.next ∧ Clock.last ≤ now ∧ f = .pastLastSecond := by
  unfold visit Clock.next
  by_cases next : a.next = now
  · subst next
    rw [if_pos rfl]
    by_cases more : a.next < Clock.last
    · rw [if_pos more]
      exact ⟨fun h => (nomatch h), fun h => by omega⟩
    · rw [if_neg more]
      refine ⟨fun h => .inr ⟨rfl, Nat.le_of_not_lt more, (Except.error.inj h).symm⟩, ?_⟩
      rintro (⟨other, -⟩ | ⟨-, -, rfl⟩)
      · exact absurd rfl other
      · rfl
  · rw [if_neg next]
    refine ⟨fun h => .inl ⟨Ne.symm next, (Except.error.inj h).symm⟩, ?_⟩
    rintro (⟨-, rfl⟩ | ⟨same, -⟩)
    · rfl
    · exact absurd same.symm next

end Agenda

end Mobility
