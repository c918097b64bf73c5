import Mathlib.Data.List.Count
import Mathlib.Data.List.Perm.Basic
import Mobility.Agenda
import Mobility.Proofs.Listing

/-!
# When something is due

What stands in an agenda is due at some second of the horizon, or after its end. `Agenda.dates` lists
when a value is due, once for each time it stands there. Adding a value adds a date, and visiting a
second takes the dates at that second away. Nothing stands in a row that is visited already.
-/

set_option autoImplicit false

namespace Mobility

/-- No value is lost or found by looking a row up. -/
theorem Table.count_rows {rows : List (Nat × List Nat)} (time value : Nat)
    (h : rows.Pairwise fun a b => a.1 < b.1) :
    (rows.flatMap fun row => row.2.map fun v => (row.1, v)).count (time, value) =
      ((lookup time rows).getD []).count value := by
  have listed : valuesAt time (rows.flatMap fun row => row.2.map fun v => (row.1, v)) =
      (lookup time rows).getD [] := (byNumber_rows ⟨rows, h⟩).values time
  rw [← count_valuesAt, listed]

namespace Agenda

variable {a b : Agenda Nat} {value x time now : Nat} {xs : List Nat}

/-- When something due at second `time` is due, as far as an agenda tells: after its end, seconds aren't
told apart. -/
def slot (stop time : Nat) : Option Nat := if time ≤ stop then some time else none

/-- When a value is due, once for each time it stands in the agenda; `none` is after the end. -/
def dates (a : Agenda Nat) (value : Nat) : List (Option Nat) :=
  (a.pending.filter fun row => row.2 = value).map (fun row => some row.1) ++
    List.replicate (a.beyond.count value) none

theorem count_dates_some (a : Agenda Nat) (value time : Nat) :
    (a.dates value).count (some time) = ((a.due.get? time).getD []).count value := by
  have row : ∀ rows : List (Nat × Nat),
      ((rows.filter fun row => row.2 = value).map fun row => some row.1).count (some time) =
        rows.count (time, value) := by
    intro rows
    induction rows with
    | nil => rfl
    | cons head rest ih =>
      obtain ⟨t, v⟩ := head
      rw [List.count_cons, ← ih]
      by_cases hv : v = value
      · subst hv
        rw [List.filter_cons_of_pos (by simp), List.map_cons, List.count_cons]
        congr 1
        by_cases ht : t = time <;> simp [ht]
      · rw [List.filter_cons_of_neg (by simpa using hv)]
        simp [hv]
  rw [dates, List.count_append, row, pending, Table.count_rows time value a.due.ascending,
    List.count_replicate]
  rfl

theorem count_dates_none (a : Agenda Nat) (value : Nat) :
    (a.dates value).count none = a.beyond.count value := by
  rw [dates, List.count_append, List.count_replicate_self, List.count_eq_zero_of_not_mem (by simp),
    Nat.zero_add]

/-- A value is scheduled for a second that isn't visited yet, and gets a date. -/
theorem add_eq_ok (h : a.add x time = .ok b) :
    a.next ≤ time ∧ b.next = a.next ∧ b.stop = a.stop ∧
      ∀ value, (b.dates value).Perm (if x = value then slot a.stop time :: a.dates value else a.dates value) := by
  obtain ⟨unvisited, ⟨within, rfl⟩ | ⟨past, rfl⟩⟩ := add_cases h
  · refine ⟨unvisited, rfl, rfl, fun value => List.perm_iff_count.2 fun date => ?_⟩
    cases date with
    | none =>
      rw [count_dates_none]
      split <;> simp [slot, within, count_dates_none]
    | some t =>
      rw [count_dates_some]
      simp only [Table.get?_alter]
      by_cases ht : t = time
      · subst ht
        by_cases hx : x = value <;> simp [hx, slot, within, count_dates_some]
      · have ht' : ¬ time = t := fun e => ht e.symm
        by_cases hx : x = value <;> simp [hx, ht, ht', slot, within, count_dates_some]
  · have past := Nat.not_le.2 past
    refine ⟨unvisited, rfl, rfl, fun value => List.perm_iff_count.2 fun date => ?_⟩
    cases date with
    | none =>
      rw [count_dates_none]
      by_cases hx : x = value <;> simp [hx, slot, past, count_dates_none]
    | some t =>
      rw [count_dates_some]
      by_cases hx : x = value <;> simp [hx, slot, past, count_dates_some]

/-- A visit takes the values with a date at that second, as often as they have one. -/
theorem visit_eq_ok (h : a.visit now = .ok (xs, b)) :
    a.next = now ∧ now < Clock.last ∧ b.next = now + 1 ∧ b.stop = a.stop ∧
      ∀ value, (a.dates value).Perm (List.replicate (xs.count value) (some now) ++ b.dates value) ∧
        some now ∉ b.dates value := by
  obtain ⟨next, last, rfl, rfl⟩ := visit_cases h
  refine ⟨next, last, rfl, rfl, fun value => ⟨List.perm_iff_count.2 fun date => ?_, ?_⟩⟩
  · rw [List.count_append]
    cases date with
    | none =>
      rw [count_dates_none, count_dates_none, List.count_replicate]
      exact (Nat.zero_add _).symm
    | some t =>
      rw [count_dates_some, count_dates_some]
      simp only [Table.get?_erase]
      by_cases ht : t = now
      · subst ht
        simp
      · have ht' : ¬ now = t := fun e => ht e.symm
        simp [ht, ht', List.count_replicate]
  · rw [← List.count_eq_zero, count_dates_some]
    simp

end Agenda

end Mobility
