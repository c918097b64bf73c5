import Mathlib.Algebra.BigOperators.Group.List.Basic
import Mathlib.Algebra.BigOperators.Group.Multiset.Basic
import Mathlib.Algebra.GroupWithZero.Nat
import Mobility.Table

/-!
# Totals

What a partition holds lies in tables and arrays: agents by the second at which they are due, by the
link on which they are, by the stop where they wait. A total adds up what the entries are worth. The
one law about it says what replacing an entry does to it, written without a difference: the new
total and the old entry are as much as the old total and the new entry.
-/

set_option autoImplicit false

namespace Mobility

variable {β γ M : Type} [AddCommMonoid M]

namespace Table

/-! ## Numbers of a table -/

theorem mem_keys {t : Table β} {k : Nat} : k ∈ t.keys ↔ ∃ b, t.get? k = some b := by
  simp only [keys, List.mem_map, Prod.exists, exists_and_right, exists_eq_right, mem_entries]

theorem contains_iff_mem_keys {t : Table β} {k : Nat} : t.contains k = true ↔ k ∈ t.keys := by
  rw [mem_keys, contains, Option.isSome_iff_exists]

theorem keys_ascending (t : Table β) : t.keys.Pairwise (· < ·) :=
  List.pairwise_map.2 t.ascending

theorem keys_nodup (t : Table β) : t.keys.Nodup :=
  t.keys_ascending.imp fun h => Nat.ne_of_lt h

@[simp] theorem keys_empty : (empty : Table β).keys = [] := rfl

@[simp] theorem keys_mapRows (t : Table β) (f : Nat → β → γ) : (t.mapRows f).keys = t.keys := by
  simp [keys, mapRows]

theorem isEmpty_iff {t : Table β} : t.isEmpty = true ↔ t = .empty := by
  obtain ⟨rows, h⟩ := t
  cases rows with
  | nil => simp [isEmpty, empty]
  | cons row rest => simp [isEmpty, empty]

theorem lookup_map (f : Nat → β → γ) (rows : List (Nat × β)) (k : Nat) :
    lookup k (rows.map fun row => (row.1, f row.1 row.2)) = (lookup k rows).map (f k) := by
  induction rows with
  | nil => rfl
  | cons head rest ih =>
    simp only [List.map_cons, lookup]
    split
    · rename_i h; simp [h]
    · exact ih

@[simp] theorem get?_mapRows (t : Table β) (f : Nat → β → γ) (k : Nat) :
    (t.mapRows f).get? k = (t.get? k).map (f k) :=
  lookup_map f t.entries k

/-! ## Totals of a table -/

/-- What all values together are worth. -/
def total (f : β → M) (t : Table β) : M := (t.values.map f).sum

/-- What an entry is worth, if there is one. -/
def worth (f : β → M) : Option β → M
  | some b => f b
  | none => 0

@[simp] theorem worth_none (f : β → M) : worth f none = 0 := rfl

@[simp] theorem worth_some (f : β → M) (b : β) : worth f (some b) = f b := rfl

theorem sum_alterRows (f : β → M) (k : Nat) (g : Option β → Option β) {rows : List (Nat × β)}
    (h : rows.Pairwise (fun a b => a.1 < b.1)) :
    ((alterRows k g rows).map fun row => f row.2).sum + worth f (lookup k rows) =
      (rows.map fun row => f row.2).sum + worth f (g (lookup k rows)) := by
  induction rows with
  | nil => cases hg : g none <;> simp [alterRows, lookup, hg]
  | cons head rest ih =>
    obtain ⟨j, b⟩ := head
    rw [List.pairwise_cons] at h
    have past : k ≤ j → lookup k rest = none := fun hk =>
      lookup_eq_none fun row hrow => Nat.lt_of_le_of_lt hk (h.1 row hrow)
    simp only [alterRows]
    split
    · rename_i hk
      have absent : lookup k ((j, b) :: rest) = none := by
        rw [lookup, if_neg (by omega), past (by omega)]
      rw [absent]
      cases hg : g none <;> simp [add_comm, add_left_comm]
    · split
      · rename_i _ hk
        subst hk
        cases hg : g (some b) <;> simp [lookup, hg, add_comm, add_left_comm]
      · rename_i _ hk
        simp only [lookup, if_neg hk, List.map_cons, List.sum_cons, add_assoc, ih h.2]

/-- Replacing an entry moves the total by what the entry is worth. -/
theorem total_alter (f : β → M) (t : Table β) (k : Nat) (g : Option β → Option β) :
    (t.alter k g).total f + worth f (t.get? k) = t.total f + worth f (g (t.get? k)) := by
  simpa [total, values, alter, get?, Function.comp_def] using sum_alterRows f k g t.ascending

/-- What is added to an entry is added to the total. If there is no entry, one which is worth nothing is added
to. -/
theorem total_add [IsRightCancelAdd M] (f : β → M) {g : β → β} {x : M} (adds : ∀ b, f (g b) = f b + x)
    {b : β} (nothing : f b = 0) (t : Table β) (k : Nat) :
    (t.alter k fun o => some (g (o.getD b))).total f = t.total f + x := by
  have h := total_alter f t k fun o => some (g (o.getD b))
  have entry : worth f (t.get? k) = f ((t.get? k).getD b) := by
    cases t.get? k with
    | none => exact nothing.symm
    | some _ => rfl
  rw [worth_some, adds, ← entry, ← add_assoc, add_right_comm] at h
  exact add_right_cancel h

theorem total_erase (f : β → M) (t : Table β) (k : Nat) :
    (t.erase k).total f + worth f (t.get? k) = t.total f := by
  simpa [erase] using total_alter f t k fun _ => none

/-- A total as a sum over the numbers of the table. -/
theorem total_eq_sum_keys (f : β → M) (t : Table β) :
    t.total f = (t.keys.map fun k => worth f (t.get? k)).sum := by
  have rows : t.entries.map (fun row => f row.2) =
      t.entries.map fun row => worth f (t.get? row.1) := by
    apply List.map_congr_left
    intro row hrow
    rw [mem_entries.1 hrow, worth_some]
  simpa [total, values, keys, Function.comp_def] using congrArg List.sum rows

end Table

/-- Replacing an entry of an array moves the sum over the array by what the entry is worth. -/
theorem sum_setIfInBounds (f : β → M) {xs : Array β} {i : Nat} {x : β} (y : β)
    (h : xs[i]? = some x) :
    ((xs.setIfInBounds i y).toList.map f).sum + f x = (xs.toList.map f).sum + f y := by
  have rows : ∀ {l : List β} {i : Nat}, l[i]? = some x →
      ((l.set i y).map f).sum + f x = (l.map f).sum + f y := by
    intro l
    induction l with
    | nil => intro i hi; simp at hi
    | cons head rest ih =>
      intro i hi
      cases i with
      | zero =>
        obtain rfl : head = x := by simpa using hi
        simp [add_comm, add_left_comm]
      | succ i =>
        have hi : rest[i]? = some x := by simpa using hi
        simp only [List.set_cons_succ, List.map_cons, List.sum_cons, add_assoc, ih hi]
  simpa using rows (by simpa using h)

end Mobility
