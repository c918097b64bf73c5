import Mathlib.Algebra.BigOperators.Group.Multiset.Basic
import Mobility.Proofs.Totals

/-!
# Numbered lists

A table of lists is read as one list: everything in it with its number, by number and then in the order of the
list (`Table.byNumber_rows`). Two lists which are read in this way are the same if they have the same values under
each number (`ByNumber.unique`), so it says all about such a list what its values are.
-/

set_option autoImplicit false

namespace Mobility

variable {κ β : Type} [DecidableEq κ]

/-- What has number `k`, in order. -/
def valuesAt (k : κ) (rows : List (κ × β)) : List β := (rows.filter fun row => row.1 = k).map Prod.snd

@[simp] theorem valuesAt_nil (k : κ) : valuesAt k ([] : List (κ × β)) = [] := rfl

theorem valuesAt_append (k : κ) (xs ys : List (κ × β)) : valuesAt k (xs ++ ys) = valuesAt k xs ++ valuesAt k ys := by
  rw [valuesAt, List.filter_append, List.map_append]
  rfl

theorem valuesAt_cons (k : κ) (x : κ × β) (xs : List (κ × β)) :
    valuesAt k (x :: xs) = (if x.1 = k then [x.2] else []) ++ valuesAt k xs := by
  by_cases own : x.1 = k <;> simp [valuesAt, own]

theorem valuesAt_singleton (k : κ) (x : κ × β) : valuesAt k [x] = if x.1 = k then [x.2] else [] := by
  rw [valuesAt_cons, valuesAt_nil, List.append_nil]

/-- The values of one row. -/
theorem valuesAt_row (k j : κ) (list : List β) :
    valuesAt k (list.map fun v => (j, v)) = if j = k then list else [] := by
  by_cases own : j = k <;> simp [valuesAt, own, List.filter_map, Function.comp_def]

/-- The values of several rows, one for each number. -/
theorem valuesAt_rows {numbers : List κ} (once : numbers.Nodup) (values : κ → List β) (k : κ) :
    valuesAt k (numbers.flatMap fun j => (values j).map fun v => (j, v)) =
      if k ∈ numbers then values k else [] := by
  induction numbers with
  | nil => rfl
  | cons j rest ih =>
    obtain ⟨first, once⟩ := List.nodup_cons.1 once
    rw [List.flatMap_cons, valuesAt_append, valuesAt_row, ih once]
    by_cases own : j = k
    · subst own
      rw [if_pos rfl, if_neg first, if_pos List.mem_cons_self, List.append_nil]
    · have same : k ∈ j :: rest ↔ k ∈ rest := by simp [Ne.symm own]
      rw [if_neg own, List.nil_append]
      simp only [same]

theorem count_valuesAt [DecidableEq β] (k : κ) (v : β) (rows : List (κ × β)) :
    (valuesAt k rows).count v = rows.count (k, v) := by
  induction rows with
  | nil => rfl
  | cons row rest ih =>
    obtain ⟨j, w⟩ := row
    rw [valuesAt_cons, List.count_append, ih, List.count_cons, Nat.add_comm]
    by_cases own : j = k <;> by_cases same : w = v <;> simp [own, same]

/-- Lists with the same values under each number are the same up to the order of different numbers. -/
theorem perm_of_valuesAt {xs ys : List (κ × β)} (same : ∀ k, valuesAt k xs = valuesAt k ys) : xs.Perm ys := by
  classical
  refine List.perm_iff_count.2 fun row => ?_
  rw [← count_valuesAt row.1 row.2 xs, ← count_valuesAt row.1 row.2 ys, same row.1]

variable {k : Nat} {xs ys : List (Nat × β)}

/-- Everything in `rows` stands by number, and `values` are the values under each number in their order. -/
structure ByNumber (values : Nat → List β) (rows : List (Nat × β)) : Prop where
  ascending : rows.Pairwise fun a b => a.1 ≤ b.1
  values : ∀ k, valuesAt k rows = values k

namespace ByNumber

variable {values : Nat → List β}

theorem nil_of_none (h : ∀ k, valuesAt k xs = []) : xs = [] := by
  cases xs with
  | nil => rfl
  | cons x xs =>
    have first := h x.1
    rw [valuesAt_cons, if_pos rfl] at first
    cases first

/-- The first number is the least one which has a value. -/
theorem first_le {x : Nat × β} (ascending : (x :: xs).Pairwise fun a b => a.1 ≤ b.1)
    (some : valuesAt k (x :: xs) ≠ []) : x.1 ≤ k := by
  by_contra past
  refine some ?_
  unfold valuesAt
  rw [List.map_eq_nil_iff, List.filter_eq_nil_iff]
  intro y hy own
  rw [decide_eq_true_eq] at own
  rcases List.mem_cons.1 hy with rfl | later
  · omega
  · have := List.rel_of_pairwise_cons ascending later
    omega

/-- There is only one such list. -/
theorem unique (hx : ByNumber values xs) (hy : ByNumber values ys) : xs = ys := by
  have same : ∀ k, valuesAt k xs = valuesAt k ys := fun k => (hx.values k).trans (hy.values k).symm
  obtain ⟨hx, -⟩ := hx
  obtain ⟨hy, -⟩ := hy
  induction xs generalizing ys with
  | nil => exact (nil_of_none fun k => (same k).symm).symm
  | cons x xs ih =>
    cases ys with
    | nil => exact nil_of_none same
    | cons y ys =>
      have found : ∀ (z : Nat × β) zs, valuesAt z.1 (z :: zs) ≠ [] := fun z zs => by
        rw [valuesAt_cons, if_pos rfl]
        exact List.cons_ne_nil z.2 (valuesAt z.1 zs)
      have number : x.1 = y.1 :=
        Nat.le_antisymm (first_le hx (same y.1 ▸ found y ys)) (first_le hy (same x.1 ▸ found x xs))
      have value : x.2 = y.2 := by
        have first := same x.1
        rw [valuesAt_cons, valuesAt_cons, if_pos rfl, if_pos number.symm] at first
        exact (List.cons.inj first).1
      obtain rfl : x = y := Prod.ext number value
      have rest : ∀ k, valuesAt k xs = valuesAt k ys := fun k => by
        have all := same k
        rw [valuesAt_cons, valuesAt_cons] at all
        exact List.append_cancel_left all
      rw [ih rest hx.of_cons hy.of_cons]

end ByNumber

/-! ## Tables of lists -/

namespace Table

/-- A table of lists is read by number. -/
theorem byNumber_rows (t : Table (List β)) :
    ByNumber (fun k => (t.get? k).getD []) (t.entries.flatMap fun row => row.2.map fun v => (row.1, v)) where
  ascending := by
    refine List.pairwise_flatMap.2 ⟨fun row _ => ?_, t.ascending.imp fun {a b} earlier => ?_⟩
    · exact List.pairwise_map.2 (List.pairwise_of_forall fun _ _ => le_rfl)
    · intro x hx y hy
      obtain ⟨_, -, rfl⟩ := List.mem_map.1 hx
      obtain ⟨_, -, rfl⟩ := List.mem_map.1 hy
      exact earlier.le
  values k := by
    have rows : ∀ entries : List (Nat × List β), entries.Pairwise (fun a b => a.1 < b.1) →
        valuesAt k (entries.flatMap fun row => row.2.map fun v => (row.1, v)) = (lookup k entries).getD [] := by
      intro entries
      induction entries with
      | nil => exact fun _ => rfl
      | cons first rest ih =>
        intro ascending
        obtain ⟨j, list⟩ := first
        obtain ⟨later, ascending⟩ := List.pairwise_cons.1 ascending
        rw [List.flatMap_cons, valuesAt_append, valuesAt_row, ih ascending, lookup]
        by_cases own : k = j
        · subst own
          have once : lookup k rest = none := lookup_eq_none fun row hrow => later row hrow
          rw [if_pos rfl, if_pos rfl, once, Option.getD_none, List.append_nil, Option.getD_some]
        · rw [if_neg (Ne.symm own), if_neg own, List.nil_append]
    exact rows t.entries t.ascending

/-- What the list under a number is worth, if it is as much as its values. -/
theorem worth_coe (o : Option (List β)) : worth (fun list : List β => (list : Multiset β)) o = (o.getD [] : List β) := by
  cases o <;> rfl

/-- Everything in a table of lists, whatever its number. -/
theorem coe_rowsOf (t : Table (List β)) :
    (((t.entries.flatMap fun row => row.2.map fun v => (row.1, v)).map Prod.snd : List β) : Multiset β) =
      t.total fun list : List β => (list : Multiset β) := by
  have rows : ∀ l : List (Nat × List β),
      (((l.flatMap fun row => row.2.map fun v => (row.1, v)).map Prod.snd : List β) : Multiset β) =
        (l.map fun row => ((row.2 : List β) : Multiset β)).sum := by
    intro l
    induction l with
    | nil => rfl
    | cons row rest ih =>
      have hrow : (row.2.map fun v => (row.1, v)).map Prod.snd = row.2 := by simp
      rw [List.flatMap_cons, List.map_append, ← Multiset.coe_add, ih, hrow, List.map_cons, List.sum_cons]
  rw [rows, total, values, List.map_map]
  rfl

end Table

end Mobility
