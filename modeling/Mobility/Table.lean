/-!
# Finite tables over numbers

Passengers by the stop where they leave, messages by the partition they go to, agents by the second
at which they are due: all of these are finite tables from a number to a value which are read in
ascending order of the number. A `Table` is that list, with its order carried by the type, so two
tables with the same look-ups are the same table (`Table.ext_get?`) and no statement about one needs
a side condition.

Every change goes through one single-pass operation, `Table.alter`, and one law, `get?_alter`.
-/

set_option autoImplicit false

namespace Mobility

/-- A finite table from numbers to values, in strictly ascending order of the numbers. -/
structure Table (β : Type) where
  entries : List (Nat × β)
  ascending : entries.Pairwise (fun a b => a.1 < b.1)
deriving DecidableEq

namespace Table

variable {β γ : Type}

/-! ## Rows of a table -/

/-- The value in the first row with number `k`. -/
def lookup (k : Nat) : List (Nat × β) → Option β
  | [] => none
  | (j, b) :: rest => if k = j then some b else lookup k rest

/-- Replaces the row `k` by what `f` makes of it, where `none` stands for a missing row. -/
def alterRows (k : Nat) (f : Option β → Option β) : List (Nat × β) → List (Nat × β)
  | [] => ((f none).map ((k, ·))).toList
  | (j, b) :: rest =>
    if k < j then ((f none).map ((k, ·))).toList ++ (j, b) :: rest
    else if k = j then ((f (some b)).map ((k, ·))).toList ++ rest
    else (j, b) :: alterRows k f rest

theorem fst_mem_alterRows {k : Nat} {f : Option β → Option β} {rows : List (Nat × β)}
    {row : Nat × β} (h : row ∈ alterRows k f rows) : row.1 = k ∨ row ∈ rows := by
  induction rows with
  | nil => simp only [alterRows, Option.mem_toList, Option.map_eq_some_iff] at h; grind
  | cons head rest ih =>
    obtain ⟨j, b⟩ := head
    simp only [alterRows] at h
    split at h
    · simp only [List.mem_append, Option.mem_toList, Option.map_eq_some_iff] at h; grind
    · split at h
      · simp only [List.mem_append, Option.mem_toList, Option.map_eq_some_iff] at h; grind
      · grind

theorem alterRows_ascending (k : Nat) (f : Option β → Option β) {rows : List (Nat × β)}
    (h : rows.Pairwise (fun a b => a.1 < b.1)) :
    (alterRows k f rows).Pairwise (fun a b => a.1 < b.1) := by
  induction rows with
  | nil => cases hf : f none <;> simp [alterRows, hf]
  | cons head rest ih =>
    obtain ⟨j, b⟩ := head
    rw [List.pairwise_cons] at h
    simp only [alterRows]
    split
    · rename_i hk
      cases hf : f none with
      | none => simpa using h
      | some c =>
        simp only [Option.map_some, Option.toList_some, List.singleton_append, List.pairwise_cons]
        exact ⟨fun row hrow => by
          rcases List.mem_cons.1 hrow with rfl | hrow
          · exact hk
          · exact Nat.lt_trans hk (h.1 row hrow), h⟩
    · split
      · rename_i hk
        subst hk
        cases hf : f (some b) with
        | none => simpa using h.2
        | some c => simpa using h
      · refine List.pairwise_cons.2 ⟨fun row hrow => ?_, ih h.2⟩
        rcases fst_mem_alterRows hrow with hk | hrow
        · omega
        · exact h.1 row hrow

theorem lookup_eq_none {k : Nat} {rows : List (Nat × β)} (h : ∀ row ∈ rows, k < row.1) :
    lookup k rows = none := by
  induction rows with
  | nil => rfl
  | cons head rest ih =>
    obtain ⟨j, b⟩ := head
    have hj : k < j := h (j, b) List.mem_cons_self
    rw [lookup, if_neg (by omega), ih fun row hrow => h row (List.mem_cons_of_mem _ hrow)]

theorem lookup_alterRows {k : Nat} {f : Option β → Option β} {rows : List (Nat × β)} {i : Nat}
    (h : rows.Pairwise (fun a b => a.1 < b.1)) :
    lookup i (alterRows k f rows) = if i = k then f (lookup k rows) else lookup i rows := by
  induction rows with
  | nil => cases hf : f none <;> simp [alterRows, lookup, hf]
  | cons head rest ih =>
    obtain ⟨j, b⟩ := head
    rw [List.pairwise_cons] at h
    have past : ∀ m, m ≤ j → lookup m rest = none := fun m hm =>
      lookup_eq_none fun row hrow => Nat.lt_of_le_of_lt hm (h.1 row hrow)
    simp only [alterRows]
    split
    · rename_i hk
      have hkj : k ≠ j := by omega
      cases hf : f none <;> simp [lookup, hkj, past k (by omega), hf]
      all_goals grind
    · split
      · rename_i hk
        subst hk
        cases hf : f (some b) <;> simp [lookup, hf]
        all_goals grind
      · rename_i hlt hne
        simp only [lookup, ih h.2, if_neg hne]
        grind

theorem mem_iff_lookup {k : Nat} {b : β} {rows : List (Nat × β)}
    (h : rows.Pairwise (fun a b => a.1 < b.1)) : (k, b) ∈ rows ↔ lookup k rows = some b := by
  induction rows with
  | nil => simp [lookup]
  | cons head rest ih =>
    obtain ⟨j, c⟩ := head
    rw [List.pairwise_cons] at h
    have past : lookup j rest = none := lookup_eq_none fun row hrow => h.1 row hrow
    simp only [List.mem_cons, Prod.mk.injEq, lookup, ih h.2]
    split
    · rename_i hk; subst hk; simp [past, eq_comm]
    · rename_i hk; simp [hk]

/-! ## Tables -/

/-- The table without rows. -/
def empty : Table β := ⟨[], List.Pairwise.nil⟩

instance : Inhabited (Table β) := ⟨empty⟩

/-- The value stored under `k`. -/
def get? (t : Table β) (k : Nat) : Option β := lookup k t.entries

/-- Replaces what is stored under `k` by what `f` makes of it. -/
def alter (t : Table β) (k : Nat) (f : Option β → Option β) : Table β :=
  ⟨alterRows k f t.entries, alterRows_ascending k f t.ascending⟩

/-- Stores `b` under `k`. -/
def insert (t : Table β) (k : Nat) (b : β) : Table β := t.alter k fun _ => some b

/-- Drops what is stored under `k`. -/
def erase (t : Table β) (k : Nat) : Table β := t.alter k fun _ => none

/-- Whether something is stored under `k`. -/
def contains (t : Table β) (k : Nat) : Bool := (t.get? k).isSome

/-- The numbers which have a value, in ascending order. -/
def keys (t : Table β) : List Nat := t.entries.map (·.1)

/-- The values in ascending order of their numbers. -/
def values (t : Table β) : List β := t.entries.map (·.2)

/-- Whether nothing is stored. -/
def isEmpty (t : Table β) : Bool := t.entries.isEmpty

/-- Applies `f` to every number and its value. -/
def mapRows (t : Table β) (f : Nat → β → γ) : Table γ :=
  ⟨t.entries.map fun row => (row.1, f row.1 row.2), by
    rw [List.pairwise_map]; exact t.ascending⟩

/-- Keeps the rows which satisfy `keep`. -/
def filter (t : Table β) (keep : Nat → β → Bool) : Table β :=
  ⟨t.entries.filter fun row => keep row.1 row.2, t.ascending.filter _⟩

@[simp] theorem get?_empty (k : Nat) : (empty : Table β).get? k = none := rfl

@[simp] theorem get?_alter (t : Table β) (k : Nat) (f : Option β → Option β) (i : Nat) :
    (t.alter k f).get? i = if i = k then f (t.get? k) else t.get? i :=
  lookup_alterRows t.ascending

@[simp] theorem get?_insert (t : Table β) (k : Nat) (b : β) (i : Nat) :
    (t.insert k b).get? i = if i = k then some b else t.get? i := by
  simp [insert]

@[simp] theorem get?_erase (t : Table β) (k i : Nat) :
    (t.erase k).get? i = if i = k then none else t.get? i := by
  simp [erase]

theorem mem_entries {t : Table β} {k : Nat} {b : β} : (k, b) ∈ t.entries ↔ t.get? k = some b :=
  mem_iff_lookup t.ascending

/-- A table is determined by its look-ups. -/
theorem ext_get? {s t : Table β} (h : ∀ k, s.get? k = t.get? k) : s = t := by
  have rows : ∀ {xs ys : List (Nat × β)}, xs.Pairwise (fun a b => a.1 < b.1) →
      ys.Pairwise (fun a b => a.1 < b.1) → (∀ k, lookup k xs = lookup k ys) → xs = ys := by
    intro xs
    induction xs with
    | nil =>
      intro ys _ _ same
      cases ys with
      | nil => rfl
      | cons head rest => simpa [lookup] using same head.1
    | cons x xs ih =>
      intro ys hx hy same
      cases ys with
      | nil => simpa [lookup] using same x.1
      | cons y ys =>
        have hx' := List.pairwise_cons.1 hx
        have hy' := List.pairwise_cons.1 hy
        have first : x.1 = y.1 := by
          rcases Nat.lt_trichotomy x.1 y.1 with lt | eq | gt
          · have absent : lookup x.1 (y :: ys) = none := by
              apply lookup_eq_none
              intro row hrow
              rcases List.mem_cons.1 hrow with rfl | hrow
              · exact lt
              · exact Nat.lt_trans lt (hy'.1 row hrow)
            have found := (same x.1).trans absent
            simp [lookup] at found
          · exact eq
          · have absent : lookup y.1 (x :: xs) = none := by
              apply lookup_eq_none
              intro row hrow
              rcases List.mem_cons.1 hrow with rfl | hrow
              · exact gt
              · exact Nat.lt_trans gt (hx'.1 row hrow)
            have found := (same y.1).symm.trans absent
            simp [lookup] at found
        have value : x.2 = y.2 := by
          have := same x.1
          simpa [lookup, first] using this
        have tails : xs = ys := by
          apply ih hx'.2 hy'.2
          intro k
          by_cases hk : k = x.1
          · have left : lookup k xs = none := lookup_eq_none fun row hrow => hk ▸ hx'.1 row hrow
            have right : lookup k ys = none := by
              apply lookup_eq_none
              intro row hrow
              rw [hk, first]
              exact hy'.1 row hrow
            rw [left, right]
          · have := same k
            simpa [lookup, hk, ← first] using this
        rw [tails, Prod.ext first value]
  cases s; cases t
  simp only [Table.mk.injEq]
  exact rows (by assumption) (by assumption) h

end Table

end Mobility
