import Mathlib.Data.List.Induction
import Mobility.Agenda
import Mobility.Proofs.Listing

/-!
# An agenda is a list of values with their seconds

Whatever was done with an agenda, it can be told from the list of what was added to it (`Agenda.additions`), each
value with its second, and the next second to visit. The visits gave what was added for their seconds, in order of
addition; what is pending is what was added for a second of the horizon which isn't visited yet, by second and then
in order of addition; and what was added for a second after the horizon is kept aside (`Agenda.used_as_list`).
-/

set_option autoImplicit false

namespace Mobility.Agenda

variable {α : Type} {start stop now time : Nat} {value : α} {values : List α} {a b : Agenda α}

/-! ## Histories -/

/-- What is done with an agenda, with what a visit gives. -/
inductive Use (α : Type) where
  | adds (value : α) (time : Nat)
  | visits (now : Nat) (values : List α)

namespace Use

def addition : Use α → List (Nat × α)
  | .adds value time => [(time, value)]
  | .visits .. => []

def taking : Use α → List (Nat × List α)
  | .adds .. => []
  | .visits now values => [(now, values)]

end Use

/-- What was added, each value with its second, in order of addition. -/
def additions (uses : List (Use α)) : List (Nat × α) := uses.flatMap Use.addition

/-- The seconds which were visited, each with what was due, in order. -/
def takings (uses : List (Use α)) : List (Nat × List α) := uses.flatMap Use.taking

/-- An agenda for the seconds from `start` to `stop`, with everything that was done with it. -/
inductive Used (start stop : Nat) : List (Use α) → Agenda α → Prop
  | made {a : Agenda α} (make : make start stop = .ok a) : Used start stop [] a
  | adds {uses : List (Use α)} {a b : Agenda α} {value : α} {time : Nat} (before : Used start stop uses a)
      (add : a.add value time = .ok b) : Used start stop (uses ++ [.adds value time]) b
  | visits {uses : List (Use α)} {a b : Agenda α} {now : Nat} {values : List α} (before : Used start stop uses a)
      (visit : a.visit now = .ok (values, b)) : Used start stop (uses ++ [.visits now values]) b

variable {uses : List (Use α)}

theorem additions_concat (uses : List (Use α)) (use : Use α) :
    additions (uses ++ [use]) = additions uses ++ use.addition := by
  simp [additions]

theorem takings_concat (uses : List (Use α)) (use : Use α) : takings (uses ++ [use]) = takings uses ++ use.taking := by
  simp [takings]

/-! ## What an agenda holds -/

theorem length_pending (a : Agenda α) : a.pending.length = a.due.total List.length := by
  simp [pending, Table.total, Table.values, List.length_flatMap, Function.comp_def]

theorem worth_length (o : Option (List α)) : Table.worth List.length o = (o.getD []).length := by
  cases o <;> rfl

/-- What an agenda holds after everything that was done with it. -/
structure Holding (start stop : Nat) (uses : List (Use α)) (a : Agenda α) : Prop where
  horizon : a.stop = stop
  begun : start ≤ a.next
  inTime : ∀ row ∈ additions uses, start ≤ row.1
  rows : ∀ t, (a.due.get? t).getD [] =
    if a.next ≤ t ∧ t ≤ stop then valuesAt t (additions uses) else []
  size : a.size = a.pending.length
  beyond : a.beyond = ((additions uses).filter fun row => stop < row.1).map Prod.snd
  visited : takings uses = (List.range' start (a.next - start)).map fun t =>
    (t, if t ≤ stop then valuesAt t (additions uses) else [])

namespace Holding

theorem made (h : make start stop = .ok a) : Holding start stop [] a := by
  unfold make at h
  split at h
  · cases h
    refine ⟨rfl, Nat.le_refl start, fun row hrow => (nomatch hrow), fun t => ?_, rfl, rfl, ?_⟩
    · exact (ite_self []).symm
    · show [] = (List.range' start (start - start)).map _
      rw [Nat.sub_self]
      rfl
  · cases h

theorem add (h : Holding start stop uses a) (added : a.add value time = .ok b) :
    Holding start stop (uses ++ [.adds value time]) b := by
  obtain ⟨unvisited, cases⟩ := add_cases added
  have kept : b.stop = a.stop ∧ b.next = a.next := by
    rcases cases with ⟨-, rfl⟩ | ⟨-, rfl⟩ <;> exact ⟨rfl, rfl⟩
  obtain ⟨sameStop, sameNext⟩ := kept
  have news : additions (uses ++ [.adds value time]) = additions uses ++ [(time, value)] := additions_concat ..
  -- no second which is visited already gets the value
  have others : ∀ t, t ≠ time → valuesAt t (additions uses ++ [(time, value)]) = valuesAt t (additions uses) :=
    fun t other => by rw [valuesAt_append, valuesAt_singleton, if_neg (Ne.symm other), List.append_nil]
  have own : valuesAt time (additions uses ++ [(time, value)]) = valuesAt time (additions uses) ++ [value] := by
    rw [valuesAt_append, valuesAt_singleton, if_pos rfl]
  refine ⟨sameStop.trans h.horizon, sameNext ▸ h.begun, fun row hrow => ?_, fun t => ?_, ?_, ?_, ?_⟩
  · rw [news] at hrow
    rcases List.mem_append.1 hrow with hrow | hrow
    · exact h.inTime row hrow
    · rw [List.mem_singleton.1 hrow]
      exact Nat.le_trans h.begun unvisited
  · rw [news, sameNext]
    rcases cases with ⟨within, rfl⟩ | ⟨past, rfl⟩
    · rw [Table.get?_alter]
      by_cases ht : t = time
      · subst ht
        have due : a.next ≤ t ∧ t ≤ stop := ⟨unvisited, h.horizon ▸ within⟩
        rw [if_pos rfl, Option.getD_some, h.rows, if_pos due, if_pos due, own]
      · rw [if_neg ht, h.rows, others t ht]
    · rw [h.horizon] at past
      rw [h.rows]
      by_cases ht : t = time
      · have late : ¬(a.next ≤ t ∧ t ≤ stop) := by omega
        rw [if_neg late, if_neg late]
      · rw [others t ht]
  · rw [length_pending]
    rcases cases with ⟨-, rfl⟩ | ⟨-, rfl⟩
    · have total := Table.total_add (g := (· ++ [value])) (b := []) List.length (fun _ => List.length_append) rfl
        a.due time
      rw [← length_pending, ← h.size] at total
      exact total.symm
    · rw [← length_pending]
      exact h.size
  · rw [news, List.filter_append, List.map_append, ← h.beyond, List.filter_singleton]
    rcases cases with ⟨within, rfl⟩ | ⟨past, rfl⟩
    · rw [h.horizon] at within
      simp [Nat.not_lt.2 within]
    · rw [h.horizon] at past
      simp [past]
  · rw [takings_concat, news, sameNext, Use.taking, List.append_nil, h.visited]
    refine List.map_congr_left fun t ht => ?_
    have before := (List.mem_range'_1.1 ht).2
    have begun := h.begun
    rw [others t (by omega)]

theorem visit (h : Holding start stop uses a) (visited : a.visit now = .ok (values, b)) :
    Holding start stop (uses ++ [.visits now values]) b := by
  obtain ⟨rfl, -, rfl, rfl⟩ := visit_cases visited
  have same : additions (uses ++ [.visits a.next ((a.due.get? a.next).getD [])]) = additions uses := by
    rw [additions_concat]
    exact List.append_nil _
  refine ⟨h.horizon, Nat.le_succ_of_le h.begun, fun row hrow => ?_, fun t => ?_, ?_, ?_, ?_⟩
  · exact h.inTime row (same ▸ hrow)
  · rw [same]
    show ((a.due.erase a.next).get? t).getD [] = if a.next + 1 ≤ t ∧ t ≤ stop then _ else []
    rw [Table.get?_erase]
    by_cases ht : t = a.next
    · rw [if_pos ht, if_neg (by omega)]
      rfl
    · have later : a.next ≤ t ∧ t ≤ stop ↔ a.next + 1 ≤ t ∧ t ≤ stop := by omega
      rw [if_neg ht, h.rows]
      simp only [later]
  · have total := a.due.total_erase List.length a.next
    rw [worth_length, ← length_pending, ← h.size] at total
    rw [length_pending]
    show a.size - _ = (a.due.erase a.next).total List.length
    omega
  · rw [same]
    exact h.beyond
  · have longer : a.next + 1 - start = (a.next - start) + 1 := by
      have := h.begun
      omega
    have last : start + (a.next - start) = a.next := Nat.add_sub_of_le h.begun
    have now : (a.due.get? a.next).getD [] = if a.next ≤ stop then valuesAt a.next (additions uses) else [] := by
      rw [h.rows]
      simp only [Nat.le_refl, true_and]
    rw [takings_concat, same, h.visited, Use.taking]
    show _ = (List.range' start (a.next + 1 - start)).map _
    rw [longer, List.range'_1_concat, List.map_append, last, now]
    rfl

end Holding

theorem Used.holding (h : Used start stop uses a) : Holding start stop uses a := by
  induction h with
  | made make => exact .made make
  | adds _ add ih => exact ih.add add
  | visits _ visit ih => exact ih.visit visit

/-- Nothing that was added for the horizon is lost or taken twice. -/
theorem Holding.conserved (h : Holding start stop uses a) : ((additions uses).filter fun row => row.1 ≤ stop).Perm
    (((takings uses).flatMap fun taking => taking.2.map fun v => (taking.1, v)) ++ a.pending) := by
  refine perm_of_valuesAt fun t => ?_
  have added : valuesAt t ((additions uses).filter fun row => row.1 ≤ stop) =
      if t ≤ stop then valuesAt t (additions uses) else [] := by
    unfold valuesAt
    rw [List.filter_filter]
    split
    · rename_i within
      refine congrArg (List.map Prod.snd) (List.filter_congr fun row _ => ?_)
      by_cases ht : row.1 = t <;> simp [ht, within]
    · rename_i past
      rw [List.map_eq_nil_iff, List.filter_eq_nil_iff]
      intro row _ both
      simp only [Bool.and_eq_true, decide_eq_true_eq] at both
      omega
  have pending : valuesAt t a.pending = if a.next ≤ t ∧ t ≤ stop then valuesAt t (additions uses) else [] :=
    (a.due.byNumber_rows.values t).trans (h.rows t)
  have nothing : t < start → valuesAt t (additions uses) = [] := fun early => by
    rw [valuesAt, List.map_eq_nil_iff, List.filter_eq_nil_iff]
    intro row hrow same
    rw [decide_eq_true_eq] at same
    have := h.inTime row hrow
    omega
  rw [added, valuesAt_append, pending, h.visited, List.flatMap_map,
    valuesAt_rows List.nodup_range' fun t => if t ≤ stop then valuesAt t (additions uses) else []]
  have begun := h.begun
  by_cases within : t ≤ stop
  · rw [if_pos within]
    rcases Nat.lt_or_ge t start with early | late
    · rw [nothing early]
      simp
    · by_cases visited : t < a.next
      · rw [if_pos (List.mem_range'_1.2 ⟨late, by omega⟩), if_neg (by omega), List.append_nil]
      · rw [if_neg (fun there => visited (by have := (List.mem_range'_1.1 there).2; omega)),
          if_pos ⟨Nat.le_of_not_lt visited, within⟩, List.nil_append]
  · have late : ¬(a.next ≤ t ∧ t ≤ stop) := fun both => within both.2
    rw [if_neg within, if_neg late, ite_self]
    rfl

/-- What is pending doesn't depend on how values for different seconds were added in turn, or on when they were. -/
theorem Used.same_pending {uses' : List (Use α)} (h : Used start stop uses a) (h' : Used start stop uses' b)
    (next : a.next = b.next) (same : ∀ t, valuesAt t (additions uses) = valuesAt t (additions uses')) :
    a.pending = b.pending := by
  have listed := a.due.byNumber_rows
  refine ByNumber.unique ⟨listed.ascending, fun t => (listed.values t).trans ?_⟩ b.due.byNumber_rows
  rw [h.holding.rows, h'.holding.rows, next, same]

/-- Setting up a partition with values which are due at the start is adding them one after another. -/
theorem used_starting (ordered : start ≤ stop) (values : List α) :
    Used start stop (values.map fun v => .adds v start) (starting start stop values) := by
  induction values using List.reverseRecOn with
  | nil => exact .made (if_pos ordered)
  | append_singleton values v ih =>
    rw [List.map_append]
    refine ih.adds ?_
    have first : (starting start stop values).next = start ∧ (starting start stop values).stop = stop := by
      unfold starting
      split <;> exact ⟨rfl, rfl⟩
    have more : (values ++ [v]).isEmpty = false := by simp
    rw [add, first.1, first.2, if_neg (Nat.lt_irrefl start), if_pos ordered]
    unfold starting
    rw [more]
    cases values with
    | nil => rfl
    | cons w rest =>
      have rows : (Table.empty.insert start (w :: rest)).alter start (fun list => some (list.getD [] ++ [v])) =
          Table.empty.insert start (w :: rest ++ [v]) := by
        refine Table.ext_get? fun t => ?_
        by_cases ht : t = start <;> simp [ht]
      simp [rows, vacant]

/-- However an agenda was used: the seconds from its start were visited in order, each once, and a second of the
horizon gave what was added for it, in order of addition, and a later second nothing. What is pending is what was
added for the other seconds of the horizon, by second and then in order of addition, and the size counts it; once
the horizon has passed this is nothing. What was added for a second after the horizon is kept aside, in order of
addition. So whatever was added for the horizon was taken once or is pending. A value is refused for the seconds that
are visited already only, and a visit for all seconds but the next one, and for that if no second follows. -/
theorem used_as_list (h : Used start stop uses a) :
    start ≤ a.next ∧
    takings uses = (List.range' start (a.next - start)).map (fun t =>
      (t, if t ≤ stop then valuesAt t (additions uses) else [])) ∧
    ByNumber (fun t => if a.next ≤ t ∧ t ≤ stop then valuesAt t (additions uses) else []) a.pending ∧
    a.size = a.pending.length ∧
    (stop < a.next → a.pending = []) ∧
    a.beyond = ((additions uses).filter fun row => stop < row.1).map Prod.snd ∧
    ((additions uses).filter fun row => row.1 ≤ stop).Perm
      (((takings uses).flatMap fun taking => taking.2.map fun v => (taking.1, v)) ++ a.pending) ∧
    (∀ value time f, a.add value time = .error f ↔ time < a.next ∧ f = .secondVisited time a.next) ∧
    ∀ now f, a.visit now = .error f ↔
      now ≠ a.next ∧ f = .secondOutOfOrder ∨ now = a.next ∧ Clock.last ≤ now ∧ f = .pastLastSecond := by
  have holding := h.holding
  have listed := a.due.byNumber_rows
  refine ⟨holding.begun, holding.visited, ⟨listed.ascending, fun t => (listed.values t).trans (holding.rows t)⟩,
    holding.size, fun passed => ?_, holding.beyond, holding.conserved, fun _ _ _ => add_eq_error,
    fun _ _ => visit_eq_error⟩
  refine ByNumber.nil_of_none fun t => ((listed.values t).trans (holding.rows t)).trans (if_neg ?_)
  omega

/-- Of five values two are due in second 4, in the order in which they were added, and one is due after the horizon,
which no visit gives. -/
theorem used_as_list_past_horizon :
    let uses : List (Use Nat) := [.adds 10 4, .adds 20 2, .adds 30 4, .visits 2 [20], .adds 40 9, .visits 3 [],
      .visits 4 [10, 30], .visits 5 []]
    ∃ a, Used 2 4 uses a ∧ takings uses = [(2, [20]), (3, []), (4, [10, 30]), (5, [])] ∧ a.pending = [] ∧
      a.beyond = [40] ∧ (∃ f, a.add 50 5 = .error f) ∧ ∃ f, a.visit 7 = .error f := by
  intro uses
  have made : Used 2 4 [] (vacant 2 4 : Agenda Nat) := .made rfl
  have filled : Used 2 4 [.adds 10 4, .adds 20 2, .adds 30 4] _ := ((made.adds rfl).adds rfl).adds rfl
  have visited : Used 2 4 uses _ := ((((filled.visits rfl).adds rfl).visits rfl).visits rfl).visits rfl
  obtain ⟨-, taken, -, -, past, beyond, -, refused, skipped⟩ := used_as_list visited
  exact ⟨_, visited, taken, past (by decide), beyond, ⟨_, (refused 50 5 _).2 ⟨by decide, rfl⟩⟩,
    ⟨_, (skipped 7 _).2 (.inl ⟨by decide, rfl⟩)⟩⟩

end Mobility.Agenda
