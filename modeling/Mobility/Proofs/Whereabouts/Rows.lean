import Mobility.Proofs.Census.Seconds

/-!
# Rows

What is due stands in rows, one for each second, and passengers sit and wait in rows, one for each
index where they leave. For each of these tables one lemma says who is in a row after an operation.
-/

set_option autoImplicit false

namespace Mobility

namespace Table

variable {t : Table (List Nat)} {k x : Nat}

/-- The list under a number. It is empty if nothing is stored there. -/
def row (t : Table (List Nat)) (k : Nat) : List Nat := (t.get? k).getD []

theorem mem_row : x ∈ t.row k ↔ ∃ list, t.get? k = some list ∧ x ∈ list := by
  unfold row
  cases t.get? k <;> simp

/-- Whoever is counted is counted under some number. -/
theorem mem_total {β : Type} {f : β → Multiset Nat} {t : Table β} :
    x ∈ t.total f ↔ ∃ k b, t.get? k = some b ∧ x ∈ f b := by
  rw [total, mem_sum_map]
  constructor
  · rintro ⟨b, value, hx⟩
    obtain ⟨⟨k, _⟩, entry, rfl⟩ := List.mem_map.1 value
    exact ⟨k, _, mem_entries.1 entry, hx⟩
  · rintro ⟨k, b, found, hx⟩
    exact ⟨b, List.mem_map_of_mem (f := Prod.snd) (mem_entries.2 found), hx⟩

theorem mem_listed : x ∈ t.listed ↔ ∃ k, x ∈ t.row k := by
  simp only [listed, mem_total, mem_row, Multiset.mem_coe]

theorem row_append (t : Table (List Nat)) (k id i : Nat) :
    (t.alter k fun list => some (list.getD [] ++ [id])).row i =
      t.row i ++ if i = k then [id] else [] := by
  unfold row
  rw [get?_alter]
  split
  · rename_i own
    rw [own]
    rfl
  · rw [List.append_nil]

theorem mem_row_append {id i : Nat} :
    x ∈ (t.alter k fun list => some (list.getD [] ++ [id])).row i ↔ x ∈ t.row i ∨ i = k ∧ x = id := by
  rw [row_append]
  split <;> simp_all

theorem row_erase (t : Table (List Nat)) (k i : Nat) : (t.erase k).row i = if i = k then [] else t.row i := by
  unfold row
  rw [get?_erase]
  split <;> rfl

theorem mem_row_erase {i : Nat} (h : x ∈ (t.erase k).row i) : x ∈ t.row i ∧ i ≠ k := by
  rw [row_erase] at h
  split at h
  · cases h
  · exact ⟨h, ‹_›⟩

theorem get?_filter {β : Type} (t : Table β) (keep : Nat → β → Bool) (k : Nat) :
    (t.filter keep).get? k = (t.get? k).filter (keep k) := by
  ext b
  rw [← mem_entries, Option.filter_eq_some_iff, ← mem_entries]
  exact List.mem_filter

theorem mem_filter_rows {rows : List (Nat × Nat)} :
    x ∈ (rows.filter fun row => row.1 = k).map Prod.snd ↔ (k, x) ∈ rows := by
  rw [List.mem_map]
  constructor
  · rintro ⟨⟨j, y⟩, listed, rfl⟩
    obtain ⟨there, own⟩ := List.mem_filter.1 listed
    obtain rfl : j = k := of_decide_eq_true own
    exact there
  · intro listed
    exact ⟨(k, x), List.mem_filter.2 ⟨listed, decide_eq_true rfl⟩, rfl⟩

/-- A row, taken from everybody with the numbers of their rows. -/
theorem filter_rows (t : Table (List Nat)) (k : Nat) :
    ((t.entries.flatMap fun row => row.2.map fun id => (row.1, id)).filter fun x => x.1 = k).map Prod.snd =
      t.row k := t.byNumber_rows.values k

/-- Everybody in a row, with the number of the row. -/
theorem mem_rows :
    (k, x) ∈ (t.entries.flatMap fun row => row.2.map fun id => (row.1, id)) ↔ x ∈ t.row k := by
  rw [List.mem_flatMap, mem_row]
  refine ⟨fun ⟨⟨i, list⟩, hrow, hx⟩ => ?_, fun ⟨list, found, hx⟩ => ?_⟩
  · obtain ⟨y, hy, same⟩ := List.mem_map.1 hx
    cases same
    exact ⟨list, mem_entries.1 hrow, hy⟩
  · exact ⟨(k, list), mem_entries.2 found, List.mem_map.2 ⟨x, hx, rfl⟩⟩

end Table

/-! ## Agendas -/

namespace Agenda

variable {a b : Agenda Nat} {id x now time t : Nat}

/-- The agenda has these values more, due at `time` behind the others who are due then, and is the same otherwise. -/
structure Gains (a : Agenda Nat) (ids : List Nat) (time : Nat) (b : Agenda Nat) : Prop where
  rows : ∀ t, b.due.row t = a.due.row t ++ if t = time ∧ time ≤ a.stop then ids else []
  beyond : b.beyond = a.beyond ++ if a.stop < time then ids else []
  size : b.size = a.size + if time ≤ a.stop then ids.length else 0
  stop : b.stop = a.stop
  next : b.next = a.next

theorem Gains.nothing (a : Agenda Nat) (time : Nat) : a.Gains [] time a where
  rows t := by simp
  beyond := by simp
  size := by simp
  stop := rfl
  next := rfl

theorem Gains.append {c : Agenda Nat} {ids more : List Nat} (h : a.Gains ids time b) (k : b.Gains more time c) :
    a.Gains (ids ++ more) time c where
  rows t := by
    rw [k.rows, h.rows, h.stop, List.append_assoc]
    split <;> rfl
  beyond := by
    rw [k.beyond, h.beyond, h.stop, List.append_assoc]
    split <;> rfl
  size := by
    rw [k.size, h.size, h.stop]
    split
    · rw [List.length_append, Nat.add_assoc]
    · rfl
  stop := k.stop.trans h.stop
  next := k.next.trans h.next

theorem gains_add (h : a.add id time = .ok b) : a.Gains [id] time b := by
  obtain ⟨-, ⟨early, rfl⟩ | ⟨late, rfl⟩⟩ := add_cases h
  · refine ⟨fun t => ?_, ?_, ?_, rfl, rfl⟩
    · simp only [Table.row_append, early, and_true]
    · simp only [Nat.not_lt.2 early, if_false, List.append_nil]
    · simp only [early, if_true, List.length_singleton]
  · refine ⟨fun t => ?_, ?_, ?_, rfl, rfl⟩
    · simp only [Nat.not_le.2 late, and_false, if_false, List.append_nil]
    · simp only [late, if_true]
    · simp only [Nat.not_le.2 late, if_false, Nat.add_zero]

/-- Whoever is due after an addition was due before, or is the one who is added. -/
theorem mem_row_add (h : a.add id time = .ok b) (hx : x ∈ b.due.row t) :
    x ∈ a.due.row t ∨ t = time ∧ x = id := by
  obtain ⟨-, ⟨-, rfl⟩ | ⟨-, rfl⟩⟩ := add_cases h
  · exact Table.mem_row_append.1 hx
  · exact .inl hx

theorem mem_beyond_add (h : a.add id time = .ok b) (hx : x ∈ b.beyond) :
    x ∈ a.beyond ∨ a.stop < time ∧ x = id := by
  obtain ⟨-, ⟨-, rfl⟩ | ⟨late, rfl⟩⟩ := add_cases h
  · exact .inl hx
  · exact (List.mem_append.1 hx).imp_right fun hx => ⟨late, List.mem_singleton.1 hx⟩

theorem stop_add (h : a.add id time = .ok b) : b.stop = a.stop := by
  obtain ⟨-, ⟨-, rfl⟩ | ⟨-, rfl⟩⟩ := add_cases h <;> rfl

theorem mem_held : x ∈ a.held ↔ (∃ t, x ∈ a.due.row t) ∨ x ∈ a.beyond := by
  rw [held, Multiset.mem_add, Table.mem_listed, Multiset.mem_coe]

end Agenda

/-! ## Seats -/

namespace Seats

variable {s t : Seats} {index i x : Nat}

theorem mem_carried : (i, x) ∈ s.carried ↔ x ∈ s.passengers.row i := Table.mem_rows

theorem mem_row_egress {leaving : List Nat} (h : s.egress index = .ok (leaving, t)) :
    leaving = s.passengers.row index ∧ (x ∈ t.passengers.row i → x ∈ s.passengers.row i) := by
  obtain ⟨rfl, -, rfl⟩ := egress_eq_ok h
  exact ⟨rfl, fun hx => (Table.mem_row_erase hx).1⟩

/-- Whoever is seated sits behind the others who leave at the same index. -/
theorem row_seat (passengers : Table (List Nat)) (row : Nat × Nat) (j : Nat) :
    (seat passengers row.1 row.2).row j =
      passengers.row j ++ ([row].filter fun x => x.1 = j).map Prod.snd := by
  refine (Table.row_append ..).trans ?_
  by_cases own : row.1 = j
  · simp [own]
  · simp [own, Ne.symm own]

/-- Passengers who are seated sit in the order in which they are listed. -/
theorem row_replace {passengers : List (Nat × Nat)} (h : s.replace passengers = some t) (i : Nat) :
    t.passengers.row i = (passengers.filter fun x => x.1 = i).map Prod.snd := by
  obtain ⟨-, rfl⟩ := replace_eq_some h
  have fold : ∀ (rows : List (Nat × Nat)) (t : Table (List Nat)),
      (rows.foldl (fun t p => seat t p.1 p.2) t).row i =
        t.row i ++ (rows.filter fun x => x.1 = i).map Prod.snd := by
    intro rows
    induction rows with
    | nil => intro t; simp
    | cons first rest ih =>
      intro t
      rw [List.foldl_cons, ih, row_seat, List.append_assoc, ← List.map_append, ← List.filter_append]
      rfl
  exact fold passengers .empty

theorem mem_row_replace {passengers : List (Nat × Nat)} (h : s.replace passengers = some t) :
    x ∈ t.passengers.row i ↔ (i, x) ∈ passengers := by
  rw [row_replace h]
  exact Table.mem_filter_rows

/-- The seats of those who leave are free, and everybody else has kept the seat. -/
theorem row_egress {leaving : List Nat} (h : s.egress index = .ok (leaving, t)) (j : Nat) :
    t.passengers.row j = if j = index then [] else s.passengers.row j := by
  obtain ⟨-, -, rfl⟩ := egress_eq_ok h
  exact Table.row_erase ..

/-- Whoever boards sits behind the others who leave at the same index. -/
theorem Admits.row {queue boarded : List (Nat × Nat)} (h : Admits queue s boarded t) (j : Nat) :
    t.passengers.row j = s.passengers.row j ++ (boarded.filter fun x => x.1 = j).map Prod.snd := by
  induction h with
  | nobody | refused => exact (List.append_nil _).symm
  | @admitted s t u index id rest boarded free later ih =>
    obtain ⟨-, rfl⟩ := access_eq_some free
    have seated := row_seat s.passengers (index, id) j
    rw [ih, seated, List.append_assoc, ← List.map_append, ← List.filter_append]
    rfl

/-- Whoever sits in a vehicle after boarding has sat there before, or has boarded. -/
theorem Admits.mem_row {queue boarded : List (Nat × Nat)} (h : Admits queue s boarded t)
    (hx : x ∈ t.passengers.row i) : x ∈ s.passengers.row i ∨ (i, x) ∈ boarded := by
  rw [h.row, List.mem_append] at hx
  exact hx.imp_right Table.mem_filter_rows.1

/-- As many board as there are free seats, if so many want to. -/
theorem Admits.boarded {queue boarded : List (Nat × Nat)} (h : Admits queue s boarded t) :
    boarded = queue.take (s.capacity - s.taken) ∧ t.taken = s.taken + boarded.length := by
  induction h with
  | nobody => exact ⟨List.take_nil.symm, rfl⟩
  | @refused s index id rest full =>
    have taken : s.capacity - s.taken = 0 := by
      unfold access at full
      split at full
      · cases full
      · omega
    rw [taken]
    exact ⟨rfl, rfl⟩
  | @admitted s t u index id rest boarded free later ih =>
    obtain ⟨room, rfl⟩ := access_eq_some free
    obtain ⟨first, taken⟩ := ih
    have one : s.capacity - s.taken = s.capacity - (s.taken + 1) + 1 := by omega
    refine ⟨?_, ?_⟩
    · rw [one, List.take_succ_cons, ← first]
    · rw [taken, List.length_cons, Nat.add_assoc, Nat.add_comm 1]

theorem mem_riders : x ∈ s.riders ↔ ∃ i, x ∈ s.passengers.row i := Table.mem_listed

end Seats

/-! ## Stops -/

namespace Platforms

variable {p q : Platforms} {stop route index id x a b c : Nat}

/-- Those who wait at a stop for a route and leave at an index. -/
def row (p : Platforms) (stop route index : Nat) : List Nat := (p.queuesOf stop route).row index

/-- Whoever is added waits behind the others who leave at the same index. -/
theorem row_add (p : Platforms) (stop route index id a b c : Nat) : (p.add stop route index id).row a b c =
    p.row a b c ++ if a = stop ∧ b = route ∧ c = index then [id] else [] := by
  have queues : (p.add stop route index id).queuesOf a b =
      if a = stop ∧ b = route then
        (p.queuesOf a b).alter index fun queue => some (queue.getD [] ++ [id])
      else p.queuesOf a b := by
    unfold queuesOf add
    rw [Table.get?_alter]
    by_cases atStop : a = stop
    · subst atStop
      rw [if_pos rfl, Option.bind_some, Table.get?_alter]
      by_cases onRoute : b = route
      · subst onRoute
        rw [if_pos rfl, if_pos ⟨rfl, rfl⟩]
        cases p.queues.get? a <;> rfl
      · rw [if_neg onRoute, if_neg fun h => onRoute h.2]
        cases p.queues.get? a <;> rfl
    · rw [if_neg atStop, if_neg fun h => atStop h.1]
  unfold row
  rw [queues]
  by_cases own : a = stop ∧ b = route
  · rw [if_pos own, Table.row_append]
    simp only [own, true_and]
  · rw [if_neg own, if_neg fun h => own ⟨h.1, h.2.1⟩, List.append_nil]

theorem mem_row_add (h : x ∈ (p.add stop route index id).row a b c) :
    x ∈ p.row a b c ∨ a = stop ∧ b = route ∧ c = index ∧ x = id := by
  rw [row_add] at h
  split at h
  · rename_i own
    rw [List.mem_append, List.mem_singleton] at h
    exact h.imp_right fun same => ⟨own.1, own.2.1, own.2.2, same⟩
  · rw [List.append_nil] at h
    exact .inl h

theorem mem_everybody : x ∈ p.everybody ↔ ∃ stop route index, x ∈ p.row stop route index := by
  simp only [everybody, Table.mem_total, Table.mem_listed, row, queuesOf]
  constructor
  · rintro ⟨stop, routes, atStop, route, queues, onRoute, index, hx⟩
    refine ⟨stop, route, index, ?_⟩
    rw [atStop, Option.bind_some, onRoute]
    exact hx
  · rintro ⟨stop, route, index, hx⟩
    cases found : (p.queues.get? stop).bind (·.get? route) with
    | none =>
      rw [found] at hx
      cases hx
    | some queues =>
      rw [found] at hx
      obtain ⟨routes, atStop, onRoute⟩ := Option.bind_eq_some_iff.1 found
      exact ⟨stop, routes, atStop, route, queues, onRoute, index, hx⟩

theorem mem_waiting {queues : Table (List Nat)} {fromIndex : Nat} (h : (index, x) ∈ waiting queues fromIndex) :
    fromIndex ≤ index ∧ x ∈ queues.row index := by
  obtain ⟨⟨i, list⟩, hrow, hx⟩ := List.mem_flatMap.1 h
  obtain ⟨y, hy, same⟩ := List.mem_map.1 hx
  cases same
  obtain ⟨hrow, later⟩ := List.mem_filter.1 hrow
  exact ⟨of_decide_eq_true later, Table.mem_row.2 ⟨list, Table.mem_entries.1 hrow, hy⟩⟩

theorem row_without (queues : Table (List Nat)) (boarded : List (Nat × Nat)) (index : Nat) :
    (without queues boarded).row index = (queues.row index).drop (boarded.countP (·.1 = index)) := by
  unfold without Table.row
  rw [Table.get?_filter, Table.get?_mapRows]
  cases queues.get? index with
  | none => exact List.drop_nil.symm
  | some queue =>
    rw [Option.map_some, Option.getD_some, Option.filter_some]
    split
    · rfl
    · rename_i nobody
      exact (by simpa using nobody : queue.drop _ = []).symm

/-- Those who leave at an index are asked in the order of their row. -/
theorem filter_waiting (queues : Table (List Nat)) (fromIndex index : Nat) :
    ((waiting queues fromIndex).filter fun x => x.1 = index).map Prod.snd =
      if fromIndex ≤ index then queues.row index else [] := by
  have rows := Table.filter_rows (queues.filter fun k _ => fromIndex ≤ k) index
  refine rows.trans ?_
  unfold Table.row
  rw [Table.get?_filter]
  by_cases later : fromIndex ≤ index
  · cases queues.get? index <;> simp [later, Option.filter]
  · simp [later]

/-- Whoever leaves at an earlier stop is asked first. -/
theorem ascending_waiting (queues : Table (List Nat)) (fromIndex : Nat) :
    (waiting queues fromIndex).Pairwise fun a b => a.1 ≤ b.1 := by
  unfold waiting
  refine List.pairwise_flatMap.2 ⟨fun row _ => ?_, (queues.ascending.filter _).imp fun {a b} earlier => ?_⟩
  · exact List.pairwise_map.2 (List.pairwise_of_forall fun _ _ => le_rfl)
  · intro x hx y hy
    obtain ⟨_, -, rfl⟩ := List.mem_map.1 hx
    obtain ⟨_, -, rfl⟩ := List.mem_map.1 hy
    exact earlier.le

/-- The first ones in a row have boarded, and the others still wait in their order. -/
theorem row_eq_boarded {queues : Table (List Nat)} {boarded : List (Nat × Nat)} {fromIndex : Nat}
    (h : boarded <+: waiting queues fromIndex) (index : Nat) :
    queues.row index = (boarded.filter fun x => x.1 = index).map Prod.snd ++ (without queues boarded).row index := by
  have first : (boarded.filter fun x => x.1 = index).map Prod.snd <+: queues.row index := by
    refine ((h.filter _).map Prod.snd).trans ?_
    rw [filter_waiting]
    split
    · exact List.prefix_rfl
    · exact List.nil_prefix
  rw [row_without, List.countP_eq_length_filter]
  have rest := List.prefix_iff_eq_append.1 first
  rw [List.length_map] at rest
  exact rest.symm

/-- Boarding only changes the queues of the route at the stop. -/
theorem queuesOf_board {boarded : List (Nat × Nat)}
    (hq : q.queues = p.queues.alter stop fun routes => routes.map fun routes =>
      routes.alter route fun queues => queues.map fun queues => without queues boarded) (a b : Nat) :
    q.queuesOf a b = if a = stop ∧ b = route then without (p.queuesOf a b) boarded else p.queuesOf a b := by
  have vacant : without .empty boarded = .empty := rfl
  unfold queuesOf
  rw [hq, Table.get?_alter]
  by_cases atStop : a = stop
  · subst atStop
    rw [if_pos rfl]
    cases p.queues.get? a with
    | none => exact (ite_self _).symm
    | some routes =>
      rw [Option.map_some, Option.bind_some, Option.bind_some, Table.get?_alter]
      by_cases onRoute : b = route
      · subst onRoute
        rw [if_pos rfl, if_pos ⟨rfl, rfl⟩]
        cases routes.get? b <;> rfl
      · rw [if_neg onRoute, if_neg fun h => onRoute h.2]
  · rw [if_neg atStop, if_neg fun h => atStop h.1]

/-- Whoever still waits after others have boarded has waited before. -/
theorem mem_row_board {boarded : List (Nat × Nat)}
    (hq : q.queues = p.queues.alter stop fun routes => routes.map fun routes =>
      routes.alter route fun queues => queues.map fun queues => without queues boarded)
    (h : x ∈ q.row a b c) : x ∈ p.row a b c := by
  unfold row at h ⊢
  rw [queuesOf_board hq] at h
  split at h
  · rw [row_without] at h
    exact List.mem_of_mem_drop h
  · exact h

end Platforms

end Mobility
