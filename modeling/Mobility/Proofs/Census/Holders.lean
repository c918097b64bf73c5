import Mathlib.Tactic.Abel
import Mobility.Proofs.Partition.Steps
import Mobility.Proofs.Listing
import Mobility.Outbox
import Mobility.Partition.Report

/-!
# Where agents are kept

Agents are kept in many ways: on the seats of vehicles, in the agenda of a partition, on links and in
front of them, at stops, and in what is to be sent. For each of them one definition says which agents
it holds, as a multiset, and each operation on it has a lemma which says who comes and who goes.
-/

set_option autoImplicit false

namespace Mobility

/-! ## Lists in a table -/

namespace Table

/-- Everybody in the lists of a table. -/
def listed (t : Table (List Nat)) : Multiset Nat := t.total fun list : List Nat => ↑list

@[simp] theorem listed_empty : (empty : Table (List Nat)).listed = 0 := rfl

/-- Somebody is put at the end of a list. -/
theorem listed_append (t : Table (List Nat)) (k id : Nat) :
    (t.alter k fun list => some (list.getD [] ++ [id])).listed = t.listed + {id} :=
  total_add (fun list : List Nat => (list : Multiset Nat)) (fun list => (Multiset.coe_add list [id]).symm) rfl t k

theorem listed_erase (t : Table (List Nat)) (k : Nat) :
    (t.erase k).listed + ((t.get? k).getD [] : List Nat) = t.listed := by
  have h := total_erase (fun list : List Nat => (list : Multiset Nat)) t k
  rwa [worth_coe] at h

/-- Everybody, row by row. -/
theorem coe_rows (t : Table (List Nat)) :
    (((t.entries.flatMap fun row => row.2.map fun id => (row.1, id)).map Prod.snd : List Nat) :
      Multiset Nat) = t.listed := t.coe_rowsOf

theorem coe_values (t : Table (List Nat)) : ((t.values.flatten : List Nat) : Multiset Nat) = t.listed := by
  have lists : ∀ l : List (List Nat),
      ((l.flatten : List Nat) : Multiset Nat) = (l.map fun list : List Nat => (list : Multiset Nat)).sum := by
    intro l
    induction l with
    | nil => rfl
    | cons list rest ih => rw [List.flatten_cons, ← Multiset.coe_add, ih, List.map_cons, List.sum_cons]
  exact lists t.values

end Table

/-! ## Seats -/

namespace Seats

/-- The passengers. -/
def riders (s : Seats) : Multiset Nat := s.passengers.listed

theorem riders_access {s t : Seats} {index passenger : Nat} (h : s.access index passenger = some t) :
    t.riders = s.riders + {passenger} := by
  obtain ⟨-, rfl⟩ := access_eq_some h
  exact Table.listed_append ..

theorem riders_egress {s t : Seats} {index : Nat} {leaving : List Nat}
    (h : s.egress index = .ok (leaving, t)) : t.riders + (leaving : Multiset Nat) = s.riders := by
  obtain ⟨rfl, -, rfl⟩ := egress_eq_ok h
  exact Table.listed_erase ..

theorem riders_replace {s t : Seats} {passengers : List (Nat × Nat)}
    (h : s.replace passengers = some t) : t.riders = (passengers.map Prod.snd : List Nat) := by
  obtain ⟨-, rfl⟩ := replace_eq_some h
  have fold : ∀ (xs : List (Nat × Nat)) (t : Table (List Nat)),
      (xs.foldl (fun t p => seat t p.1 p.2) t).listed = t.listed + (xs.map Prod.snd : List Nat) := by
    intro xs
    induction xs with
    | nil => intro t; simp
    | cons x rest ih =>
      intro t
      have hseat : (seat t x.1 x.2).listed = t.listed + {x.2} := Table.listed_append ..
      rw [List.foldl_cons, ih, hseat, List.map_cons, ← Multiset.cons_coe, ← Multiset.singleton_add,
        add_assoc]
  simpa [riders] using fold passengers .empty

theorem Admits.riders {s t : Seats} {queue boarded : List (Nat × Nat)} (h : Admits queue s boarded t) :
    t.riders = s.riders + (boarded.map Prod.snd : List Nat) := by
  induction h with
  | nobody | refused => exact (add_zero _).symm
  | admitted free _ ih =>
    rw [ih, riders_access free, List.map_cons, ← Multiset.cons_coe, ← Multiset.singleton_add, add_assoc]

/-- Nobody boards an agent without seats. -/
theorem Admits.nobody_of_capacity {s t : Seats} {queue boarded : List (Nat × Nat)}
    (h : Admits queue s boarded t) (hs : s.capacity = 0) : boarded = [] := by
  cases h with
  | nobody | refused => rfl
  | admitted free _ =>
    obtain ⟨room, -⟩ := access_eq_some free
    omega

/-- The seats are counted as they are taken, and no more are taken than there are. -/
structure Honest (s : Seats) : Prop where
  counted : s.taken = s.riders.card
  room : s.taken ≤ s.capacity

theorem honest_free (capacity : Nat) : (free capacity).Honest := ⟨rfl, Nat.zero_le _⟩

/-- No more passengers leave than are counted. -/
theorem Honest.egress {s : Seats} (h : s.Honest) (index : Nat) : ∃ r, s.egress index = .ok r := by
  unfold Seats.egress
  have listed : ((s.passengers.get? index).getD [] : Multiset Nat) ≤ s.riders := by
    rw [Seats.riders, ← Table.listed_erase s.passengers index]
    exact Multiset.le_add_left _ _
  have few := Multiset.card_le_card listed
  rw [Multiset.coe_card, ← h.counted] at few
  rw [if_pos few]
  exact ⟨_, rfl⟩

theorem honest_egress {s t : Seats} {index : Nat} {leaving : List Nat} (h : s.Honest)
    (he : s.egress index = .ok (leaving, t)) : t.Honest := by
  have riders := congrArg Multiset.card (riders_egress he)
  rw [Multiset.card_add, Multiset.coe_card] at riders
  obtain ⟨-, few, rfl⟩ := egress_eq_ok he
  have counted := h.counted
  have room := h.room
  refine ⟨?_, ?_⟩
  · show s.taken - leaving.length = _
    omega
  · show s.taken - leaving.length ≤ s.capacity
    omega

theorem honest_access {s t : Seats} {index passenger : Nat} (h : s.Honest)
    (ha : s.access index passenger = some t) : t.Honest := by
  have riders := congrArg Multiset.card (riders_access ha)
  obtain ⟨free, rfl⟩ := access_eq_some ha
  refine ⟨?_, free⟩
  rw [riders, Multiset.card_add, Multiset.card_singleton, ← h.counted]

theorem Admits.honest {s t : Seats} {queue boarded : List (Nat × Nat)} (h : Admits queue s boarded t)
    (hs : s.Honest) : t.Honest := by
  induction h with
  | nobody | refused => exact hs
  | admitted free _ ih => exact ih (honest_access hs free)

theorem honest_replace {s t : Seats} {passengers : List (Nat × Nat)}
    (h : s.replace passengers = some t) : t.Honest := by
  have riders := congrArg Multiset.card (riders_replace h)
  obtain ⟨room, rfl⟩ := replace_eq_some h
  rw [Multiset.coe_card, List.length_map] at riders
  exact ⟨riders.symm, room⟩

/-- The passengers as they are listed. -/
theorem coe_carried (s : Seats) : ((s.carried.map Prod.snd : List Nat) : Multiset Nat) = s.riders :=
  Table.coe_rows s.passengers

theorem card_riders (s : Seats) : s.riders.card = s.count := by
  rw [← s.coe_carried, Multiset.coe_card, carried, count, Table.values]
  simp [List.length_flatMap, List.length_flatten, Function.comp_def]

end Seats

/-! ## Agendas -/

namespace Agenda

/-- Everybody who is due at some second, even after the end of the horizon. -/
def held (a : Agenda Nat) : Multiset Nat := a.due.listed + (a.beyond : List Nat)

theorem held_add {a b : Agenda Nat} {id time : Nat} (h : a.add id time = .ok b) :
    b.held = a.held + {id} := by
  obtain ⟨-, ⟨-, rfl⟩ | ⟨-, rfl⟩⟩ := add_cases h
  · rw [held, held, Table.listed_append, add_right_comm]
  · rw [held, held, ← Multiset.coe_add, add_assoc]
    rfl

theorem held_visit {a b : Agenda Nat} {ids : List Nat} {now : Nat}
    (h : a.visit now = .ok (ids, b)) : b.held + (ids : Multiset Nat) = a.held := by
  obtain ⟨-, -, rfl, rfl⟩ := visit_cases h
  rw [held, held, ← Table.listed_erase a.due now, add_right_comm]

@[simp] theorem held_starting (start stop : Nat) (ids : List Nat) :
    (starting start stop ids).held = (ids : Multiset Nat) := by
  unfold starting
  split
  · rename_i hempty
    rw [List.isEmpty_iff.1 hempty]
    rfl
  · show Table.listed (Table.empty.insert start ids) + 0 = _
    rw [add_zero]
    show ((ids : Multiset Nat) + 0 : Multiset Nat) = _
    exact add_zero _

/-- Whoever is due, as listed. -/
theorem coe_pending (a : Agenda Nat) :
    ((a.pending.map Prod.snd ++ a.beyond : List Nat) : Multiset Nat) = a.held := by
  rw [← Multiset.coe_add, pending, Table.coe_rows]
  rfl

end Agenda

/-! ## Links -/

namespace LinkView

/-- Everybody on a link, in front of it, or to be sent there. -/
def standing : LinkView → Multiset Nat
  | owned link => (link.queue.map (·.agent) : List Nat)
  | gateway gate => (gate.link.queue.map (·.agent) : List Nat) + (gate.inbound.map (·.1) : List Nat)
  | proxy x => (x.outbox : List Nat)
  | remote .. => 0

theorem standing_push {v w : LinkView} {id finish : Nat} (h : v.push id finish = .ok (some w)) :
    w.standing = v.standing + {id} := by
  rcases push_eq_ok h with ⟨l, m, rfl, rfl, hm⟩ | ⟨g, m, rfl, rfl, -, hm⟩ | ⟨x, y, rfl, rfl, hy⟩
  · obtain ⟨-, rfl⟩ := Link.push_eq_some hm
    simp only [standing, List.map_append, ← Multiset.coe_add]
    rfl
  · obtain ⟨-, rfl⟩ := Link.push_eq_some hm
    simp only [standing, List.map_append, ← Multiset.coe_add]
    exact add_right_comm ..
  · obtain ⟨-, rfl⟩ := Proxy.push_eq_some hy
    simp only [standing, ← Multiset.coe_add]
    rfl

theorem standing_pop {v w : LinkView} {entry : Entry} (h : v.pop = .ok (entry, w)) :
    v.standing = w.standing + {entry.agent} ∧ v.front? = some entry := by
  rcases pop_eq_ok h with ⟨l, m, rfl, rfl, hm⟩ | ⟨g, k, rfl, rfl, hk⟩
  · obtain ⟨hq, -⟩ := Link.pop_eq_ok hm
    refine ⟨?_, by simp [front?, link?, hq]⟩
    simp only [standing, hq, List.map_cons, ← Multiset.cons_coe]
    rw [← Multiset.singleton_add, add_comm]
  · obtain ⟨hq, hk⟩ := Gateway.pop_eq_ok hk
    refine ⟨?_, by simp [front?, link?, hq]⟩
    have hinbound : k.inbound = g.inbound := by rw [hk]
    simp only [standing, hq, hinbound, List.map_cons, ← Multiset.cons_coe]
    rw [← Multiset.singleton_add, add_assoc, add_comm]

end LinkView

/-! ## Stops -/

namespace Platforms

/-- Everybody who waits at a stop. -/
def everybody (p : Platforms) : Multiset Nat :=
  p.queues.total fun routes => routes.total fun queues => queues.listed

theorem everybody_add (p : Platforms) (stop route index id : Nat) :
    (p.add stop route index id).everybody = p.everybody + {id} := by
  -- A queue, the queues of the route, and the routes of the stop grow by the one who is added.
  have queue : ∀ queues : Table (List Nat),
      (queues.alter index fun queue => some (queue.getD [] ++ [id])).listed = queues.listed + {id} :=
    fun queues => queues.listed_append index id
  have routes : ∀ routes : Table (Table (List Nat)), (routes.alter route fun queues =>
      some ((queues.getD .empty).alter index fun queue => some (queue.getD [] ++ [id]))).total Table.listed =
        routes.total Table.listed + {id} :=
    fun routes => Table.total_add Table.listed queue rfl routes route
  exact Table.total_add (b := .empty) (fun routes => routes.total Table.listed) routes rfl p.queues stop

/-- Those in a row are counted for its index only. -/
theorem countP_row (list : List Nat) (k index : Nat) :
    (list.map fun id => (k, id)).countP (·.1 = index) = if k = index then list.length else 0 := by
  rw [List.countP_map]
  by_cases h : k = index
  · simp [h, Function.comp_def]
  · simp [h, Function.comp_def]

/-- Nobody in later rows has the index of a row. -/
theorem countP_later {rows : List (Nat × List Nat)} {boarded : List (Nat × Nat)} {fromIndex k : Nat}
    (later : ∀ row ∈ rows, k < row.1)
    (h : ∀ x ∈ boarded, x ∈ (rows.filter fun row => fromIndex ≤ row.1).flatMap fun row =>
      row.2.map fun id => (row.1, id)) : boarded.countP (·.1 = k) = 0 := by
  rw [List.countP_eq_zero]
  intro x hx
  have there := h x hx
  simp only [List.mem_flatMap, List.mem_filter, List.mem_map] at there
  obtain ⟨row, ⟨hrow, -⟩, id, -, rfl⟩ := there
  simpa using Nat.ne_of_gt (later row hrow)

/-- Whoever boards is taken from the front of the rows: what is left of each row together with those
who board is the row. -/
theorem sum_drop {rows : List (Nat × List Nat)} {boarded : List (Nat × Nat)} {fromIndex : Nat}
    (ascending : rows.Pairwise fun a b => a.1 < b.1)
    (h : boarded <+: (rows.filter fun row => fromIndex ≤ row.1).flatMap fun row =>
      row.2.map fun id => (row.1, id)) :
    (rows.map fun row => ((row.2.drop (boarded.countP (·.1 = row.1)) : List Nat) : Multiset Nat)).sum +
        (boarded.map Prod.snd : List Nat) =
      (rows.map fun row => ((row.2 : List Nat) : Multiset Nat)).sum := by
  induction rows generalizing boarded with
  | nil =>
    obtain rfl : boarded = [] := List.prefix_nil.1 h
    rfl
  | cons row rest ih =>
    obtain ⟨k, list⟩ := row
    rw [List.pairwise_cons] at ascending
    -- Whoever boards from this row isn't counted for the later ones.
    have same : ∀ (m : List Nat) (row : Nat × List Nat), row ∈ rest →
        (m.map fun id => (k, id)).countP (·.1 = row.1) = 0 := fun m row hrow => by
      rw [countP_row, if_neg (Nat.ne_of_lt (ascending.1 row hrow))]
    rw [List.map_cons, List.map_cons, List.sum_cons, List.sum_cons]
    by_cases hk : fromIndex ≤ k
    · rw [List.filter_cons_of_pos (by simpa using hk), List.flatMap_cons] at h
      obtain ⟨tail, h⟩ := h
      rcases List.append_eq_append_iff.1 h with ⟨as, hlist, -⟩ | ⟨bs, rfl, hrest⟩
      · -- Only agents of this row board.
        obtain ⟨l₁, l₂, rfl, rfl, -⟩ := List.map_eq_append_iff.1 hlist
        have untouched : rest.map (fun row => ((row.2.drop
            ((l₁.map fun id => (k, id)).countP (·.1 = row.1)) : List Nat) : Multiset Nat)) =
            rest.map fun row => ((row.2 : List Nat) : Multiset Nat) :=
          List.map_congr_left fun row hrow => by rw [same l₁ row hrow, List.drop_zero]
        rw [countP_row, if_pos rfl, List.drop_left, untouched, List.map_map]
        simp only [Function.comp_def, List.map_id', ← Multiset.coe_add]
        rw [add_right_comm, add_comm (l₂ : Multiset Nat)]
      · -- The whole row boards, and some of the later ones.
        have none : bs.countP (·.1 = k) = 0 :=
          countP_later ascending.1 fun x hx => hrest ▸ List.mem_append_left _ hx
        have counts : rest.map (fun row => ((row.2.drop
            ((list.map (fun id => (k, id)) ++ bs).countP (·.1 = row.1)) : List Nat) : Multiset Nat)) =
            rest.map fun row => ((row.2.drop (bs.countP (·.1 = row.1)) : List Nat) : Multiset Nat) :=
          List.map_congr_left fun row hrow => by
            rw [List.countP_append, same list row hrow, Nat.zero_add]
        rw [counts, List.countP_append, countP_row, if_pos rfl, none, Nat.add_zero, List.drop_length,
          List.map_append, ← Multiset.coe_add, List.map_map]
        have hih := ih ascending.2 ⟨tail, hrest.symm⟩
        simp only [Function.comp_def, List.map_id', Multiset.coe_nil, zero_add]
        rw [← hih, add_left_comm]
    · rw [List.filter_cons_of_neg (by simpa using hk)] at h
      rw [countP_later ascending.1 fun x hx => h.subset hx, List.drop_zero, add_assoc, ih ascending.2 h]

theorem listed_without {queues : Table (List Nat)} {boarded : List (Nat × Nat)} {fromIndex : Nat}
    (h : boarded <+: waiting queues fromIndex) :
    (without queues boarded).listed + (boarded.map Prod.snd : List Nat) = queues.listed := by
  have rows : ∀ l : List (Nat × List Nat),
      ((l.filter fun row => !row.2.isEmpty).map fun row => ((row.2 : List Nat) : Multiset Nat)).sum =
        (l.map fun row => ((row.2 : List Nat) : Multiset Nat)).sum := by
    intro l
    induction l with
    | nil => rfl
    | cons row rest ih =>
      rw [List.filter_cons]
      split
      · rw [List.map_cons, List.map_cons, List.sum_cons, List.sum_cons, ih]
      · rename_i hempty
        have hnil : row.2 = [] := by simpa using hempty
        rw [ih, List.map_cons, List.sum_cons, hnil, Multiset.coe_nil, zero_add]
  have hdrop := sum_drop queues.ascending h
  simp only [without, Table.listed, Table.total, Table.values, Table.filter, Table.mapRows, List.map_map,
    Function.comp_def] at hdrop ⊢
  rw [rows, List.map_map]
  exact hdrop

/-- Whoever boards leaves the stop. -/
theorem everybody_board {p q : Platforms} {stop route fromIndex : Nat} {boarded : List (Nat × Nat)}
    (h : boarded <+: waiting (p.queuesOf stop route) fromIndex)
    (hq : q.queues = p.queues.alter stop fun routes => routes.map fun routes =>
      routes.alter route fun queues => queues.map fun queues => without queues boarded) :
    q.everybody + (boarded.map Prod.snd : List Nat) = p.everybody := by
  have outer := Table.total_alter (fun routes : Table (Table (List Nat)) => routes.total Table.listed)
    p.queues stop fun routes => routes.map fun routes =>
      routes.alter route fun queues => queues.map fun queues => without queues boarded
  rw [everybody, everybody, hq]
  unfold queuesOf at h
  cases hs : p.queues.get? stop with
  | none =>
    rw [hs] at h outer
    obtain rfl : boarded = [] := List.prefix_nil.1 h
    simpa using outer
  | some routes =>
    rw [hs] at h outer
    have inner := Table.total_alter Table.listed routes route fun queues =>
      queues.map fun queues => without queues boarded
    cases hr : routes.get? route with
    | none =>
      simp only [Option.bind_some, hr] at h
      obtain rfl : boarded = [] := List.prefix_nil.1 h
      rw [hr, Option.map_none, Table.worth_none, add_zero, add_zero] at inner
      rw [Option.map_some, Table.worth_some, Table.worth_some, inner] at outer
      rw [List.map_nil, Multiset.coe_nil, add_zero]
      exact add_right_cancel outer
    | some queues =>
      simp only [Option.bind_some, hr, Option.getD_some] at h
      rw [hr, Option.map_some, Table.worth_some, Table.worth_some, ← listed_without h] at inner
      rw [Option.map_some, Table.worth_some, Table.worth_some] at outer
      -- What the route loses, everybody loses.
      have hroute : (routes.alter route fun queues =>
          queues.map fun queues => without queues boarded).total Table.listed +
          (boarded.map Prod.snd : List Nat) = routes.total Table.listed := by
        refine add_right_cancel (b := (without queues boarded).listed) ?_
        rw [← inner]
        abel
      refine add_right_cancel (b := (routes.alter route fun queues =>
        queues.map fun queues => without queues boarded).total Table.listed) ?_
      rw [← outer, ← hroute]
      abel

/-- Whoever waits, as listed. -/
theorem coe_toList (p : Platforms) :
    ((p.toList.flatMap (·.2.2) : List Nat) : Multiset Nat) = p.everybody := by
  have routes : ∀ (stop : Nat) (l : List (Nat × Table (List Nat))),
      (((l.map fun row => (stop, row.1, row.2.values.flatten)).flatMap (·.2.2) : List Nat) : Multiset Nat) =
        (l.map fun row => row.2.listed).sum := by
    intro stop l
    induction l with
    | nil => rfl
    | cons row rest ih =>
      rw [List.map_cons, List.flatMap_cons, ← Multiset.coe_add, ih, Table.coe_values, List.map_cons,
        List.sum_cons]
  have stops : ∀ l : List (Nat × Table (Table (List Nat))),
      (((l.flatMap fun atStop => atStop.2.entries.map fun onRoute =>
        (atStop.1, onRoute.1, onRoute.2.values.flatten)).flatMap (·.2.2) : List Nat) : Multiset Nat) =
        (l.map fun atStop => (atStop.2.entries.map fun row => row.2.listed).sum).sum := by
    intro l
    induction l with
    | nil => rfl
    | cons row rest ih =>
      rw [List.flatMap_cons, List.flatMap_append, ← Multiset.coe_add, ih, routes, List.map_cons,
        List.sum_cons]
  rw [toList, stops, everybody]
  simp only [Table.total, Table.values, List.map_map, Function.comp_def]

end Platforms

/-! ## Messages -/

/-- Whoever is aboard an agent under way. -/
def AgentRecord.riders (r : AgentRecord) : Multiset Nat :=
  match r.passengers with
  | some passengers => (passengers.map (·.id) : List Nat)
  | none => 0

/-- An agent under way, with everybody aboard. -/
def AgentRecord.load (r : AgentRecord) : Multiset Nat := r.id ::ₘ r.riders

/-- Everybody who enters a link. -/
def LinkRecord.load (g : LinkRecord) : Multiset Nat := (g.agents.map AgentRecord.load).sum

/-- Everybody in a transfer. -/
def Transfer.load (t : Transfer) : Multiset Nat := (t.records.map LinkRecord.load).sum

theorem Transfer.load_addAgent (t : Transfer) (link : Option Nat) (r : AgentRecord) :
    (t.addAgent link r).load = t.load + r.load := by
  have records : ∀ groups : List LinkRecord,
      ((addRecord link r groups).map LinkRecord.load).sum = (groups.map LinkRecord.load).sum + r.load := by
    intro groups
    induction groups with
    | nil => simp [addRecord, LinkRecord.load]
    | cons g rest ih =>
      unfold addRecord
      split
      · simp only [LinkRecord.load, List.map_cons, List.sum_cons, List.map_append, List.sum_append,
          List.map_nil, List.sum_nil, add_zero]
        exact add_right_comm ..
      · rw [List.map_cons, List.sum_cons, ih, List.map_cons, List.sum_cons, add_assoc]
  exact records t.records

/-- An agent under way is known, and none of its passengers is a vehicle. -/
structure AgentRecord.Proper (isVehicle : Nat → Option Bool) (r : AgentRecord) : Prop where
  known : r.Known isVehicle
  riders : ∀ x ∈ r.riders, isVehicle x = some false

namespace Outbox

/-- Everybody who is to be sent. -/
def queued (o : Outbox) : Multiset Nat := o.transfers.total Transfer.load

theorem queued_addAgent (o : Outbox) (target : Nat) (link : Option Nat) (r : AgentRecord) (now : Nat) :
    (o.addAgent target link r now).queued = o.queued + r.load :=
  Table.total_add Transfer.load (fun t => t.load_addAgent link r) rfl o.transfers target

end Outbox

end Mobility
