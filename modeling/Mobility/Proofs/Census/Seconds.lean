import Mathlib.Algebra.Order.BigOperators.Group.Finset
import Mathlib.Algebra.BigOperators.Group.Finset.Piecewise
import Mathlib.Algebra.BigOperators.Group.Finset.Sigma
import Mobility.Proofs.Census.Exchange
import Mobility.Proofs.Rested

/-!
# The census of a run

The censuses of all partitions together list every agent of the scenario once, at the start and after
every second. Whoever leaves the census of a partition is in exactly one of its transfers, what its
neighbors read is what it has written, because nothing in a transfer is too great for the fields of a
message, and so whoever has left is counted by the neighbor.
-/

set_option autoImplicit false

namespace Mobility

open Act Second Mobility.Partition

/-! ## Loads and their arrival -/

/-- A part of a sum isn't greater than the sum. -/
theorem le_sum_map {α : Type} {f : α → Multiset Nat} {xs : List α} {x : α} (h : x ∈ xs) :
    f x ≤ (xs.map f).sum := by
  induction xs with
  | nil => cases h
  | cons y rest ih =>
    rw [List.map_cons, List.sum_cons]
    rcases List.mem_cons.1 h with rfl | h
    · exact Multiset.le_add_right _ _
    · exact (ih h).trans (Multiset.le_add_left _ _)

/-- Whoever is in a sum is in a part of it. -/
theorem mem_sum_map {α : Type} {f : α → Multiset Nat} {xs : List α} {id : Nat} :
    id ∈ (xs.map f).sum ↔ ∃ x ∈ xs, id ∈ f x := by
  induction xs with
  | nil => simp
  | cons x rest ih => rw [List.map_cons, List.sum_cons, Multiset.mem_add, ih, List.exists_mem_cons_iff]

/-- Sums of somebody each aren't shorter than the list. -/
theorem length_le_card {α : Type} {f : α → Multiset Nat} {xs : List α}
    (h : ∀ x ∈ xs, 0 < (f x).card) : xs.length ≤ ((xs.map f).sum).card := by
  induction xs with
  | nil => exact Nat.zero_le _
  | cons x rest ih =>
    have first := h x List.mem_cons_self
    have later := ih fun y hy => h y (List.mem_cons_of_mem _ hy)
    rw [List.map_cons, List.sum_cons, Multiset.card_add, List.length_cons]
    omega

/-- A sum over a list is one over its indices. -/
theorem sum_map_eq_sum_range {α : Type} {f : α → Multiset Nat} {xs : List α} {g : Nat → Multiset Nat}
    (h : ∀ (i : Nat) x, xs[i]? = some x → f x = g i) :
    (xs.map f).sum = ∑ i ∈ Finset.range xs.length, g i := by
  have rows : xs.map f = (List.range xs.length).map g := by
    refine List.ext_getElem? fun i => ?_
    rw [List.getElem?_map, List.getElem?_map]
    cases hx : xs[i]? with
    | none =>
      have hi := List.getElem?_eq_none_iff.1 hx
      rw [List.getElem?_eq_none_iff.2 (by rw [List.length_range]; exact hi)]
      rfl
    | some x =>
      obtain ⟨hi, -⟩ := List.getElem?_eq_some_iff.1 hx
      rw [List.getElem?_range hi, Option.map_some, Option.map_some, h i x hx]
  rw [rows]
  exact (Multiset.sum_coe _).symm

namespace AgentRecord

variable {r : AgentRecord}

theorem load_arrival (small : ∀ x ∈ r.load, x < Wire.base) : r.arrival.load = r.load := by
  have ids : ∀ passengers : List PassengerRecord, (∀ x ∈ passengers, x.id < Wire.base) →
      (passengers.map PassengerRecord.arrival).map (·.id) = passengers.map (·.id) := by
    intro passengers h
    rw [List.map_map]
    exact List.map_congr_left fun x hx => Nat.mod_eq_of_lt (h x hx)
  have own : r.arrival.id = r.id := Nat.mod_eq_of_lt (small r.id (Multiset.mem_cons_self ..))
  rw [load, load, own]
  congr 1
  cases hp : r.passengers with
  | none => simp only [riders, arrival, hp, Option.map_none]
  | some passengers =>
    have others : ∀ x ∈ passengers, x.id < Wire.base := by
      intro x hx
      refine small x.id (Multiset.mem_cons_of_mem ?_)
      rw [riders, hp]
      exact Multiset.mem_coe.2 (List.mem_map_of_mem hx)
    simp only [riders, arrival, hp, Option.map_some, ids passengers others]

theorem Proper.arrival {isVehicle : Nat → Option Bool} (h : r.Proper isVehicle)
    (small : ∀ x ∈ r.load, x < Wire.base) : r.arrival.Proper isVehicle := by
  have own : r.arrival.id = r.id := Nat.mod_eq_of_lt (small r.id (Multiset.mem_cons_self ..))
  have same := load_arrival small
  rw [load, load, own, Multiset.cons_inj_right] at same
  refine ⟨?_, fun x hx => h.riders x (same ▸ hx)⟩
  rw [Known, own, h.known]
  cases hp : r.passengers <;> simp [AgentRecord.arrival, hp]

theorem Proper.legible {isVehicle : Nat → Option Bool} (h : r.Proper isVehicle)
    (small : ∀ x ∈ r.load, x < Wire.base) (few : r.load.card < Wire.base) : r.Legible isVehicle := by
  refine ⟨?_, fun passengers hp => ?_⟩
  · rw [Nat.mod_eq_of_lt (small r.id (Multiset.mem_cons_self ..))]
    exact h.known
  · have : r.load.card = passengers.length + 1 := by simp [load, AgentRecord.riders, hp]
    omega

end AgentRecord

namespace Transfer

variable {t : Transfer} {isVehicle : Nat → Option Bool} {size target : Nat}

/-- A transfer of agents with small numbers brings the same agents. -/
theorem load_arrival (small : ∀ x ∈ t.load, x < Wire.base) : (t.arrival target).load = t.load := by
  have groups : ∀ gs : List LinkRecord, (∀ g ∈ gs, ∀ x ∈ g.load, x < Wire.base) →
      (gs.map LinkRecord.arrival).map LinkRecord.load = gs.map LinkRecord.load := by
    intro gs h
    rw [List.map_map]
    refine List.map_congr_left fun g hg => ?_
    have agents : ∀ r ∈ g.agents, (AgentRecord.load ∘ AgentRecord.arrival) r = r.load := fun r hr =>
      AgentRecord.load_arrival fun x hx => h g hg x (Multiset.mem_of_le (le_sum_map hr) hx)
    simp only [Function.comp_apply, LinkRecord.load, LinkRecord.arrival, List.map_map]
    rw [List.map_congr_left agents]
  rw [load, load, arrival, groups t.records]
  exact fun g hg x hx => small x (Multiset.mem_of_le (le_sum_map hg) hx)

theorem Proper.arrival (h : t.Proper (AgentRecord.Proper isVehicle) size)
    (small : ∀ x ∈ t.load, x < Wire.base) :
    (t.arrival target).Proper (AgentRecord.Proper isVehicle) size := by
  intro g' hg'
  obtain ⟨g, hg, rfl⟩ := List.mem_map.1 hg'
  obtain ⟨somebody, link, agents⟩ := h g hg
  refine ⟨by simpa [LinkRecord.arrival] using somebody, link, fun r' hr' => ?_⟩
  obtain ⟨r, hr, rfl⟩ := List.mem_map.1 hr'
  refine (agents r hr).arrival fun x hx => small x ?_
  have inGroup : r.load ≤ g.load := le_sum_map hr
  exact Multiset.mem_of_le (inGroup.trans (le_sum_map hg)) hx

/-- Nothing in a transfer of few agents with small numbers is too great for a message. -/
theorem Proper.legible (h : t.Proper (AgentRecord.Proper isVehicle) size) (hsize : size < Wire.base)
    (small : ∀ x ∈ t.load, x < Wire.base) (few : t.load.card < Wire.base) : t.Legible isVehicle := by
  have group : ∀ g ∈ t.records, g.load ≤ t.load := fun g hg => le_sum_map hg
  have agent : ∀ g : LinkRecord, ∀ r ∈ g.agents, r.load ≤ g.load := fun g r hr => le_sum_map hr
  refine ⟨Nat.lt_of_le_of_lt (length_le_card fun g hg => ?_) few, fun g hg => ⟨fun link hl => ?_,
    Nat.lt_of_le_of_lt (length_le_card (f := AgentRecord.load) fun r _ => ?_) ?_, fun r hr => ?_⟩⟩
  · obtain ⟨r, hr⟩ := List.exists_mem_of_ne_nil _ (h g hg).somebody
    have : r.load.card ≤ g.load.card := Multiset.card_le_card (agent g r hr)
    rw [AgentRecord.load, Multiset.card_cons] at this
    omega
  · have := (h g hg).link link hl
    have noLink : Wire.noLink = Wire.base - 1 := rfl
    omega
  · rw [AgentRecord.load, Multiset.card_cons]
    omega
  · exact Nat.lt_of_le_of_lt (Multiset.card_le_card (group g hg)) few
  · have inside := (agent g r hr).trans (group g hg)
    exact ((h g hg).agents r hr).legible
      (fun x hx => small x (Multiset.mem_of_le inside hx))
      (Nat.lt_of_le_of_lt (Multiset.card_le_card inside) few)

end Transfer

/-! ## Who stays and who crosses -/

namespace Second

/-- Who is still in partition `i` when the transfers of the second are sent. -/
def staying (now : Nat) (ps : List Partition) (i : Nat) : Multiset Nat :=
  (departed now ps i).elim 0 fun r => r.2.census 0

/-- Who is in the transfer from partition `i` to partition `j`, as it is read. -/
def crossing (isVehicle : Nat → Option Bool) (now : Nat) (ps : List Partition) (i j : Nat) :
    Multiset Nat :=
  (((departed now ps i).bind fun r => r.1.get? j).bind fun data =>
    (Transfer.decode data j isVehicle).toOption).elim 0 Transfer.load

end Second

namespace Scenario

/-- The numbers of the scenario fit into the fields of a message. -/
structure Fits (s : Scenario) : Prop where
  parts : s.numParts ≤ Wire.base
  links : s.links.size < Wire.base
  agents : s.agents.size < Wire.base

/-- All partitions together have every agent once. -/
structure Counted (s : Scenario) (ps : List Partition) : Prop where
  cast : ps.length = s.numParts
  orderly : ∀ (i : Nat) p, ps[i]? = some p → p.Orderly
  everybody : (ps.map fun p => p.census 0).sum = Multiset.range s.agents.size

namespace Counted

variable {s : Scenario} {timing : Timing} {now i : Nat} {ps qs : List Partition} {b : Buffers}
  {q : Partition}

theorem le_everybody (h : s.Counted ps) {p : Partition} (hp : ps[i]? = some p) :
    p.census 0 ≤ Multiset.range s.agents.size :=
  h.everybody ▸ le_sum_map (f := fun p : Partition => p.census 0) (List.mem_of_getElem? hp)

/-- Nobody in a message has too great a number, and there are not too many. -/
theorem small_of_wrote (h : s.Counted ps) (fits : s.Fits) {p : Partition} {messages : Table Transfer}
    {j : Nat} {t : Transfer} (hp : ps[i]? = some p)
    (census : q.census 0 + messages.total Transfer.load = p.census 0) (ht : messages.get? j = some t) :
    (∀ x ∈ t.load, x < Wire.base) ∧ t.load.card < Wire.base := by
  have total : messages.total Transfer.load ≤ Multiset.range s.agents.size := by
    refine le_trans ?_ (h.le_everybody hp)
    rw [← census]
    exact Multiset.le_add_left _ _
  have part : t.load ≤ Multiset.range s.agents.size := by
    refine le_trans ?_ total
    have hmem : (j, t) ∈ messages.entries := Table.mem_entries.2 ht
    have hvalue : t ∈ messages.values := List.mem_map_of_mem (f := Prod.snd) hmem
    exact le_sum_map hvalue
  refine ⟨fun x hx => (Multiset.mem_range.1 (Multiset.mem_of_le part hx)).trans fits.agents, ?_⟩
  refine Nat.lt_of_le_of_lt (Multiset.card_le_card part) ?_
  rw [Multiset.card_range]
  exact fits.agents

/-- What a partition has written is read as it was written. -/
theorem letters (h : s.Counted ps) (rest : s.Rested timing ps) (hs : s.Accepted) (fits : s.Fits)
    (c : Company timing s.neighborsOf ps) (hd : Second.departed now ps i = some (b, q)) :
    ∃ p messages, ps[i]? = some p ∧ Wrote now messages p q ∧
      b = messages.mapRows (fun _ t => t.encode) ∧ messages.keys = s.neighborsOf i ∧
      ∀ j t, messages.get? j = some t →
        Transfer.decode t.encode j s.isVehicle = .ok (t.arrival j) ∧ (t.arrival j).load = t.load ∧
          (t.arrival j).Proper (AgentRecord.Proper s.isVehicle) s.links.size := by
  obtain ⟨p, messages, hp, wrote, rfl, -, setting⟩ := rest.departed hs c hd
  obtain ⟨vehicles, size⟩ := knows_of_kept setting
  have nodup : (p.census 0).Nodup := Multiset.nodup_of_le (h.le_everybody hp) (Multiset.nodup_range _)
  obtain ⟨census, orderly, proper⟩ := census_wrote (h.orderly i p hp) nodup wrote
  rw [vehicles, size] at proper
  have keys : messages.keys = s.neighborsOf i := by
    have addressed := (c.departed hd).addressed.keys
    rwa [Table.keys_mapRows] at addressed
  refine ⟨p, messages, hp, wrote, rfl, keys, fun j t ht => ?_⟩
  obtain ⟨small, few⟩ := h.small_of_wrote fits hp census ht
  exact ⟨Transfer.decode_encode ((proper j t ht).legible fits.links small few),
    Transfer.load_arrival small, (proper j t ht).arrival small⟩

/-- Whoever was in a partition stays or crosses. -/
theorem departed (h : s.Counted ps) (rest : s.Rested timing ps) (hs : s.Accepted) (fits : s.Fits)
    (c : Company timing s.neighborsOf ps) (hd : Second.departed now ps i = some (b, q)) :
    q.Orderly ∧
      (∃ p, ps[i]? = some p ∧ q.census 0 +
        ((s.neighborsOf i).map (crossing s.isVehicle now ps i)).sum = p.census 0) ∧
      ∀ j data, b.get? j = some data → ∃ t, Transfer.decode data j s.isVehicle = .ok t ∧
        t.load = crossing s.isVehicle now ps i j ∧
        t.Proper (AgentRecord.Proper s.isVehicle) s.links.size := by
  obtain ⟨p, messages, hp, wrote, rfl, keys, read⟩ := h.letters rest hs fits c hd
  have nodup : (p.census 0).Nodup := Multiset.nodup_of_le (h.le_everybody hp) (Multiset.nodup_range _)
  obtain ⟨census, orderly, -⟩ := census_wrote (h.orderly i p hp) nodup wrote
  have crosses : ∀ j t, messages.get? j = some t → crossing s.isVehicle now ps i j = t.load := by
    intro j t ht
    obtain ⟨decoded, load, -⟩ := read j t ht
    rw [crossing, hd, Option.bind_some, Table.get?_mapRows, ht, Option.map_some, Option.bind_some,
      decoded]
    exact load
  refine ⟨orderly, ⟨p, hp, ?_⟩, fun j data hdata => ?_⟩
  · rw [← census, Table.total_eq_sum_keys, keys]
    congr 2
    refine List.map_congr_left fun j hj => ?_
    obtain ⟨t, ht⟩ := Table.mem_keys.1 (keys ▸ hj)
    rw [crosses j t ht, ht, Table.worth_some]
  · rw [Table.get?_mapRows, Option.map_eq_some_iff] at hdata
    obtain ⟨t, ht, rfl⟩ := hdata
    obtain ⟨decoded, load, arrived⟩ := read j t ht
    exact ⟨t.arrival j, decoded, load.trans (crosses j t ht).symm, arrived⟩

/-- Whoever crosses into a partition is counted there. -/
theorem arrived (h : s.Counted ps) (rest : s.Rested timing ps) (hs : s.Accepted) (fits : s.Fits)
    (c : Company timing s.neighborsOf ps) (ha : Second.arrived now ps i = some (b, q))
    (nodup : (staying now ps i +
      ((s.neighborsOf i).map fun j => crossing s.isVehicle now ps j i).sum).Nodup) :
    q.census 0 = staying now ps i +
      ((s.neighborsOf i).map fun j => crossing s.isVehicle now ps j i).sum ∧ q.Orderly := by
  obtain ⟨b₀, w, d, hw, hd, arrive⟩ := arrived_eq_some.1 ha
  have departed := c.departed hw
  rw [departed.partners] at hd
  obtain ⟨orderly, -, -⟩ := h.departed rest hs fits c hw
  obtain ⟨p, messages, -, -, -, -, setting⟩ := rest.departed hs c hw
  have vehicles := (knows_of_kept setting).1
  obtain ⟨transfers, -, read, -⟩ := arrive_ends arrive
  have rows := read_mail hd (Outbox.readTransfers_eq_ok.1 read)
  -- Each transfer is the one of its sender.
  have each : List.Forall₂ (fun j t => t.load = crossing s.isVehicle now ps j i ∧
      t.Proper (AgentRecord.Proper s.isVehicle) s.links.size) (s.neighborsOf i) transfers := by
    refine rows.imp fun j t => ?_
    rintro ⟨b, w', data, hj, hdata, decoded, -⟩
    obtain ⟨-, -, sends⟩ := h.departed rest hs fits c hj
    obtain ⟨t', decoded', load, proper⟩ := sends i data hdata
    rw [departed.rank, vehicles] at decoded
    obtain rfl := Except.ok.inj (decoded.symm.trans decoded')
    exact ⟨load, proper⟩
  obtain ⟨loads, proper⟩ := map_eq_of_forall₂ each
  have stays : staying now ps i = w.census 0 := by
    rw [staying, hw]
    rfl
  rw [stays, ← loads] at nodup ⊢
  exact census_arrive orderly read (vehicles.symm ▸ proper) nodup arrive

/-- What crosses is what is crossed into. -/
theorem sum_crossing {size : Nat} {partners : Nat → List Nat} (net : Network size partners)
    (nodup : ∀ i, (partners i).Nodup) (g : Nat → Nat → Multiset Nat) :
    ∑ i ∈ Finset.range size, ((partners i).map (g i)).sum =
      ∑ i ∈ Finset.range size, ((partners i).map fun j => g j i).sum := by
  have rows : ∀ (i : Nat) (h : Nat → Multiset Nat),
      ((partners i).map h).sum = ∑ j ∈ (partners i).toFinset, h j :=
    fun i h => (List.sum_toFinset h (nodup i)).symm
  simp only [rows]
  refine Finset.sum_comm' fun i j => ?_
  simp only [Finset.mem_range, List.mem_toFinset]
  exact ⟨fun ⟨_, hj⟩ => ⟨net.symmetric hj, net.below hj⟩,
    fun ⟨hi, _⟩ => ⟨net.below hi, net.symmetric hi⟩⟩

/-- Before the second everybody stays or crosses, and afterwards whoever has stayed or crossed is counted.
-/
theorem settled (h : s.Counted ps) (rest : s.Rested timing ps) (hs : s.Accepted) (fits : s.Fits)
    (c : Company timing s.neighborsOf ps) (hn : Second.next now ps = some qs) :
    (∀ (i : Nat) p, ps[i]? = some p → p.census 0 = staying now ps i +
      ((s.neighborsOf i).map (crossing s.isVehicle now ps i)).sum) ∧
    ∀ (i : Nat) q, qs[i]? = some q → (staying now ps i +
        ((s.neighborsOf i).map fun j => crossing s.isVehicle now ps j i).sum).Nodup ∧
      q.census 0 = staying now ps i + ((s.neighborsOf i).map fun j => crossing s.isVehicle now ps j i).sum ∧
      q.Orderly := by
  obtain ⟨length, settled⟩ := next_eq_some.1 hn
  have each : ∀ (i : Nat) q, qs[i]? = some q → ∃ b r d, Second.arrived now ps i = some (b, r) ∧
      Ends (receiveReleases now d) r () q := by
    intro i q hq
    obtain ⟨b, r, d, hr, -, hq⟩ := settled_eq_some.1 (settled i q hq)
    exact ⟨b, r, d, hr, hq⟩
  have before : ∀ (i : Nat) p, ps[i]? = some p → p.census 0 = staying now ps i +
      ((s.neighborsOf i).map (crossing s.isVehicle now ps i)).sum := by
    intro i p hp
    obtain ⟨hi, -⟩ := List.getElem?_eq_some_iff.1 hp
    obtain ⟨b, r, d, hr, -⟩ := each i _ (List.getElem?_eq_getElem (length ▸ hi))
    obtain ⟨b₀, w, d₀, hw, -, -⟩ := arrived_eq_some.1 hr
    obtain ⟨-, ⟨p', hp', census⟩, -⟩ := h.departed rest hs fits c hw
    obtain rfl := Option.some.inj (hp.symm.trans hp')
    rw [← census, staying, hw]
    rfl
  have total : ∑ i ∈ Finset.range ps.length, (staying now ps i +
      ((s.neighborsOf i).map fun j => crossing s.isVehicle now ps j i).sum) =
      Multiset.range s.agents.size := by
    rw [← h.everybody, sum_map_eq_sum_range before, Finset.sum_add_distrib, Finset.sum_add_distrib,
      h.cast, sum_crossing (hs.network fits.parts) fun i => Table.keys_nodup _]
  refine ⟨before, fun i q hq => ?_⟩
  obtain ⟨hi, -⟩ := List.getElem?_eq_some_iff.1 hq
  obtain ⟨b, r, d, hr, hd⟩ := each i q hq
  have nodup : (staying now ps i +
      ((s.neighborsOf i).map fun j => crossing s.isVehicle now ps j i).sum).Nodup := by
    refine Multiset.nodup_of_le ?_ (Multiset.nodup_range s.agents.size)
    rw [← total]
    exact Finset.single_le_sum (f := fun i => staying now ps i +
      ((s.neighborsOf i).map fun j => crossing s.isVehicle now ps j i).sum)
      (fun _ _ => Multiset.zero_le _) (Finset.mem_range.2 (length ▸ hi))
  obtain ⟨census, orderly⟩ := h.arrived rest hs fits c hr nodup
  have still := still_receiveReleases hd
  exact ⟨nodup, (still.census 0).trans census, still.orderly (kept_receiveReleases hd) orderly⟩

/-- A second leaves every agent counted once. -/
theorem next (h : s.Counted ps) (rest : s.Rested timing ps) (hs : s.Accepted) (fits : s.Fits)
    (c : Company timing s.neighborsOf ps) (hn : Second.next now ps = some qs) : s.Counted qs := by
  obtain ⟨length, -⟩ := next_eq_some.1 hn
  obtain ⟨before, after⟩ := h.settled rest hs fits c hn
  refine ⟨length.trans h.cast, fun i q hq => (after i q hq).2.2, ?_⟩
  rw [sum_map_eq_sum_range fun i q hq => (after i q hq).2.1, length, ← h.everybody,
    sum_map_eq_sum_range before, Finset.sum_add_distrib, Finset.sum_add_distrib, h.cast,
    sum_crossing (hs.network fits.parts) fun i => Table.keys_nodup _]

/-- Nobody is counted twice, whichever partitions one looks at. -/
theorem among (h : s.Counted ps) {ranks : List Nat} (nodup : ranks.Nodup)
    (below : ∀ i ∈ ranks, i < ps.length) :
    (ranks.map fun i => (ps[i]?).elim 0 fun p : Partition => p.census 0).sum ≤
      Multiset.range s.agents.size := by
  have total : (ps.map fun p => p.census 0).sum =
      ∑ i ∈ Finset.range ps.length, (ps[i]?).elim 0 fun p : Partition => p.census 0 :=
    sum_map_eq_sum_range fun i p hp => by
      rw [hp]
      rfl
  rw [← h.everybody, total, ← List.sum_toFinset _ nodup]
  refine Finset.sum_le_sum_of_subset fun i hi => ?_
  exact Finset.mem_range.2 (below i (List.mem_toFinset.1 hi))

/-- Whoever is counted by two partitions is counted by one. -/
theorem unique (h : s.Counted ps) {j x : Nat} {p q : Partition} (hp : ps[i]? = some p)
    (hq : ps[j]? = some q) (hx : x ∈ p.census 0) (hy : x ∈ q.census 0) : i = j := by
  by_contra apart
  have pair : [i, j].Nodup := by simpa using apart
  have twice := h.among pair (by
    simpa using ⟨(List.getElem?_eq_some_iff.1 hp).1, (List.getElem?_eq_some_iff.1 hq).1⟩)
  simp only [List.map_cons, List.map_nil, List.sum_cons, List.sum_nil, add_zero, hp, hq] at twice
  have once := Multiset.nodup_of_le twice (Multiset.nodup_range _)
  exact Multiset.disjoint_left.1 (Multiset.nodup_add.1 once).2.2 hx hy

/-- Every agent is counted by a partition. -/
theorem somewhere (h : s.Counted ps) {x : Nat} (hx : x < s.agents.size) :
    ∃ (i : Nat) (p : Partition), ps[i]? = some p ∧ x ∈ p.census 0 := by
  have here : x ∈ (ps.map fun p => p.census 0).sum := h.everybody ▸ Multiset.mem_range.2 hx
  obtain ⟨p, hp, hx⟩ := mem_sum_map.1 here
  obtain ⟨i, hi⟩ := List.mem_iff_getElem?.1 hp
  exact ⟨i, p, hi, hx⟩

end Counted

/-! ## The start of a run -/

/-- All agents are at the start of their plans with nobody aboard, and no vehicle waits for another
one. -/
structure Fresh (s : Scenario) : Prop where
  agents : ∀ (id : Nat) a, s.agents[id]? = some a →
    a = .fresh id a.plan a.seats.capacity a.finishEvent
  vehicles : ∀ (id : Nat) a, s.agents[id]? = some a → a.isVehicle = true →
    ∀ i ∈ a.plan.decoded, ∀ route stop, i.action ≠ .wait route stop

variable {s : Scenario} {timing : Timing} {now : Nat} {ps qs : List Partition}

theorem mem_decoded {plan : Plan} {k : Nat} {i : Instruction} (h : plan.get? k = .ok (some i)) :
    i ∈ plan.decoded := by
  unfold Plan.get? at h
  split at h
  · cases h
  · rename_i word hw
    split at h
    · rename_i j hj
      obtain rfl : j = i := by simpa using h
      refine List.mem_filterMap.2 ⟨word, Array.mem_toList_iff.2 (Array.mem_of_getElem? hw), ?_⟩
      rw [hj]
      rfl
    · cases h

/-- Nobody is aboard an agent at first. -/
theorem Fresh.crew (fresh : s.Fresh) (timing : Timing) (rank id : Nat) :
    (Partition.initial s timing rank).crew id = 0 := by
  show (s.agents[id]?).elim 0 (·.seats.riders) = 0
  cases ha : s.agents[id]? with
  | none => rfl
  | some a =>
    show a.seats.riders = 0
    rw [fresh.agents id a ha]
    rfl

theorem FirstView.standing {rank : Nat} {spec : LinkSpec} {v : LinkView} (h : FirstView s rank spec v) :
    v.standing = 0 := by
  cases h <;> rfl

/-- Nobody is on a link before the first second. -/
theorem standing_initial (s : Scenario) (timing : Timing) (rank : Nat) :
    (Partition.initial s timing rank).standing = 0 := by
  refine List.sum_eq_zero fun x hx => ?_
  obtain ⟨v, hv, rfl⟩ := List.mem_map.1 hx
  obtain ⟨link, hlink⟩ := Array.mem_iff_getElem?.1 (Array.mem_toList_iff.1 hv)
  obtain ⟨spec, -, first⟩ := firstView hlink
  exact first.standing

/-- Whoever is in a partition before the first second is about to act. -/
theorem roots_initial (s : Scenario) (timing : Timing) (rank : Nat) :
    (Partition.initial s timing rank).roots = (s.agentsOf rank : List Nat) := by
  rw [Partition.roots, standing_initial, add_zero]
  show 0 + (Agenda.starting timing.start timing.stop (s.agentsOf rank)).held = _
  rw [Agenda.held_starting, zero_add]

/-- A partition has its own agents at first. -/
theorem Fresh.census (fresh : s.Fresh) (timing : Timing) (rank : Nat) :
    (Partition.initial s timing rank).census 0 = (s.agentsOf rank : List Nat) ∧
      (Partition.initial s timing rank).Orderly := by
  have roots := roots_initial s timing rank
  refine ⟨?_, fun id _ => fresh.crew timing rank id, fun id x hx => ?_, fun x hx => ?_,
    fun id a k i route stop ha hv hi => ?_, fun target t ht => by cases ht⟩
  · rw [Partition.census, roots, zero_add]
    have nobody : (Partition.initial s timing rank).aboardOf (s.agentsOf rank : List Nat) =
        (s.agentsOf rank : List Nat) := by
      rw [Partition.aboardOf, Multiset.bind_congr fun id _ => fresh.crew timing rank id,
        Multiset.bind_zero, add_zero]
    rw [nobody]
    exact (add_zero _).trans (add_zero _)
  · rw [fresh.crew] at hx
    cases hx
  · cases hx
  · exact fresh.vehicles id a ha hv i (mem_decoded hi) route stop

/-- Who is filtered by a key is somewhere. -/
theorem sum_filter {key : Nat → Option Nat} {size : Nat} {xs : List Nat}
    (h : ∀ x ∈ xs, ∃ i < size, key x = some i) :
    ∑ i ∈ Finset.range size, ((xs.filter fun x => key x = some i : List Nat) : Multiset Nat) =
      (xs : Multiset Nat) := by
  induction xs with
  | nil => exact Finset.sum_const_zero
  | cons x rest ih =>
    obtain ⟨k, hk, hkey⟩ := h x List.mem_cons_self
    have split : ∀ i, (((x :: rest).filter fun x => key x = some i : List Nat) : Multiset Nat) =
        (if k = i then {x} else 0) + ((rest.filter fun x => key x = some i : List Nat) : Multiset Nat) := by
      intro i
      by_cases hi : k = i
      · rw [if_pos hi, List.filter_cons_of_pos (by simp [hkey, hi]), ← Multiset.cons_coe,
          Multiset.singleton_add]
      · rw [if_neg hi, List.filter_cons_of_neg (by simp [hkey, hi]), zero_add]
    rw [Finset.sum_congr rfl fun i _ => split i, Finset.sum_add_distrib,
      ih fun x hx => h x (List.mem_cons_of_mem _ hx), Finset.sum_ite_eq,
      if_pos (Finset.mem_range.2 hk), Multiset.singleton_add, Multiset.cons_coe]

/-- At first every agent is in the partition where it starts. -/
theorem Fresh.counted (fresh : s.Fresh) (hs : s.Accepted) (timing : Timing) :
    s.Counted ((List.range s.numParts).map (Partition.initial s timing)) := by
  refine ⟨by simp, fun i p hp => ?_, ?_⟩
  · rw [getElem?_cast hp]
    exact (fresh.census timing i).2
  · rw [sum_map_eq_sum_range (g := fun i => (s.agentsOf i : List Nat)) fun i p hp => by
      rw [getElem?_cast hp]
      exact (fresh.census timing i).1]
    have homes : ∀ id ∈ List.range s.homes.size, ∃ i < s.numParts, s.homes[id]? = some i := by
      intro id hid
      rw [List.mem_range, hs.homes, Array.size_map] at hid
      refine ⟨s.homeOf s.agents[id], hs.homeOf_lt _, ?_⟩
      rw [hs.homes, Array.getElem?_map, Array.getElem?_eq_getElem hid]
      rfl
    rw [List.length_map, List.length_range]
    show ∑ i ∈ Finset.range s.numParts, ((List.range s.homes.size).filter _ : Multiset Nat) = _
    rw [sum_filter homes, hs.homes, Array.size_map]
    rfl

/-- After every second of a run, all partitions together have every agent once, and nothing is on its
way. -/
theorem Fresh.run {count : Nat} (fresh : s.Fresh) (hs : s.Accepted) (fits : s.Fits)
    (hrun : Second.run count timing.start ((List.range s.numParts).map (Partition.initial s timing)) =
      some ps) : s.Counted ps ∧ s.Rested timing ps ∧ Company timing s.neighborsOf ps := by
  induction count generalizing ps with
  | zero =>
    obtain rfl := Option.some.inj hrun
    exact ⟨fresh.counted hs timing, rested_initial s timing, company_initial s timing⟩
  | succ count ih =>
    rw [run_succ] at hrun
    obtain ⟨qs, hqs, hn⟩ := Option.bind_eq_some_iff.1 hrun
    obtain ⟨counted, rest, c⟩ := ih hqs
    exact ⟨counted.next rest hs fits c hn, rest.next hs c hn, c.next hn⟩

end Scenario

end Mobility
