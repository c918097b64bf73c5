import Mobility.Proofs.Totals
import Mobility.Scenario.Partitioning

/-!
# Accepted scenarios

A scenario which was split without an error is consistent: what it holds about homes, crossings and
neighbors follows from its entities, and every owner is one of its partitions. In particular, being
a neighbor is symmetric, and crossings only connect neighbors.
-/

set_option autoImplicit false

namespace Mobility

/-- A check of all items passes if each of them passes. -/
theorem forM_eq_ok_iff {ε α : Type} {f : α → Except ε Unit} {xs : List α} :
    xs.forM f = .ok () ↔ ∀ x ∈ xs, f x = .ok () := by
  rw [List.forM_eq_forM]
  induction xs with
  | nil => exact ⟨fun _ x hx => by simp at hx, fun _ => rfl⟩
  | cons x rest ih =>
    rw [List.forM_cons, List.forall_mem_cons, ← ih]
    cases hx : f x with
    | error e =>
      constructor
      · rintro ⟨⟩
      · rintro ⟨⟨⟩, -⟩
    | ok u => exact ⟨fun h => ⟨rfl, h⟩, fun h => h.2⟩

namespace Scenario

/-- Everything in the scenario fits together. -/
structure Accepted (s : Scenario) : Prop where
  positive : 0 < s.numParts
  denseLinks : ∀ (i : Nat) spec, s.links[i]? = some spec → spec.id = i
  denseAgents : ∀ (i : Nat) a, s.agents[i]? = some a → a.id = i
  agents : ∀ a ∈ s.agents.toList, a.check = .ok ()
  parts : ∀ spec ∈ s.links.toList, spec.part < s.numParts
  homes : s.homes = s.agents.map s.homeOf
  crossings : s.crossings = s.findCrossings
  neighbors : s.neighbors = s.findNeighbors

/-! ## Splitting -/

variable {s : Scenario}

theorem dense_of_check {entity : Entity} {ids : List Nat} (h : checkDense entity ids = .ok ())
    {i id : Nat} (hi : ids[i]? = some id) : id = i := by
  unfold checkDense at h
  split at h
  · cases h
  · rename_i hf
    have := List.find?_eq_none.1 hf (id, i) (List.mem_zipIdx_iff_getElem?.2 hi)
    simpa using this

theorem assign_id (method : Method) (numParts : Nat) (spec : LinkSpec) :
    (assign method numParts spec).id = spec.id := by
  cases method <;> rfl

/-- What the checks of the entities are good for. -/
theorem check_eq_ok (h : s.check = .ok ()) :
    (∀ (i : Nat) spec, s.links[i]? = some spec → spec.id = i) ∧
      (∀ (i : Nat) a, s.agents[i]? = some a → a.id = i) ∧
      (∀ stop ∈ s.stops.toList, s.checkStop stop = .ok ()) ∧
      ∀ a ∈ s.agents.toList, s.checkAgent a = .ok () := by
  unfold check at h
  simp only [bind, Except.bind] at h
  split at h
  · cases h
  rename_i hlinks
  split at h
  · cases h
  split at h
  · cases h
  rename_i hagents
  split at h
  · cases h
  split at h
  · cases h
  rename_i hstops
  refine ⟨fun i spec hs => ?_, fun i a ha => ?_, forM_eq_ok_iff.1 hstops, forM_eq_ok_iff.1 h⟩
  · exact dense_of_check hlinks (by simpa using ⟨spec, hs, rfl⟩)
  · exact dense_of_check hagents (by simpa using ⟨a, ha, rfl⟩)

/-- The state of a checked agent is right, and so is every word of its plan. -/
theorem checkAgent_eq_ok {a : Agent} (h : s.checkAgent a = .ok ()) :
    a.check = .ok () ∧ ∀ (k : Nat) word, a.plan.words[k]? = some word → s.checkWord a.id k word = .ok () := by
  unfold checkAgent at h
  split at h
  · cases h
  · rename_i state
    refine ⟨state, fun k word hk => ?_⟩
    refine forM_eq_ok_iff.1 h (word, k) (List.mem_zipIdx_iff_getElem?.2 ?_)
    rw [Array.getElem?_toList]
    exact hk

theorem parts_of_checkParts (h : s.checkParts = .ok ()) :
    ∀ spec ∈ s.links.toList, spec.part < s.numParts := by
  intro spec hs
  unfold checkParts at h
  split at h
  · cases h
  · rename_i hf
    have := List.find?_eq_none.1 hf spec hs
    simpa using this

/-- How a scenario comes from the one which was split. -/
structure Split (raw : Scenario) (method : Method) (s : Scenario) : Prop where
  positive : 0 < raw.numParts
  checked : raw.check = .ok ()
  numParts : s.numParts = raw.numParts
  links : s.links = raw.links.map (assign method raw.numParts)
  stops : s.stops = raw.stops
  agents : s.agents = raw.agents
  parts : s.checkParts = .ok ()
  homes : s.homes = s.agents.map s.homeOf
  crossings : s.crossings = s.findCrossings
  neighbors : s.neighbors = s.findNeighbors

theorem split_of_partition {raw : Scenario} {method : Method} (h : raw.partition method = .ok s) :
    raw.Split method s := by
  unfold partition at h
  by_cases hz : raw.numParts = 0
  · rw [if_pos hz] at h
    cases h
  rw [if_neg hz] at h
  simp only [bind, Except.bind] at h
  split at h
  · cases h
  rename_i hcheck
  split at h
  · cases h
  rename_i hparts
  cases h
  exact ⟨Nat.pos_of_ne_zero hz, hcheck, rfl, rfl, rfl, rfl, hparts, rfl, rfl, rfl⟩

/-- What was split is accepted. -/
theorem Split.accepted {raw : Scenario} {method : Method} (split : raw.Split method s) : s.Accepted := by
  obtain ⟨hlinks, hagents, -, hstates⟩ := check_eq_ok split.checked
  refine ⟨split.numParts ▸ split.positive, fun i spec hs => ?_, fun i a ha => ?_, fun a ha => ?_,
    parts_of_checkParts split.parts, split.homes, split.crossings, split.neighbors⟩
  · rw [split.links] at hs
    obtain ⟨spec', hs', rfl⟩ : ∃ spec', raw.links[i]? = some spec' ∧
        assign method raw.numParts spec' = spec := by simpa using hs
    rw [assign_id]
    exact hlinks i spec' hs'
  · exact hagents i a (split.agents ▸ ha)
  · exact (checkAgent_eq_ok (hstates a (split.agents ▸ ha))).1

/-- What was split without an error is accepted. -/
theorem accepted_of_partition {raw : Scenario} {method : Method} (h : raw.partition method = .ok s) :
    s.Accepted :=
  (split_of_partition h).accepted

/-! ## Owners -/

/-- A partition is listed for a node if one of its links ends there. -/
theorem mem_ownersByTarget {links : List LinkSpec} {node part : Nat} :
    part ∈ (((ownersByTarget links).get? node).getD .empty).keys ↔
      ∃ link ∈ links, link.target = node ∧ link.part = part := by
  -- The fold adds the links one by one to what is already listed.
  have added : ∀ t : Table (Table Unit), part ∈ (((links.foldl (fun t link => t.alter link.target fun owners =>
        some ((owners.getD .empty).insert link.part ())) t).get? node).getD .empty).keys ↔
      part ∈ ((t.get? node).getD .empty).keys ∨
        ∃ link ∈ links, link.target = node ∧ link.part = part := by
    induction links with
    | nil => intro t; simp
    | cons link rest ih =>
      intro t
      rw [List.foldl_cons, ih, Table.get?_alter]
      have row : ∀ known : Table Unit, part ∈ (known.insert link.part ()).keys ↔
          part ∈ known.keys ∨ link.part = part := by
        intro known
        simp only [Table.mem_keys, Table.get?_insert]
        by_cases hp : part = link.part
        · simp [hp]
        · simp [hp, Ne.symm hp]
      by_cases hn : node = link.target
      · subst hn
        simp only [if_true, Option.getD_some, row, List.mem_cons, or_and_right, exists_or,
          exists_eq_left, true_and, or_assoc]
      · simp [hn, Ne.symm hn]
  have none : part ∉ (((Table.empty : Table (Table Unit)).get? node).getD .empty).keys := by simp
  exact (added .empty).trans (or_iff_right none)

/-- A crossing leads into a link from another partition, one which owns a preceding link. -/
theorem mem_findCrossings {c : Crossing} : c ∈ s.findCrossings ↔ ∃ spec ∈ s.links.toList,
    spec.id = c.link ∧ spec.part = c.toPart ∧ c.fromPart ≠ spec.part ∧
      ∃ other ∈ s.links.toList, other.target = spec.source ∧ other.part = c.fromPart := by
  simp only [findCrossings, List.mem_flatMap, List.mem_map, List.mem_filter, decide_eq_true_eq,
    mem_ownersByTarget]
  constructor
  · rintro ⟨spec, hspec, part, ⟨precedes, hne⟩, rfl⟩
    exact ⟨spec, hspec, rfl, rfl, hne, precedes⟩
  · rintro ⟨spec, hspec, hlink, hto, hne, precedes⟩
    exact ⟨spec, hspec, c.fromPart, ⟨precedes, hne⟩, by rw [hlink, hto]⟩

theorem linkPart_eq {link : Nat} {spec : LinkSpec} (h : s.links[link]? = some spec) :
    s.linkPart link = spec.part := by
  rw [linkPart, h]

namespace Accepted

theorem linkPart_lt (h : s.Accepted) (link : Nat) : s.linkPart link < s.numParts := by
  unfold linkPart
  cases hl : s.links[link]? with
  | none => exact h.positive
  | some spec => exact h.parts spec (Array.mem_toList_iff.2 (Array.mem_of_getElem? hl))

theorem stopPart_lt (h : s.Accepted) (stop : Nat) : s.stopPart stop < s.numParts := by
  unfold stopPart
  cases s.stops[stop]? with
  | none => exact h.positive
  | some spec => exact h.linkPart_lt spec.link

theorem placeOf_lt (h : s.Accepted) {action : Action} {part : Nat}
    (hp : s.placeOf action = some part) : part < s.numParts := by
  cases action with
  | traverse link velocity => exact Option.some.inj hp ▸ h.linkPart_lt link.val
  | sleepFor duration => cases hp
  | sleepUntil time => cases hp
  | access stop => exact Option.some.inj hp ▸ h.stopPart_lt stop.stop.val
  | egress stop => exact Option.some.inj hp ▸ h.stopPart_lt stop.stop.val
  | stopArrive stop => exact Option.some.inj hp ▸ h.stopPart_lt stop.stop.val
  | stopDelay stop => exact Option.some.inj hp ▸ h.stopPart_lt stop.stop.val
  | stopDepart stop => exact Option.some.inj hp ▸ h.stopPart_lt stop.stop.val
  | wait route stop => exact Option.some.inj hp ▸ h.stopPart_lt stop.val

theorem homeOf_lt (h : s.Accepted) (a : Agent) : s.homeOf a < s.numParts := by
  unfold homeOf
  cases hf : a.plan.decoded.findSome? fun i => s.startOf i.action with
  | none => exact Nat.mod_lt _ h.positive
  | some part =>
    obtain ⟨i, -, hi⟩ := List.exists_of_findSome?_eq_some hf
    have place : s.placeOf i.action = some part := by
      unfold startOf at hi
      split at hi
      · exact hi
      · exact hi
      · exact hi
      · cases hi
    exact h.placeOf_lt place

theorem route_lt (h : s.Accepted) (a : Agent) : ∀ part ∈ s.route a, part < s.numParts := by
  intro part hp
  obtain ⟨i, -, hi⟩ := List.mem_filterMap.1 hp
  exact h.placeOf_lt hi

/-- A crossing leads into a link from a partition which doesn't own it. -/
theorem crossing (h : s.Accepted) {c : Crossing} (hc : c ∈ s.crossings) :
    c.fromPart ≠ c.toPart ∧ c.fromPart < s.numParts ∧
      ∃ spec, s.links[c.link]? = some spec ∧ spec.part = c.toPart := by
  rw [h.crossings] at hc
  obtain ⟨spec, hspec, hlink, hto, hne, other, hother, -, hpart⟩ := mem_findCrossings.1 hc
  refine ⟨hto ▸ hne, hpart ▸ h.parts other hother, spec, ?_, hto⟩
  obtain ⟨i, hi⟩ := Array.mem_iff_getElem?.1 (Array.mem_toList_iff.1 hspec)
  rw [← hlink, h.denseLinks i spec hi]
  exact hi

end Accepted

/-! ## Neighbors -/

/-- `b` is noted as a neighbor of `a`. -/
def Linked (t : Table (Table Unit)) (a b : Nat) : Prop := b ∈ ((t.get? a).getD .empty).keys

theorem linked_empty (a b : Nat) : ¬ Linked .empty a b := by
  intro h
  cases h

/-- Connecting adds two directions. -/
theorem linked_connect {t : Table (Table Unit)} {a b x y : Nat} :
    Linked (connect t a b) x y ↔
      Linked t x y ∨ a ≠ b ∧ (x = a ∧ y = b ∨ x = b ∧ y = a) := by
  have meet : ∀ (t : Table (Table Unit)) (a b x y : Nat),
      Linked (t.alter a fun known => some ((known.getD .empty).insert b ())) x y ↔
        Linked t x y ∨ x = a ∧ y = b := by
    intro t a b x y
    unfold Linked
    rw [Table.get?_alter]
    by_cases hx : x = a
    · subst hx
      simp only [if_true, Option.getD_some, Table.mem_keys, Table.get?_insert, true_and]
      by_cases hy : y = b
      · simp [hy]
      · simp [hy]
    · simp [hx]
  by_cases hab : a = b
  · simp [connect, hab]
  · simp only [connect, if_neg hab, meet]
    constructor
    · rintro ((h | h) | h)
      · exact .inl h
      · exact .inr ⟨hab, .inl h⟩
      · exact .inr ⟨hab, .inr h⟩
    · rintro (h | ⟨-, h | h⟩)
      · exact .inl (.inl h)
      · exact .inl (.inr h)
      · exact .inr h

/-- Neighbors know each other, are below `size`, and nobody is its own neighbor. -/
def Mutual (size : Nat) (t : Table (Table Unit)) : Prop :=
  ∀ a b, Linked t a b → Linked t b a ∧ b < size ∧ a ≠ b

variable {size : Nat} {t : Table (Table Unit)}

theorem Mutual.connect (h : Mutual size t) {a b : Nat} (ha : a < size) (hb : b < size) :
    Mutual size (connect t a b) := by
  intro x y hxy
  rw [linked_connect] at hxy ⊢
  rcases hxy with hxy | ⟨hne, ⟨rfl, rfl⟩ | ⟨rfl, rfl⟩⟩
  · exact ⟨.inl (h x y hxy).1, (h x y hxy).2⟩
  · exact ⟨.inr ⟨hne, .inr ⟨rfl, rfl⟩⟩, hb, hne⟩
  · exact ⟨.inr ⟨hne, .inl ⟨rfl, rfl⟩⟩, ha, Ne.symm hne⟩

theorem Mutual.connectAlong (h : Mutual size t) {way : List Nat} {here : Nat} (hh : here < size)
    (hw : ∀ part ∈ way, part < size) : Mutual size (connectAlong t here way) := by
  induction way generalizing t here with
  | nil => exact h
  | cons next rest ih =>
    have hn := hw next List.mem_cons_self
    exact ih (h.connect hh hn) hn fun part hp => hw part (List.mem_cons_of_mem _ hp)

theorem linked_connectAlong {way : List Nat} {here a b : Nat} (h : Linked t a b) :
    Linked (connectAlong t here way) a b := by
  induction way generalizing t here with
  | nil => exact h
  | cons next rest ih => exact ih (linked_connect.2 (.inl h))

namespace Accepted

theorem mutual_findNeighbors (h : s.Accepted) : Mutual s.numParts s.findNeighbors := by
  unfold findNeighbors
  refine List.foldlRecOn (motive := Mutual s.numParts) _ _ ?_ ?_
  · refine List.foldlRecOn (motive := Mutual s.numParts) _ _ ?_ ?_
    · intro a b hab
      exact absurd hab (linked_empty a b)
    · intro t ht c hc
      obtain ⟨-, hfrom, spec, hs, hto⟩ := h.crossing hc
      exact ht.connect hfrom
        (hto ▸ h.parts spec (Array.mem_toList_iff.2 (Array.mem_of_getElem? hs)))
  · rintro t ht ⟨a, home⟩ hz
    have hhome : home < s.numParts := by
      have := (List.of_mem_zip hz).2
      rw [h.homes, Array.toList_map] at this
      obtain ⟨a', -, rfl⟩ := List.mem_map.1 this
      exact h.homeOf_lt a'
    exact ht.connectAlong hhome (h.route_lt a)

theorem linked_crossing (h : s.Accepted) {c : Crossing} (hc : c ∈ s.crossings) :
    Linked s.findNeighbors c.fromPart c.toPart := by
  unfold findNeighbors
  refine List.foldlRecOn (motive := fun t => Linked t c.fromPart c.toPart) _ _ ?_
    fun t ht row _ => linked_connectAlong ht
  have connected : ∀ (cs : List Crossing) (t : Table (Table Unit)),
      c ∈ cs ∨ Linked t c.fromPart c.toPart →
      Linked (cs.foldl (fun t c => connect t c.fromPart c.toPart) t) c.fromPart c.toPart := by
    intro cs
    induction cs with
    | nil =>
      rintro t (hm | hl)
      · cases hm
      · exact hl
    | cons d rest ih =>
      rintro t (hm | hl)
      · rcases List.mem_cons.1 hm with rfl | hm
        · exact ih _ (.inr (linked_connect.2 (.inr ⟨(h.crossing hc).1, .inl ⟨rfl, rfl⟩⟩)))
        · exact ih _ (.inl hm)
      · exact ih _ (.inr (linked_connect.2 (.inl hl)))
  exact connected s.crossings .empty (.inl hc)

variable {i j : Nat}

theorem mem_neighborsOf (h : s.Accepted) : j ∈ s.neighborsOf i ↔ Linked s.findNeighbors i j := by
  unfold neighborsOf Linked
  rw [h.neighbors]

/-- Neighbors are neighbors of each other. -/
theorem neighborsOf_symm (h : s.Accepted) (hj : j ∈ s.neighborsOf i) : i ∈ s.neighborsOf j :=
  h.mem_neighborsOf.2 (h.mutual_findNeighbors i j (h.mem_neighborsOf.1 hj)).1

theorem neighborsOf_lt (h : s.Accepted) (hj : j ∈ s.neighborsOf i) : j < s.numParts :=
  (h.mutual_findNeighbors i j (h.mem_neighborsOf.1 hj)).2.1

/-- Nobody is its own neighbor. -/
theorem not_neighbor (h : s.Accepted) : i ∉ s.neighborsOf i := fun hi =>
  (h.mutual_findNeighbors i i (h.mem_neighborsOf.1 hi)).2.2 rfl

/-- A crossing connects neighbors. -/
theorem crossing_neighbors (h : s.Accepted) {c : Crossing} (hc : c ∈ s.crossings) :
    c.toPart ∈ s.neighborsOf c.fromPart :=
  h.mem_neighborsOf.2 (h.linked_crossing hc)

end Accepted

end Scenario

end Mobility
