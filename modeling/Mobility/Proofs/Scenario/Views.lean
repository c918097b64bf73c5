import Mathlib.Data.Finset.Sort
import Mobility.Proofs.Scenario.Accepted

/-!
# The views of a scenario

Every partition gets its own view of the network, taken from the one list of crossings. The views
have to fit: a partition sends agents to an owner who listens to it, and reserves the room which the
owner has. What decides all of them is who feeds a link, that is, owns a link which leads to it
without owning the link itself.
-/

set_option autoImplicit false

namespace Mobility.Scenario

variable {s raw : Scenario} {method : Method} {spec : LinkSpec} {rank link : Nat}

/-- The partitions other than its owner from whose links agents come onto a link. -/
def feeders (s : Scenario) (spec : LinkSpec) : Finset Nat :=
  ((s.links.toList.filter (·.target = spec.source)).map (·.part)).toFinset.erase spec.part

theorem mem_feeders : rank ∈ s.feeders spec ↔
    rank ≠ spec.part ∧ ∃ other ∈ s.links.toList, other.target = spec.source ∧ other.part = rank := by
  simp [feeders, and_assoc]

/-! ## Crossings -/

namespace Accepted

/-- The crossings into a link come from its feeders. -/
theorem mem_crossings (h : s.Accepted) {c : Crossing} : c ∈ s.crossings ↔
    ∃ spec, s.links[c.link]? = some spec ∧ c.toPart = spec.part ∧ c.fromPart ∈ s.feeders spec := by
  rw [h.crossings, mem_findCrossings]
  simp only [mem_feeders]
  constructor
  · rintro ⟨spec, hspec, hlink, hto, hne, precedes⟩
    obtain ⟨i, hi⟩ := Array.mem_iff_getElem?.1 (Array.mem_toList_iff.1 hspec)
    rw [← hlink, h.denseLinks i spec hi]
    exact ⟨spec, hi, hto.symm, hne, precedes⟩
  · rintro ⟨spec, hspec, hto, hne, precedes⟩
    exact ⟨spec, Array.mem_toList_iff.2 (Array.mem_of_getElem? hspec), h.denseLinks _ spec hspec,
      hto.symm, hne, precedes⟩

/-- The crossings into one link stand in the order of the partitions they come from. -/
theorem crossings_ordered (h : s.Accepted) :
    s.crossings.Pairwise fun c d => c.link = d.link → c.fromPart < d.fromPart := by
  rw [h.crossings, findCrossings, List.pairwise_flatMap]
  refine ⟨fun spec _ => ?_, ?_⟩
  · rw [List.pairwise_map]
    refine ((Table.keys_ascending _).filter _).imp fun hlt _ => ?_
    exact hlt
  · -- Crossings of different links don't compare, as no two links have one id.
    rw [List.pairwise_iff_getElem]
    intro i j hi hj hlt c hc d hd same
    obtain ⟨part, -, rfl⟩ := List.mem_map.1 hc
    obtain ⟨part', -, rfl⟩ := List.mem_map.1 hd
    have first := h.denseLinks i s.links.toList[i] (by simp)
    have second := h.denseLinks j s.links.toList[j] (by simp)
    have same : s.links.toList[i].id = s.links.toList[j].id := same
    omega

theorem crossings_nodup (h : s.Accepted) : s.crossings.Nodup :=
  h.crossings_ordered.imp fun hlt same => by
    subst same
    exact absurd (hlt rfl) (Nat.lt_irrefl _)

/-- The crossings into a link name its feeders in ascending order. -/
theorem crossings_into (h : s.Accepted) (hs : s.links[link]? = some spec) :
    (s.crossings.filter fun c => c.toPart = spec.part ∧ c.link = spec.id).map (·.fromPart) =
      (s.feeders spec).sort := by
  have id := h.denseLinks link spec hs
  have ascending : ((s.crossings.filter fun c => c.toPart = spec.part ∧ c.link = spec.id).map
      (·.fromPart)).Pairwise (· < ·) := by
    rw [List.pairwise_map]
    refine (h.crossings_ordered.filter _).imp_of_mem fun hc hd lt => lt ?_
    have hc := of_decide_eq_true (List.mem_filter.1 hc).2
    have hd := of_decide_eq_true (List.mem_filter.1 hd).2
    rw [hc.2, hd.2]
  have members : ∀ part, part ∈ (s.crossings.filter fun c => c.toPart = spec.part ∧
      c.link = spec.id).map (·.fromPart) ↔ part ∈ (s.feeders spec).sort := by
    intro part
    rw [Finset.mem_sort, List.mem_map]
    constructor
    · rintro ⟨c, hc, rfl⟩
      obtain ⟨hc, -, hlink⟩ := by simpa using hc
      obtain ⟨spec', hs', -, feeds⟩ := h.mem_crossings.1 hc
      rw [hlink, id, hs] at hs'
      exact Option.some.inj hs' ▸ feeds
    · intro feeds
      refine ⟨⟨link, part, spec.part⟩, List.mem_filter.2 ⟨?_, ?_⟩, rfl⟩
      · exact h.mem_crossings.2 ⟨spec, hs, rfl, feeds⟩
      · exact decide_eq_true ⟨rfl, id.symm⟩
  exact ((List.perm_ext_iff_of_nodup (ascending.imp Nat.ne_of_lt) (Finset.sort_nodup ..)).2
    members).eq_of_pairwise (fun a b _ _ hab hba => absurd hab (by omega)) ascending
    (Finset.sortedLT_sort _).pairwise

/-! ## Views -/

/-- Whoever doesn't own a link sends to it if it feeds the link. -/
theorem any_crossing (h : s.Accepted) (hs : s.links[link]? = some spec) :
    (s.crossings.any fun c => c.fromPart = rank ∧ c.link = spec.id) = true ↔
      rank ∈ s.feeders spec := by
  have id := h.denseLinks link spec hs
  rw [List.any_eq_true]
  constructor
  · rintro ⟨c, hc, found⟩
    obtain ⟨rfl, hlink⟩ := of_decide_eq_true found
    obtain ⟨spec', hs', -, feeds⟩ := h.mem_crossings.1 hc
    rw [hlink, id, hs] at hs'
    exact Option.some.inj hs' ▸ feeds
  · intro feeds
    exact ⟨⟨link, rank, spec.part⟩, h.mem_crossings.2 ⟨spec, hs, rfl, feeds⟩,
      decide_eq_true ⟨rfl, id.symm⟩⟩

/-- The owner listens to those who feed the link, if there are any. -/
theorem views_owner (h : s.Accepted) (hs : s.links[link]? = some spec) :
    (s.views spec.part)[link]? =
      some (if s.feeders spec = ∅ then .owned (.vacant link spec.length spec.velocity spec.capacity)
        else .gateway (.vacant (s.feeders spec).sort
          (.vacant link spec.length spec.velocity spec.capacity))) := by
  rw [views, Array.getElem?_map, hs, Option.map_some, if_pos rfl, h.crossings_into hs,
    h.denseLinks link spec hs]
  by_cases none : s.feeders spec = ∅
  · rw [none, Finset.sort_empty, if_pos rfl]
  · rw [if_neg none]
    cases hsort : (s.feeders spec).sort with
    | nil =>
      rw [← Finset.sort_toFinset (s.feeders spec) (· ≤ ·), hsort] at none
      exact absurd rfl none
    | cons first rest => rfl

/-- Those who feed the link reserve its room. -/
theorem views_feeder (h : s.Accepted) (hs : s.links[link]? = some spec)
    (feeds : rank ∈ s.feeders spec) :
    (s.views rank)[link]? = some (.proxy (.vacant link spec.part spec.capacity)) := by
  rw [views, Array.getElem?_map, hs, Option.map_some, if_neg (mem_feeders.1 feeds).1.symm,
    if_pos ((h.any_crossing hs).2 feeds), h.denseLinks link spec hs]

/-- Nobody else has to do with the link. -/
theorem views_other (h : s.Accepted) (hs : s.links[link]? = some spec) (other : rank ≠ spec.part)
    (feeds : rank ∉ s.feeders spec) :
    (s.views rank)[link]? = some (.remote link spec.part) := by
  rw [views, Array.getElem?_map, hs, Option.map_some, if_neg other.symm,
    if_neg fun found => feeds ((h.any_crossing hs).1 found), h.denseLinks link spec hs]

end Accepted

/-- All partitions see the same network. -/
structure ViewsAgree (s : Scenario) : Prop where
  /-- Nothing is listed twice. -/
  once : s.crossings.Nodup
  /-- The crossings lead into a link from its feeders. -/
  listed : ∀ c : Crossing, c ∈ s.crossings ↔
    ∃ spec, s.links[c.link]? = some spec ∧ c.toPart = spec.part ∧ c.fromPart ∈ s.feeders spec
  /-- Every link is known to everybody. -/
  size : ∀ rank < s.numParts, (s.views rank).size = s.links.size
  /-- Nobody enters a link without feeders from elsewhere. -/
  owned : ∀ (link : Nat) (spec : LinkSpec), s.links[link]? = some spec → s.feeders spec = ∅ →
    (s.views spec.part)[link]? =
      some (.owned (.vacant link spec.length spec.velocity spec.capacity))
  gateway : ∀ (link : Nat) (spec : LinkSpec), s.links[link]? = some spec → s.feeders spec ≠ ∅ →
    (s.views spec.part)[link]? = some (.gateway (.vacant (s.feeders spec).sort
      (.vacant link spec.length spec.velocity spec.capacity)))
  /-- A feeder sends to the owner, and has the owner's room in mind. -/
  proxy : ∀ (link : Nat) (spec : LinkSpec), s.links[link]? = some spec → ∀ rank ∈ s.feeders spec,
    ∃ (p : Proxy) (there : LinkView) (l : Link), (s.views rank)[link]? = some (.proxy p) ∧ p.toPart = spec.part ∧
      (s.views spec.part)[link]? = some there ∧ there.link? = some l ∧ p.capacity = l.capacity
  remote : ∀ (link : Nat) (spec : LinkSpec), s.links[link]? = some spec → ∀ rank < s.numParts, rank ≠ spec.part →
    rank ∉ s.feeders spec → (s.views rank)[link]? = some (.remote link spec.part)
  symmetric : ∀ i j, j ∈ s.neighborsOf i → i ∈ s.neighborsOf j
  irreflexive : ∀ i, i ∉ s.neighborsOf i
  below : ∀ i j, j ∈ s.neighborsOf i → i < s.numParts ∧ j < s.numParts
  /-- Those at the ends of a crossing are neighbors. -/
  connected : ∀ c ∈ s.crossings,
    c.toPart ∈ s.neighborsOf c.fromPart ∧ c.fromPart ∈ s.neighborsOf c.toPart

/-- The views of an accepted scenario fit together, whatever its links and their owners are. -/
theorem views_agree (hs : raw.partition method = .ok s) : s.ViewsAgree where
  once := (accepted_of_partition hs).crossings_nodup
  listed _ := (accepted_of_partition hs).mem_crossings
  size _ _ := Array.size_map ..
  owned link spec hspec none := by
    rw [(accepted_of_partition hs).views_owner hspec, if_pos none]
  gateway link spec hspec some := by
    rw [(accepted_of_partition hs).views_owner hspec, if_neg some]
  proxy link spec hspec rank feeds := by
    have accepted := accepted_of_partition hs
    have owner := accepted.views_owner hspec
    rw [if_neg (Finset.ne_empty_of_mem feeds)] at owner
    exact ⟨_, _, .vacant link spec.length spec.velocity spec.capacity,
      accepted.views_feeder hspec feeds, rfl, owner, rfl, rfl⟩
  remote link spec hspec rank _ other feeds :=
    (accepted_of_partition hs).views_other hspec other feeds
  symmetric _ _ hj := (accepted_of_partition hs).neighborsOf_symm hj
  irreflexive _ := (accepted_of_partition hs).not_neighbor
  below i j hj :=
    have accepted := accepted_of_partition hs
    ⟨accepted.neighborsOf_lt (accepted.neighborsOf_symm hj), accepted.neighborsOf_lt hj⟩
  connected c hc :=
    have accepted := accepted_of_partition hs
    have there := accepted.crossing_neighbors hc
    ⟨there, accepted.neighborsOf_symm there⟩

/-- Three links of three owners, two of which lead to the third one, and a loop. -/
def junction : Scenario where
  numParts := 3
  links := #[⟨0, 0, 1, ⟨0x3f800000⟩, ⟨0x3f800000⟩, 0, 0⟩, ⟨1, 2, 1, ⟨0x3f800000⟩, ⟨0x3f800000⟩, 2, 0⟩,
    ⟨2, 1, 3, ⟨0x3f800000⟩, ⟨0x3f800000⟩, 4, 0⟩, ⟨3, 3, 3, ⟨0x3f800000⟩, ⟨0x3f800000⟩, 1, 0⟩]
  stops := #[]
  agents := #[]
  homes := #[]
  crossings := []
  neighbors := .empty

/-- At the junction the third partition listens to the other two. -/
theorem views_agree_junction : ∃ s, junction.partition .modulo = .ok s ∧ s.ViewsAgree ∧
    s.crossings = [⟨2, 0, 2⟩, ⟨2, 1, 2⟩, ⟨3, 2, 0⟩] := by
  have split : (junction.partition .modulo).toOption.map (·.crossings) =
      some [⟨2, 0, 2⟩, ⟨2, 1, 2⟩, ⟨3, 2, 0⟩] := by decide +kernel
  cases hs : junction.partition .modulo with
  | error e => simp [hs, Except.toOption] at split
  | ok s => exact ⟨s, rfl, views_agree hs, by simpa [hs, Except.toOption] using split⟩

end Mobility.Scenario
