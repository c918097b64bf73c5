import Mobility.Proofs.Ledger
import Mobility.Proofs.Safety.Receiving

/-!
# Safe starts

What plans name exists in an accepted scenario, and so do all proxies and gateways. If the scenario is
fresh, everybody can go on before the first second. Both sides of a crossing know of it.
-/

set_option autoImplicit false

namespace Mobility

open Act Second Mobility.Partition

namespace Scenario

variable {raw s : Scenario} {method : Method} {timing : Timing} {rank i j link : Nat} {p : Partition}

/-! ## Plans and links -/

/-- A link or stop which an action names exists. -/
theorem resolves_of_checkReference {agent index : Nat} {action : Action}
    (links : p.links.size = s.links.size) (stops : p.stopLinks = s.stops.map (·.link))
    (placed : ∀ stop ∈ s.stops.toList, stop.link < s.links.size)
    (h : s.checkReference agent index action = .ok ()) : p.Resolves action := by
  have known : ∀ {stop : Nat}, stop < s.stops.size → p.HasStop stop := by
    intro stop hlt
    refine ⟨s.stops[stop].link, ?_, links ▸ placed _ (Array.mem_toList_iff.2 (Array.getElem_mem hlt))⟩
    rw [stops, Array.getElem?_map, Array.getElem?_eq_getElem hlt, Option.map_some]
  cases action with
  | traverse link velocity =>
    unfold checkReference at h
    dsimp only at h
    split at h
    · rename_i inside
      show link.val < p.links.size
      exact links ▸ inside
    · cases h
  | wait route stop =>
    unfold checkReference at h
    dsimp only at h
    split at h
    · rename_i inside
      exact known inside
    · cases h
  | stopArrive stop =>
    unfold checkReference at h
    dsimp only at h
    split at h
    · rename_i inside
      exact known inside
    · cases h
  | sleepFor | sleepUntil | access | egress | stopDelay | stopDepart => trivial

/-- What plans name exists. -/
theorem grounded_initial (hs : raw.partition method = .ok s) (timing : Timing) (rank : Nat) :
    (Partition.initial s timing rank).Grounded := by
  have split := split_of_partition hs
  obtain ⟨-, -, stops, agents⟩ := check_eq_ok split.checked
  have size : (Partition.initial s timing rank).links.size = raw.links.size := by
    show (s.views rank).size = _
    rw [views, Array.size_map, split.links, Array.size_map]
  have stopLinks : (Partition.initial s timing rank).stopLinks = raw.stops.map (·.link) := by
    rw [← split.stops]
    rfl
  have placed : ∀ stop ∈ raw.stops.toList, stop.link < raw.links.size := by
    intro stop hstop
    have checked := stops stop hstop
    unfold checkStop at checked
    split at checked
    · assumption
    · cases checked
  intro id a k ha
  have ha : raw.agents[id]? = some a := split.agents ▸ ha
  have words := (checkAgent_eq_ok (agents a (Array.mem_toList_iff.2 (Array.mem_of_getElem? ha)))).2
  cases hk : a.plan.words[k]? with
  | none => exact ⟨none, by rw [Plan.get?, hk], by simp⟩
  | some word =>
    have checked := words k word hk
    unfold checkWord at checked
    cases decoded : Instruction.decode word with
    | error e =>
      rw [decoded] at checked
      cases checked
    | ok instruction =>
      rw [decoded] at checked
      refine ⟨some instruction, by rw [Plan.get?, hk]; simp only [decoded], fun found hfound => ?_⟩
      obtain rfl := Option.some.inj hfound
      exact resolves_of_checkReference size stopLinks placed checked

theorem Accepted.stocked_initial (h : s.Accepted) (timing : Timing) (rank : Nat) :
    (Partition.initial s timing rank).Stocked := by
  have inside : ∀ v ∈ (s.views rank).toList, v.id < (s.views rank).size := by
    intro v hv
    obtain ⟨link, hlt, rfl⟩ := Array.mem_iff_getElem.1 (Array.mem_toList_iff.1 hv)
    obtain ⟨spec, hspec, first⟩ := firstView (Array.getElem?_eq_getElem hlt)
    rw [first.id_eq, h.denseLinks link spec hspec]
    exact hlt
  refine ⟨fun link hl => ?_, fun link hl => ?_⟩
  · obtain ⟨v, hv, found⟩ := List.mem_filterMap.1 hl
    cases v with
    | proxy x =>
      obtain rfl := Option.some.inj found
      exact inside _ hv
    | owned | gateway | remote => cases found
  · obtain ⟨v, hv, found⟩ := List.mem_filterMap.1 hl
    cases v with
    | gateway g =>
      obtain rfl := Option.some.inj found
      exact inside _ hv
    | owned | proxy | remote => cases found

/-! ## Both sides of a crossing -/

/-- Whoever has a gateway for agents of a partition is the owner at a crossing. -/
theorem Accepted.crossing_of_admits (hs : s.Accepted)
    (k : Kept LinkView.Alike (Partition.initial s timing i) p) (h : p.Admits j link) :
    ⟨link, j, i⟩ ∈ s.crossings := by
  obtain ⟨g, view, known⟩ := h
  obtain ⟨v, first, alike⟩ := k.view view
  have first : (s.views i)[link]? = some v := first
  cases v with
  | gateway g' =>
    rw [fromParts_of_alike alike] at known
    unfold views at first
    rw [Array.getElem?_map, Option.map_eq_some_iff] at first
    obtain ⟨spec, hspec, first⟩ := first
    have id_eq := hs.denseLinks link spec hspec
    split at first
    · dsimp only at first
      split at first
      · cases first
      · rename_i parts nonempty
        cases first
        obtain ⟨c, listed, rfl⟩ := List.mem_map.1 known
        obtain ⟨hc, same⟩ := List.mem_filter.1 listed
        obtain ⟨rfl, hlink⟩ := of_decide_eq_true same
        obtain ⟨clink, cfrom, cto⟩ := c
        have : clink = link := hlink.trans id_eq
        subst clink
        exact hc
    · split at first
      · cases first
      · cases first
  | owned | proxy | remote => cases alike

/-- The owner at a crossing goes on to have a gateway for the agents of the neighbor. -/
theorem Accepted.admits_at (hs : s.Accepted) {x : Crossing} (hx : x ∈ s.crossings)
    (k : Kept LinkView.Alike (Partition.initial s timing x.toPart) p) : p.Admits x.fromPart x.link := by
  obtain ⟨g, first, listed⟩ := hs.gateway_of_crossing hx
  exact Admits.of_kept ⟨g, first, listed⟩ k

theorem Accepted.leads_at (hs : s.Accepted) {x : Crossing} (hx : x ∈ s.crossings)
    (k : Kept LinkView.Alike (Partition.initial s timing x.fromPart) p) : p.Leads x.toPart x.link := by
  obtain ⟨y, spec, seen, owner, -⟩ := hs.proxy_at hx k
  exact ⟨y, view_of_seen seen (by simp), owner⟩

theorem Accepted.crossing_of_leads (hs : s.Accepted)
    (k : Kept LinkView.Alike (Partition.initial s timing i) p) (h : p.Leads j link) :
    ⟨link, i, j⟩ ∈ s.crossings := by
  obtain ⟨y, view, rfl⟩ := h
  obtain ⟨v, first, alike⟩ := k.view view
  cases v with
  | proxy y' =>
    have owner : y.toPart = y'.toPart := congrArg (LinkView.owner 0) alike
    rw [owner]
    exact hs.crossing_of_proxy first
  | owned | gateway | remote => cases alike

/-! ## The first second -/

/-- Before the first second everybody can go on. -/
theorem Fresh.able_initial (fresh : s.Fresh) (hs : raw.partition method = .ok s) (timing : Timing)
    (rank : Nat) : (Partition.initial s timing rank).Able 0 := by
  have accepted := accepted_of_partition hs
  have idle : ∀ (link : Nat) v, (s.views rank)[link]? = some v → v.heading = 0 ∧ v.Genuine := by
    intro link v hv
    obtain ⟨spec, -, first⟩ := firstView hv
    cases first with
    | owned | proxy | remote => exact ⟨rfl, by rintro g ⟨⟩⟩
    | gateway mine =>
      refine ⟨rfl, ?_⟩
      rintro g ⟨⟩
      exact ⟨by simp [Gateway.vacant, Link.vacant], by simp [Gateway.vacant], by simp [Gateway.vacant]⟩
  have heading : (Partition.initial s timing rank).heading = 0 := by
    refine List.sum_eq_zero fun m hm => ?_
    obtain ⟨v, hv, rfl⟩ := List.mem_map.1 hm
    obtain ⟨link, hv⟩ := Array.mem_iff_getElem?.1 (Array.mem_toList_iff.1 hv)
    exact (idle link v hv).1
  refine ⟨grounded_initial hs timing rank, fun id a ha => accepted.denseAgents id a ha, fun id a ha => ?_,
    fun v _ y hy => ?_, fun y hy => ?_, fun y hy => ?_, fun link v hv => (idle link v hv).2, ?_⟩
  · rw [fresh.agents id a ha]
    exact Seats.honest_free _
  · rw [fresh.crew] at hy
    exact absurd hy (Multiset.notMem_zero y)
  · exact absurd hy (Multiset.notMem_zero y)
  · rw [heading] at hy
    exact absurd hy (Multiset.notMem_zero y)
  · rintro target t ⟨⟩

end Scenario

end Mobility
