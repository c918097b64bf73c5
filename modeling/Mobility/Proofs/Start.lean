import Mobility.Proofs.Scenario.Accepted
import Mobility.Proofs.Second

/-!
# The start of a run

The partitions of an accepted scenario start as a company: each knows its rank and its neighbors,
and nobody has anything to send.
-/

set_option autoImplicit false

namespace Mobility

namespace Partition

/-- Partition `rank` before its first second. -/
def initial (s : Scenario) (timing : Timing) (rank : Nat) : Partition where
  rank := rank
  timing := timing
  links := s.views rank
  gateways := (s.views rank).toList.filterMap fun
    | .gateway gate => some gate.link.id
    | _ => none
  proxies := (s.views rank).toList.filterMap fun
    | .proxy proxy => some proxy.id
    | _ => none
  stopLinks := s.stops.map (·.link)
  agents := s.agents
  dueAgents := .starting timing.start timing.stop (s.agentsOf rank)
  dueLinks := .vacant timing.start timing.stop
  platforms := .empty
  outbox := .empty rank (s.neighborsOf rank)
  log := #[]
  finished := 0

theorem make_eq_ok {s : Scenario} {timing : Timing} {rank size : Nat} {p : Partition}
    (h : make s timing rank size (s.neighborsOf rank) = .ok p) :
    timing.start ≤ timing.stop ∧ p = initial s timing rank := by
  unfold make at h
  split at h
  · cases h
  · split at h
    · cases h
    · rename_i htime
      cases h
      exact ⟨Nat.le_of_not_lt htime, rfl⟩

end Partition

/-- The table of neighbors has the neighbors it was made of. -/
theorem Outbox.keys_empty (rank : Nat) {neighbors : List Nat} (h : neighbors.Pairwise (· < ·)) :
    (Outbox.empty rank neighbors).neighbors.keys = neighbors := by
  have mem : ∀ (xs : List Nat) (t : Table Unit) (k : Nat),
      k ∈ (xs.foldl (fun t n => t.insert n ()) t).keys ↔ k ∈ xs ∨ k ∈ t.keys := by
    intro xs
    induction xs with
    | nil => intro t k; simp
    | cons x rest ih =>
      intro t k
      rw [List.foldl_cons, ih, List.mem_cons]
      simp only [Table.mem_keys, Table.get?_insert]
      by_cases hk : k = x
      · simp [hk]
      · simp [hk]
  have perm : (Outbox.empty rank neighbors).neighbors.keys.Perm neighbors :=
    (List.perm_ext_iff_of_nodup (Table.keys_nodup _) (h.imp Nat.ne_of_lt)).2 fun k =>
      (mem neighbors .empty k).trans (by simp)
  exact perm.eq_of_pairwise (fun a b _ _ hab hba => absurd hab (by omega))
    (Table.keys_ascending _) h

namespace Scenario

variable {s : Scenario} {timing : Timing} {sim : Simulation}

theorem simulation_eq_ok (h : Simulation.make s timing = .ok sim) :
    sim.partitions = (List.range s.numParts).map (Partition.initial s timing) ∧
      sim.lanes = Lanes.make s.numParts ∧ (0 < s.numParts → timing.start ≤ timing.stop) := by
  unfold Simulation.make at h
  cases hm : (List.range s.numParts).mapM fun rank =>
      Partition.make s timing rank s.numParts (s.neighborsOf rank) with
  | error e => rw [hm] at h; cases h
  | ok ps =>
    rw [hm] at h
    cases h
    have all := mapM_eq_ok_iff.1 hm
    have made : ∀ {ranks : List Nat} {ps : List Partition},
        List.Forall₂ (fun rank p =>
          Partition.make s timing rank s.numParts (s.neighborsOf rank) = .ok p) ranks ps →
        ps = ranks.map (Partition.initial s timing) := by
      intro ranks ps h
      induction h with
      | nil => rfl
      | cons first _ ih => rw [List.map_cons, ← ih, (Partition.make_eq_ok first).2]
    refine ⟨made all, rfl, fun hpos => ?_⟩
    obtain ⟨n, hn⟩ := Nat.exists_eq_succ_of_ne_zero (Nat.ne_of_gt hpos)
    rw [hn, List.range_succ_eq_map] at all
    obtain ⟨p, rest, first, -, -⟩ := List.forall₂_cons_left_iff.1 all
    exact (Partition.make_eq_ok first).1

theorem Accepted.network (h : s.Accepted) (hsmall : s.numParts ≤ Wire.base) :
    Network s.numParts s.neighborsOf :=
  ⟨fun hj => h.neighborsOf_symm hj, fun hj => h.neighborsOf_lt hj, hsmall⟩

/-- The partitions of a scenario start as a company. -/
theorem company_initial (s : Scenario) (timing : Timing) :
    Company timing s.neighborsOf ((List.range s.numParts).map (Partition.initial s timing)) := by
  have each : ∀ (i : Nat) p,
      ((List.range s.numParts).map (Partition.initial s timing))[i]? = some p →
      p = Partition.initial s timing i := by
    intro i p hp
    obtain ⟨hi, rfl⟩ := List.getElem?_eq_some_iff.1 hp
    rw [List.getElem_map, List.getElem_range]
  refine ⟨fun i p hp => ?_, fun i p hp => ?_, fun i p hp => ?_, fun i p hp => ?_⟩
  · rw [each i p hp]
    exact ⟨rfl, rfl⟩
  · rw [each i p hp]
    rfl
  · rw [each i p hp]
    exact Outbox.keys_empty i (Table.keys_ascending _)
  · rw [each i p hp]
    exact ⟨rfl, rfl⟩

end Scenario

end Mobility
