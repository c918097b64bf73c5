import Mobility.Proofs.Partition.Accounts
import Mobility.Proofs.Start

/-!
# Partitions between two seconds

Between two seconds nothing is on its way: no proxy holds an agent which is to be sent, and no gateway
has counted an agent which isn't reported (`Scenario.Rested`). Apart from what a run may change, each
partition still is what it was at the start.
-/

set_option autoImplicit false

namespace Mobility

open Act Second Mobility.Partition

namespace Scenario

variable {s : Scenario} {timing : Timing} {now rank : Nat} {ps qs : List Partition}

/-! ## The first views -/

/-- How a partition sees a link before the first second. -/
inductive FirstView (s : Scenario) (rank : Nat) (spec : LinkSpec) : LinkView → Prop where
  | owned (mine : spec.part = rank) :
      FirstView s rank spec (.owned (.vacant spec.id spec.length spec.velocity spec.capacity))
  | gateway {fromParts : List Nat} (mine : spec.part = rank) :
      FirstView s rank spec
        (.gateway (.vacant fromParts (.vacant spec.id spec.length spec.velocity spec.capacity)))
  | proxy (other : spec.part ≠ rank) :
      FirstView s rank spec (.proxy (.vacant spec.id spec.part spec.capacity))
  | remote (other : spec.part ≠ rank) : FirstView s rank spec (.remote spec.id spec.part)

theorem firstView {link : Nat} {v : LinkView} (h : (s.views rank)[link]? = some v) :
    ∃ spec, s.links[link]? = some spec ∧ FirstView s rank spec v := by
  unfold views at h
  rw [Array.getElem?_map, Option.map_eq_some_iff] at h
  obtain ⟨spec, hs, rfl⟩ := h
  refine ⟨spec, hs, ?_⟩
  dsimp only
  split
  · rename_i mine
    split
    · exact .owned mine
    · exact .gateway mine
  · rename_i other
    split
    · exact .proxy other
    · exact .remote other

theorem FirstView.id_eq {spec : LinkSpec} {v : LinkView} (h : FirstView s rank spec v) :
    v.id = spec.id := by
  cases h <;> rfl

/-- Nobody has come to a link before the first second. -/
theorem FirstView.idle {spec : LinkSpec} {v : LinkView} (h : FirstView s rank spec v) :
    v.outgoing = [] ∧ v.released = .empty ∧ v.reserved = 0 ∧ ∀ part, v.credit part = 0 := by
  cases h with
  | owned | proxy | remote => exact ⟨rfl, rfl, rfl, fun _ => rfl⟩
  | gateway mine => exact ⟨rfl, rfl, rfl, fun part => rfl⟩

theorem seen_initial (s : Scenario) (timing : Timing) (rank link : Nat) :
    ((Partition.initial s timing rank).seen link).outgoing = [] ∧
      ((Partition.initial s timing rank).seen link).released = .empty ∧
      ((Partition.initial s timing rank).seen link).reserved = 0 ∧
      ∀ part, ((Partition.initial s timing rank).seen link).credit part = 0 := by
  cases h : (s.views rank)[link]? with
  | none =>
    have seen : (Partition.initial s timing rank).seen link = .remote 0 0 := by
      show ((s.views rank)[link]?).getD _ = _
      rw [h]
      rfl
    rw [seen]
    exact ⟨rfl, rfl, rfl, fun _ => rfl⟩
  | some v =>
    rw [Partition.seen_of_view (p := Partition.initial s timing rank) h]
    obtain ⟨spec, -, first⟩ := firstView h
    exact first.idle

theorem Accepted.listed_initial (h : s.Accepted) (timing : Timing) (rank : Nat) :
    (Partition.initial s timing rank).Listed := by
  have id_eq : ∀ {link : Nat} {v : LinkView}, (s.views rank)[link]? = some v → v.id = link := by
    intro link v hv
    obtain ⟨spec, hs, first⟩ := firstView hv
    rw [first.id_eq]
    exact h.denseLinks link spec hs
  refine ⟨fun link x hx => ?_, fun link g hg => ?_, ?_⟩
  · have hx : (s.views rank)[link]? = some (.proxy x) := hx
    refine List.mem_filterMap.2 ⟨.proxy x, Array.mem_toList_iff.2 (Array.mem_of_getElem? hx), ?_⟩
    exact congrArg some (id_eq hx)
  · have hg : (s.views rank)[link]? = some (.gateway g) := hg
    refine List.mem_filterMap.2 ⟨.gateway g, Array.mem_toList_iff.2 (Array.mem_of_getElem? hg), ?_⟩
    exact congrArg some (id_eq hg)
  · exact (List.length_filterMap_le _ _).trans (Nat.le_of_eq Array.length_toList)

/-! ## Rest -/

/-- The partitions of a scenario between two seconds. -/
structure Rested (s : Scenario) (timing : Timing) (ps : List Partition) : Prop where
  setting : ∀ (i : Nat) p, ps[i]? = some p → Kept LinkView.Alike (Partition.initial s timing i) p
  unsent : ∀ (i : Nat) p, ps[i]? = some p → ∀ link, (p.seen link).outgoing = []
  unreported : ∀ (i : Nat) p, ps[i]? = some p → ∀ link, (p.seen link).released = .empty

/-- No link of a partition holds anybody who is to be sent. -/
theorem Rested.outgoing (rest : s.Rested timing ps) {i : Nat} {p : Partition} (hp : ps[i]? = some p) :
    ∀ v ∈ p.links.toList, v.outgoing = [] := by
  intro v hv
  obtain ⟨link, view⟩ := Array.mem_iff_getElem?.1 (Array.mem_toList_iff.1 hv)
  rw [← seen_of_view view]
  exact rest.unsent i p hp link

/-- Whether an agent is a vehicle, or nothing for an agent that doesn't exist. -/
def isVehicle (s : Scenario) (id : Nat) : Option Bool := s.agents[id]?.map (·.isVehicle)

/-- Everybody knows the vehicles and the links. -/
theorem knows_of_kept {i : Nat} {q : Partition}
    (k : Kept LinkView.Alike (Partition.initial s timing i) q) :
    q.isVehicle = s.isVehicle ∧ q.links.size = s.links.size := by
  refine ⟨k.isVehicle, k.size.trans ?_⟩
  show (s.views i).size = _
  rw [views, Array.size_map]

theorem getElem?_cast {i : Nat} {p : Partition}
    (h : ((List.range s.numParts).map (Partition.initial s timing))[i]? = some p) :
    p = Partition.initial s timing i := by
  obtain ⟨hi, rfl⟩ := List.getElem?_eq_some_iff.1 h
  rw [List.getElem_map, List.getElem_range]

theorem rested_initial (s : Scenario) (timing : Timing) :
    s.Rested timing ((List.range s.numParts).map (Partition.initial s timing)) := by
  refine ⟨fun i p hp => ?_, fun i p hp link => ?_, fun i p hp link => ?_⟩
  · rw [getElem?_cast hp]
    exact Std.Refl.refl _
  · rw [getElem?_cast hp]
    exact (seen_initial s timing i link).1
  · rw [getElem?_cast hp]
    exact (seen_initial s timing i link).2.1

namespace Rested

variable {i : Nat} {b : Buffers} {q : Partition}

theorem listed (h : s.Rested timing ps) (hs : s.Accepted) {p : Partition} (hp : ps[i]? = some p) :
    p.Listed :=
  (hs.listed_initial timing i).of_kept (h.setting i p hp)

/-- What a partition has written after it has worked. -/
theorem departed (h : s.Rested timing ps) (hs : s.Accepted) {partners : Nat → List Nat}
    (c : Company timing partners ps) (hd : departed now ps i = some (b, q)) :
    ∃ p messages, ps[i]? = some p ∧ Wrote now messages p q ∧
      b = messages.mapRows (fun _ t => t.encode) ∧ Sent messages p q ∧
      Kept LinkView.Alike (Partition.initial s timing i) q := by
  obtain ⟨p, hp, hd⟩ := departed_eq_some.1 hd
  obtain ⟨messages, wrote, hb⟩ := depart_ends hd
  exact ⟨p, messages, hp, wrote, hb,
    sent_wrote wrote (c.idle i p hp) (h.listed hs hp) (h.unsent i p hp),
    (h.setting i p hp).trans (kept_wrote wrote)⟩

/-- A second leads from rest to rest. -/
theorem next (h : s.Rested timing ps) (hs : s.Accepted) {partners : Nat → List Nat}
    (c : Company timing partners ps) (hn : next now ps = some qs) : s.Rested timing qs := by
  have settled : ∀ (i : Nat) q, qs[i]? = some q → Kept LinkView.Alike (Partition.initial s timing i) q ∧
      ∀ link, (q.seen link).outgoing = [] ∧ (q.seen link).released = .empty := by
    intro i q hq
    obtain ⟨b, r, d, hr, -, hq⟩ := settled_eq_some.1 ((next_eq_some.1 hn).2 i q hq)
    obtain ⟨b', w, d', hw, -, hr⟩ := arrived_eq_some.1 hr
    obtain ⟨p, messages, -, -, -, sent, setting⟩ := h.departed hs c hw
    have arrive := kept_arrive hr
    have settle := kept_receiveReleases hq
    refine ⟨setting.trans ((arrive.mono LinkView.Same.alike).trans (settle.mono LinkView.Same.alike)),
      fun link => ⟨?_, ?_⟩⟩
    · exact (congrArg (·.1) (settle.seen link).same).trans
        ((congrArg (·.1) (arrive.seen link).same).trans (sent.unsent link))
    · exact (congrArg (·.2.2) (settle.seen link).same).trans
        ((congrArg (·.2.2) (arrive.seen link).same).trans (sent.unreported link))
  exact ⟨fun i q hq => (settled i q hq).1, fun i q hq link => ((settled i q hq).2 link).1,
    fun i q hq link => ((settled i q hq).2 link).2⟩

end Rested

end Scenario

end Mobility
