import Mobility.Proofs.Scenario.Accepted
import Mobility.Snapshot.File

/-!
# Splitting anew

What a scenario holds about homes, crossings and neighbors has no influence on how it is split, and unless the owners
of its links are to be kept, neither have they (`Scenario.partition_congr`). So a scenario which was split comes out
the same when its own owners are kept (`Scenario.Split.again`), and this is what happens to one that is read from a
file.
-/

set_option autoImplicit false

namespace Mobility

/-- A link without its owner. -/
def LinkSpec.unowned (l : LinkSpec) : LinkSpec := { l with part := 0 }

/-- Checking images is checking what they are images of. -/
theorem forM_map {ε α β : Type} (g : α → β) (f : β → Except ε Unit) (xs : List α) :
    (xs.map g).forM f = xs.forM fun x => f (g x) := by
  induction xs with
  | nil => rfl
  | cons x rest ih =>
    rw [List.forM_eq_forM, List.forM_eq_forM] at ih
    rw [List.map_cons, List.forM_eq_forM, List.forM_eq_forM, List.forM_cons, List.forM_cons, ih]

namespace Scenario

/-- The links, stops and agents of two scenarios are the same, apart from the owners of the links. -/
structure SameEntities (s r : Scenario) : Prop where
  links : s.links.map LinkSpec.unowned = r.links.map LinkSpec.unowned
  stops : s.stops = r.stops
  agents : s.agents = r.agents

variable {raw r s : Scenario} {method : Method} {numParts : Nat}

/-! ## Owners -/

theorem assign_unowned (anew : method ≠ .precomputed) (numParts : Nat) (l : LinkSpec) :
    assign method numParts l.unowned = assign method numParts l := by
  cases method with
  | none => rfl
  | modulo => rfl
  | precomputed => exact absurd rfl anew

theorem unowned_assign (method : Method) (numParts : Nat) (l : LinkSpec) :
    (assign method numParts l).unowned = l.unowned := by
  cases method <;> rfl

theorem assign_precomputed (numParts : Nat) (links : Array LinkSpec) :
    links.map (assign .precomputed numParts) = links :=
  Array.map_id' links

/-- Entities are checked without regard to the owners of links. -/
theorem check_congr (same : SameEntities s r) : s.check = r.check := by
  have each : s.links.toList.map LinkSpec.unowned = r.links.toList.map LinkSpec.unowned := by
    rw [← Array.toList_map, same.links, Array.toList_map]
  have ids : s.links.toList.map (·.id) = r.links.toList.map (·.id) := by
    simpa [Function.comp_def, LinkSpec.unowned] using congrArg (List.map LinkSpec.id) each
  have links : s.links.toList.forM checkLink = r.links.toList.forM checkLink :=
    calc s.links.toList.forM checkLink
        = (s.links.toList.map LinkSpec.unowned).forM checkLink := (forM_map LinkSpec.unowned checkLink _).symm
      _ = (r.links.toList.map LinkSpec.unowned).forM checkLink := by rw [each]
      _ = r.links.toList.forM checkLink := forM_map LinkSpec.unowned checkLink _
  have size : s.links.size = r.links.size := by
    simpa using congrArg Array.size same.links
  have stops : checkStop s = checkStop r := by
    funext stop
    simp only [checkStop, size]
  have references : checkReference s = checkReference r := by
    funext agent index action
    simp only [checkReference, size, same.stops]
  have agents : checkAgent s = checkAgent r := by
    funext agent
    simp only [checkAgent, checkWord, references]
  simp only [check, ids, links, stops, agents, same.stops, same.agents]

/-- When all links get new owners, only the entities count, and not the owners before. -/
theorem partition_congr (same : SameEntities s r) (size : s.numParts = r.numParts) (anew : method ≠ .precomputed) :
    s.partition method = r.partition method := by
  have links : s.links.map (assign method s.numParts) = r.links.map (assign method r.numParts) := by
    have assigned := congrArg (Array.map (assign method s.numParts)) same.links
    simpa [Function.comp_def, assign_unowned anew, size] using assigned
  have checks := check_congr same
  obtain ⟨-, stops, agents⟩ := same
  obtain ⟨_, _, _, _, _, _, _⟩ := s
  obtain ⟨_, _, _, _, _, _, _⟩ := r
  obtain rfl : _ = _ := size
  obtain rfl : _ = _ := stops
  obtain rfl : _ = _ := agents
  unfold partition
  rw [checks, links]
  rfl

/-! ## Splitting again -/

/-- What was split is split into the same partitions if its owners are kept. -/
theorem Split.again (h : raw.Split method s) : s.partition .precomputed = .ok s := by
  have same : SameEntities s raw := by
    refine ⟨?_, h.stops, h.agents⟩
    rw [h.links, Array.map_map]
    exact congrArg raw.links.map (funext fun l => unowned_assign method raw.numParts l)
  have checked : s.check = .ok () := (check_congr same).trans h.checked
  have positive : s.numParts ≠ 0 := Nat.ne_of_gt (h.numParts ▸ h.positive)
  have derived : ({ s with
      homes := s.agents.map s.homeOf
      crossings := s.findCrossings
      neighbors := ({ s with homes := s.agents.map s.homeOf, crossings := s.findCrossings } : Scenario).findNeighbors } :
      Scenario) = s := by
    rw [← h.homes, ← h.crossings]
    show ({ s with neighbors := s.findNeighbors } : Scenario) = s
    rw [← h.neighbors]
  unfold partition
  simp only [if_neg positive, checked, assign_precomputed]
  show (s.checkParts >>= fun _ => Except.ok _) = Except.ok s
  rw [h.parts]
  exact congrArg Except.ok derived

/-! ## Reading -/

/-- What is read from a file is split with the owners that it stores. -/
theorem loadWith_eq_ok {codecs : Codecs} {t : FileTree} {path : FilePath} : loadWith codecs t path = .ok s ↔
    ∃ form bytes value, path.snapshotForm? = some form ∧ opened t path = .ok bytes ∧
      codecs.decode form (path.unpackWith codecs.decompress bytes) = .ok value ∧
      (ofStored value).repartition (ofStored value).numParts .precomputed = .ok s := by
  unfold loadWith
  cases path.snapshotForm? with
  | none => simp
  | some form =>
    cases opened t path with
    | error e => simp [bind, Except.bind]
    | ok bytes =>
      cases read : codecs.decode form (path.unpackWith codecs.decompress bytes) with
      | error e => simp [bind, Except.bind, Except.mapError, read]
      | ok value =>
        cases split : (ofStored value).repartition (ofStored value).numParts .precomputed with
        | error e => simp [bind, Except.bind, Except.mapError, read, split]
        | ok r => simp [bind, Except.bind, Except.mapError, read, split]

/-- The scenario was made of its entities or read from a file. -/
def Admitted (s : Scenario) : Prop :=
  (∃ numParts method links stops agents, build numParts method links stops agents = .ok s) ∨
    ∃ codecs t path, loadWith codecs t path = .ok s

/-- Whoever lets a scenario in has split it. -/
theorem Admitted.split (h : s.Admitted) : ∃ raw method, Split raw method s := by
  rcases h with ⟨_, _, _, _, _, built⟩ | ⟨codecs, t, path, loaded⟩
  · exact ⟨_, _, split_of_partition built⟩
  · obtain ⟨_, _, _, -, -, -, split⟩ := loadWith_eq_ok.1 loaded
    exact ⟨_, _, split_of_partition split⟩

end Scenario

end Mobility
