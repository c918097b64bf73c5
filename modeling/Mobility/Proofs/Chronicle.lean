import Mobility.Proofs.Census.Places
import Mobility.Proofs.Chronicle.Seconds
import Mobility.Proofs.Entries

/-!
# Stamps follow the plan

When all partitions have completed a second, what all of them together have stamped for an agent, in the
order of the seconds, is what the agent has consumed of its plan, and its end is stamped once and last,
in the second in which it acts with nothing left of the plan (`Ensemble.stamps_follow_plan`).
-/

set_option autoImplicit false

namespace Mobility

open Act Second Mobility.Partition

/-! ## Lists side by side -/

theorem flatMap_eq_flatMap {α β : Type} {f g : α → List β} {xs ys : List α} (length : ys.length = xs.length)
    (h : ∀ (i : Nat) y, ys[i]? = some y → ∃ x, xs[i]? = some x ∧ f y = g x) :
    ys.flatMap f = xs.flatMap g := by
  have rows : ys.map f = xs.map g := by
    refine List.ext_getElem? fun i => ?_
    rw [List.getElem?_map, List.getElem?_map]
    cases hy : ys[i]? with
    | none =>
      have hi := List.getElem?_eq_none_iff.1 hy
      rw [List.getElem?_eq_none_iff.2 (by rw [← length]; exact hi)]
      rfl
    | some y =>
      obtain ⟨x, hx, same⟩ := h i y hy
      rw [hx, Option.map_some, Option.map_some, same]
  rw [List.flatMap_def, List.flatMap_def, rows]

/-- Only one of the lists isn't empty. -/
theorem flatMap_eq_of_single {α β : Type} {f : α → List β} {xs : List α} {i : Nat} {x : α}
    (hx : xs[i]? = some x) (h : ∀ (j : Nat) y, j ≠ i → xs[j]? = some y → f y = []) :
    xs.flatMap f = f x := by
  induction xs generalizing i with
  | nil => cases hx
  | cons y rest ih =>
    rw [List.flatMap_cons]
    cases i with
    | zero =>
      obtain rfl := Option.some.inj hx
      rw [List.flatMap_eq_nil_iff.2 fun z hz => ?_, List.append_nil]
      obtain ⟨j, hj⟩ := List.mem_iff_getElem?.1 hz
      exact h (j + 1) z (by omega) hj
    | succ i =>
      rw [h 0 y (by omega) rfl, List.nil_append]
      exact ih hx fun j z hj hz => h (j + 1) z (by omega) hz

/-! ## In the order of the seconds -/

namespace Stamp

/-- The stamps of the first `seconds` seconds, second by second. Those of one second stay in their order.
-/
def inOrder (seconds : Nat) (stamps : List Stamp) : List Stamp :=
  (List.range seconds).flatMap fun t => stamps.filter (·.time = t)

variable {seconds : Nat} {xs ys : List Stamp}

theorem inOrder_succ (seconds : Nat) (xs : List Stamp) :
    inOrder (seconds + 1) xs = inOrder seconds xs ++ xs.filter (·.time = seconds) := by
  rw [inOrder, List.range_succ, List.flatMap_append]
  simp [inOrder]

theorem mem_inOrder {s : Stamp} : s ∈ inOrder seconds xs ↔ s ∈ xs ∧ s.time < seconds := by
  simp only [inOrder, List.mem_flatMap, List.mem_range, List.mem_filter, decide_eq_true_eq]
  constructor
  · rintro ⟨t, ht, hs, rfl⟩
    exact ⟨hs, ht⟩
  · rintro ⟨hs, ht⟩
    exact ⟨_, ht, hs, rfl⟩

/-- Only the stamps of these seconds matter. -/
theorem inOrder_congr (h : ∀ t < seconds, xs.filter (·.time = t) = ys.filter (·.time = t)) :
    inOrder seconds xs = inOrder seconds ys :=
  List.flatMap_congr fun t ht => h t (List.mem_range.1 ht)

/-- Seconds without stamps add nothing. -/
theorem inOrder_of_le {later : Nat} (h : ∀ s ∈ xs, s.time < seconds) (hle : seconds ≤ later) :
    inOrder later xs = inOrder seconds xs := by
  induction hle with
  | refl => rfl
  | @step later hle ih =>
    rw [inOrder_succ, ih, List.filter_eq_nil_iff.2, List.append_nil]
    intro s hs
    have := h s hs
    have : seconds ≤ later := hle
    simp only [decide_eq_true_eq]
    omega

theorem pairwise_inOrder (seconds : Nat) (xs : List Stamp) :
    (inOrder seconds xs).Pairwise fun a b => a.time ≤ b.time := by
  induction seconds with
  | zero => exact List.Pairwise.nil
  | succ seconds ih =>
    rw [inOrder_succ, List.pairwise_append]
    refine ⟨ih, List.pairwise_of_forall_mem_list fun a ha b hb => ?_, fun a ha b hb => ?_⟩
    · simp only [List.mem_filter, decide_eq_true_eq] at ha hb
      omega
    · have := (mem_inOrder.1 ha).2
      simp only [List.mem_filter, decide_eq_true_eq] at hb
      omega

/-- Nothing is lost, and nothing comes twice. -/
theorem inOrder_perm (h : ∀ s ∈ xs, s.time < seconds) : (inOrder seconds xs).Perm xs := by
  have count : ∀ (s : Stamp) (n : Nat),
      (inOrder n xs).count s = if s.time < n then xs.count s else 0 := by
    intro s n
    induction n with
    | zero => rfl
    | succ n ih =>
      rw [inOrder_succ, List.count_append, ih]
      by_cases same : s.time = n
      · have later : s.time < n + 1 := by omega
        rw [if_neg (by omega), if_pos later, List.count_filter (by simpa using same), Nat.zero_add]
      · have absent : (xs.filter (·.time = n)).count s = 0 :=
          List.count_eq_zero.2 fun hs => same (by simpa using (List.mem_filter.1 hs).2)
        rw [absent, Nat.add_zero]
        exact if_congr (by omega) rfl rfl
  refine List.perm_iff_count.2 fun s => ?_
  rw [count]
  split
  · rfl
  · rename_i late
    exact (List.count_eq_zero.2 fun hs => late (h s hs)).symm

end Stamp

/-! ## In a run -/

/-- Everything that is stamped for an agent. -/
def stampsOf (ps : List Partition) (id : Nat) : List Stamp := ps.flatMap (·.diary id)

/-- Partition `i` has an agent, and what is stamped for it before second `now` is what it has consumed
there. -/
structure Recorded (now : Nat) (ps : List Partition) (spec : Agent) (i : Nat) (p : Partition) : Prop where
  found : ps[i]? = some p
  counted : spec.id ∈ p.census 0
  past : ∀ s ∈ stampsOf ps spec.id, s.time < now
  consumed : Stamp.deeds (Stamp.inOrder now (stampsOf ps spec.id)) =
    spec.plan.events (p.cursorOf spec.id)
  close : Agent.Open (Stamp.inOrder now (stampsOf ps spec.id)) ∨
    spec.id ∈ p.log.finishers ∧ spec.plan.length ≤ p.cursorOf spec.id ∧
      spec.Closed (Stamp.inOrder now (stampsOf ps spec.id))

namespace Recorded

variable {now i j : Nat} {ps qs : List Partition} {spec : Agent} {p w q : Partition}
  {stamps : List Stamp}

/-- What is stamped in a second comes after all that was stamped before. -/
theorem stamps_next (h : Recorded now ps spec i p) (length : qs.length = ps.length)
    (follows : Scenario.Follows now ps qs spec i p w stamps j q) :
    (∀ s ∈ stampsOf qs spec.id, s.time < now + 1) ∧
      Stamp.inOrder (now + 1) (stampsOf qs spec.id) =
        Stamp.inOrder now (stampsOf ps spec.id) ++ stamps := by
  have past : ∀ (l : Nat) v, ps[l]? = some v → ∀ s ∈ v.diary spec.id, s.time < now := fun l v hv s hs =>
    h.past s (List.mem_flatMap.2 ⟨v, List.mem_of_getElem? hv, hs⟩)
  have each : ∀ (l : Nat) u, qs[l]? = some u → ∃ v, ps[l]? = some v ∧
      u.diary spec.id = v.diary spec.id ++ if l = i then stamps else [] := by
    intro l u hu
    obtain ⟨v, hv, diary, -⟩ := follows.others l u hu
    refine ⟨v, hv, ?_⟩
    split at diary
    · rename_i hl
      obtain rfl := Option.some.inj (hv.symm.trans (hl ▸ h.found))
      rw [if_pos hl, diary, follows.progress.diary]
    · rename_i hl
      rw [if_neg hl, diary, List.append_nil]
  have before : ∀ t < now, (stampsOf qs spec.id).filter (·.time = t) =
      (stampsOf ps spec.id).filter (·.time = t) := by
    intro t ht
    rw [stampsOf, stampsOf, List.filter_flatMap, List.filter_flatMap]
    refine flatMap_eq_flatMap length fun l u hu => ?_
    obtain ⟨v, hv, diary⟩ := each l u hu
    refine ⟨v, hv, ?_⟩
    rw [diary, List.filter_append, List.append_right_eq_self, List.filter_eq_nil_iff]
    intro s hs
    split at hs
    · have := follows.progress.times s hs
      simp only [decide_eq_true_eq]
      omega
    · cases hs
  have here : (stampsOf qs spec.id).filter (·.time = now) = stamps := by
    obtain ⟨hi, -⟩ := List.getElem?_eq_some_iff.1 h.found
    rw [stampsOf, List.filter_flatMap]
    rw [flatMap_eq_of_single (List.getElem?_eq_getElem (length ▸ hi)) fun l u hl hu => ?_]
    · obtain ⟨v, hv, diary⟩ := each i _ (List.getElem?_eq_getElem (length ▸ hi))
      rw [diary, if_pos rfl, List.filter_append, List.filter_eq_nil_iff.2, List.nil_append,
        List.filter_eq_self.2]
      · exact fun s hs => decide_eq_true (follows.progress.times s hs)
      · intro s hs
        have := past i v hv s hs
        simp only [decide_eq_true_eq]
        omega
    · obtain ⟨v, hv, diary⟩ := each l u hu
      rw [diary, if_neg hl, List.append_nil, List.filter_eq_nil_iff]
      intro s hs
      have := past l v hv s hs
      simp only [decide_eq_true_eq]
      omega
  refine ⟨fun s hs => ?_, by rw [Stamp.inOrder_succ, Stamp.inOrder_congr before, here]⟩
  obtain ⟨u, hu, hs⟩ := List.mem_flatMap.1 hs
  obtain ⟨l, hl⟩ := List.mem_iff_getElem?.1 hu
  obtain ⟨v, hv, diary⟩ := each l u hl
  rw [diary] at hs
  rcases List.mem_append.1 hs with hs | hs
  · exact Nat.lt_succ_of_lt (past l v hv s hs)
  · split at hs
    · exact Nat.lt_succ_of_le (follows.progress.times s hs).le
    · cases hs

/-- A second adds to the record what the agent consumes in it. -/
theorem next (h : Recorded now ps spec i p) (length : qs.length = ps.length)
    (follows : Scenario.Follows now ps qs spec i p w stamps j q) : Recorded (now + 1) qs spec j q := by
  obtain ⟨past, order⟩ := h.stamps_next length follows
  have finisher : spec.id ∈ w.log.finishers → spec.id ∈ q.log.finishers := by
    intro hf
    obtain ⟨v, -, diary, -⟩ := follows.others j q follows.found
    rw [if_pos (follows.finished hf)] at diary
    rw [EventLog.mem_finishers] at hf ⊢
    show ∃ s ∈ q.diary spec.id, _
    rw [diary]
    exact hf
  refine ⟨follows.found, follows.counted, past, ?_, ?_⟩
  · rw [order, Stamp.deeds_append, h.consumed, follows.cursor, follows.progress.events]
  · rw [order, follows.cursor]
    rcases h.close with silent | ⟨finished, consumed, closed⟩
    · rcases follows.progress.close with none | ⟨finishes, consumed, closed⟩
      · exact .inl (silent.append none)
      · exact .inr ⟨finisher finishes, consumed, closed.append silent⟩
    · -- Nothing is stamped after the end.
      obtain rfl := follows.progress.done finished
      rw [List.append_nil]
      refine .inr ⟨finisher ?_, consumed.trans follows.progress.grows, closed⟩
      have diary := follows.progress.diary
      rw [List.append_nil] at diary
      rw [EventLog.mem_finishers] at finished ⊢
      show ∃ s ∈ w.diary spec.id, _
      rw [diary]
      exact finished

end Recorded

namespace Scenario

variable {s : Scenario} {timing : Timing} {ps : List Partition} {x : Nat} {spec : Agent}

/-- Nothing is stamped before the first second. -/
theorem Fresh.recorded (fresh : s.Fresh) (hs : s.Accepted) (timing : Timing)
    (hspec : s.agents[x]? = some spec) :
    ∃ i p, Recorded timing.start (s.cast timing) spec i p := by
  obtain rfl := hs.denseAgents x spec hspec
  obtain ⟨hlt, -⟩ := Array.getElem?_eq_some_iff.1 hspec
  obtain ⟨i, p, hp, hx⟩ := (fresh.counted hs timing).somewhere hlt
  have blank : stampsOf (s.cast timing) spec.id = [] := by
    refine List.flatMap_eq_nil_iff.2 fun q hq => ?_
    obtain ⟨j, -, rfl⟩ := List.mem_map.1 hq
    rfl
  have none : Stamp.inOrder timing.start (stampsOf (s.cast timing) spec.id) = [] := by
    rw [blank]
    simp [Stamp.inOrder]
  refine ⟨i, p, hp, hx, by simp [blank], ?_, .inl ?_⟩
  · rw [none, getElem?_cast hp, fresh.cursorOf]
    rfl
  · rw [none]
    simp [Agent.Open]

/-- In a run, what is stamped for an agent is what it has consumed. -/
theorem Fresh.recorded_run {count : Nat} (fresh : s.Fresh) (hs : s.Accepted) (fits : s.Fits)
    (hrun : Second.run count timing.start (s.cast timing) = some ps) (hspec : s.agents[x]? = some spec) :
    ∃ i p, Recorded (timing.start + count) ps spec i p := by
  induction count generalizing ps with
  | zero =>
    obtain rfl := Option.some.inj hrun
    exact fresh.recorded hs timing hspec
  | succ count ih =>
    rw [run_succ] at hrun
    obtain ⟨qs, hqs, hn⟩ := Option.bind_eq_some_iff.1 hrun
    obtain ⟨counted, rest, c⟩ := fresh.run hs fits hqs
    have informed := fresh.informed_run hs fits hqs
    obtain ⟨i, p, recorded⟩ := ih hqs
    obtain rfl := hs.denseAgents x spec hspec
    obtain ⟨w, stamps, j, q, follows⟩ :=
      counted.follow informed rest hs fits c hn hspec recorded.found recorded.counted
    exact ⟨j, q, recorded.next (next_eq_some.1 hn).1 follows⟩

end Scenario

/-! ## Completed seconds -/

/-- Everybody in the partition whose end it hasn't stamped. -/
def Partition.underWay (p : Partition) : List Nat :=
  p.present ++ p.placed.flatMap p.passengersOf ++ p.platforms.toList.flatMap (·.2.2)

theorem Partition.places_eq (p : Partition) : p.places = p.log.finishers ++ p.underWay := by
  rw [places, placed, underWay, placed]
  simp only [List.append_assoc]

/-- The end of an agent isn't stamped as long as it is under way, and after that it has consumed its plan. -/
theorem Recorded.ending {now i : Nat} {ps : List Partition} {spec : Agent} {p : Partition}
    (h : Recorded now ps spec i p) (once : p.places.Nodup) (here : spec.id ∈ p.places)
    (within : p.cursorOf spec.id ≤ spec.plan.length) :
    if spec.id ∈ p.underWay then Agent.Open (stampsOf ps spec.id)
    else p.cursorOf spec.id = spec.plan.length ∧ spec.Closed (Stamp.inOrder now (stampsOf ps spec.id)) := by
  have perm := Stamp.inOrder_perm h.past
  rw [Partition.places_eq] at once here
  split
  · rename_i going
    rcases h.close with silent | ⟨finished, -, -⟩
    · exact fun s hs => silent s (perm.mem_iff.2 hs)
    · exact absurd rfl ((List.nodup_append.1 once).2.2 _ finished _ going)
  · rename_i gone
    have finished := (List.mem_append.1 here).resolve_right gone
    rcases h.close with silent | ⟨-, consumed, closed⟩
    · -- Whoever has gone has been stamped.
      obtain ⟨s, hs, kind⟩ := EventLog.mem_finishers.1 finished
      have listed : s ∈ stampsOf ps spec.id :=
        List.mem_flatMap.2 ⟨p, List.mem_of_getElem? h.found, hs⟩
      exact absurd kind (silent s (perm.mem_iff.2 listed))
    · exact ⟨Nat.le_antisymm within consumed, closed⟩

namespace Ensemble

/-- Everything that all partitions have stamped for an agent, by rank. -/
def stamps (c : Ensemble) (id : Nat) : List Stamp :=
  c.processes.flatMap fun x => x.partition.log.of id

variable {raw s : Scenario} {method : Method} {timing : Timing} {schedule : List Turn}
  {c c₀ : Ensemble} {seconds rank now t id : Nat} {spec a : Agent} {m : Moment} {p : Partition} {st : Stamp}

theorem mem_stamps : st ∈ c.stamps id ↔ ∃ x ∈ c.processes, st ∈ x.partition.log.toList ∧ st.what.agent = id := by
  simp only [stamps, EventLog.of, List.mem_flatMap, List.mem_filter, decide_eq_true_eq]

section Endings

variable (hm : make s timing = .ok c₀) (hp : play schedule c₀ = some c)
  (perm : (Stamp.inOrder seconds (c.stamps spec.id)).Perm (c.stamps spec.id))
  (close : Agent.Open (c.stamps spec.id) ∨ spec.Closed (Stamp.inOrder seconds (c.stamps spec.id)))

include hp perm close

/-- Whoever acts with nothing left of its plan is stamped with the event which is meant for it. -/
theorem Passes.finishEvent (h : Passes c₀ schedule rank now m p) (turn : m.Turn now p spec.id)
    (found : p.agents[spec.id]? = some a) (consumed : a.plan.length ≤ a.cursor) :
    a.finishEvent = spec.finishEvent ∧ ⟨now, ⟨.finish, spec.id, spec.finishEvent, none⟩⟩ ∈ c.stamps spec.id := by
  obtain ⟨y, hy, stamped⟩ := h.finishes hp turn found consumed
  have there : ⟨now, ⟨.finish, spec.id, a.finishEvent, none⟩⟩ ∈ c.stamps spec.id := mem_stamps.2 ⟨y, hy, stamped, rfl⟩
  rcases close with silent | ⟨body, time, order, silent⟩
  · exact absurd rfl (silent _ there)
  · -- There is only one end among the stamps of the agent.
    have listed := perm.mem_iff.2 there
    rw [order] at listed
    rcases List.mem_append.1 listed with before | last
    · exact absurd rfl (silent _ before)
    · have same : a.finishEvent = spec.finishEvent := by
        simp only [List.mem_singleton, Stamp.mk.injEq, Event.mk.injEq] at last
        exact last.2.2.2.1
      exact ⟨same, same ▸ there⟩

include hm

/-- The end of an agent is stamped in the second in which it acts with nothing left of its plan. -/
theorem finish_mem_stamps :
    ⟨t, ⟨.finish, spec.id, spec.finishEvent, none⟩⟩ ∈ c.stamps spec.id ↔ ComesToEnd c₀ schedule spec.id t := by
  constructor
  · intro there
    obtain ⟨x, hx, there, -⟩ := mem_stamps.1 there
    exact comesToEnd_of_log hm hp hx there rfl
  · rintro ⟨rank, m, p, a, passes, turn, found, consumed⟩
    exact (passes.finishEvent hp perm close turn found consumed).2

/-- An agent whose end isn't stamped hasn't acted with nothing left of its plan. -/
theorem open_stamps : Agent.Open (c.stamps spec.id) ↔ ∀ t, ¬ ComesToEnd c₀ schedule spec.id t := by
  constructor
  · intro silent t ends
    exact silent _ ((finish_mem_stamps hm hp perm close).2 ends) rfl
  · intro never st there kind
    obtain ⟨x, hx, there, own⟩ := mem_stamps.1 there
    exact never st.time (own ▸ comesToEnd_of_log hm hp hx there kind)

end Endings

/-- When all partitions have completed a second, an agent is in one partition, the stamps of all partitions for it say
what it has consumed of its plan, and unless it's under way, all of it is consumed and its end is the last stamp. -/
theorem stamps_of_completed (hs : raw.partition method = .ok s) (fresh : s.Fresh) (fits : s.Fits)
    (hm : make s timing = .ok c₀) (hp : play schedule c₀ = some c)
    (completed : c.hasCompleted t = true) (hspec : s.agents[spec.id]? = some spec) :
    (Stamp.inOrder (timing.stop + 1) (c.stamps spec.id)).Perm (c.stamps spec.id) ∧
      ∃ z ∈ c.processes, spec.id ∈ z.partition.places ∧
        (∀ y ∈ c.processes, spec.id ∈ y.partition.places → y = z) ∧
        ∃ a, z.partition.agents[spec.id]? = some a ∧
          Stamp.deeds (Stamp.inOrder (timing.stop + 1) (c.stamps spec.id)) = spec.plan.events a.cursor ∧
          if spec.id ∈ z.partition.underWay then Agent.Open (c.stamps spec.id)
          else a.cursor = spec.plan.length ∧
            spec.Closed (Stamp.inOrder (timing.stop + 1) (c.stamps spec.id)) := by
  have accepted := Scenario.accepted_of_partition hs
  obtain ⟨count, ps, hrun, scene⟩ := reaches hs fits.parts hm hp (isSound_of_hasCompleted completed)
  obtain ⟨start, -⟩ := scene.completed completed
  have start : c.processes.map (·.partition) = ps := start
  obtain ⟨counted, rest, company⟩ := fresh.run accepted fits hrun
  have informed := fresh.informed_run accepted fits hrun
  obtain ⟨i, p, recorded⟩ := fresh.recorded_run accepted fits hrun hspec
  have stamps : c.stamps spec.id = stampsOf ps spec.id := by
    rw [← start, stampsOf, List.flatMap_map]
    rfl
  have now_le : timing.start + count ≤ timing.stop + 1 := scene.now_le
  have mem_places : ∀ {j : Nat} {q : Partition}, ps[j]? = some q →
      (spec.id ∈ q.places ↔ spec.id ∈ q.census 0) := fun hq => by
    rw [← Multiset.mem_coe, rest.coe_places company hq]
  have process : ∀ {j : Nat} {y : Process}, c.processes[j]? = some y → ps[j]? = some y.partition := by
    intro j y hy
    rw [← start, List.getElem?_map, hy]
    rfl
  obtain ⟨z, hz, hzp⟩ : ∃ z, c.processes[i]? = some z ∧ z.partition = p := by
    have found := recorded.found
    rw [← start, List.getElem?_map] at found
    exact Option.map_eq_some_iff.1 found
  obtain ⟨a, ha, blank⟩ := (rest.setting i p recorded.found).copy hspec
  have order : Stamp.inOrder (timing.stop + 1) (c.stamps spec.id) =
      Stamp.inOrder (timing.start + count) (c.stamps spec.id) := by
    rw [stamps]
    exact Stamp.inOrder_of_le recorded.past now_le
  have perm : (Stamp.inOrder (timing.stop + 1) (c.stamps spec.id)).Perm (c.stamps spec.id) := by
    rw [order, stamps]
    exact Stamp.inOrder_perm recorded.past
  have ending : if spec.id ∈ z.partition.underWay then Agent.Open (c.stamps spec.id)
      else a.cursor = spec.plan.length ∧ spec.Closed (Stamp.inOrder (timing.stop + 1) (c.stamps spec.id)) := by
    have once : p.places.Nodup := by
      rw [← Multiset.coe_nodup, rest.coe_places company recorded.found]
      exact Multiset.nodup_of_le (counted.le_everybody recorded.found) (Multiset.nodup_range _)
    have within := informed.within i p recorded.found _ spec hspec
    have ending := recorded.ending once ((mem_places recorded.found).2 recorded.counted) within
    rwa [cursorOf_eq ha, ← hzp, ← stamps, ← order] at ending
  refine ⟨perm, z, List.mem_of_getElem? hz, ?_, fun y hy hplace => ?_, a, hzp ▸ ha, ?_, ending⟩
  · rw [hzp]
    exact (mem_places recorded.found).2 recorded.counted
  · obtain ⟨j, hj⟩ := List.mem_iff_getElem?.1 hy
    obtain rfl := counted.unique (process hj) recorded.found ((mem_places (process hj)).1 hplace)
      recorded.counted
    exact Option.some.inj (hj.symm.trans hz)
  · rw [order, stamps, recorded.consumed, cursorOf_eq ha]

/-- In a world of fresh agents, in which no vehicle waits for another one, however the turns went: when
all partitions have completed a second, an agent is in one partition, and the stamps of all partitions for
it, in the order of the seconds, are what it has consumed of its plan, as far as the cursor which this
partition has for it: the events of these instructions, except event 0, in their order. An agent which acts
with nothing left of its plan stamps its end then, and its end is stamped in no other second. Before that it
is under way and no end is stamped; after that the whole plan is consumed, and the end is the last stamp and
the only one of its kind. -/
theorem stamps_follow_plan (hs : raw.partition method = .ok s) (fresh : s.Fresh) (fits : s.Fits)
    (hm : make s timing = .ok c₀) (hp : play schedule c₀ = some c)
    (completed : c.hasCompleted t = true) (hspec : s.agents[id]? = some spec) :
    (Stamp.inOrder (timing.stop + 1) (c.stamps id)).Perm (c.stamps id) ∧
      ((Stamp.inOrder (timing.stop + 1) (c.stamps id)).Pairwise fun a b => a.time ≤ b.time) ∧
      (∀ rank now m p b, Passes c₀ schedule rank now m p → m.Turn now p id → p.agents[id]? = some b →
        b.plan.length ≤ b.cursor → ∃ q, Ends (dispatch id now) p true q ∧
          q.log = p.log.push ⟨now, ⟨.finish, id, spec.finishEvent, none⟩⟩) ∧
      (∀ now, ⟨now, ⟨.finish, id, spec.finishEvent, none⟩⟩ ∈ c.stamps id ↔ ComesToEnd c₀ schedule id now) ∧
      ∃ z ∈ c.processes, id ∈ z.partition.places ∧
        (∀ y ∈ c.processes, id ∈ y.partition.places → y = z) ∧
        ∃ a, z.partition.agents[id]? = some a ∧
          Stamp.deeds (Stamp.inOrder (timing.stop + 1) (c.stamps id)) = spec.plan.events a.cursor ∧
          (id ∈ z.partition.underWay ↔ ∀ now, ¬ ComesToEnd c₀ schedule id now) ∧
          if id ∈ z.partition.underWay then Agent.Open (c.stamps id)
          else a.cursor = spec.plan.length ∧
            spec.Closed (Stamp.inOrder (timing.stop + 1) (c.stamps id)) := by
  obtain rfl := (Scenario.accepted_of_partition hs).denseAgents id spec hspec
  obtain ⟨perm, z, hz, placed, alone, a, found, deeds, ending⟩ :=
    stamps_of_completed hs fresh fits hm hp completed hspec
  have close : Agent.Open (c.stamps spec.id) ∨
      spec.Closed (Stamp.inOrder (timing.stop + 1) (c.stamps spec.id)) := by
    split at ending
    · exact .inl ending
    · exact .inr ending.2
  refine ⟨perm, Stamp.pairwise_inOrder _ _, fun rank now m p b passes turn there consumed => ?_,
    fun now => finish_mem_stamps hm hp perm close, z, hz, placed, alone, a, found, deeds, ?_, ending⟩
  · obtain ⟨same, -⟩ := passes.finishEvent hp perm close turn there consumed
    exact ⟨_, ends_dispatch_finish there consumed, by rw [same]⟩
  · rw [← open_stamps hm hp perm close]
    split at ending
    · exact iff_of_true ‹_› ending
    · rename_i gone
      obtain ⟨-, body, time, closed, -⟩ := ending
      have last : ⟨time, ⟨.finish, spec.id, spec.finishEvent, none⟩⟩ ∈ c.stamps spec.id := by
        rw [← perm.mem_iff, closed]
        exact List.mem_append_right _ List.mem_cons_self
      exact iff_of_false gone fun silent => silent _ last rfl

end Ensemble

/-! ## A bus with events -/

/-- The word of an action with an event. -/
def Action.wordFor (event : Nat) (action : Action) : Word := Instruction.encode ⟨low16 event, action⟩

/-- The bus, with a number for everything that happens. -/
def Scenario.numberedBus : Scenario :=
  { bus with
    agents := #[
      .fresh 0 ⟨#[Action.wordFor 1 (.stopArrive (.of 0 0 0)), Action.wordFor 2 (.stopDelay (.of 0 0 0)),
        Action.wordFor 3 (.stopDepart (.of 0 0 0)), Action.wordFor 0 (.traverse (low24 1) (low8 0)),
        Action.wordFor 4 (.stopArrive (.of 0 1 1)), Action.wordFor 5 (.stopDelay (.of 0 1 1))],
        by decide⟩ 1 (low16 6),
      .fresh 1 ⟨#[Action.wordFor 11 (.wait (low16 0) (low16 0)), Action.wordFor 12 (.access (.of 0 0 0)),
        Action.wordFor 13 (.egress (.of 0 1 1))], by decide⟩ 0 (low16 14)] }

namespace Ensemble

/-- The agent waits and boards in one partition, and it leaves and ends in the other one. -/
theorem stamps_follow_plan_bus : ∃ s c₀ c now, Scenario.numberedBus.partition .modulo = .ok s ∧
    make s ⟨0, 6, 0, 0⟩ = .ok c₀ ∧ play (List.replicate 7 Turn.inTurns).flatten c₀ = some c ∧
    (Stamp.deeds (Stamp.inOrder 7 (c.stamps 1))).map Fin.val = [11, 12, 13] ∧
    Scenario.numberedBus.agents[1].Closed (Stamp.inOrder 7 (c.stamps 1)) ∧
    ComesToEnd c₀ (List.replicate 7 Turn.inTurns).flatten 1 now ∧
    ⟨now, ⟨.finish, 1, low16 14, none⟩⟩ ∈ c.stamps 1 := by
  have runs : (trial .numberedBus .modulo ⟨0, 6, 0, 0⟩ (List.replicate 7 Turn.inTurns).flatten).any
      (fun r => r.1.agents = Scenario.numberedBus.agents ∧ r.1.numParts = 2 ∧ r.1.links.size = 2 ∧
        r.2.hasCompleted 6 ∧ r.2.processes.all fun x => x.partition.underWay = []) = true := by
    decide +kernel
  obtain ⟨s, c₀, c, hs, hm, hp, hc⟩ := exists_of_trial runs
  simp only [decide_eq_true_eq, List.all_eq_true] at hc
  obtain ⟨agents, parts, links, completed, nobody⟩ := hc
  have fits : s.Fits := ⟨by rw [parts]; decide, by rw [links]; decide, by rw [agents]; decide⟩
  have fresh : Scenario.numberedBus.Fresh := Scenario.fresh_of_isFresh (by decide +kernel)
  have spec : s.agents[1]? = some Scenario.numberedBus.agents[1] := by rw [agents]; rfl
  obtain ⟨-, -, -, finishes, z, hz, -, -, a, -, consumed, ends, rest⟩ :=
    stamps_follow_plan hs (fresh.of_agents agents) fits hm hp completed spec
  rw [nobody z hz] at ends rest
  rw [if_neg List.not_mem_nil] at rest
  obtain ⟨now, ends⟩ : ∃ now, ComesToEnd c₀ (List.replicate 7 Turn.inTurns).flatten 1 now := by
    by_contra never
    exact List.not_mem_nil (ends.2 (not_exists.1 never))
  refine ⟨s, c₀, c, now, hs, hm, hp, ?_, rest.2, ends, (finishes now).2 ends⟩
  have cursor : a.cursor = 3 := rest.1
  have events : (Scenario.numberedBus.agents[1].plan.events 3).map Fin.val = [11, 12, 13] := by
    decide +kernel
  rw [cursor] at consumed
  exact (congrArg (List.map Fin.val) consumed).trans events

end Ensemble

end Mobility
