import Mobility.Proofs.Ensemble.Delivery
import Mobility.Proofs.Partition.Links

/-!
# Steps of an ensemble

Every step of an ensemble in which nobody fails stays in its scene, or leads into the scene of the
next second: the step of the process which arrives last at the rendezvous. There the partitions are
what `Second.next` says. From this follows what a whole schedule does (`Ensemble.play_inScene`).
-/

set_option autoImplicit false

namespace Mobility

open Act Second

/-- The thread does something to its partition in its next step. -/
def Stage.isBusy : Stage → Bool
  | working _ | receiving _ _ [] _ => true
  | sending .. | receiving .. | arriving _ | waiting .. | done | failed _ => false

namespace Scene

variable {e : Scene} {size i : Nat} {lane : Lane} {b : Buffers} {p : Partition}

/-- The scene of the next second, with these partitions at its start. -/
def later (e : Scene) (ps : List Partition) : Scene := { e with now := e.now + 1, start := ps }

theorem addressed (c : Company e.timing e.partners e.start) (h : e.sent lane i = some (b, p)) :
    Addressed e.now i (e.partners i) b ∧ p.rank = i ∧ p.outbox.neighbors.keys = e.partners i := by
  cases lane with
  | transfers =>
    have hd := c.departed h
    exact ⟨hd.addressed, hd.rank, hd.partners⟩
  | releases =>
    have ha := c.arrived h
    exact ⟨ha.addressed, ha.rank, ha.partners⟩

/-- Whoever has received one buffer of every partner has received its mail. -/
theorem mail_of_received (c : Company e.timing e.partners e.start) (net : Network size e.partners)
    {received : Delivery} (hsent : e.sent lane i = some (b, p))
    (each : (received.map Prod.fst).Perm (e.partners i))
    (said : ∀ buffer ∈ received, e.Says lane buffer.1 i buffer.2) :
    ∃ d, mail (e.sent lane) i p.outbox.neighbors.keys = some d ∧ received.Perm d ∧
      received.Certified e.now := by
  obtain ⟨-, -, hkeys⟩ := addressed c hsent
  have rows : List.Forall₂ (fun j buffer => buffer.1 = j ∧
      ∃ b q, e.sent lane j = some (b, q) ∧ b.get? i = some buffer.2) (received.map Prod.fst) received := by
    clear each
    induction received with
    | nil => exact .nil
    | cons buffer rest ih =>
      exact .cons ⟨rfl, said buffer List.mem_cons_self⟩
        (ih fun x hx => said x (List.mem_cons_of_mem _ hx))
  obtain ⟨d, hd, perm⟩ := List.perm_comp_forall₂ each.symm rows
  have hmail : mail (e.sent lane) i (e.partners i) = some d := mail_eq_some.2 hd
  have nodup : (e.partners i).Nodup := hkeys ▸ Table.keys_nodup _
  have certified := Company.certified net nodup (fun j b q h => (addressed c h).1) hmail
  exact ⟨d, hkeys ▸ hmail, perm.symm, certified.perm perm⟩

end Scene

namespace Ensemble

variable {e : Scene} {size i : Nat} {c c' : Ensemble} {x y : Process}

/-! ## Failures -/

/-- A process which has failed is seen. -/
theorem not_sound_put {p : Partition} {f : Failure} (hx : c.processes[i]? = some x) :
    ¬ (c.put i ⟨p, .failed f⟩).isSound = true := by
  obtain ⟨hi, -⟩ := List.getElem?_eq_some_iff.1 hx
  have hmem : (⟨p, .failed f⟩ : Process) ∈ c.processes.set i ⟨p, .failed f⟩ :=
    List.mem_iff_getElem?.2 ⟨i, List.getElem?_set_self hi⟩
  intro hs
  cases List.all_eq_true.1 hs _ hmem

/-- If nobody has failed after an act, the act has ended well. -/
theorem performed {α : Type} {p : Partition} {act : Act α} {stage : α → Stage}
    (hx : c.processes[i]? = some x) (sound : (c.put i (.perform p act stage)).isSound = true) :
    ∃ a q, Ends act p a q ∧ Process.perform p act stage = ⟨q, stage a⟩ := by
  cases hr : act.run p with
  | ok a q => exact ⟨a, q, hr, by rw [Process.perform, hr]⟩
  | error f q =>
    rw [Process.perform, hr] at sound
    exact absurd sound (not_sound_put hx)

/-! ## Steps within a second -/

namespace InScene

/-- A process moves on, and the rendezvous isn't touched. -/
theorem move {lanes : Lanes} (h : c.InScene e size) (hx : c.processes[i]? = some x)
    (place : e.Places c.clock c.rendezvous.round i y) (hwx : x.stage.isWaiting e.now = false)
    (hwy : y.stage.isWaiting e.now = false) (hsize : lanes.size = size)
    (delivers : Delivers e (c.processes.set i y) lanes) :
    InScene e size { c.put i y with lanes := lanes } := by
  obtain ⟨hi, hget⟩ := List.getElem?_eq_some_iff.1 hx
  refine ⟨h.company, h.cast, by simpa [put] using h.processes, hsize, h.parties, fun j z hz => ?_, ?_,
    h.some_out, delivers⟩
  · change (c.processes.set i y)[j]? = some z at hz
    rw [getElem?_set_of hx y] at hz
    split at hz
    · rename_i hj
      obtain rfl := Option.some.inj hz
      exact hj ▸ place
    · exact h.places j z hz
  · show c.rendezvous.arrived = (c.processes.set i y).countP fun x => x.stage.isWaiting e.now
    rw [List.countP_set hi, hget, hwx, hwy, h.arrived]
    simp

/-- A process which works, reads or goes on, without touching a lane. -/
theorem advance (net : Network size e.partners) (h : c.InScene e size)
    (hx : c.processes[i]? = some x) (place : e.Places c.clock c.rendezvous.round i y)
    (hwx : x.stage.isWaiting e.now = false) (hwy : y.stage.isWaiting e.now = false)
    (hposted : ∀ lane, ∀ k ∈ e.partners i,
      (y.stage.HasPosted e.now lane k ↔ x.stage.HasPosted e.now lane k))
    (hheard : ∀ lane, ∀ k ∈ e.partners i,
      (y.stage.HasHeard e.now lane k ↔ x.stage.HasHeard e.now lane k)) :
    InScene e size (c.put i y) :=
  h.move hx place hwx hwy h.lanes (h.delivers.move net hx hposted hheard)

theorem step_working {p : Partition} (net : Network size e.partners) (h : c.InScene e size)
    (hx : c.processes[i]? = some ⟨p, .working e.now⟩) (state : e.start[i]? = some p)
    (inTime : e.now ≤ e.timing.stop)
    (sound : (c.put i
      (.perform p (Partition.depart e.now) (.sending .transfers e.now))).isSound = true) :
    InScene e size
      (c.put i (.perform p (Partition.depart e.now) (.sending .transfers e.now))) := by
  obtain ⟨b, q, hd, heq⟩ := performed hx sound
  rw [heq]
  have hsent : e.sent .transfers i = some (b, q) := departed_eq_some.2 ⟨p, state, hd⟩
  obtain ⟨addressed, -, -⟩ := Scene.addressed h.company hsent
  refine h.advance net hx (.sending hsent inTime fun _ _ hd => hd) rfl rfl (fun lane k hk => ?_)
    fun lane k hk => ?_
  · cases lane with
    | transfers =>
      simp only [Stage.HasPosted, if_true, iff_false, not_not]
      exact addressed.keys ▸ hk
    | releases => simp [Stage.HasPosted]
  · cases lane <;> simp [Stage.HasHeard]

theorem step_sending {p : Partition} {lane : Lane} {pending b : Buffers} {target : Nat}
    (net : Network size e.partners) (h : c.InScene e size)
    (hx : c.processes[i]? = some ⟨p, .sending lane e.now pending⟩)
    (state : e.sent lane i = some (b, p)) (inTime : e.now ≤ e.timing.stop)
    (rest : ∀ target data, pending.get? target = some data → b.get? target = some data)
    (hs : c.post i p lane e.now pending target = some c') (sound : c'.isSound = true) :
    InScene e size c' := by
  obtain ⟨addressed, hrank, hkeys⟩ := Scene.addressed h.company state
  unfold post at hs
  split at hs
  · rename_i hempty
    obtain rfl := Option.some.inj hs
    have hempty := Table.isEmpty_iff.1 hempty
    refine h.advance net hx
      (.receiving state inTime (by rw [List.map_nil, List.nil_append, hkeys]) (by simp)) rfl rfl
      (fun l k hk => ?_) fun l k hk => ?_
    · subst hempty
      cases l <;> cases lane <;> simp [Stage.HasPosted]
    · rw [hkeys]
      cases l <;> cases lane <;> simp [Stage.HasHeard, hk]
  · obtain ⟨data, hd, rfl⟩ := Option.map_eq_some_iff.1 hs
    have htarget : target ∈ e.partners i :=
      addressed.keys ▸ Table.mem_keys.2 ⟨data, rest target data hd⟩
    split at sound
    · rename_i lanes hsend
      obtain ⟨-, rfl⟩ := Lanes.send_eq_ok hsend
      refine h.move hx (.sending state inTime fun k d hk => ?_) rfl rfl
        (by rw [Lanes.size_setContents, h.lanes]) ?_
      · rw [Table.get?_erase] at hk
        split at hk
        · cases hk
        · exact rest k d hk
      · rw [hrank]
        exact h.delivers.post net hx hd htarget ⟨b, p, state, rest target data hd⟩
    · exact absurd sound (not_sound_put hx)

theorem step_take {p : Partition} {lane : Lane} {b : Buffers} {missing : List Nat}
    {received : Delivery} (h : c.InScene e size)
    (hx : c.processes[i]? = some ⟨p, .receiving lane e.now missing received⟩)
    (state : e.sent lane i = some (b, p)) (inTime : e.now ≤ e.timing.stop)
    (each : (received.map Prod.fst ++ missing).Perm (e.partners i))
    (said : ∀ buffer ∈ received, e.Says lane buffer.1 i buffer.2)
    (hs : c.take i p lane e.now missing received = some c') (sound : c'.isSound = true) :
    InScene e size c' := by
  obtain ⟨-, hrank, hkeys⟩ := Scene.addressed h.company state
  unfold take at hs
  split at hs
  · cases hs
  · rename_i buffer rest hc
    obtain rfl := Option.some.inj hs
    obtain ⟨j, data⟩ := buffer
    rw [hrank] at hc
    split at sound
    · rw [hrank]
      obtain ⟨hj, -, hunheard, hsaid⟩ := (h.delivers.contents lane i j data).1 (hc ▸ List.mem_cons_self)
      have nodup : (received.map Prod.fst ++ missing).Nodup :=
        each.nodup_iff.2 (hkeys ▸ Table.keys_nodup _)
      have hmissing : j ∈ missing := by
        rw [heard_of hx] at hunheard
        simpa [Stage.HasHeard] using hunheard
      refine h.move hx (.receiving state inTime ?_ fun buffer hb => ?_) rfl rfl
        (by rw [Lanes.size_setContents, h.lanes]) (h.delivers.take hx hc)
      · -- The sender moves from the missing ones to the ones who were heard.
        have hfilter : missing.filter (· ≠ j) = missing.erase j := by
          rw [(List.nodup_append.1 nodup).2.1.erase_eq_filter j]
          exact List.filter_congr fun k _ => by rw [Bool.eq_iff_iff]; simp
        rw [hfilter, List.map_append, List.append_assoc]
        exact ((List.perm_cons_erase hmissing).symm.append_left _).trans each
      · rcases List.mem_append.1 hb with hb | hb
        · exact said buffer hb
        · obtain rfl := List.mem_singleton.1 hb
          exact hsaid
    · exact absurd sound (not_sound_put hx)

/-- A process which has heard of everybody goes on with what everybody has sent. -/
theorem step_proceed {p : Partition} {lane : Lane} {b : Buffers} {received : Delivery}
    (net : Network size e.partners) (h : c.InScene e size)
    (hx : c.processes[i]? = some ⟨p, .receiving lane e.now [] received⟩)
    (state : e.sent lane i = some (b, p)) (inTime : e.now ≤ e.timing.stop)
    (each : (received.map Prod.fst ++ []).Perm (e.partners i))
    (said : ∀ buffer ∈ received, e.Says lane buffer.1 i buffer.2)
    (sound : (c.put i (.proceed p e.now received lane)).isSound = true) :
    InScene e size (c.put i (.proceed p e.now received lane)) := by
  rw [List.append_nil] at each
  obtain ⟨d, hmail, perm, certified⟩ := Scene.mail_of_received h.company net state each said
  cases lane with
  | transfers =>
    obtain ⟨b', q, ha, heq⟩ := performed hx sound
    have hsent : e.sent .releases i = some (b', q) :=
      arrived_eq_some.2 ⟨b, p, d, state, hmail, Partition.arrive_perm certified perm ha⟩
    obtain ⟨addressed, -, -⟩ := Scene.addressed h.company hsent
    rw [Process.proceed, heq]
    refine h.advance net hx (.sending hsent inTime fun _ _ hd => hd) rfl rfl (fun lane k hk => ?_)
      fun lane k hk => ?_
    · cases lane with
      | transfers => simp [Stage.HasPosted]
      | releases =>
        simp only [Stage.HasPosted, if_true, reduceCtorEq, or_self, iff_false, not_not]
        exact addressed.keys ▸ hk
    · cases lane <;> simp [Stage.HasHeard]
  | releases =>
    obtain ⟨⟨⟩, q, hr, heq⟩ := performed hx sound
    have hsettled : settled e.now e.start i = some q :=
      settled_eq_some.2 ⟨b, p, d, state, hmail, Partition.receiveReleases_perm certified perm hr⟩
    rw [Process.proceed, heq]
    refine h.advance net hx (.arriving hsettled inTime) rfl rfl (fun lane k hk => ?_)
      fun lane k hk => ?_
    · cases lane <;> simp [Stage.HasPosted]
    · cases lane <;> simp [Stage.HasHeard]

/-! ## The rendezvous -/

/-- A process arrives, but others are still missing. -/
theorem step_arriving {p : Partition} (net : Network size e.partners) (h : c.InScene e size)
    (hx : c.processes[i]? = some ⟨p, .arriving e.now⟩)
    (state : settled e.now e.start i = some p) (inTime : e.now ≤ e.timing.stop)
    (more : c.rendezvous.arrived + 1 ≠ c.rendezvous.parties) :
    InScene e size (c.meet i p e.now) := by
  obtain ⟨hi, hget⟩ := List.getElem?_eq_some_iff.1 hx
  have hmeet : c.meet i p e.now = { c.put i ⟨p, .waiting e.now c.rendezvous.round⟩ with
      rendezvous := { c.rendezvous with arrived := c.rendezvous.arrived + 1 } } := by
    simp [meet, Rendezvous.arrive, more, put]
  rw [hmeet]
  refine ⟨h.company, h.cast, by simpa [put] using h.processes, h.lanes, h.parties,
    fun j z hz => ?_, ?_, ?_, h.delivers.move net hx (fun lane k _ => ?_) fun lane k _ => ?_⟩
  · change (c.processes.set i _)[j]? = some z at hz
    rw [getElem?_set_of hx] at hz
    split at hz
    · rename_i hj
      obtain rfl := Option.some.inj hz
      rw [hj]
      exact .waiting state inTime
    · exact h.places j z hz
  · show c.rendezvous.arrived + 1 = (c.processes.set i _).countP fun x => x.stage.isWaiting e.now
    rw [List.countP_set hi, hget, h.arrived]
    simp [Stage.isWaiting]
  · have := h.some_out
    have := h.parties
    show c.rendezvous.arrived + 1 < size
    omega
  · simp [Stage.HasPosted]
  · simp [Stage.HasHeard]

/-- Whoever is inside the rendezvous of this second has settled it. -/
theorem settled_of_waiting (h : c.InScene e size) (hx : c.processes[i]? = some x)
    (hw : x.stage.isWaiting e.now = true) :
    settled e.now e.start i = some x.partition ∧ x.stage = .waiting e.now c.rendezvous.round := by
  cases h.places i x hx with
  | waiting state _ => exact ⟨state, rfl⟩
  | late _ _ before _ _ =>
    simp only [Stage.isWaiting, decide_eq_true_eq] at hw
    omega
  | _ => cases hw

/-- When the last process arrives, all others are inside the rendezvous. -/
theorem others_waiting (h : c.InScene e size) (hx : c.processes[i]? = some x)
    (hwx : x.stage.isWaiting e.now = false)
    (last : c.rendezvous.arrived + 1 = c.rendezvous.parties) {j : Nat} {z : Process}
    (hz : c.processes[j]? = some z) (hj : j ≠ i) : z.stage.isWaiting e.now = true := by
  obtain ⟨hi, hget⟩ := List.getElem?_eq_some_iff.1 hx
  -- With `i` counted as well, everybody is waiting.
  have hall : (c.processes.set i ⟨x.partition, .waiting e.now 0⟩).countP
      (fun x => x.stage.isWaiting e.now) =
      (c.processes.set i ⟨x.partition, .waiting e.now 0⟩).length := by
    rw [List.countP_set hi, hget, hwx, List.length_set, ← h.arrived, h.processes, ← h.parties, ← last]
    simp [Stage.isWaiting]
  exact List.countP_eq_length.1 hall z (List.mem_iff_getElem?.2 ⟨j, by
    rw [getElem?_set_of hx, if_neg hj, hz]⟩)

section Last

variable {p : Partition} (h : c.InScene e size) (hx : c.processes[i]? = some ⟨p, .arriving e.now⟩)
  (state : settled e.now e.start i = some p) (last : c.rendezvous.arrived + 1 = c.rendezvous.parties)
include h hx state last

/-- When the last process has arrived, everybody has settled the second and is inside the rendezvous. -/
theorem everybody_waits {j : Nat} {z : Process}
    (hz : (c.processes.set i ⟨p, .waiting e.now c.rendezvous.round⟩)[j]? = some z) :
    settled e.now e.start j = some z.partition ∧ z.stage = .waiting e.now c.rendezvous.round := by
  rw [getElem?_set_of hx] at hz
  split at hz
  · rename_i hj
    obtain rfl := Option.some.inj hz
    exact ⟨hj ▸ state, rfl⟩
  · rename_i hj
    exact h.settled_of_waiting hz (h.others_waiting hx rfl last hz hj)

/-- When the last process has arrived, the second is over. -/
theorem next_of_last : next e.now e.start =
    some ((c.processes.set i ⟨p, .waiting e.now c.rendezvous.round⟩).map (·.partition)) := by
  refine next_eq_some.2 ⟨by rw [List.length_map, List.length_set, h.processes, h.cast], fun j q hq => ?_⟩
  rw [List.getElem?_map, Option.map_eq_some_iff] at hq
  obtain ⟨z, hz, rfl⟩ := hq
  exact (h.everybody_waits hx state last hz).1

omit state in
/-- When the last process arrives, everybody has heard of everybody. -/
theorem heard_of_last {j : Nat} {z : Process} (hz : c.processes[j]? = some z) (lane : Lane) (k : Nat) :
    z.stage.HasHeard e.now lane k := by
  by_cases hj : j = i
  · subst hj
    obtain rfl := Option.some.inj (hz.symm.trans hx)
    trivial
  · rw [(h.settled_of_waiting hz (h.others_waiting hx rfl last hz hj)).2]
    rfl

end Last

/-- The last process arrives. That ends the second for everybody. -/
theorem step_last {p : Partition} (net : Network size e.partners) (h : c.InScene e size)
    (hx : c.processes[i]? = some ⟨p, .arriving e.now⟩)
    (state : settled e.now e.start i = some p) (inTime : e.now ≤ e.timing.stop)
    (last : c.rendezvous.arrived + 1 = c.rendezvous.parties) :
    ∃ ps, next e.now e.start = some ps ∧ InScene (e.later ps) size (c.meet i p e.now) := by
  have hmeet : c.meet i p e.now = { c.put i ⟨p, .waiting e.now c.rendezvous.round⟩ with
      rendezvous := ⟨c.rendezvous.parties, 0, (c.rendezvous.round + 1) % 0x10000000000000000⟩
      clock := e.now + 1 } := by
    simp [meet, Rendezvous.arrive, last, put]
  have hnext := h.next_of_last hx state last
  obtain ⟨ys, hys⟩ : ∃ ys, ys = c.processes.set i ⟨p, .waiting e.now c.rendezvous.round⟩ := ⟨_, rfl⟩
  have everybody : ∀ (j : Nat) z, ys[j]? = some z →
      settled e.now e.start j = some z.partition ∧ z.stage = .waiting e.now c.rendezvous.round :=
    fun j z hz => h.everybody_waits hx state last (hys ▸ hz)
  rw [← hys] at hnext
  have length : ys.length = size := by rw [hys, List.length_set, h.processes]
  -- Nobody has posted or heard anything yet in the next second.
  have fresh : ∀ (j : Nat) z, ys[j]? = some z → ∀ lane k,
      ¬ z.stage.HasPosted (e.now + 1) lane k ∧ ¬ z.stage.HasHeard (e.now + 1) lane k := by
    intro j z hz lane k
    rw [(everybody j z hz).2]
    simp [Stage.HasPosted, Stage.HasHeard]
  refine ⟨_, hnext, ?_⟩
  rw [hmeet]
  refine ⟨h.company.next hnext, by rw [Scene.later, List.length_map, length],
    by rw [← length, hys]; rfl, h.lanes, h.parties, fun j z hz => ?_, ?_, ?_, ?_⟩
  · change (c.processes.set i _)[j]? = some z at hz
    rw [← hys] at hz
    obtain ⟨q, stage⟩ := z
    obtain ⟨-, rfl⟩ := everybody j _ hz
    refine .late ?_ inTime rfl ?_ rfl
    · show (ys.map (·.partition))[j]? = some q
      rw [List.getElem?_map, hz]
      rfl
    · show c.rendezvous.round ≠ (c.rendezvous.round + 1) % 0x10000000000000000
      omega
  · symm
    show (c.processes.set i _).countP (fun x => x.stage.isWaiting (e.now + 1)) = 0
    rw [← hys, List.countP_eq_zero]
    intro z hz
    obtain ⟨j, hj⟩ := List.mem_iff_getElem?.1 hz
    rw [(everybody j z hj).2]
    simp [Stage.isWaiting]
  · show 0 < size
    have := h.some_out
    omega
  · show Delivers (e.later _) (c.processes.set i _) c.lanes
    rw [← hys]
    refine ⟨h.delivers.unique, fun lane k j data => ⟨fun hm => ?_, ?_⟩, ?_⟩
    · rw [h.delivers.lanes_empty net h.processes (fun j z hz => h.heard_of_last hx last hz) lane k] at hm
      cases hm
    · rintro ⟨-, ⟨z, hz, hp⟩, -⟩
      exact absurd hp (fresh j z hz lane k).1
    · rintro lane k j - ⟨z, hz, hh⟩
      exact absurd hh (fresh k z hz lane j).2

/-- Whoever is let out of the rendezvous goes on with this second. -/
theorem step_release {p : Partition} {second since : Nat} (net : Network size e.partners)
    (h : c.InScene e size) (hx : c.processes[i]? = some ⟨p, .waiting second since⟩)
    (pass : c.rendezvous.mayPass since = true) : InScene e size (c.release i p) := by
  generalize hy : (⟨p, .waiting second since⟩ : Process) = y at hx
  cases h.places i y hx with
  | late state inTime before ended ahead =>
    cases hy
    have timing := h.company.timing i p state
    have hw : (Stage.waiting second since).isWaiting e.now = false := by
      simp only [Stage.isWaiting, decide_eq_false_iff_not]
      omega
    unfold release
    rw [timing, ahead]
    by_cases hstop : e.now ≤ e.timing.stop
    · rw [if_pos hstop]
      refine h.advance net hx (.working state hstop) hw rfl (fun lane k _ => ?_) fun lane k _ => ?_
      · simp only [Stage.HasPosted, false_iff]
        omega
      · simp only [Stage.HasHeard, false_iff]
        omega
    · rw [if_neg hstop]
      refine h.advance net hx (.done state (by omega)) hw rfl (fun lane k _ => ?_) fun lane k _ => ?_
      · simp only [Stage.HasPosted, false_iff]
        omega
      · simp only [Stage.HasHeard, false_iff]
        omega
  | waiting state inTime =>
    cases hy
    simp [Rendezvous.mayPass] at pass
  | _ => cases hy

/-! ## Runs -/

/-- A step without failure stays in the second, or begins the next one. It does so when one process is
about to arrive at the rendezvous and all others are inside. -/
theorem step {turn : Turn} (net : Network size e.partners) (h : c.InScene e size)
    (hs : c.step turn = some c') (sound : c'.isSound = true) :
    InScene e size c' ∨ ∃ ps, next e.now e.start = some ps ∧ InScene (e.later ps) size c' ∧
      ∀ (j : Nat) z, c.processes[j]? = some z →
        z.stage = .arriving e.now ∨ z.stage.isWaiting e.now = true := by
  unfold Ensemble.step at hs
  split at hs
  · cases hs
  · rename_i p stage hx
    generalize hy : (⟨p, stage⟩ : Process) = y at hx
    cases h.places _ y hx with
    | late state inTime before ended ahead =>
      cases hy
      simp only [Option.ite_none_right_eq_some, Option.some.injEq] at hs
      obtain ⟨pass, rfl⟩ := hs
      exact .inl (h.step_release net hx pass)
    | working state inTime =>
      cases hy
      cases hs
      exact .inl (h.step_working net hx state inTime sound)
    | sending state inTime rest =>
      cases hy
      exact .inl (h.step_sending net hx state inTime rest hs sound)
    | @receiving lane b q missing received state inTime each said =>
      cases hy
      cases missing with
      | nil =>
        cases hs
        exact .inl (h.step_proceed net hx state inTime each said sound)
      | cons j missing => exact .inl (h.step_take hx state inTime each said hs sound)
    | arriving state inTime =>
      cases hy
      cases hs
      by_cases last : c.rendezvous.arrived + 1 = c.rendezvous.parties
      · obtain ⟨ps, hn, later⟩ := h.step_last net hx state inTime last
        refine .inr ⟨ps, hn, later, fun j z hz => ?_⟩
        by_cases hj : j = turn.rank
        · subst hj
          obtain rfl := Option.some.inj (hz.symm.trans hx)
          exact .inl rfl
        · exact .inr (h.others_waiting hx rfl last hz hj)
      · exact .inl (h.step_arriving net hx state inTime last)
    | waiting state inTime =>
      cases hy
      simp only [Option.ite_none_right_eq_some, Option.some.injEq] at hs
      obtain ⟨pass, rfl⟩ := hs
      exact .inl (h.step_release net hx pass)
    | done state ended =>
      cases hy
      cases hs

end InScene

/-- A step looks at one process and at what is shared, and replaces the process. If it fails, nothing
else changes. -/
theorem step_beside {turn : Turn} (hs : c.step turn = some c') :
    ∃ x y, c.processes[turn.rank]? = some x ∧ (∀ f, x.stage ≠ .failed f) ∧
      c'.processes = c.processes.set turn.rank y ∧
      (∀ f, y.stage = .failed f → c' = c.put turn.rank y) ∧
      ∀ others : List Process, others[turn.rank]? = some x →
        step { c with processes := others } turn =
          some { c' with processes := others.set turn.rank y } := by
  unfold step at hs
  split at hs
  · cases hs
  · rename_i p stage hx
    refine ⟨⟨p, stage⟩, ?_⟩
    split at hs
    · cases hs
      exact ⟨_, hx, by simp, rfl, fun _ _ => rfl, fun others ho => by simp [step, ho, put]⟩
    · unfold post at hs
      split at hs
      · rename_i hempty
        cases hs
        exact ⟨_, hx, by simp, rfl, fun _ _ => rfl, fun others ho => by simp [step, ho, post, hempty, put]⟩
      · rename_i hempty
        obtain ⟨data, hd, rfl⟩ := Option.map_eq_some_iff.1 hs
        split
        · rename_i hsend
          exact ⟨_, hx, by simp, rfl, fun _ h => by simp at h,
            fun others ho => by simp [step, ho, post, hempty, put, hd, hsend]⟩
        · rename_i hsend
          exact ⟨_, hx, by simp, rfl, fun _ _ => rfl,
            fun others ho => by simp [step, ho, post, hempty, put, hd, hsend]⟩
    · cases hs
      exact ⟨_, hx, by simp, rfl, fun _ _ => rfl, fun others ho => by simp [step, ho, put]⟩
    · rename_i missing received _
      unfold take at hs
      split at hs
      · cases hs
      · rename_i hc
        cases hs
        split
        · rename_i hcheck
          exact ⟨_, hx, by simp, rfl, fun _ h => by simp at h, fun others ho => by
            cases missing <;> simp_all [step, take, put]⟩
        · rename_i hcheck
          exact ⟨_, hx, by simp, rfl, fun _ _ => rfl, fun others ho => by
            cases missing <;> simp_all [step, take, put]⟩
    · cases hs
      exact ⟨_, hx, by simp, rfl, fun _ h => by simp at h, fun others ho => by simp [step, ho, meet, put]⟩
    · split at hs
      · rename_i pass
        cases hs
        refine ⟨_, hx, by simp, rfl, fun _ _ => rfl, fun others ho => ?_⟩
        simp [step, ho, pass, release, put]
      · cases hs
    · cases hs
    · cases hs

/-- A step changes the process whose turn it is, which hasn't failed. -/
theorem step_processes {turn : Turn} (hs : c.step turn = some c') :
    ∃ x y, c.processes[turn.rank]? = some x ∧ (∀ f, x.stage ≠ .failed f) ∧
      c'.processes = c.processes.set turn.rank y := by
  obtain ⟨x, y, hx, hfine, hset, -⟩ := step_beside hs
  exact ⟨x, y, hx, hfine, hset⟩

theorem perform_eq {α : Type} (p : Partition) (act : Act α) (stage : α → Stage) :
    Process.perform p act stage = ⟨act.left p, (Process.perform p act stage).stage⟩ := by
  unfold Process.perform left
  cases act.run p <;> rfl

/-- What comes of the partition of a process in a step. -/
inductive Acts (x : Process) : Partition → Prop where
  | rests (idle : x.stage.isBusy = false) : Acts x x.partition
  | works {now : Nat} (stage : x.stage = .working now) : Acts x ((Partition.depart now).left x.partition)
  | receives {now : Nat} {received : Delivery} (stage : x.stage = .receiving .transfers now [] received) :
      Acts x ((Partition.arrive now received).left x.partition)
  | settles {now : Nat} {received : Delivery} (stage : x.stage = .receiving .releases now [] received) :
      Acts x ((Partition.receiveReleases now received).left x.partition)

/-- A step leaves all partitions alone but one, and nothing comes of that one but what its process does. -/
theorem step_acts {turn : Turn} (hs : c.step turn = some c') :
    ∃ x q stage, c.processes[turn.rank]? = some x ∧ c'.processes = c.processes.set turn.rank ⟨q, stage⟩ ∧ Acts x q := by
  unfold step at hs
  split at hs
  · cases hs
  · rename_i p stage hx
    refine ⟨⟨p, stage⟩, ?_⟩
    split at hs
    · cases hs
      exact ⟨_, _, hx, congrArg (c.processes.set turn.rank) (perform_eq ..), .works rfl⟩
    · unfold post at hs
      split at hs
      · cases hs
        exact ⟨_, _, hx, rfl, .rests rfl⟩
      · obtain ⟨data, -, rfl⟩ := Option.map_eq_some_iff.1 hs
        split <;> exact ⟨_, _, hx, rfl, .rests rfl⟩
    · rename_i lane now received
      cases hs
      cases lane with
      | transfers => exact ⟨_, _, hx, congrArg (c.processes.set turn.rank) (perform_eq ..), .receives rfl⟩
      | releases => exact ⟨_, _, hx, congrArg (c.processes.set turn.rank) (perform_eq ..), .settles rfl⟩
    · rename_i lane now missing received waits
      have idle : (Stage.receiving lane now missing received).isBusy = false := by
        cases missing with
        | nil => exact absurd rfl waits
        | cons => rfl
      unfold take at hs
      split at hs
      · cases hs
      · cases hs
        split <;> exact ⟨_, _, hx, rfl, .rests idle⟩
    · cases hs
      exact ⟨_, _, hx, rfl, .rests rfl⟩
    · split at hs
      · cases hs
        exact ⟨_, _, hx, rfl, .rests rfl⟩
      · cases hs
    · cases hs
    · cases hs

/-- Who has failed doesn't recover. -/
theorem sound_of_step {turn : Turn} (hs : c.step turn = some c') (sound : c'.isSound = true) :
    c.isSound = true := by
  obtain ⟨x, y, hx, hfine, hset⟩ := step_processes hs
  refine List.all_eq_true.2 fun z hz => ?_
  obtain ⟨j, hj⟩ := List.mem_iff_getElem?.1 hz
  by_cases hji : j = turn.rank
  · subst hji
    obtain rfl := Option.some.inj (hx.symm.trans hj)
    cases hstage : x.stage with
    | failed f => exact absurd hstage (hfine f)
    | _ => rfl
  · refine List.all_eq_true.1 sound z ?_
    rw [hset]
    exact List.mem_iff_getElem?.2 ⟨j, by rw [getElem?_set_of hx, if_neg hji, hj]⟩

theorem sound_of_play {schedule : List Turn} (hp : play schedule c = some c')
    (sound : c'.isSound = true) : c.isSound = true := by
  induction schedule generalizing c with
  | nil => exact Option.some.inj hp ▸ sound
  | cons turn rest ih =>
    obtain ⟨d, hs, hp⟩ := Option.bind_eq_some_iff.1 hp
    exact sound_of_step hs (ih hp)

/-- A schedule without failure leads through whole seconds into some second. -/
theorem InScene.play {schedule : List Turn} (net : Network size e.partners) (h : c.InScene e size)
    (hp : play schedule c = some c') (sound : c'.isSound = true) :
    ∃ count ps, run count e.now e.start = some ps ∧
      InScene { e with now := e.now + count, start := ps } size c' := by
  induction schedule generalizing c e with
  | nil => exact ⟨0, e.start, rfl, Option.some.inj hp ▸ h⟩
  | cons turn rest ih =>
    obtain ⟨d, hs, hp⟩ := Option.bind_eq_some_iff.1 hp
    rcases h.step net hs (sound_of_play hp sound) with hd | ⟨ps, hn, hd, -⟩
    · exact ih net hd hp
    · obtain ⟨count, qs, hrun, hc⟩ := ih (e := e.later ps) net hd hp
      refine ⟨count + 1, qs, ?_, ?_⟩
      · show (next e.now e.start).bind _ = _
        rw [hn]
        exact hrun
      · rw [Nat.add_comm count, ← Nat.add_assoc]
        exact hc

end Ensemble

end Mobility
