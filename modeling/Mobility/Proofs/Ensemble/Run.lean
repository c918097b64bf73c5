import Mobility.Proofs.Ensemble.Unfailed
import Mobility.Proofs.Partition.Failures
import Mobility.Proofs.Start

/-!
# Runs of an ensemble

An accepted scenario begins in the scene of its first second (`Ensemble.inScene_make`), so every
schedule which goes well leads into a scene whose partitions are what `Second.run` says. What holds
in every scene holds in every run: lanes are empty at the rendezvous, nobody is more than a
rendezvous ahead of anybody else, somebody can always go on, and nobody reads a message of another
second.
-/

set_option autoImplicit false

namespace Mobility

open Act Second

namespace Scenario

/-- The partitions before the first second, by rank. -/
def cast (s : Scenario) (timing : Timing) : List Partition :=
  (List.range s.numParts).map (Partition.initial s timing)

/-- The scene after `count` seconds of a run. -/
def scene (s : Scenario) (timing : Timing) (count : Nat) (ps : List Partition) : Scene :=
  ⟨timing, s.neighborsOf, timing.start + count, ps⟩

end Scenario

/-- No second past all time is visited. -/
theorem Agenda.lt_base_of_visit {α : Type} {a : Agenda α} {now : Nat} {r : List α × Agenda α}
    (h : a.visit now = .ok r) : now < Wire.base :=
  Nat.lt_of_lt_of_le (visit_cases h).2.1 (Nat.sub_le _ _)

namespace Ensemble

variable {s : Scenario} {timing : Timing} {c c' : Ensemble}

/-! ## The way into a scene -/

theorem make_eq_ok (h : make s timing = .ok c) :
    c = ⟨(s.cast timing).map fun p => ⟨p, .working timing.start⟩, .make s.numParts,
      ⟨s.numParts, 0, 0⟩, 0⟩ ∧ (0 < s.numParts → timing.start ≤ timing.stop) := by
  unfold make at h
  cases hs : Simulation.make s timing with
  | error e => rw [hs] at h; cases h
  | ok sim =>
    obtain ⟨hp, hl, htime⟩ := Scenario.simulation_eq_ok hs
    rw [hs] at h
    cases h
    rw [hp, hl]
    exact ⟨rfl, htime⟩

theorem working_of_make (h : make s timing = .ok c) {x : Process} (hx : x ∈ c.processes) :
    ∃ p, x = ⟨p, .working timing.start⟩ := by
  obtain ⟨rfl, -⟩ := make_eq_ok h
  obtain ⟨p, -, rfl⟩ := List.mem_map.1 hx
  exact ⟨p, rfl⟩

theorem isSound_of_make (h : make s timing = .ok c) : c.isSound = true :=
  List.all_eq_true.2 fun x hx => by obtain ⟨p, rfl⟩ := working_of_make h hx; rfl

/-- An accepted scenario begins with its first second. -/
theorem inScene_make (hs : s.Accepted) (h : make s timing = .ok c) :
    c.InScene (s.scene timing 0 (s.cast timing)) s.numParts := by
  obtain ⟨rfl, htime⟩ := make_eq_ok h
  have each : ∀ (i : Nat) x, ((s.cast timing).map fun p => (⟨p, .working timing.start⟩ : Process))[i]? =
      some x → ∃ p, (s.cast timing)[i]? = some p ∧ x = ⟨p, .working timing.start⟩ := by
    intro i x hx
    rw [List.getElem?_map, Option.map_eq_some_iff] at hx
    obtain ⟨p, hp, rfl⟩ := hx
    exact ⟨p, hp, rfl⟩
  have length : (s.cast timing).length = s.numParts := by simp [Scenario.cast]
  have empty : ∀ lane i, (Lanes.make s.numParts).contents lane i = [] := by
    intro lane i
    cases lane <;> rfl
  refine ⟨Scenario.company_initial s timing, length, by rw [List.length_map, length], rfl, rfl,
    fun i x hx => ?_, ?_, hs.positive, ⟨fun lane i => ?_, fun lane i j data => ⟨fun hm => ?_, ?_⟩, ?_⟩⟩
  · obtain ⟨p, hp, rfl⟩ := each i x hx
    exact .working hp (htime hs.positive)
  · symm
    rw [List.countP_eq_zero]
    intro x hx
    obtain ⟨p, -, rfl⟩ := List.mem_map.1 hx
    simp [Stage.isWaiting]
  · rw [empty]
    exact List.nodup_nil
  · rw [empty] at hm
    cases hm
  · rintro ⟨-, ⟨x, hx, hp⟩, -⟩
    obtain ⟨p, -, rfl⟩ := each j x hx
    exact hp.elim
  · rintro lane i j - ⟨x, hx, hh⟩
    obtain ⟨p, -, rfl⟩ := each i x hx
    exact hh.elim

/-- Every schedule without failure leads into the scene of some second. -/
theorem reaches {schedule : List Turn} {raw : Scenario} {method : Method}
    (hs : raw.partition method = .ok s) (hsize : s.numParts ≤ Wire.base)
    (hm : make s timing = .ok c) (hp : play schedule c = some c') (sound : c'.isSound = true) :
    ∃ count ps, run count timing.start (s.cast timing) = some ps ∧
      c'.InScene (s.scene timing count ps) s.numParts := by
  have accepted := Scenario.accepted_of_partition hs
  obtain ⟨count, ps, hrun, h⟩ :=
    (inScene_make accepted hm).play (accepted.network hsize) hp sound
  exact ⟨count, ps, hrun, h⟩

/-- Whatever fails under a schedule, there is an ensemble in which nobody has failed and everybody else is
the same, in the scene of some second; and every failure is the first one of such an ensemble. -/
theorem shadows {schedule : List Turn} {raw : Scenario} {method : Method}
    (hs : raw.partition method = .ok s) (hsize : s.numParts ≤ Wire.base)
    (hm : make s timing = .ok c) (hp : play schedule c = some c') :
    (∃ d count ps, Unfailed c' d ∧ run count timing.start (s.cast timing) = some ps ∧
      d.InScene (s.scene timing count ps) s.numParts) ∧
    ∀ p f, ⟨p, .failed f⟩ ∈ c'.processes → ∃ (b : Ensemble) (turn : Turn) (b' : Ensemble) (count : Nat)
      (ps : List Partition), run count timing.start (s.cast timing) = some ps ∧
      b.InScene (s.scene timing count ps) s.numParts ∧ b.step turn = some b' ∧
      ⟨p, .failed f⟩ ∈ b'.processes := by
  have accepted := Scenario.accepted_of_partition hs
  obtain ⟨d, unfailed, ⟨count, ps, hrun, scene⟩, failures⟩ := Unfailed.play
    (P := fun d => ∃ count ps, run count timing.start (s.cast timing) = some ps ∧
      d.InScene (s.scene timing count ps) s.numParts) (Q := fun _ => True)
    (fun ⟨count, ps, hrun, scene⟩ hstep sound _ => by
      rcases scene.step (accepted.network hsize) hstep sound with scene | ⟨qs, hn, scene, -⟩
      · exact ⟨count, ps, hrun, scene⟩
      · exact ⟨count + 1, qs, by rw [run_succ, hrun]; exact hn, scene⟩)
    (.refl c) ⟨0, _, rfl, inScene_make accepted hm⟩ (isSound_of_make hm) (fun _ _ => trivial)
    (fun _ _ _ _ _ _ => trivial) hp
  refine ⟨⟨d, count, ps, unfailed, hrun, scene⟩, fun p f hf => ?_⟩
  rcases failures p f hf with first | ⟨b, turn, b', ⟨count, ps, hrun, scene⟩, hstep, hf⟩
  · obtain ⟨q, heq⟩ := working_of_make hm first
    cases heq
  · exact ⟨b, turn, b', count, ps, hrun, scene, hstep, hf⟩

end Ensemble

/-! ## The second of a process -/

/-- The second in which a process is. Whoever is done has been let out of the last one. -/
def Stage.second (stop : Nat) : Stage → Nat
  | .working now | .sending _ now _ | .receiving _ now _ _ | .arriving now | .waiting now _ => now
  | .done => stop + 1
  | .failed _ => 0

namespace Ensemble.InScene

variable {e : Scene} {size i j : Nat} {c c' : Ensemble} {x y : Process}

/-- A process is in the second of the scene, or still inside the rendezvous before. -/
theorem second_eq (h : c.InScene e size) (hx : c.processes[i]? = some x) :
    x.stage.second e.timing.stop = e.now ∨
      ∃ t since, x.stage = .waiting t since ∧ t + 1 = e.now ∧ since ≠ c.rendezvous.round := by
  cases h.places i x hx with
  | late _ _ before ended _ => exact .inr ⟨_, _, rfl, before, ended⟩
  | done _ ended => exact .inl ended.symm
  | _ => exact .inl rfl

/-- What has been put into a lane says what the sender says. -/
theorem said_of_posted (h : c.InScene e size) {lane : Lane}
    (hp : Posted c.processes e.now lane j i) (hi : i ∈ e.partners j) : ∃ data, e.Says lane j i data := by
  obtain ⟨x, hx, hp⟩ := hp
  -- Whoever sends releases or more has sent transfers before.
  have transfers : ∀ {b q}, e.sent .releases j = some (b, q) → ∃ b q, e.sent .transfers j = some (b, q) := by
    intro b q h
    obtain ⟨b', p, -, h, -⟩ := arrived_eq_some.1 h
    exact ⟨b', p, h⟩
  have settled : ∀ {q}, settled e.now e.start j = some q → ∃ b q, e.sent .releases j = some (b, q) := by
    intro q h
    obtain ⟨b, p, -, h, -⟩ := settled_eq_some.1 h
    exact ⟨b, p, h⟩
  obtain ⟨b, q, hsent⟩ : ∃ b q, e.sent lane j = some (b, q) := by
    cases h.places j x hx with
    | late _ _ before _ _ =>
      have : _ = e.now := hp
      omega
    | working => cases hp
    | done => cases hp
    | @sending l b pending p state _ _ =>
      cases lane <;> cases l
      · exact ⟨b, p, state⟩
      · exact transfers state
      · cases hp
      · exact ⟨b, p, state⟩
    | @receiving l b p missing received state _ _ _ =>
      cases lane <;> cases l
      · exact ⟨b, p, state⟩
      · exact transfers state
      · simp [Stage.HasPosted] at hp
      · exact ⟨b, p, state⟩
    | arriving state _ | waiting state _ =>
      obtain ⟨b, q, hr⟩ := settled state
      cases lane with
      | transfers => exact transfers hr
      | releases => exact ⟨b, q, hr⟩
  obtain ⟨addressed, -, -⟩ := Scene.addressed h.company hsent
  obtain ⟨data, hd⟩ := Table.mem_keys.1 (addressed.keys ▸ hi : i ∈ b.keys)
  exact ⟨data, b, q, hsent, hd⟩

/-! ## Progress -/

/-- Whoever misses somebody who has sent can take a buffer. -/
theorem takes {p : Partition} {lane : Lane} {missing : List Nat} {received : Delivery}
    (net : Network size e.partners) (h : c.InScene e size)
    (hx : c.processes[i]? = some ⟨p, .receiving lane e.now missing received⟩) (hj : j ∈ missing)
    (hp : Posted c.processes e.now lane j i) : ∃ turn c', c.step turn = some c' := by
  generalize hy : (⟨p, .receiving lane e.now missing received⟩ : Process) = y at hx
  cases h.places i y hx with
  | @receiving _ b _ _ _ state inTime each said =>
    cases hy
    have hpartner : j ∈ e.partners i := each.mem_iff.1 (List.mem_append_right _ hj)
    obtain ⟨data, hsaid⟩ := h.said_of_posted hp (net.symmetric hpartner)
    have there : (j, data) ∈ c.lanes.contents lane i := by
      refine (h.delivers.contents lane i j data).2 ⟨hpartner, hp, ?_, hsaid⟩
      rw [heard_of hx]
      simpa [Stage.HasHeard] using hj
    obtain ⟨-, hrank, -⟩ := Scene.addressed h.company state
    refine ⟨⟨i, 0⟩, ?_⟩
    unfold Ensemble.step
    dsimp only
    rw [hx]
    cases missing with
    | nil => cases hj
    | cons k missing =>
      dsimp only
      unfold take
      rw [hrank]
      cases hc : c.lanes.contents lane i with
      | nil => rw [hc] at there; cases there
      | cons buffer rest => exact ⟨_, rfl⟩
  | _ => cases hy

/-- A process which can't take a step waits for a buffer, waits in the rendezvous, or is done. -/
inductive Held (e : Scene) (round : Nat) : Process → Prop where
  | receiving {p : Partition} {lane : Lane} {missing : List Nat} {received : Delivery}
      (inTime : e.now ≤ e.timing.stop) (misses : missing ≠ []) :
      Held e round ⟨p, .receiving lane e.now missing received⟩
  | waiting {p : Partition} (inTime : e.now ≤ e.timing.stop) : Held e round ⟨p, .waiting e.now round⟩
  | done {p : Partition} (ended : e.now = e.timing.stop + 1) : Held e round ⟨p, .done⟩

theorem held (h : c.InScene e size) (stuck : ∀ turn, c.step turn = none)
    (hx : c.processes[i]? = some x) : Held e c.rendezvous.round x := by
  cases h.places i x hx with
  | late _ _ _ ended _ =>
    have := stuck ⟨i, 0⟩
    simp [Ensemble.step, hx, Rendezvous.mayPass, Ne.symm ended] at this
  | working =>
    have := stuck ⟨i, 0⟩
    simp [Ensemble.step, hx] at this
  | arriving =>
    have := stuck ⟨i, 0⟩
    simp [Ensemble.step, hx] at this
  | @sending lane b pending p _ _ _ =>
    exfalso
    by_cases hempty : pending.isEmpty = true
    · have := stuck ⟨i, 0⟩
      simp [Ensemble.step, hx, post, hempty] at this
    · cases hkeys : pending.keys with
      | nil => exact hempty (by simpa [Table.isEmpty, Table.keys] using hkeys)
      | cons target rest =>
        obtain ⟨data, hd⟩ := Table.mem_keys.1 (hkeys ▸ List.mem_cons_self : target ∈ pending.keys)
        have := stuck ⟨i, target⟩
        simp [Ensemble.step, hx, post, hempty, hd] at this
  | @receiving _ _ _ missing _ _ inTime _ _ =>
    cases missing with
    | nil =>
      have := stuck ⟨i, 0⟩
      simp [Ensemble.step, hx] at this
    | cons => exact .receiving inTime (by simp)
  | waiting _ inTime => exact .waiting inTime
  | done _ ended => exact .done ended

/-- In a second which isn't over, everybody who is held has sent its transfers, and also its releases
if it doesn't wait for transfers any more. -/
theorem posted_of_held (h : c.InScene e size) (inTime : e.now ≤ e.timing.stop)
    (stuck : ∀ turn, c.step turn = none) (hx : c.processes[j]? = some x) {lane : Lane}
    (hlane : lane = .transfers ∨
      ∀ p missing received, x ≠ ⟨p, .receiving .transfers e.now missing received⟩) :
    Posted c.processes e.now lane j i := by
  refine ⟨x, hx, ?_⟩
  cases h.held stuck hx with
  | @receiving _ l =>
    cases l with
    | transfers =>
      rcases hlane with rfl | later
      · exact .inl rfl
      · exact absurd rfl (later _ _ _)
    | releases => exact .inr rfl
  | waiting => rfl
  | done ended => omega

/-- Nobody is held because of a buffer which the sender could not have sent. -/
theorem not_held_receiving {p : Partition} {lane : Lane} {missing : List Nat} {received : Delivery}
    (net : Network size e.partners) (h : c.InScene e size) (stuck : ∀ turn, c.step turn = none)
    (hlane : lane = .transfers ∨ ∀ (j : Nat) p missing received,
      c.processes[j]? ≠ some ⟨p, .receiving .transfers e.now missing received⟩) :
    c.processes[i]? ≠ some ⟨p, .receiving lane e.now missing received⟩ := by
  intro hx
  have place := h.places i _ hx
  cases h.held stuck hx with
  | receiving inTime misses =>
    obtain ⟨j, hj⟩ := List.exists_mem_of_ne_nil missing misses
    cases place with
    | receiving _ _ each _ =>
      have hpartner : j ∈ e.partners i := each.mem_iff.1 (List.mem_append_right _ hj)
      have there : j < c.processes.length := h.processes ▸ net.below hpartner
      have posted : Posted c.processes e.now lane j i := by
        refine h.posted_of_held inTime stuck (List.getElem?_eq_getElem there) (hlane.imp_right ?_)
        intro others p missing received hp
        exact others j p missing received (hp ▸ List.getElem?_eq_getElem there)
      obtain ⟨turn, c', hs⟩ := h.takes net hx hj posted
      rw [stuck turn] at hs
      cases hs

/-- As long as somebody has not ended its run, somebody can take a step. -/
theorem progress (net : Network size e.partners) (h : c.InScene e size)
    (unfinished : c.isDone = false) : ∃ turn c', c.step turn = some c' := by
  by_contra nobody
  have stuck : ∀ turn, c.step turn = none := by
    intro turn
    cases hs : c.step turn with
    | none => rfl
    | some c' => exact absurd ⟨turn, c', hs⟩ nobody
  have transfers : ∀ (j : Nat) p missing received,
      c.processes[j]? ≠ some ⟨p, .receiving .transfers e.now missing received⟩ :=
    fun j p missing received => h.not_held_receiving net stuck (.inl rfl)
  -- Nobody waits for a buffer, so everybody is in the rendezvous or done.
  have resting : ∀ x ∈ c.processes,
      (x.stage.isWaiting e.now = true ∧ e.now ≤ e.timing.stop) ∨
        (x.stage = .done ∧ e.now = e.timing.stop + 1) := by
    intro x hx
    obtain ⟨i, hi⟩ := List.mem_iff_getElem?.1 hx
    cases h.held stuck hi with
    | waiting inTime => exact .inl ⟨by simp [Stage.isWaiting], inTime⟩
    | done ended => exact .inr ⟨rfl, ended⟩
    | @receiving _ lane =>
      cases lane with
      | transfers => exact absurd hi (transfers i _ _ _)
      | releases => exact absurd hi (h.not_held_receiving net stuck (.inr transfers))
  by_cases inTime : e.now ≤ e.timing.stop
  · have all : c.processes.countP (fun x => x.stage.isWaiting e.now) = c.processes.length := by
      refine List.countP_eq_length.2 fun x hx => ?_
      rcases resting x hx with ⟨hw, -⟩ | ⟨-, ended⟩
      · exact hw
      · omega
    have := h.some_out
    rw [h.arrived, all, h.processes] at this
    exact absurd this (Nat.lt_irrefl _)
  · have all : c.isDone = true := by
      refine List.all_eq_true.2 fun x hx => ?_
      rcases resting x hx with ⟨-, early⟩ | ⟨hd, -⟩
      · exact absurd early inTime
      · simp [hd]
    rw [all] at unfinished
    cases unfinished

/-- Once everybody is inside the rendezvous, the lanes are empty. -/
theorem lanes_empty_of_waiting (net : Network size e.partners) (h : c.InScene e size)
    (all : ∀ x ∈ c.processes, ∃ t round, x.stage = .waiting t round) (lane : Lane) (i : Nat) :
    c.lanes.contents lane i = [] := by
  refine List.eq_nil_iff_forall_not_mem.2 fun ⟨j, data⟩ hm => ?_
  obtain ⟨hj, ⟨x, hx, hp⟩, unheard, -⟩ := (h.delivers.contents lane i j data).1 hm
  obtain ⟨t, round, hstage⟩ := all x (List.mem_of_getElem? hx)
  -- The sender has been through the second, so it has heard of `i`, which has sent something then.
  have heard : Heard c.processes e.now lane j i := by
    rw [hstage] at hp
    exact ⟨x, hx, by rw [hstage]; exact hp⟩
  obtain ⟨y, hy, hp'⟩ := h.delivers.heard lane j i (net.symmetric hj) heard
  obtain ⟨t', round', hstage'⟩ := all y (List.mem_of_getElem? hy)
  rw [hstage'] at hp'
  exact unheard ⟨y, hy, by rw [hstage']; exact hp'⟩

/-! ## Messages in time -/

/-- The scene of an ensemble is not later than one second after the horizon. -/
theorem now_le (h : c.InScene e size) : e.now ≤ e.timing.stop + 1 := by
  have positive : 0 < c.processes.length := by
    rw [h.processes]
    exact Nat.lt_of_le_of_lt (Nat.zero_le _) h.some_out
  obtain ⟨x, hx⟩ : ∃ x, c.processes[0]? = some x := ⟨_, List.getElem?_eq_getElem positive⟩
  cases h.places 0 x hx with
  | late _ inTime before => omega
  | done _ ended => omega
  | working _ inTime | sending _ inTime | receiving _ inTime | arriving _ inTime | waiting _ inTime =>
    omega

/-- Whoever has sent something this second has worked, so the second isn't past all time. -/
theorem now_lt_base {lane : Lane} {b : Buffers} {p : Partition} (h : e.sent lane i = some (b, p)) :
    e.now < Wire.base := by
  obtain ⟨b, q, h⟩ : ∃ b q, departed e.now e.start i = some (b, q) := by
    cases lane with
    | transfers => exact ⟨b, p, h⟩
    | releases =>
      obtain ⟨b, q, -, h, -⟩ := arrived_eq_some.1 h
      exact ⟨b, q, h⟩
  obtain ⟨p, -, h⟩ := departed_eq_some.1 h
  obtain ⟨⟨⟩, r, hw, -⟩ := bind_eq_ok.1 h
  obtain ⟨ids, due, -, -, -, hv, -⟩ := Partition.work_ends hw
  exact Agenda.lt_base_of_visit hv

/-- Every buffer in a lane or received from it is of this second, and says whose it is. -/
theorem headed_of_says (c : Company e.timing e.partners e.start) {lane : Lane} {data : List UInt8}
    (h : e.Says lane j i data) : Wire.Headed e.now j data := by
  obtain ⟨b, q, hs, hd⟩ := h
  exact (Scene.addressed c hs).1.headed i data hd

/-- What a process reads is of the second in which it reads it. -/
theorem mail_in_time {p : Partition} {lane : Lane} {now : Nat} {missing : List Nat} {received : Delivery}
    (h : c.InScene e size) (hx : c.processes[i]? = some ⟨p, .receiving lane now missing received⟩) :
    (received.map Prod.fst ++ missing).Perm (e.partners i) ∧
      ((c.lanes.contents lane i).map Prod.fst).Nodup ∧
      (∀ buffer ∈ c.lanes.contents lane i, buffer.1 ∈ missing) ∧
      ∀ buffer ∈ received ++ c.lanes.contents lane i, Wire.Headed now buffer.1 buffer.2 := by
  have place := h.places i _ hx
  cases place with
  | receiving state inTime each said =>
    refine ⟨each, h.delivers.unique lane i, fun ⟨j, data⟩ hb => ?_, fun ⟨j, data⟩ hb => ?_⟩
    · obtain ⟨-, -, unheard, -⟩ := (h.delivers.contents lane i j data).1 hb
      rw [heard_of hx] at unheard
      simpa [Stage.HasHeard] using unheard
    · rcases List.mem_append.1 hb with hb | hb
      · exact headed_of_says h.company (said _ hb)
      · exact headed_of_says h.company ((h.delivers.contents lane i j data).1 hb).2.2.2

/-- In a scene nobody has failed, so a failure after a step is the one of whoever took the step. -/
theorem failed_eq {p : Partition} {f : Failure} (h : c.InScene e size)
    (hf : ⟨p, .failed f⟩ ∈ c.processes.set i y) : y = ⟨p, .failed f⟩ := by
  rcases List.mem_or_eq_of_mem_set hf with hm | rfl
  · obtain ⟨j, hj⟩ := List.mem_iff_getElem?.1 hm
    cases h.places j _ hj
  · rfl

theorem run_of_perform {α : Type} {act : Act α} {p q : Partition} {stage : α → Stage} {f : Failure}
    (hstage : ∀ a, stage a ≠ .failed f) (h : Process.perform p act stage = ⟨q, .failed f⟩) :
    act.run p = .error f q := by
  unfold Process.perform at h
  split at h
  · obtain ⟨-, hs⟩ := Process.mk.inj h
    exact absurd hs (hstage _)
  · rename_i hr
    obtain ⟨rfl, hs⟩ := Process.mk.inj h
    obtain rfl := Stage.failed.inj hs
    exact hr

/-- A buffer of this second is taken without a complaint about the second. -/
theorem checkArrival_agrees {p : Partition} {lane : Lane} {now : Nat} {buffer : Nat × List UInt8}
    {error : ExchangeError} (hnow : now < Wire.base)
    (head : ∀ x ∈ [buffer], Wire.Headed now x.1 x.2)
    (h : p.checkArrival lane now buffer = .error error) :
    (Failure.exchange error).isDiscord = false := by
  cases lane with
  | transfers =>
    cases hr : Outbox.readTransfers p.rank now p.isVehicle [buffer] with
    | ok ts =>
      simp only [Partition.checkArrival, hr] at h
      cases h
    | error e' =>
      simp only [Partition.checkArrival, hr] at h
      cases h
      exact (Failure.isNotable_eq_false.1 (Outbox.readTransfers_quiet hnow head hr)).1
  | releases =>
    cases hr : Outbox.readReleases p.rank now [buffer] with
    | ok rs =>
      simp only [Partition.checkArrival, hr] at h
      cases h
    | error e' =>
      simp only [Partition.checkArrival, hr] at h
      cases h
      exact (Failure.isNotable_eq_false.1 (Outbox.readReleases_quiet hnow head hr)).1

/-- How a process fails in a second: in what it does, for want of a lane, or over a buffer which has come. -/
inductive Fails (e : Scene) (c : Ensemble) (turn : Turn) : Failure → Prop where
  | departing {p q : Partition} {f : Failure} (state : e.start[turn.rank]? = some p)
      (inTime : e.now ≤ e.timing.stop) (fails : (Partition.depart e.now).run p = .error f q) : Fails e c turn f
  | posting {lane : Lane} {b : Buffers} {p : Partition} {data : List UInt8}
      (state : e.sent lane turn.rank = some (b, p)) (listed : b.get? turn.target = some data)
      (outside : ¬ turn.target < c.lanes.size) : Fails e c turn (.exchange (.disconnected turn.target))
  | taking {lane : Lane} {b : Buffers} {p : Partition} {buffer : Nat × List UInt8} {error : ExchangeError}
      (state : e.sent lane turn.rank = some (b, p)) (partner : buffer.1 ∈ e.partners turn.rank)
      (said : e.Says lane buffer.1 turn.rank buffer.2) (refused : p.checkArrival lane e.now buffer = .error error) :
      Fails e c turn (.exchange error)
  | arriving {b : Buffers} {p q : Partition} {received : Delivery} {f : Failure}
      (state : e.sent .transfers turn.rank = some (b, p))
      (each : (received.map Prod.fst).Perm (e.partners turn.rank))
      (said : ∀ buffer ∈ received, e.Says .transfers buffer.1 turn.rank buffer.2)
      (fails : (Partition.arrive e.now received).run p = .error f q) : Fails e c turn f
  | settling {b : Buffers} {p q : Partition} {received : Delivery} {f : Failure}
      (found : c.processes[turn.rank]? = some ⟨p, .receiving .releases e.now [] received⟩)
      (state : e.sent .releases turn.rank = some (b, p))
      (each : (received.map Prod.fst).Perm (e.partners turn.rank))
      (said : ∀ buffer ∈ received, e.Says .releases buffer.1 turn.rank buffer.2)
      (fails : (Partition.receiveReleases e.now received).run p = .error f q) : Fails e c turn f

theorem fails_of_step {turn : Turn} {p : Partition} {f : Failure} (h : c.InScene e size)
    (hs : c.step turn = some c') (hf : ⟨p, .failed f⟩ ∈ c'.processes) : Fails e c turn f := by
  unfold Ensemble.step at hs
  split at hs
  · cases hs
  · rename_i q stage hx
    have place := h.places _ _ hx
    cases place with
    | late | waiting =>
      simp only [Option.ite_none_right_eq_some, Option.some.injEq] at hs
      obtain ⟨-, rfl⟩ := hs
      have hy := (Process.mk.inj (h.failed_eq hf)).2
      split at hy
      · cases hy
      · cases hy
    | working state inTime =>
      cases hs
      exact .departing state inTime (run_of_perform (fun _ => by simp) (h.failed_eq hf))
    | sending state _ rest =>
      dsimp only [post] at hs
      split at hs
      · cases hs
        cases h.failed_eq hf
      · obtain ⟨data, hd, rfl⟩ := Option.map_eq_some_iff.1 hs
        split at hf
        · cases h.failed_eq hf
        · rename_i error hsend
          cases h.failed_eq hf
          unfold Lanes.send at hsend
          split at hsend
          · cases hsend
          · rename_i outside
            cases hsend
            exact .posting state (rest _ _ hd) outside
    | @receiving lane b _ missing received state inTime each said =>
      cases missing with
      | nil =>
        cases hs
        rw [List.append_nil] at each
        cases lane with
        | transfers => exact .arriving state each said (run_of_perform (fun _ => by simp) (h.failed_eq hf))
        | releases => exact .settling hx state each said (run_of_perform (fun _ => by simp) (h.failed_eq hf))
      | cons j missing =>
        simp only [take] at hs
        split at hs
        · cases hs
        · rename_i buffer rest hc
          obtain ⟨-, hrank, -⟩ := Scene.addressed h.company state
          rw [hrank] at hc
          obtain ⟨partner, -, -, word⟩ := (h.delivers.contents lane turn.rank buffer.1 buffer.2).1
            (hc ▸ List.mem_cons_self)
          cases hs
          split at hf
          · cases h.failed_eq hf
          · rename_i error hcheck
            cases h.failed_eq hf
            exact .taking state partner word hcheck
    | arriving =>
      cases hs
      cases h.failed_eq hf
    | done => cases hs

/-- No step fails because a message is of another second. If one fails in discord, it applies
releases. -/
theorem discord_of_step {turn : Turn} {p : Partition} {f : Failure} (h : c.InScene e size)
    (hs : c.step turn = some c') (hf : ⟨p, .failed f⟩ ∈ c'.processes) (discord : f.isDiscord = true) :
    ∃ b q received r, e.sent .releases turn.rank = some (b, q) ∧
      c.processes[turn.rank]? = some ⟨q, .receiving .releases e.now [] received⟩ ∧
      (Partition.receiveReleases e.now received).run q = .error f r := by
  cases h.fails_of_step hs hf with
  | departing _ _ fails =>
    rw [Partition.depart_agrees fails] at discord
    cases discord
  | posting => cases discord
  | @taking _ _ _ buffer _ state _ said refused =>
    have head : ∀ x ∈ [buffer], Wire.Headed e.now x.1 x.2 := fun x hx =>
      List.mem_singleton.1 hx ▸ headed_of_says h.company said
    rw [checkArrival_agrees (now_lt_base state) head refused] at discord
    cases discord
  | arriving state _ said fails =>
    have headed := fun buffer hb => headed_of_says h.company (said buffer hb)
    rw [Partition.arrive_agrees (now_lt_base state) headed fails] at discord
    cases discord
  | settling found state _ _ fails => exact ⟨_, _, _, _, state, found, fails⟩

end Ensemble.InScene

end Mobility
