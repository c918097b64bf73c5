import Mobility.Proofs.Timetable

/-!
# Runs to the end

Every step brings a process nearer to the end of its run: it leaves less to do (`Ensemble.InScene.toDo_step`). As
somebody can always go on, every run in which nobody fails can be continued until everybody is done
(`Ensemble.InScene.exists_done`). On its way it passes every second, where all partitions are as the second leaves
them (`Ensemble.InScene.passes`, `Ensemble.completes_run`).
-/

set_option autoImplicit false

namespace Mobility

open Act Second

theorem sum_map_set_lt {α : Type} {f : α → Nat} {xs : List α} {i : Nat} {x y : α} (hx : xs[i]? = some x)
    (less : f y < f x) : ((xs.set i y).map f).sum < (xs.map f).sum := by
  induction xs generalizing i with
  | nil => cases hx
  | cons z rest ih =>
    cases i with
    | zero =>
      obtain rfl := Option.some.inj hx
      simpa using less
    | succ i => simpa using ih hx

/-- One number less is stored. -/
theorem Table.length_keys_erase {β : Type} {t : Table β} {k : Nat} (h : k ∈ t.keys) :
    (t.erase k).keys.length < t.keys.length := by
  have kept : (t.erase k).keys ⊆ t.keys.erase k := by
    intro j hj
    obtain ⟨b, found⟩ := Table.mem_keys.1 hj
    rw [Table.get?_erase] at found
    split at found
    · cases found
    · rename_i other
      exact (List.mem_erase_of_ne other).2 (Table.mem_keys.2 ⟨b, found⟩)
  have le := ((Table.keys_nodup (t.erase k)).subperm kept).length_le
  have pos := List.length_pos_of_mem h
  rw [List.length_erase_of_mem h] at le
  omega

/-! ## What is left to do -/

/-- More steps than a process takes in a second, if it has no more than `size` partners. -/
def Stage.stepsPerSecond (size : Nat) : Nat := 4 * size + 7

/-- More steps than a process takes in the seconds after this one. -/
def Stage.ahead (size stop now : Nat) : Nat := (stop - now) * stepsPerSecond size

/-- More steps than a process has still to take. -/
def Stage.toDo (size stop : Nat) : Stage → Nat
  | .working now => ahead size stop now + stepsPerSecond size
  | .sending .transfers now pending => ahead size stop now + (3 * size + 6) + pending.keys.length
  | .receiving .transfers now missing _ => ahead size stop now + (2 * size + 5) + missing.length
  | .sending .releases now pending => ahead size stop now + (size + 4) + pending.keys.length
  | .receiving .releases now missing _ => ahead size stop now + 3 + missing.length
  | .arriving now => ahead size stop now + 2
  | .waiting now _ => ahead size stop now + 1
  | .done | .failed _ => 0

theorem Stage.ahead_succ {size stop now : Nat} (h : now + 1 ≤ stop) :
    ahead size stop now = ahead size stop (now + 1) + stepsPerSecond size := by
  unfold ahead
  rw [show stop - now = stop - (now + 1) + 1 by omega, Nat.succ_mul]

namespace Ensemble

/-- More steps than all processes have still to take. -/
def toDo (size stop : Nat) (c : Ensemble) : Nat := (c.processes.map fun x => x.stage.toDo size stop).sum

/-- All processes have completed second `t` and none has begun the next one, in a run until second `stop`. -/
def isAfter (stop t : Nat) (c : Ensemble) : Bool := c.processes.all fun x => x.stage.isAfter stop t

variable {e : Scene} {size i t : Nat} {c c' : Ensemble} {x y : Process} {turn : Turn} {schedule : List Turn}

theorem toDo_lt {stop : Nat} (hx : c.processes[i]? = some x) (h : c'.processes = c.processes.set i y)
    (less : y.stage.toDo size stop < x.stage.toDo size stop) : c'.toDo size stop < c.toDo size stop := by
  unfold toDo
  rw [h]
  exact sum_map_set_lt (f := fun x : Process => x.stage.toDo size stop) hx less

theorem isSound_of_isAfter {stop : Nat} (h : c.isAfter stop t = true) : c.isSound = true := by
  refine List.all_eq_true.2 fun x hx => ?_
  have after := List.all_eq_true.1 h x hx
  cases hs : x.stage with
  | failed f => rw [hs] at after; cases after
  | _ => rfl

theorem play_append {before after : List Turn} : play (before ++ after) c = (play before c).bind (play after) := by
  induction before generalizing c with
  | nil => rfl
  | cons turn rest ih =>
    show (c.step turn).bind (play (rest ++ after)) = ((c.step turn).bind (play rest)).bind (play after)
    rw [Option.bind_assoc]
    exact Option.bind_congr fun d _ => ih

namespace InScene

/-- Whoever sends or receives has partners no more than the ensemble has partitions. -/
theorem length_partners (net : Network size e.partners) (h : c.InScene e size) {lane : Lane} {b : Buffers}
    {p : Partition} (sent : e.sent lane i = some (b, p)) :
    b.keys.length ≤ size ∧ p.outbox.neighbors.keys.length ≤ size := by
  obtain ⟨addressed, -, keys⟩ := Scene.addressed h.company sent
  have nodup : (e.partners i).Nodup := keys ▸ Table.keys_nodup _
  have few := length_le_of_nodup nodup fun j hj => net.below hj
  exact ⟨addressed.keys ▸ few, keys ▸ few⟩

/-- Whoever puts a buffer into a lane has one less to send, and without buffers it goes on to receive. -/
theorem toDo_post {p : Partition} {lane : Lane} {b pending : Buffers} {target : Nat} (net : Network size e.partners)
    (h : c.InScene e size) (hx : c.processes[i]? = some ⟨p, .sending lane e.now pending⟩)
    (state : e.sent lane i = some (b, p)) (hs : c.post i p lane e.now pending target = some c')
    (sound : c'.isSound = true) : c'.toDo size e.timing.stop < c.toDo size e.timing.stop := by
  unfold post at hs
  split at hs
  · obtain rfl := Option.some.inj hs
    have few := (h.length_partners net state).2
    refine toDo_lt hx rfl ?_
    cases lane <;> simp only [Stage.toDo] <;> omega
  · obtain ⟨data, found, rfl⟩ := Option.map_eq_some_iff.1 hs
    have fewer := Table.length_keys_erase (Table.mem_keys.2 ⟨data, found⟩)
    split at sound
    · refine toDo_lt hx rfl ?_
      cases lane <;> simp only [Stage.toDo] <;> omega
    · exact absurd sound (not_sound_put hx)

/-- Whoever takes a buffer waits for one partner less. -/
theorem toDo_take {p : Partition} {lane : Lane} {missing : List Nat} {received : Delivery} (h : c.InScene e size)
    (hx : c.processes[i]? = some ⟨p, .receiving lane e.now missing received⟩) {b : Buffers}
    (state : e.sent lane i = some (b, p)) (hs : c.take i p lane e.now missing received = some c')
    (sound : c'.isSound = true) : c'.toDo size e.timing.stop < c.toDo size e.timing.stop := by
  obtain ⟨-, rank, -⟩ := Scene.addressed h.company state
  unfold take at hs
  rw [rank] at hs
  split at hs
  · cases hs
  · rename_i buffer rest contents
    obtain rfl := Option.some.inj hs
    have awaited : buffer.1 ∈ missing := (h.mail_in_time hx).2.2.1 buffer (contents ▸ List.mem_cons_self)
    have fewer : (missing.filter (· ≠ buffer.1)).length < missing.length :=
      List.length_filter_lt_length_iff_exists.2 ⟨buffer.1, awaited, by simp⟩
    split at sound
    · refine toDo_lt hx rfl ?_
      cases lane <;> simp only [Stage.toDo] <;> omega
    · exact absurd sound (not_sound_put hx)

/-- Whoever has heard of everybody and goes on with that has less to do. -/
theorem toDo_proceed {p : Partition} {lane : Lane} {b : Buffers} {received : Delivery} (net : Network size e.partners)
    (h : c.InScene e size) (hx : c.processes[i]? = some ⟨p, .receiving lane e.now [] received⟩)
    (state : e.sent lane i = some (b, p)) (each : (received.map Prod.fst ++ []).Perm (e.partners i))
    (said : ∀ buffer ∈ received, e.Says lane buffer.1 i buffer.2)
    (sound : (c.put i (.proceed p e.now received lane)).isSound = true) :
    (c.put i (.proceed p e.now received lane)).toDo size e.timing.stop < c.toDo size e.timing.stop := by
  cases lane with
  | transfers =>
    rw [List.append_nil] at each
    obtain ⟨d, mail, perm, certified⟩ := Scene.mail_of_received h.company net state each said
    obtain ⟨b', q, arrive, heq⟩ := performed hx sound
    have sent : e.sent .releases i = some (b', q) :=
      arrived_eq_some.2 ⟨b, p, d, state, mail, Partition.arrive_perm certified perm arrive⟩
    have few := (h.length_partners net sent).1
    refine toDo_lt hx rfl ?_
    rw [Process.proceed, heq]
    simp only [Stage.toDo]
    omega
  | releases =>
    obtain ⟨⟨⟩, q, settle, heq⟩ := performed hx sound
    refine toDo_lt hx rfl ?_
    rw [Process.proceed, heq]
    simp only [Stage.toDo]
    omega

/-- Whoever is let out of the rendezvous has only the seconds after it to do. -/
theorem toDo_release {p : Partition} {second since : Nat} (h : c.InScene e size)
    (hx : c.processes[i]? = some ⟨p, .waiting second since⟩) (state : e.start[i]? = some p)
    (before : second + 1 = e.now) (ahead : c.clock = e.now) :
    (c.release i p).toDo size e.timing.stop < c.toDo size e.timing.stop := by
  refine toDo_lt hx rfl ?_
  rw [h.company.timing i p state, ahead, ← before]
  split
  · rename_i more
    have less : Stage.ahead size e.timing.stop second = _ := Stage.ahead_succ more
    simp only [Stage.toDo]
    omega
  · exact Nat.succ_pos _

/-- Every step leaves less to do. -/
theorem toDo_step (net : Network size e.partners) (h : c.InScene e size) (hs : c.step turn = some c')
    (sound : c'.isSound = true) : c'.toDo size e.timing.stop < c.toDo size e.timing.stop := by
  unfold Ensemble.step at hs
  split at hs
  · cases hs
  · rename_i p stage hx
    generalize hy : (⟨p, stage⟩ : Process) = y at hx
    cases h.places _ y hx with
    | late state inTime before ended ahead =>
      cases hy
      simp only [Option.ite_none_right_eq_some, Option.some.injEq] at hs
      obtain ⟨-, rfl⟩ := hs
      exact h.toDo_release hx state before ahead
    | @working p state inTime =>
      cases hy
      cases hs
      obtain ⟨b, q, hd, heq⟩ := performed hx sound
      have sent : e.sent .transfers turn.rank = some (b, q) := departed_eq_some.2 ⟨p, state, hd⟩
      have few := (h.length_partners net sent).1
      refine toDo_lt hx rfl ?_
      rw [heq]
      simp only [Stage.toDo, Stage.stepsPerSecond]
      omega
    | sending state inTime rest =>
      cases hy
      exact h.toDo_post net hx state hs sound
    | @receiving _ _ _ missing _ state inTime each said =>
      cases hy
      cases missing with
      | nil =>
        cases hs
        exact h.toDo_proceed net hx state each said sound
      | cons j missing => exact h.toDo_take hx state hs sound
    | arriving state inTime =>
      cases hy
      cases hs
      refine toDo_lt (y := ⟨_, .waiting e.now c.rendezvous.round⟩) hx rfl ?_
      simp only [Stage.toDo]
      omega
    | waiting state inTime =>
      cases hy
      simp [Rendezvous.mayPass] at hs
    | done state ended =>
      cases hy
      cases hs

/-- Whoever goes on comes to the end, if nobody fails on the way. -/
theorem exists_done (net : Network size e.partners) (h : c.InScene e size)
    (sound : ∀ schedule c', Ensemble.play schedule c = some c' → c'.isSound = true) :
    ∃ more c', Ensemble.play more c = some c' ∧ c'.isDone = true := by
  induction left : c.toDo size e.timing.stop using Nat.strong_induction_on generalizing c e with
  | _ n ih =>
    by_cases done : c.isDone = true
    · exact ⟨[], c, rfl, done⟩
    obtain ⟨turn, d, hs⟩ := h.progress net (by simpa using done)
    have goesOn : ∀ schedule c', Ensemble.play schedule d = some c' → Ensemble.play (turn :: schedule) c = some c' :=
      fun schedule c' hp => Option.bind_eq_some_iff.2 ⟨d, hs, hp⟩
    have fine := sound [turn] d (goesOn [] d rfl)
    have less := h.toDo_step net hs fine
    have sound' : ∀ schedule c', Ensemble.play schedule d = some c' → c'.isSound = true :=
      fun schedule c' hp => sound (turn :: schedule) c' (goesOn schedule c' hp)
    obtain ⟨more, c', hp, done⟩ : ∃ more c', Ensemble.play more d = some c' ∧ c'.isDone = true := by
      rcases h.step net hs fine with same | ⟨ps, -, later, -⟩
      · exact ih _ (left ▸ less) net same sound' rfl
      · exact ih _ (left ▸ less) (e := e.later ps) net later sound' rfl
    exact ⟨turn :: more, c', goesOn more c' hp, done⟩

/-- A run to the end passes every second. -/
theorem passes (net : Network size e.partners) (h : c.InScene e size) (hp : Ensemble.play schedule c = some c')
    (done : c'.isDone = true) (first : e.now ≤ t) (last : t ≤ e.timing.stop) :
    ∃ before after d, schedule = before ++ after ∧ Ensemble.play before c = some d ∧
      d.isAfter e.timing.stop t = true := by
  induction schedule generalizing c e with
  | nil =>
    obtain rfl := Option.some.inj hp
    obtain ⟨ended, -⟩ := h.done done (Nat.zero_lt_of_lt h.some_out)
    omega
  | cons turn rest ih =>
    obtain ⟨d, hs, hp⟩ := Option.bind_eq_some_iff.1 hp
    have goesOn : ∀ before d', Ensemble.play before d = some d' → Ensemble.play (turn :: before) c = some d' :=
      fun before d' hb => Option.bind_eq_some_iff.2 ⟨d, hs, hb⟩
    rcases h.step net hs (sound_of_play hp (isSound_of_isDone done)) with same | ⟨ps, -, later, all⟩
    · obtain ⟨before, after, d', split, hb, passed⟩ := ih net same hp first last
      exact ⟨turn :: before, after, d', congrArg _ split, goesOn before d' hb, passed⟩
    · rcases Nat.eq_or_lt_of_le first with now | more
      · -- Before the last one arrives at the rendezvous, everybody has completed the second.
        refine ⟨[], turn :: rest, c, rfl, rfl, List.all_eq_true.2 fun x hx => ?_⟩
        obtain ⟨i, hi⟩ := List.mem_iff_getElem?.1 hx
        rcases all i x hi with arrives | waits
        · rw [arrives]
          exact decide_eq_true now
        · rw [(h.settled_of_waiting hi waits).2]
          exact decide_eq_true now
      · obtain ⟨before, after, d', split, hb, passed⟩ := ih (e := e.later ps) net later hp more last
        exact ⟨turn :: before, after, d', congrArg _ split, goesOn before d' hb, passed⟩

/-- When all have completed a second, all partitions are as they start the next one. The scene is that of the next
second, or still that of this one, if nobody has been let out of the rendezvous. -/
theorem afterSecond (h : c.InScene e size) (after : c.isAfter e.timing.stop t = true) :
    t ≤ e.timing.stop ∧ ((e.now = t + 1 ∧ e.start = c.processes.map (·.partition)) ∨
      (e.now = t ∧ next e.now e.start = some (c.processes.map (·.partition)))) := by
  have each : ∀ (i : Nat) x, c.processes[i]? = some x → t ≤ e.timing.stop ∧
      ((e.now = t + 1 ∧ e.start[i]? = some x.partition) ∨
        (e.now = t ∧ settled e.now e.start i = some x.partition)) := by
    intro i x hx
    have hc := List.all_eq_true.1 after x (List.mem_of_getElem? hx)
    cases h.places i x hx with
    | late state inTime before =>
      have : _ = t := of_decide_eq_true hc
      exact ⟨by omega, .inl ⟨by omega, state⟩⟩
    | working state inTime =>
      have : e.now = t + 1 := of_decide_eq_true hc
      exact ⟨by omega, .inl ⟨this, state⟩⟩
    | arriving state inTime | waiting state inTime =>
      have : e.now = t := of_decide_eq_true hc
      exact ⟨this ▸ inTime, .inr ⟨this, state⟩⟩
    | done state ended =>
      have : t = e.timing.stop := of_decide_eq_true hc
      exact ⟨this.le, .inl ⟨this ▸ ended, state⟩⟩
    | sending | receiving => cases hc
  have length : e.start.length = c.processes.length := h.cast.trans h.processes.symm
  obtain ⟨first, found⟩ : ∃ x, c.processes[0]? = some x :=
    ⟨_, List.getElem?_eq_getElem (h.processes ▸ Nat.zero_lt_of_lt h.some_out)⟩
  obtain ⟨inTime, ⟨now, -⟩ | ⟨now, -⟩⟩ := each 0 first found
  · refine ⟨inTime, .inl ⟨now, List.ext_getElem? fun i => ?_⟩⟩
    rw [List.getElem?_map]
    cases hx : c.processes[i]? with
    | some x =>
      obtain ⟨-, ⟨-, state⟩ | ⟨other, -⟩⟩ := each i x hx
      · exact state
      · omega
    | none => exact List.getElem?_eq_none_iff.2 (length ▸ List.getElem?_eq_none_iff.1 hx)
  · refine ⟨inTime, .inr ⟨now, next_eq_some.2 ⟨by rw [List.length_map, length], fun i q hq => ?_⟩⟩⟩
    rw [List.getElem?_map, Option.map_eq_some_iff] at hq
    obtain ⟨x, hx, rfl⟩ := hq
    obtain ⟨-, ⟨other, -⟩ | ⟨-, state⟩⟩ := each i x hx
    · omega
    · exact state

end InScene

variable {raw s : Scenario} {method : Method} {timing : Timing} {c₀ : Ensemble}

/-- However the turns went, when all have completed a second, all partitions are as after these seconds. -/
theorem run_of_isAfter (hs : raw.partition method = .ok s) (hsize : s.numParts ≤ Wire.base)
    (hm : make s timing = .ok c₀) (hp : play schedule c₀ = some c) (after : c.isAfter timing.stop t = true) :
    ∃ count, timing.start + count = t + 1 ∧ t ≤ timing.stop ∧
      run count timing.start (s.cast timing) = some (c.processes.map (·.partition)) := by
  obtain ⟨count, ps, hrun, scene⟩ := reaches hs hsize hm hp (isSound_of_isAfter after)
  obtain ⟨inTime, ⟨now, start⟩ | ⟨now, hn⟩⟩ := scene.afterSecond after
  · exact ⟨count, now, inTime, hrun.trans (congrArg some start)⟩
  · refine ⟨count + 1, congrArg (· + 1) now, inTime, ?_⟩
    rw [run_succ, hrun]
    exact hn

/-- If nobody fails, every run can be continued to its end, and every run to the end passes every second. -/
theorem completes_run (hs : raw.partition method = .ok s) (hsize : s.numParts ≤ Wire.base)
    (hm : make s timing = .ok c₀) (sound : ∀ schedule c, play schedule c₀ = some c → c.isSound = true)
    (hp : play schedule c₀ = some c) :
    (∃ more c', play (schedule ++ more) c₀ = some c' ∧ c'.isDone = true) ∧
      (c.isDone = true → ∀ t, timing.start ≤ t → t ≤ timing.stop →
        ∃ before after d, schedule = before ++ after ∧ play before c₀ = some d ∧ d.isAfter timing.stop t = true) := by
  have accepted := Scenario.accepted_of_partition hs
  have net := accepted.network hsize
  refine ⟨?_, fun done t first last => (inScene_make accepted hm).passes net hp done first last⟩
  obtain ⟨count, ps, -, scene⟩ := reaches hs hsize hm hp (sound schedule c hp)
  have goesOn : ∀ more c', play more c = some c' → play (schedule ++ more) c₀ = some c' := by
    intro more c' hmore
    rw [play_append, hp]
    exact hmore
  obtain ⟨more, c', hmore, done⟩ := scene.exists_done net fun more c' hmore => sound _ c' (goesOn more c' hmore)
  exact ⟨more, c', goesOn more c' hmore, done⟩

end Ensemble

end Mobility
