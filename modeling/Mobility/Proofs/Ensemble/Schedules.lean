import Mobility.Proofs.Ensemble.Run

/-!
# Whatever the schedule

Two results about all schedules of an ensemble. As long as nobody fails, the partitions keep step:
everybody gets exactly the buffers which its neighbors send in the same second, the lanes are empty
at the rendezvous, and nobody is ever stuck (`Ensemble.keeps_step`). And what the partitions are at
the end of a run doesn't depend on the schedule (`Ensemble.schedule_irrelevant`).
-/

set_option autoImplicit false

namespace Mobility

open Act Second

/-! ## A small world -/

/-- The word of an action without an event. -/
def Action.word (action : Action) : Word := Instruction.encode ⟨low16 0, action⟩

/-- The word which leads an agent onto a link, at the velocity of the link. -/
def Action.wordOnto (link : Nat) : Word := word (traverse (low24 link) (low8 0))

namespace Scenario

/-- Two links which form a ring, each long enough for one agent, and an agent which takes both. Split
by ids, the agent goes from one partition to the other. -/
def ring : Scenario where
  numParts := 2
  links := #[⟨0, 0, 1, ⟨0x3f800000⟩, ⟨0x3f800000⟩, 1, 0⟩, ⟨1, 1, 0, ⟨0x3f800000⟩, ⟨0x3f800000⟩, 1, 0⟩]
  stops := #[]
  agents := #[.fresh 0 ⟨#[Action.wordOnto 0, Action.wordOnto 1], by decide⟩ 0 (low16 0)]
  homes := #[]
  crossings := []
  neighbors := .empty

end Scenario

/-- Turns of two processes, each of which sends to the other one. -/
def Turn.between (ranks : List Nat) : List Turn := ranks.map fun rank => ⟨rank, 1 - rank⟩

/-- The first second of two processes: the first one goes on until it has to wait for the other. -/
def Turn.inTurns : List Turn :=
  between [0, 0, 0, 1, 1, 1, 1, 1, 1, 1, 0, 0, 0, 0, 0, 0, 0, 1, 1, 1, 1, 0]

/-- The first second of two processes, side by side and with the second one ahead. -/
def Turn.sideBySide : List Turn :=
  between [1, 0, 1, 0, 1, 0, 1, 0, 1, 0, 1, 0, 1, 0, 1, 0, 1, 0, 1, 0, 1, 0]

namespace Ensemble

/-- An unsplit scenario, split and run under a schedule. -/
def trial (raw : Scenario) (method : Method) (timing : Timing) (schedule : List Turn) :
    Option (Scenario × Ensemble) :=
  match raw.partition method with
  | .error _ => none
  | .ok s =>
    match make s timing with
    | .error _ => none
    | .ok c => (play schedule c).map fun c => (s, c)

theorem trial_eq_some {raw s : Scenario} {method : Method} {timing : Timing} {schedule : List Turn}
    {c : Ensemble} :
    trial raw method timing schedule = some (s, c) ↔
      raw.partition method = .ok s ∧ ∃ c₀, make s timing = .ok c₀ ∧ play schedule c₀ = some c := by
  unfold trial
  cases hs : raw.partition method with
  | error e => simp
  | ok t =>
    dsimp only
    cases hm : make t timing with
    | error e =>
      simp only [false_iff, not_and, not_exists, reduceCtorEq, Except.ok.injEq]
      rintro rfl c₀ hc₀
      rw [hm] at hc₀
      cases hc₀
    | ok c₀ =>
      simp only [Option.map_eq_some_iff, Prod.mk.injEq, Except.ok.injEq]
      constructor
      · rintro ⟨d, hd, rfl, rfl⟩
        exact ⟨rfl, c₀, hm, hd⟩
      · rintro ⟨rfl, d, hd, hp⟩
        obtain rfl := Except.ok.inj (hm.symm.trans hd)
        exact ⟨c, hp, rfl, rfl⟩

/-- What is seen of a trial is seen at the end of a run. -/
theorem exists_of_trial {raw : Scenario} {method : Method} {timing : Timing} {schedule : List Turn}
    {seen : Scenario × Ensemble → Bool} (h : (trial raw method timing schedule).any seen = true) :
    ∃ s c₀ c, raw.partition method = .ok s ∧ make s timing = .ok c₀ ∧ play schedule c₀ = some c ∧
      seen (s, c) = true := by
  obtain ⟨⟨s, c⟩, ends, holds⟩ := (Option.any_eq_true _ _).1 h
  obtain ⟨hs, c₀, hm, hp⟩ := trial_eq_some.1 ends
  exact ⟨s, c₀, c, hs, hm, hp, holds⟩

end Ensemble

/-! ## Keeping step -/

/-- Two processes are in the same second, or one of them is still inside the rendezvous of a second
and the other has been let out of it into the next one. -/
def Process.InStep (stop : Nat) (x y : Process) : Prop :=
  x.stage.second stop = y.stage.second stop ∨
    (∃ t round, x.stage = .waiting t round ∧ y.stage.second stop = t + 1) ∨
    ∃ t round, y.stage = .waiting t round ∧ x.stage.second stop = t + 1

namespace Ensemble

variable {raw s : Scenario} {method : Method} {timing : Timing} {c₀ c c₁ c₂ : Ensemble}
  {schedule schedule₁ schedule₂ : List Turn}

theorem InScene.inStep {e : Scene} {size : Nat} (h : c.InScene e size) {x y : Process}
    (hx : x ∈ c.processes) (hy : y ∈ c.processes) : Process.InStep e.timing.stop x y := by
  obtain ⟨i, hi⟩ := List.mem_iff_getElem?.1 hx
  obtain ⟨j, hj⟩ := List.mem_iff_getElem?.1 hy
  unfold Process.InStep
  rcases h.second_eq hi with hx | ⟨t, since, hx, before, -⟩
  · rcases h.second_eq hj with hy | ⟨t, since, hy, before, -⟩
    · exact .inl (hx.trans hy.symm)
    · exact .inr (.inr ⟨t, since, hy, hx.trans before.symm⟩)
  · rcases h.second_eq hj with hy | ⟨t', since', hy, before', -⟩
    · exact .inr (.inl ⟨t, since, hx, hy.trans before.symm⟩)
    · left
      rw [hx, hy]
      show t = t'
      omega

/-- However the turns go, as long as nobody has failed:

* a process which receives has got at most one buffer of each neighbor and waits for all others,
  its lane holds nothing but such buffers, and all of them are of this second, so no process
  is about to fail because a message is of another second;
* any two processes are in the same second, or only the rendezvous lies between them;
* when all processes are inside the rendezvous, the lanes are empty;
* while some process has not ended its run, some process can take a step. -/
theorem keeps_step (hs : raw.partition method = .ok s) (hsize : s.numParts ≤ Wire.base)
    (hm : make s timing = .ok c₀) (hp : play schedule c₀ = some c) (sound : c.isSound = true) :
    (∀ i p lane now missing received,
      c.processes[i]? = some ⟨p, .receiving lane now missing received⟩ →
      (received.map Prod.fst ++ missing).Perm (s.neighborsOf i) ∧ (s.neighborsOf i).Nodup ∧
      ((c.lanes.contents lane i).map Prod.fst).Nodup ∧
      (∀ buffer ∈ c.lanes.contents lane i, buffer.1 ∈ missing) ∧
      ∀ buffer ∈ received ++ c.lanes.contents lane i, Wire.Headed now buffer.1 buffer.2) ∧
    (∀ turn c' p sender received expected, c.step turn = some c' →
      ⟨p, .failed (.exchange (.unexpectedTime sender received expected))⟩ ∉ c'.processes) ∧
    (∀ x ∈ c.processes, ∀ y ∈ c.processes, x.InStep timing.stop y) ∧
    ((∀ x ∈ c.processes, ∃ t round, x.stage = .waiting t round) →
      ∀ lane i, c.lanes.contents lane i = []) ∧
    (c.isDone = false → ∃ turn c', c.step turn = some c') := by
  have net := (Scenario.accepted_of_partition hs).network hsize
  obtain ⟨count, ps, -, h⟩ := reaches hs hsize hm hp sound
  refine ⟨fun i p lane now missing received hx => ?_, fun turn c' p sender at_ expected hstep hf => ?_,
    fun x hx y hy => h.inStep hx hy, fun all lane i => h.lanes_empty_of_waiting net all lane i,
    fun unfinished => h.progress net unfinished⟩
  · obtain ⟨each, unique, expected, headed⟩ := h.mail_in_time hx
    exact ⟨each, Table.keys_nodup _, unique, expected, headed⟩
  · -- Applying releases fails for other reasons.
    obtain ⟨b, q, received, r, hsent, hq, hr⟩ := h.discord_of_step hstep hf rfl
    have headed : ∀ buffer ∈ received, Wire.Headed _ buffer.1 buffer.2 :=
      fun buffer hb => (h.mail_in_time hq).2.2.2 buffer (List.mem_append_left _ hb)
    obtain ⟨releases, -, overdrawn⟩ :=
      Partition.receiveReleases_discord (InScene.now_lt_base hsent) headed hr rfl
    obtain ⟨part, link, released, sent, hf⟩ := overdrawn.failure_eq
    cases hf

/-- In the ring, when the first process waits for the transfer which the second one has made. -/
theorem keeps_step_ring : ∃ s c₀ c, Scenario.ring.partition .modulo = .ok s ∧
    make s ⟨0, 0, 0, 0⟩ = .ok c₀ ∧ play (Turn.inTurns.take 4) c₀ = some c ∧
    (∀ x ∈ c.processes, ∀ y ∈ c.processes, x.InStep 0 y) ∧ ∃ turn c', c.step turn = some c' := by
  have runs : (trial .ring .modulo ⟨0, 0, 0, 0⟩ (Turn.inTurns.take 4)).any (fun r =>
      r.1.numParts = 2 ∧ r.2.isSound ∧ !r.2.isDone) = true := by decide +kernel
  obtain ⟨s, c₀, c, hs, hm, hp, hc⟩ := exists_of_trial runs
  simp only [decide_eq_true_eq, Bool.not_eq_true'] at hc
  obtain ⟨-, -, step, -, goesOn⟩ := keeps_step hs (by rw [hc.1]; decide) hm hp hc.2.1
  exact ⟨s, c₀, c, hs, hm, hp, step, goesOn hc.2.2⟩

/-! ## The end of a run -/

/-- When everybody is done, the second after the last one has come. -/
theorem InScene.done {e : Scene} {size : Nat} (h : c.InScene e size) (done : c.isDone = true)
    (positive : 0 < size) :
    e.now = e.timing.stop + 1 ∧ c.processes = e.start.map fun p => ⟨p, .done⟩ := by
  have each : ∀ (i : Nat) x, c.processes[i]? = some x →
      ∃ p, x = ⟨p, .done⟩ ∧ e.start[i]? = some p ∧ e.now = e.timing.stop + 1 := by
    intro i x hx
    have hd := List.all_eq_true.1 done x (List.mem_of_getElem? hx)
    cases h.places i x hx with
    | done state ended => exact ⟨_, rfl, state, ended⟩
    | _ => simp at hd
  refine ⟨?_, List.ext_getElem? fun i => ?_⟩
  · obtain ⟨p, -, -, ended⟩ := each 0 _ (List.getElem?_eq_getElem (h.processes ▸ positive))
    exact ended
  · rw [List.getElem?_map]
    cases hx : c.processes[i]? with
    | some x =>
      obtain ⟨p, rfl, hp, -⟩ := each i x hx
      rw [hp]
      rfl
    | none =>
      have : e.start[i]? = none := by
        rw [List.getElem?_eq_none_iff] at hx ⊢
        rw [h.cast, ← h.processes]
        exact hx
      rw [this]
      rfl

theorem isSound_of_isDone (done : c.isDone = true) : c.isSound = true := by
  refine List.all_eq_true.2 fun x hx => ?_
  have hd := List.all_eq_true.1 done x hx
  cases hstage : x.stage with
  | failed f => simp [hstage] at hd
  | _ => rfl

/-- The order of the turns, and with it the order in which buffers are put into the lanes and arrive,
has no influence on a run: under any two schedules after which everybody has ended its run, every
partition is the same at the end, with its log, its summary, its agents, links and agendas and
everybody who waits at its stops. -/
theorem schedule_irrelevant (hs : raw.partition method = .ok s) (hsize : s.numParts ≤ Wire.base)
    (hm : make s timing = .ok c₀) (h₁ : play schedule₁ c₀ = some c₁)
    (h₂ : play schedule₂ c₀ = some c₂) (done₁ : c₁.isDone = true) (done₂ : c₂.isDone = true) :
    c₁.processes = c₂.processes := by
  have positive := (Scenario.accepted_of_partition hs).positive
  obtain ⟨count₁, ps₁, hrun₁, scene₁⟩ := reaches hs hsize hm h₁ (isSound_of_isDone done₁)
  obtain ⟨count₂, ps₂, hrun₂, scene₂⟩ := reaches hs hsize hm h₂ (isSound_of_isDone done₂)
  obtain ⟨ended₁, hc₁⟩ := scene₁.done done₁ positive
  obtain ⟨ended₂, hc₂⟩ := scene₂.done done₂ positive
  have counts : count₁ = count₂ := by
    change timing.start + count₁ = timing.stop + 1 at ended₁
    change timing.start + count₂ = timing.stop + 1 at ended₂
    omega
  subst counts
  obtain rfl := Option.some.inj (hrun₁.symm.trans hrun₂)
  rw [hc₁, hc₂]

/-- Four seconds of the ring, in which the agent comes from one partition to the other, under two
schedules. -/
theorem schedule_irrelevant_ring : ∃ s c₀ c₁ c₂, Scenario.ring.partition .modulo = .ok s ∧
    make s ⟨0, 3, 0, 0⟩ = .ok c₀ ∧
    play (List.replicate 4 Turn.inTurns).flatten c₀ = some c₁ ∧
    play (List.replicate 4 Turn.sideBySide).flatten c₀ = some c₂ ∧
    c₁.processes = c₂.processes := by
  have runs₁ : (trial .ring .modulo ⟨0, 3, 0, 0⟩ (List.replicate 4 Turn.inTurns).flatten).any
      (fun r => r.1.numParts = 2 ∧ r.2.isDone) = true := by decide +kernel
  have runs₂ : (trial .ring .modulo ⟨0, 3, 0, 0⟩ (List.replicate 4 Turn.sideBySide).flatten).any
      (fun r => r.2.isDone) = true := by decide +kernel
  obtain ⟨s, c₀, c₁, hs, hm, h₁, hc₁⟩ := exists_of_trial runs₁
  obtain ⟨s', c₀', c₂, hs', hm', h₂, hc₂⟩ := exists_of_trial runs₂
  obtain rfl := Except.ok.inj (hs.symm.trans hs')
  obtain rfl := Except.ok.inj (hm.symm.trans hm')
  simp only [decide_eq_true_eq] at hc₁
  exact ⟨s, c₀, c₁, c₂, hs, hm, h₁, h₂,
    schedule_irrelevant hs (by rw [hc₁.1]; decide) hm h₁ h₂ hc₁.2 hc₂⟩

end Ensemble

end Mobility
