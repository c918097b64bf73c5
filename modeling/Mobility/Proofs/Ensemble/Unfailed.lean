import Mobility.Proofs.Ensemble.Step

/-!
# Failures among others

A process which fails changes nothing but itself: no lane, not the rendezvous and nobody else. So an
ensemble in which some have failed can be compared with one in which those have not taken their last
step (`Ensemble.Unfailed`). Every schedule that some fail under has such a shadow, and every failure is
the first one of an ensemble in which nobody has failed yet (`Ensemble.Unfailed.play`).
-/

set_option autoImplicit false

namespace Mobility.Ensemble

variable {c c' d : Ensemble} {turn : Turn}

/-- `d` is `c` without the steps which failed: whoever has failed in `c` still is before its step. -/
structure Unfailed (c d : Ensemble) : Prop where
  lanes : d.lanes = c.lanes
  rendezvous : d.rendezvous = c.rendezvous
  clock : d.clock = c.clock
  length : d.processes.length = c.processes.length
  others : ∀ (i : Nat) x, c.processes[i]? = some x → (∀ f, x.stage ≠ .failed f) →
    d.processes[i]? = some x

namespace Unfailed

theorem refl (c : Ensemble) : Unfailed c c := ⟨rfl, rfl, rfl, rfl, fun _ _ h _ => h⟩

/-- If nobody has failed, nothing is missing. -/
theorem eq_of_sound (h : Unfailed c d) (sound : c.isSound = true) : d = c := by
  have processes : d.processes = c.processes := by
    refine List.ext_getElem? fun i => ?_
    cases hx : c.processes[i]? with
    | none =>
      rw [List.getElem?_eq_none_iff] at hx ⊢
      exact h.length ▸ hx
    | some x =>
      refine h.others i x hx fun f hf => ?_
      have := List.all_eq_true.1 sound x (List.mem_of_getElem? hx)
      rw [hf] at this
      cases this
  obtain ⟨ps, lanes, rendezvous, clock⟩ := d
  obtain ⟨rfl, rfl, rfl, rfl⟩ : ps = _ ∧ lanes = _ ∧ rendezvous = _ ∧ clock = _ :=
    ⟨processes, h.lanes, h.rendezvous, h.clock⟩
  rfl

/-- A step has its shadow. If it fails, the shadow stays before it. -/
theorem step (h : Unfailed c d) (sound : d.isSound = true) (hs : c.step turn = some c') :
    ∃ d', d.step turn = some d' ∧
      (∀ p f, ⟨p, .failed f⟩ ∈ c'.processes →
        ⟨p, .failed f⟩ ∈ c.processes ∨ ⟨p, .failed f⟩ ∈ d'.processes) ∧
      (Unfailed c' d ∨ Unfailed c' d' ∧ d'.isSound = true ∧
        ∀ x ∈ d'.processes, x ∈ d.processes ∨ x ∈ c'.processes) := by
  obtain ⟨x, y, hx, hfine, hset, hfail, hbeside⟩ := step_beside hs
  have hd := h.others _ x hx hfine
  obtain ⟨hrank, -⟩ := List.getElem?_eq_some_iff.1 hx
  have hrank' : turn.rank < d.processes.length := h.length ▸ hrank
  have same : ({ c with processes := d.processes } : Ensemble) = d := by
    rw [← h.lanes, ← h.rendezvous, ← h.clock]
  refine ⟨_, same ▸ hbeside d.processes hd, fun p f hp => ?_, ?_⟩
  · rw [hset] at hp
    rcases List.mem_or_eq_of_mem_set hp with hp | rfl
    · exact .inl hp
    · exact .inr (List.mem_set hrank' _)
  · by_cases failed : ∃ f, y.stage = .failed f
    · obtain ⟨f, hf⟩ := failed
      obtain rfl := hfail f hf
      refine .inl ⟨h.lanes, h.rendezvous, h.clock, by rw [put, List.length_set, h.length],
        fun i z hz notFailed => ?_⟩
      change (c.processes.set turn.rank y)[i]? = some z at hz
      rw [getElem?_set_of hx] at hz
      split at hz
      · obtain rfl := Option.some.inj hz
        exact absurd hf (notFailed f)
      · exact h.others i z hz notFailed
    · refine .inr ⟨⟨rfl, rfl, rfl, by rw [hset, List.length_set, List.length_set, h.length],
        fun i z hz notFailed => ?_⟩, List.all_eq_true.2 fun z hz => ?_, fun z hz => ?_⟩
      · rw [hset, getElem?_set_of hx] at hz
        show (d.processes.set turn.rank y)[i]? = some z
        rw [getElem?_set_of hd]
        split
        · rename_i hi
          rwa [if_pos hi] at hz
        · rename_i hi
          rw [if_neg hi] at hz
          exact h.others i z hz notFailed
      · rcases List.mem_or_eq_of_mem_set hz with hz | rfl
        · exact List.all_eq_true.1 sound z hz
        · cases hstage : z.stage with
          | failed f => exact absurd ⟨f, hstage⟩ failed
          | _ => rfl
      · rcases List.mem_or_eq_of_mem_set hz with hz | rfl
        · exact .inl hz
        · exact .inr (hset ▸ List.mem_set hrank _)

/-- What every step without failure keeps holds of the shadow of a whole schedule, and every failure is
the first one of an ensemble of which it holds. Of the processes on the way something may be known. -/
theorem play {P : Ensemble → Prop} {Q : Process → Prop} {schedule : List Turn}
    (keeps : ∀ {d turn d'}, P d → d.step turn = some d' → d'.isSound = true →
      (∀ x ∈ d'.processes, Q x) → P d')
    (h : Unfailed c d) (good : P d) (sound : d.isSound = true) (fine : ∀ x ∈ d.processes, Q x)
    (ahead : ∀ before, before <+: schedule → ∀ b, Ensemble.play before c = some b →
      ∀ x ∈ b.processes, Q x) (hp : Ensemble.play schedule c = some c') :
    ∃ d', Unfailed c' d' ∧ P d' ∧
      ∀ p f, ⟨p, .failed f⟩ ∈ c'.processes → ⟨p, .failed f⟩ ∈ c.processes ∨
        ∃ b turn b', P b ∧ b.step turn = some b' ∧ ⟨p, .failed f⟩ ∈ b'.processes := by
  induction schedule generalizing c d with
  | nil =>
    obtain rfl := Option.some.inj hp
    exact ⟨d, h, good, fun _ _ hf => .inl hf⟩
  | cons turn rest ih =>
    obtain ⟨e, hs, hp⟩ := Option.bind_eq_some_iff.1 hp
    obtain ⟨d', hd', failures, next⟩ := h.step sound hs
    have fineNext : ∀ x ∈ e.processes, Q x :=
      ahead [turn] ⟨rest, rfl⟩ e (by simp [Ensemble.play, hs])
    have ahead : ∀ before, before <+: rest → ∀ b, Ensemble.play before e = some b →
        ∀ x ∈ b.processes, Q x := fun before hb b hplay =>
      ahead (turn :: before) (List.cons_prefix_cons.2 ⟨rfl, hb⟩) b (by
        rw [Ensemble.play, hs]
        exact hplay)
    have later : ∀ {d}, Unfailed e d → P d → d.isSound = true → (∀ x ∈ d.processes, Q x) →
        ∃ d', Unfailed c' d' ∧ P d' ∧ ∀ p f, ⟨p, .failed f⟩ ∈ c'.processes →
          ⟨p, .failed f⟩ ∈ c.processes ∨
            ∃ b turn b', P b ∧ b.step turn = some b' ∧ ⟨p, .failed f⟩ ∈ b'.processes := by
      intro d₁ h₁ good₁ sound₁ fine₁
      obtain ⟨d₂, h₂, good₂, first⟩ := ih h₁ good₁ sound₁ fine₁ ahead hp
      refine ⟨d₂, h₂, good₂, fun p f hf => ?_⟩
      rcases first p f hf with here | later
      · rcases failures p f here with before | now
        · exact .inl before
        · exact .inr ⟨d, turn, d', good, hd', now⟩
      · exact .inr later
    rcases next with stays | ⟨follows, sound', each⟩
    · exact later stays good sound fine
    · have fine' : ∀ x ∈ d'.processes, Q x := fun x hx =>
        (each x hx).elim (fine x) (fineNext x)
      exact later follows (keeps good hd' sound' fine') sound' fine'

end Unfailed

end Mobility.Ensemble
