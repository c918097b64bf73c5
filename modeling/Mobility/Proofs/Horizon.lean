import Mobility.Proofs.Horizon.Alone
import Mobility.Proofs.Safety

/-!
# A run covers its horizon

The only partition of a scenario has nobody to talk to, so its seconds are its work
(`Partition.second_silent`). If no plan makes it fail, it goes through every second of the horizon once, in
ascending order, and tells of it (`Partition.run_covers_horizon`). It has to end before the last second which can
be counted: the agendas ask for the second after the one which is visited (`Partition.run_past_horizon`).
-/

set_option autoImplicit false

namespace Mobility

open Act

namespace Partition

variable {raw s : Scenario} {method : Method} {timing : Timing} {p q : Partition} {now : Nat}
  {σ : Type} {u : σ} {f : Failure}

/-! ## Seconds without messages -/

theorem run_alone {α : Type} {act : Act α} {a : α} (h : Ends act p a q) :
    (alone act).run (p, u) = .ok a (q, u) := by
  have runs : act p = .ok a q := h
  simp only [EStateM.run, alone, runs]

theorem fails_alone {α : Type} {act : Act α} (h : act.run p = .error f q) :
    (alone act).run (p, u) = .error f (q, u) := by
  have runs : act p = .error f q := h
  simp only [EStateM.run, alone, runs]

/-- Whoever has nobody to talk to sends and receives nothing. -/
theorem ends_exchange (proxies : p.proxies = []) (gateways : p.gateways = []) (silent : p.outbox = .empty 0 [])
    (now : Nat) : Ends (sendTransfers now) p .empty p ∧ Ends (receiveTransfers now []) p () p ∧
      Ends (sendReleases now) p .empty p ∧ Ends (receiveReleases now []) p () p := by
  obtain ⟨rank, timing, links, _, _, stopLinks, agents, dueAgents, dueLinks, platforms, _, log, finished⟩ := p
  subst proxies gateways silent
  refine ⟨rfl, ?_, rfl, rfl⟩
  simp only [receiveTransfers, bind_eq_ok, get_eq_ok, communicate_eq_ok]
  exact ⟨_, _, ⟨rfl, rfl⟩, [], _, ⟨rfl, rfl⟩, by rw [List.mergeSort_nil]; rfl⟩

/-- So its second is its work. -/
theorem second_silent (work : Ends (work now) p () q) (proxies : q.proxies = []) (gateways : q.gateways = [])
    (silent : q.outbox = .empty 0 []) : (second .silent now).run (p, u) = .ok () (q, u) := by
  obtain ⟨sends, receives, reports, applies⟩ := ends_exchange proxies gateways silent now
  have delivers : ∀ lane buffers, (deliver .silent lane buffers now).run (q, u) = .ok [] (q, u) := fun _ _ => rfl
  simp only [second, EStateM.run_bind, run_alone work, run_alone sends, run_alone receives, run_alone reports,
    run_alone applies, delivers]

theorem fails_second {transport : Transport σ} (work : (work now).run p = .error f q) :
    (second transport now).run (p, u) = .error f (q, u) := by
  simp only [second, EStateM.run_bind, fails_alone work]

/-! ## A run -/

/-- The only partition between the second before `now` and second `now`. -/
structure Steady (s : Scenario) (timing : Timing) (now : Nat) (p : Partition) : Prop where
  alone : Alone s timing now 0 p
  scheduled : p.Scheduled timing.stop now []
  soon : p.dueAgents.next = now
  ready : s.Fresh → Ready now 0 p

namespace Steady

theorem initial (hs : raw.partition method = .ok s) (single : s.numParts = 1) :
    Steady s timing timing.start (Partition.initial s timing 0) := by
  have accepted := Scenario.accepted_of_partition hs
  have soon : (Partition.initial s timing 0).dueAgents.next = timing.start := by
    show (Agenda.starting ..).next = timing.start
    rw [Agenda.starting]
    split <;> rfl
  refine ⟨⟨Std.Refl.refl _, fun x hx => ?_, fun x hx => absurd hx (Multiset.notMem_zero x), fun v x hx => ?_, ?_, ?_,
    Nat.le_succ _⟩, s.scheduled_initial timing 0, soon, fun fresh => ?_⟩
  · rw [zero_add, Scenario.roots_initial, Multiset.mem_coe, Scenario.agentsOf] at hx
    have known := List.mem_range.1 (List.mem_filter.1 hx).1
    rwa [accepted.homes, Array.size_map] at known
  · rw [crew] at hx
    cases found : (Partition.initial s timing 0).agents[v]? with
    | none =>
      rw [found] at hx
      exact absurd hx (Multiset.notMem_zero x)
    | some a =>
      rw [found] at hx
      have listed : a ∈ s.agents := Array.mem_of_getElem? found
      exact .inr ⟨a, listed, hx⟩
  · show Outbox.empty 0 (s.neighborsOf 0) = _
    rw [accepted.neighborsOf_of_single single]
  · rw [soon]
    exact Nat.le_succ _
  · exact (fresh.sane hs timing).ready (i := 0) (by rw [single]; rfl)

/-- The work of a second before the last one leads to the next second, or it fails because of the scenario. -/
theorem work (h : Steady s timing now p) (hs : raw.partition method = .ok s) (single : s.numParts = 1)
    (last : now < Clock.last) :
    (∃ f q, (Partition.work now).run p = .error f q ∧ s.Excuses f ∧ (s.Fresh → f.isDocumented = true)) ∨
      ∃ q, Ends (Partition.work now) p () q ∧ Steady s timing (now + 1) q := by
  have sustains : Sustains s.Excuses now (Alone s timing now) := Alone.sustains hs single last
  cases ends : (Partition.work now).run p with
  | error f q =>
    have excused := sustains.fails_work h.alone last h.soon h.scheduled f q ends
    refine .inl ⟨f, q, rfl, excused, fun fresh => ?_⟩
    refine ((h.ready fresh).safe_work last h.soon h.scheduled f q ends).resolve_right fun discord => ?_
    rw [excused.isDiscord] at discord
    cases discord
  | ok _ q =>
    have ends : Ends (Partition.work now) p () q := ends
    have alone := sustains.work h.alone ends
    have soon := next_work ends
    refine .inr ⟨q, ends, ⟨alone.setting, alone.present, alone.waiting, alone.aboard, alone.silent, ?_, ?_⟩,
      h.scheduled.work ends, soon, fun fresh => ?_⟩
    · exact alone.agents.trans (Nat.le_succ _)
    · exact alone.links.trans (Nat.le_succ _)
    · obtain ⟨ready, -⟩ := (h.ready fresh).work ends
      exact ⟨ready.able, ready.orderly, ready.once, ready.known, ready.agents.trans (Nat.le_succ _),
        ready.links.trans (Nat.le_succ _)⟩

theorem second (h : Steady s timing now p) (hs : raw.partition method = .ok s) (single : s.numParts = 1)
    (last : now < Clock.last) (u : σ) :
    (∃ f q, (Partition.second .silent now).run (p, u) = .error f (q, u) ∧ s.Excuses f ∧
        (s.Fresh → f.isDocumented = true)) ∨
      ∃ q, (Partition.second .silent now).run (p, u) = .ok () (q, u) ∧ Steady s timing (now + 1) q := by
  rcases h.work hs single last with ⟨f, q, fails, excused⟩ | ⟨q, ends, steady⟩
  · exact .inl ⟨f, q, fails_second fails, excused⟩
  · have accepted := Scenario.accepted_of_partition hs
    have setting := steady.alone.setting
    exact .inr ⟨q, second_silent ends (setting.proxies_of_single accepted single)
      (setting.gateways_of_single accepted single) steady.alone.silent, steady⟩

end Steady

/-- What `count` seconds from `now` on go through: a state before each of them and one after the last, in which
both agendas ask for the second that comes next. -/
structure Covers (now count : Nat) (u : σ) (states : Nat → Partition) : Prop where
  step : ∀ t, now ≤ t → t < now + count → (second .silent t).run (states t, u) = .ok () (states (t + 1), u)
  next : ∀ t, now ≤ t → t ≤ now + count → (states t).dueAgents.next = t ∧ (states t).dueLinks.next = t

/-- A second comes before the later ones. -/
theorem Covers.cons {count : Nat} {states : Nat → Partition} (h : Covers (now + 1) count u states)
    (first : (second .silent now).run (p, u) = .ok () (states (now + 1), u))
    (next : p.dueAgents.next = now ∧ p.dueLinks.next = now) :
    Covers now (count + 1) u (Function.update states now p) := by
  have here : Function.update states now p now = p := Function.update_self ..
  have later : ∀ t, now + 1 ≤ t → Function.update states now p t = states t := fun t ht =>
    Function.update_of_ne (by omega) ..
  refine ⟨fun t early late => ?_, fun t early late => ?_⟩
  · rcases Nat.eq_or_lt_of_le early with rfl | early
    · rw [here, later _ le_rfl]
      exact first
    · rw [later t early, later (t + 1) (by omega)]
      exact h.step t early (by omega)
  · rcases Nat.eq_or_lt_of_le early with rfl | early
    · rw [here]
      exact next
    · rw [later t early]
      exact h.next t early (by omega)

theorem Steady.seconds {count : Nat} (h : Steady s timing now p) (hs : raw.partition method = .ok s)
    (single : s.numParts = 1) (last : now + count ≤ Clock.last) (u : σ) :
    (∃ f q, (Partition.seconds .silent count now).run (p, u) = .error f (q, u) ∧ s.Excuses f ∧
        (s.Fresh → f.isDocumented = true)) ∨
      ∃ states, states now = p ∧ Covers now count u states ∧ Steady s timing (now + count) (states (now + count)) ∧
        (Partition.seconds .silent count now).run (p, u) = .ok () (states (now + count), u) := by
  induction count generalizing now p with
  | zero =>
    refine .inr ⟨fun _ => p, rfl, ⟨fun t early late => by omega, fun t early late => ?_⟩, h, rfl⟩
    obtain rfl : t = now := by omega
    exact ⟨h.soon, h.scheduled.next⟩
  | succ count ih =>
    rcases h.second hs single (by omega) u with ⟨f, q, fails, excused⟩ | ⟨q, ends, steady⟩
    · exact .inl ⟨f, q, by simp only [Partition.seconds, EStateM.run_bind, fails], excused⟩
    · have unfolds : (Partition.seconds .silent (count + 1) now).run (p, u) =
          (Partition.seconds .silent count (now + 1)).run (q, u) := by
        simp only [Partition.seconds, EStateM.run_bind, ends]
      rw [unfolds]
      rcases ih steady (by omega) with fails | ⟨states, rfl, covers, ended, runs⟩
      · exact .inl fails
      · have final : Function.update states now p (now + (count + 1)) = states (now + 1 + count) := by
          rw [Function.update_of_ne (by omega), Nat.add_right_comm, Nat.add_assoc]
        refine .inr ⟨Function.update states now p, Function.update_self .., covers.cons ends ⟨h.soon, h.scheduled.next⟩,
          ?_, ?_⟩
        · rw [final, ← Nat.add_assoc, Nat.add_right_comm]
          exact ended
        · rw [final]
          exact runs

/-- A run which ends before the last second that can be counted fails because of a plan, or because somebody is
aboard at the start who isn't an agent; if the agents are fresh, only because of a plan. If it doesn't fail, it
goes through all seconds from the first one to the last one of the horizon, each of them once and in this order,
and its summary tells when it ended. -/
theorem run_covers_horizon (hs : raw.partition method = .ok s) (single : s.numParts = 1)
    (ordered : timing.start ≤ timing.stop) (last : timing.stop < Clock.last) :
    ∃ p₀, make s timing 0 1 (s.neighborsOf 0) = .ok p₀ ∧ ∀ {σ : Type} (u : σ),
      (∃ f q, (run .silent).run (p₀, u) = .error f (q, u) ∧ s.Excuses f ∧
          (s.Fresh → f.isDocumented = true)) ∨
        ∃ states : Nat → Partition, states timing.start = p₀ ∧
          (∀ t, timing.start ≤ t → t ≤ timing.stop →
            (second .silent t).run (states t, u) = .ok () (states (t + 1), u)) ∧
          (∀ t, timing.start ≤ t → t ≤ timing.stop + 1 →
            (states t).dueAgents.next = t ∧ (states t).dueLinks.next = t) ∧
          (run .silent).run (p₀, u) = .ok (states (timing.stop + 1)).summary (states (timing.stop + 1), u) ∧
          (states (timing.stop + 1)).summary.stop = timing.stop := by
  have made : make s timing 0 1 (s.neighborsOf 0) = .ok (Partition.initial s timing 0) := by
    unfold make
    rw [if_neg (not_not.2 single), if_neg (Nat.not_lt.2 ordered)]
    rfl
  refine ⟨_, made, fun u => ?_⟩
  have steady : Steady s timing timing.start (Partition.initial s timing 0) := .initial hs single
  have span : timing.start + (timing.stop + 1 - timing.start) = timing.stop + 1 := by omega
  have begins : (Partition.initial s timing 0).timing = timing := rfl
  have reaches : timing.start + (timing.stop + 1 - timing.start) ≤ Clock.last := by omega
  rcases steady.seconds hs single reaches u with
    ⟨f, q, fails, excused⟩ | ⟨states, first, covers, ended, runs⟩
  · refine .inl ⟨f, q, ?_, excused⟩
    simp only [run, EStateM.run_bind, EStateM.run_get, begins, fails]
  · rw [span] at ended runs
    refine .inr ⟨states, first, fun t early late => covers.step t early (by omega), fun t early late =>
      covers.next t early (by omega), ?_, ?_⟩
    · simp only [run, EStateM.run_bind, EStateM.run_get, begins, runs]
      rfl
    · exact congrArg Timing.stop ended.alone.setting.timing

/-! ## The last second -/

/-- The last of several seconds can be told apart from the ones before. -/
theorem seconds_succ {transport : Transport σ} {count : Nat} :
    seconds transport (count + 1) now =
      (do
        seconds transport count now
        second transport (now + count)) := by
  induction count generalizing now with
  | zero =>
    rw [seconds, seconds, seconds, pure_bind, Nat.add_zero]
    exact bind_pure_unit
  | succ count ih =>
    rw [seconds, ih, seconds, bind_assoc, Nat.add_right_comm, Nat.add_assoc]

/-- A run until the last second which can be counted doesn't end: the agendas would have to ask for the second
after it. -/
theorem run_past_horizon (hs : raw.partition method = .ok s) (single : s.numParts = 1)
    (ordered : timing.start ≤ Clock.last) (last : timing.stop = Clock.last) (u : σ) :
    ∃ f q, (run .silent).run (Partition.initial s timing 0, u) = .error f (q, u) ∧
      (s.Excuses f ∨ f = .fault .pastLastSecond) := by
  have steady : Steady s timing timing.start (Partition.initial s timing 0) := .initial hs single
  have begins : (Partition.initial s timing 0).timing = timing := rfl
  have span : timing.stop + 1 - timing.start = Clock.last - timing.start + 1 := by omega
  have reaches : timing.start + (Clock.last - timing.start) = Clock.last := by omega
  rcases steady.seconds hs single reaches.le u with
    ⟨f, q, fails, excused, -⟩ | ⟨states, first, covers, ended, runs⟩
  · refine ⟨f, q, ?_, .inl excused⟩
    simp only [run, EStateM.run_bind, EStateM.run_get, begins, span, seconds_succ, fails]
  · rw [reaches] at ended runs
    refine ⟨.fault .pastLastSecond, states Clock.last, ?_, .inr rfl⟩
    simp only [run, EStateM.run_bind, EStateM.run_get, begins, span, seconds_succ, runs, reaches,
      fails_second (work_last ended.soon)]

end Partition

/-- A network of one link, and nobody on it. -/
def Scenario.street : Scenario where
  numParts := 1
  links := #[⟨0, 0, 1, ⟨0x3f800000⟩, ⟨0x3f800000⟩, 1, 0⟩]
  stops := #[]
  agents := #[]
  homes := #[]
  crossings := []
  neighbors := .empty

/-- The ring in one partition. -/
def Scenario.circuit : Scenario := { ring with numParts := 1 }

namespace Partition

/-- Nobody is there to fail in the last second, and yet it fails. -/
theorem street_past_horizon : ∃ s p₀, Scenario.street.partition .modulo = .ok s ∧ s.numParts = 1 ∧ s.Fresh ∧
    make s ⟨Clock.last, Clock.last, 0, 0⟩ 0 1 (s.neighborsOf 0) = .ok p₀ ∧
    ∀ u : Unit, (run .silent).run (p₀, u) = .error (.fault .pastLastSecond) (p₀, u) := by
  have splits : ((Scenario.street.partition .modulo).toOption.any fun s =>
      s.numParts = 1 ∧ s.agents = Scenario.street.agents ∧
        (make s ⟨Clock.last, Clock.last, 0, 0⟩ 0 1 (s.neighborsOf 0)).toOption.any fun p₀ =>
          p₀.dueAgents.next = Clock.last ∧ p₀.timing = ⟨Clock.last, Clock.last, 0, 0⟩) = true := by
    decide +kernel
  obtain ⟨s, hs, hp⟩ := (Option.any_eq_true _ _).1 splits
  obtain ⟨single, agents, hp⟩ := of_decide_eq_true hp
  obtain ⟨p₀, made, begins⟩ := (Option.any_eq_true _ _).1 hp
  obtain ⟨soon, begins⟩ := of_decide_eq_true begins
  have fresh : Scenario.street.Fresh := Scenario.fresh_of_isFresh (by decide +kernel)
  refine ⟨s, p₀, eq_ok_of_toOption hs, single, fresh.of_agents agents, eq_ok_of_toOption made, fun u => ?_⟩
  have one : Clock.last + 1 - Clock.last = 1 := Nat.add_sub_cancel_left ..
  simp only [run, EStateM.run_bind, EStateM.run_get, begins, one, seconds, fails_second (work_last soon)]

/-- The agent of the ring finishes in the last second but one. -/
theorem run_covers_horizon_circuit : ∃ (s : Scenario) (p₀ : Partition) (states : Nat → Partition),
    Scenario.circuit.partition .modulo = .ok s ∧
    make s ⟨Clock.last - 3, Clock.last - 1, 0, 0⟩ 0 1 (s.neighborsOf 0) = .ok p₀ ∧
    states (Clock.last - 3) = p₀ ∧
    (second .silent (Clock.last - 1)).run (states (Clock.last - 1), ()) = .ok () (states Clock.last, ()) ∧
    (run .silent).run (p₀, ()) = .ok (states Clock.last).summary (states Clock.last, ()) ∧
    (states Clock.last).summary.finished = 1 ∧ (states Clock.last).summary.stop = Clock.last - 1 := by
  have splits : ((Scenario.circuit.partition .modulo).toOption.any fun s => s.numParts = 1 ∧
      (make s ⟨Clock.last - 3, Clock.last - 1, 0, 0⟩ 0 1 (s.neighborsOf 0)).toOption.any fun p₀ =>
        match (run .silent).run (p₀, ()) with
        | .ok summary _ => summary.finished = 1
        | .error .. => false) = true := by
    decide +kernel
  obtain ⟨s, hs, hp⟩ := (Option.any_eq_true _ _).1 splits
  obtain ⟨single, hp⟩ := of_decide_eq_true hp
  obtain ⟨p₀, made, runs⟩ := (Option.any_eq_true _ _).1 hp
  have ordered : (⟨Clock.last - 3, Clock.last - 1, 0, 0⟩ : Timing).start ≤
      (⟨Clock.last - 3, Clock.last - 1, 0, 0⟩ : Timing).stop := by decide
  obtain ⟨p₁, made₁, covers⟩ := run_covers_horizon (eq_ok_of_toOption hs) single ordered (by decide)
  obtain rfl := Except.ok.inj ((eq_ok_of_toOption made).symm.trans made₁)
  rcases covers () with ⟨f, q, fails, -⟩ | ⟨states, first, steps, -, ends, stop⟩
  · rw [fails] at runs
    cases runs
  · rw [ends] at runs
    exact ⟨s, p₀, states, eq_ok_of_toOption hs, made₁, first, steps (Clock.last - 1) (by decide) (by decide), ends,
      of_decide_eq_true runs, stop⟩

end Partition

end Mobility
