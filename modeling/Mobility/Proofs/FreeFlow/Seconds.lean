import Mobility.Proofs.FreeFlow.Work
import Mobility.Proofs.Safety

/-!
# Seconds in free flow

A second leads from free flow to free flow (`Scenario.Calm.next`), and so agents are where their plans say before
every second of a run (`Scenario.Fresh.calm_run`). What they have consumed then is what they are to consume before
this second (`Scenario.Rests.lt_cursor_iff`).
-/

set_option autoImplicit false

namespace Mobility

open Act Second Mobility.Partition

namespace Scenario

variable {raw s : Scenario} {method : Method} {timing : Timing} {now front n i x k t : Nat} {ps qs : List Partition}
  {p q : Partition} {b : Buffers}

/-! ## The exchange of a second -/

/-- Agents stay in line when somebody is taken in. -/
theorem FreeFlow.inLine_takenIn {first : Entrant} {rest : List Entrant} (free : s.FreeFlow timing)
    (last : now < Clock.last) (h : Greets s timing (s.Flows timing now front) now i (first :: rest) p)
    (line : p.InLine) (taken : TakenIn first.2.2 first.2.1 first.1 now p q) : q.InLine := by
  obtain ⟨part, entry, record⟩ := first
  obtain ⟨boarded, before, boards, own, grows, placed⟩ := taken
  have sent := (h.sent _ List.mem_cons_self).1
  have links : boarded.links = p.links := by rw [plain_boarded boards]
  have same : SameLines p { boarded with
      agents := boarded.agents.setIfInBounds record.id { before with cursor := record.cursor } } :=
    sameLines_of_links links
  cases entry with
  | none => exact (line.same same).same (sameLines_of_links (offRoad_wake placed).links)
  | some link =>
    refine (line.same same).grown (grown_welcomed last (fun g finish a view enters e he => ?_) placed)
    obtain ⟨k, event, requested, velocity, cursor, next, rfl⟩ := entered_onto h.setting boards own view enters
    -- Whoever comes is sent to the link which its last instruction says.
    obtain ⟨a, found, -, stays | goes⟩ := sent
    · cases stays
    · rw [cursor] at goes
      cases goes with
      | mailed get action onto =>
        obtain rfl := Option.some.inj (Except.ok.inj (get.symm.trans (next.get? found)))
        obtain ⟨rfl, rfl⟩ := Action.traverse.inj action
        subst onto
        exact free.entersLast h.held rfl h.known record.id k _ requested velocity next rfl e (same requested.val ▸ he)

namespace Calm

variable (h : s.Calm timing now ps) (free : s.FreeFlow timing) (hs : raw.partition method = .ok s)
  (inTime : now ≤ timing.stop) (last : now < Clock.last)

theorem conducts (free : s.FreeFlow timing) (hs : raw.partition method = .ok s) (last : now < Clock.last) :
    s.Conducts timing now False (s.Flows timing now (now + 1)) where
  closed := free.closed hs now (now + 1) (Nat.le_succ now) (Nat.le_refl _) last
  indices x r v index k flows := by
    obtain ⟨a, -, -, stays | goes⟩ := flows
    · cases stays
    · cases goes
  welcoming := free.welcoming now (now + 1)

include h free hs inTime last

theorem obeysWorked : ObeysWorked (s.Flows timing now (now + 1)) now ps := fun _ _ _ hp work =>
  (h.worked free hs inTime last hp work).1

variable (fits : s.Fits)

include fits

/-- Agents are in line after the transfers have arrived. -/
theorem inLine_arrived (ha : Second.arrived now ps i = some (b, q)) : q.InLine := by
  have accepted := accepted_of_partition hs
  obtain ⟨b₀, w, d, hw, hd, arrive⟩ := arrived_eq_some.1 ha
  rw [(h.sane.company.departed hw).partners] at hd
  have senders : (d.map Prod.fst).Perm (s.neighborsOf i) := by rw [senders_mail hd]
  have conducts := conducts free hs last
  obtain ⟨transfers, read, greets⟩ := h.sane.greets accepted fits (Clock.lt_base_of_lt_last last)
    (h.obeysWorked free hs inTime last) conducts hw senders (mem_mail hd)
  obtain ⟨p, messages, hp, ⟨u, work, mailed⟩, -⟩ := h.sane.counted.letters h.sane.rest accepted fits h.sane.company hw
  have line : w.InLine := (h.worked free hs inTime last hp work).2.same (sameLines_mailed mailed)
  obtain ⟨r, -, received, rfl⟩ := greets.received (P := InLine) conducts.closed (conducts.welcoming i)
    (fun greets taken line => free.inLine_takenIn last greets line taken) line read arrive
  exact received.same (sameLines_of_links rfl)

/-- After a second everybody is where its plan says. -/
theorem obeys_next (hn : Second.next now ps = some qs) : Obeys (s.Rests timing (now + 1)) qs := by
  have accepted := accepted_of_partition hs
  have inTime' := Clock.lt_base_of_lt_last last
  have sane := h.sane.next accepted fits inTime' hn
  have obeys := h.sane.obeys_next accepted fits inTime' (h.obeysWorked free hs inTime last)
    (conducts free hs last) hn
  intro i q hq
  have held := obeys i q hq
  refine ⟨fun site x a spot found => ?_, fun target t ht => ?_, held.horizon⟩
  · obtain ⟨c, there, past, stays | goes⟩ := held.spots site x a spot found
    · exact ⟨c, there, past, stays⟩
    -- Nobody is on its way between two seconds.
    · cases site with
      | acting => exact absurd spot (Multiset.notMem_zero x)
      | outbound link =>
        have sent : x ∈ (q.seen link).outgoing := spot
        rw [sane.rest.unsent i q hq link] at sent
        cases sent
      | mailed => exact spot.elim
      | due | beyond | queued | inbound | stop | aboard | gone => cases goes
  · rw [(sane.company.idle i q hq).transfers] at ht
    cases ht

/-- A second leads from free flow to free flow. -/
theorem next (capacities : ∀ spec ∈ s.links.toList, spec.capacity < Wire.base)
    (hn : Second.next now ps = some qs) : s.Calm timing (now + 1) qs := by
  have accepted := accepted_of_partition hs
  have company := h.sane.company
  refine ⟨h.sane.next accepted fits (Clock.lt_base_of_lt_last last) hn,
    h.reconciled.next h.sane.rest accepted ⟨fits.parts, fits.links, capacities⟩ company
      (h.sane.counted.legible h.sane.rest accepted fits company) hn,
    h.obeys_next free hs inTime last fits hn, fun i q hq => ?_⟩
  obtain ⟨b, u, d, ha, -, settle⟩ := settled_eq_some.1 ((next_eq_some.1 hn).2 i q hq)
  exact (h.inLine_arrived free hs inTime last fits ha).same (sameLines_settled settle)

end Calm

/-! ## Runs -/

/-- At the start of a fresh scenario everybody is at home. -/
theorem Fresh.calm (fresh : s.Fresh) (hs : raw.partition method = .ok s) (timing : Timing) :
    s.Calm timing timing.start ((List.range s.numParts).map (Partition.initial s timing)) := by
  have accepted := accepted_of_partition hs
  refine ⟨fresh.sane hs timing, reconciled_initial s timing, fresh.obeys accepted timing fun x a found => ?_,
    fun i p hp link => ?_⟩
  · exact ⟨a, found, fun j hj => absurd hj (Nat.not_lt_zero j), .due (Nat.le_refl _) (.inl rfl)⟩
  · rw [getElem?_cast hp, (s.nobody_initial timing i link).1]
    exact List.Pairwise.nil

/-- Before every second of a run of a fresh scenario in free flow everybody is where its plan says. -/
theorem Fresh.calm_run {count : Nat} (fresh : s.Fresh) (hs : raw.partition method = .ok s) (free : s.FreeFlow timing)
    (fits : s.Fits) (capacities : ∀ spec ∈ s.links.toList, spec.capacity < Wire.base)
    (early : timing.start + count ≤ timing.stop + 1) (last : timing.stop < Clock.last)
    (hrun : Second.run count timing.start ((List.range s.numParts).map (Partition.initial s timing)) = some ps) :
    s.Calm timing (timing.start + count) ps := by
  induction count generalizing ps with
  | zero =>
    obtain rfl := Option.some.inj hrun
    exact fresh.calm hs timing
  | succ count ih =>
    rw [run_succ] at hrun
    obtain ⟨qs, hqs, hn⟩ := Option.bind_eq_some_iff.1 hrun
    have inTime : timing.start + count ≤ timing.stop := Nat.le_of_succ_le_succ early
    exact (ih (Nat.le_of_succ_le early) hqs).next free hs inTime (inTime.trans_lt last) fits capacities hn

/-! ## What is consumed -/

/-- No instruction is consumed before its leg begins. -/
theorem le_of_leg {a : Agent} {rank second : Nat} (here : s.leg timing a k = ⟨second, rank⟩)
    (consumed : s.consumedAt timing a k = some t) : second ≤ t := by
  obtain ⟨i, -, rfl⟩ := get?_of_consumedAt consumed
  rw [here]
  exact Leg.ready_le_consumed (l := ⟨second, rank⟩)

/-- No instruction is consumed before the agent goes on with it. -/
theorem GoesOn.le_of_consumedAt {a : Agent} {rank second : Nat} (h : s.GoesOn timing a k rank second)
    (consumed : s.consumedAt timing a k = some t) : second ≤ t := by
  rcases h with here | ⟨i', get', handed, -, rfl⟩
  · exact le_of_leg here consumed
  · obtain ⟨i, get, rfl⟩ := get?_of_consumedAt consumed
    obtain rfl := Option.some.inj (Except.ok.inj (get.symm.trans get'))
    rw [Leg.consumed, if_pos handed]

/-- What is left of the plan of an agent isn't consumed before the second in which it is. -/
theorem Stays.le_of_consumedAt {a : Agent} {stand : Stand} (h : s.Stays timing n n a stand)
    (consumed : s.consumedAt timing a stand.cursor = some t) : n ≤ t := by
  cases h with
  | due later here | beyond later _ here => exact later.trans (here.le_of_consumedAt consumed)
  | queued get action onto later here => exact later.trans (le_of_leg here consumed)
  | gone before ended =>
    obtain ⟨i, get, -⟩ := get?_of_consumedAt consumed
    exact absurd (lt_length_of_get? get) (Nat.not_lt.2 ended)

/-- Whoever is where its plan says has consumed what it is to consume before this second, and nothing else. -/
theorem Rests.lt_cursor_iff {stand : Stand} {a : Agent} (free : s.FreeFlow timing) (hs : raw.partition method = .ok s)
    (h : s.Rests timing n x stand) (last : n ≤ Clock.last) (found : s.agents[x]? = some a)
    (consumed : s.consumedAt timing a k = some t) : k < stand.cursor ↔ t < n := by
  obtain ⟨b, there, past, stays⟩ := h
  obtain rfl := Option.some.inj (found.symm.trans there)
  refine ⟨fun before => past k before t consumed, fun early => Nat.lt_of_not_le fun ahead => ?_⟩
  obtain ⟨i, get, -⟩ := get?_of_consumedAt consumed
  have inside : stand.cursor < a.plan.length := ahead.trans_lt (lt_length_of_get? get)
  obtain ⟨j, next⟩ := exists_get? hs found inside
  have due : s.consumedAt timing a stand.cursor = some _ := consumedAt_of_get? next
  have late := stays.le_of_consumedAt due
  rcases Nat.eq_or_lt_of_le ahead with same | after
  · rw [same] at due late
    obtain rfl := Option.some.inj (due.symm.trans consumed)
    exact absurd early (Nat.not_lt.2 late)
  · have later := free.lt_consumedAt (n := n - 1) hs found due consumed after (by omega) (by omega)
    omega

end Scenario

end Mobility
