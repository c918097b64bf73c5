import Mobility.Proofs.FreeFlow.Legs
import Mobility.Proofs.Whereabouts.Seconds

/-!
# Where agents are in free flow

Between two seconds every agent is due, on a link or at its end, as its plan says (`Scenario.Rests`), and within a
second it may also be on its way (`Scenario.Flows`). No move breaks this, as long as everybody finds room
(`Scenario.FreeFlow.closed`).
-/

set_option autoImplicit false

namespace Mobility

namespace Scenario

variable {raw s : Scenario} {method : Method} {timing : Timing} {a : Agent} {x k j n m now front r t : Nat}
  {i : Instruction} {link : LinkRef} {velocity : Velocity} {stand : Stand}

/-- The first `k` instructions are consumed before second `n`. -/
def Past (s : Scenario) (timing : Timing) (a : Agent) (k n : Nat) : Prop :=
  ∀ j < k, ∀ t, s.consumedAt timing a j = some t → t < n

/-- The agent goes on with instruction `k` at this second in this partition: it has come there on its leg, or it
has been handed over. -/
def GoesOn (s : Scenario) (timing : Timing) (a : Agent) (k rank second : Nat) : Prop :=
  s.leg timing a k = ⟨second, rank⟩ ∨
    ∃ i, a.plan.get? k = .ok (some i) ∧ (s.leg timing a k).isHandedOver s i.action = true ∧
      s.startOf i.action = some rank ∧ second = (s.leg timing a k).ready + 1

/-- Where an agent may be when it is not on its way. It is due at second `n` or later, and on a link until `front`
or later. -/
inductive Stays (s : Scenario) (timing : Timing) (n front : Nat) (a : Agent) : Stand → Prop where
  | due {r time k : Nat} (later : n ≤ time) (here : s.GoesOn timing a k r time) :
      Stays s timing n front a ⟨r, .due time, k⟩
  | beyond {r time k : Nat} (later : n ≤ time) (late : timing.stop < time) (here : s.GoesOn timing a k r time) :
      Stays s timing n front a ⟨r, .beyond, k⟩
  | queued {r finish k link' : Nat} {i : Instruction} {link : LinkRef} {velocity : Velocity}
      (get : a.plan.get? k = .ok (some i)) (action : i.action = .traverse link velocity) (onto : link.val = link')
      (later : front ≤ finish) (here : s.leg timing a (k + 1) = ⟨finish, r⟩) :
      Stays s timing n front a ⟨r, .queued link' finish, k + 1⟩
  | gone {r time k : Nat} (before : time < n) (ended : a.plan.length ≤ k) :
      Stays s timing n front a ⟨r, .gone time, k⟩

/-- Where an agent may be when it is on its way. Whoever is sent to a link has consumed the traversal in this
second. -/
inductive Goes (s : Scenario) (timing : Timing) (now front : Nat) (a : Agent) : Stand → Prop where
  | acting {r k : Nat} (working : front ≤ now) (here : s.GoesOn timing a k r now) :
      Goes s timing now front a ⟨r, .acting, k⟩
  | outbound {r k link' : Nat} {i : Instruction} {link : LinkRef} {velocity : Velocity}
      (get : a.plan.get? k = .ok (some i)) (action : i.action = .traverse link velocity) (onto : link.val = link')
      (consumed : s.consumedAt timing a k = some now) (here : s.leg timing a k = ⟨now, r⟩) :
      Goes s timing now front a ⟨r, .outbound link', k + 1⟩
  | mailed {r k link' : Nat} {i : Instruction} {link : LinkRef} {velocity : Velocity}
      (get : a.plan.get? k = .ok (some i)) (action : i.action = .traverse link velocity) (onto : link.val = link')
      (consumed : s.consumedAt timing a k = some now) :
      Goes s timing now front a ⟨r, .mailed (s.linkPart link') (some link'), k + 1⟩
  | handedOver {r target k : Nat} (there : s.GoesOn timing a k target (now + 1)) :
      Goes s timing now front a ⟨r, .mailed target none, k⟩

/-- Where agents are between the second before `n` and second `n`. -/
def Rests (s : Scenario) (timing : Timing) (n : Nat) : Rule := fun x stand =>
  ∃ a, s.agents[x]? = some a ∧ s.Past timing a stand.cursor n ∧ s.Stays timing n n a stand

/-- Where agents are within a second. Whoever stands on a link doesn't leave it before `front`, and if that is
later than now, all turns have been taken. -/
def Flows (s : Scenario) (timing : Timing) (now front : Nat) : Rule := fun x stand =>
  ∃ a, s.agents[x]? = some a ∧ s.Past timing a stand.cursor (now + 1) ∧
    (s.Stays timing (now + 1) front a stand ∨ s.Goes timing now front a stand)

/-! ## Consuming an instruction -/

theorem Past.mono (h : s.Past timing a k n) (le : n ≤ m) : s.Past timing a k m :=
  fun j hj t ht => (h j hj t ht).trans_le le

theorem Past.succ (h : s.Past timing a k n) (consumed : s.consumedAt timing a k = some t) (before : t < n) :
    s.Past timing a (k + 1) n := by
  intro j hj u hu
  rcases Nat.lt_succ_iff_lt_or_eq.1 hj with hj | rfl
  · exact h j hj u hu
  · exact Option.some.inj (consumed.symm.trans hu) ▸ before

/-- Whoever isn't due now is due later. -/
theorem Stays.succ (h : s.Stays timing n front a stand) (inTime : n ≤ timing.stop) (other : stand.site ≠ .due n) :
    s.Stays timing (n + 1) front a stand := by
  cases h with
  | due later here => exact .due (Nat.lt_of_le_of_ne later fun same => other (same ▸ rfl)) here
  | beyond _ late here => exact .beyond (inTime.trans_lt late) late here
  | queued get action onto later here => exact .queued get action onto later here
  | gone before ended => exact .gone (Nat.lt_succ_of_lt before) ended

/-- Whoever is on a link may stay there as long as it does. -/
theorem Stays.until {front' : Nat} (h : s.Stays timing n front a stand)
    (prompt : ∀ link finish, stand.site = .queued link finish → front' ≤ finish) :
    s.Stays timing n front' a stand := by
  cases h with
  | due later here => exact .due later here
  | beyond later late here => exact .beyond later late here
  | queued get action onto _ here => exact .queued get action onto (prompt _ _ rfl) here
  | gone before ended => exact .gone before ended

theorem ne_linkPart_of_feeds {link : Nat} (h : s.Feeds r link) : s.linkPart link ≠ r := by
  obtain ⟨spec, found, feeds⟩ := h
  rw [linkPart_eq found]
  exact (mem_feeders.1 feeds).1.symm

/-- Whoever is where its link is, or where the link is fed from, consumes the traversal. -/
theorem GoesOn.consumedAt (h : s.GoesOn timing a k r now) (get : a.plan.get? k = .ok (some i))
    (action : i.action = .traverse link velocity) (fits : s.linkPart link.val = r ∨ s.Feeds r link.val) :
    s.consumedAt timing a k = some now := by
  rw [consumedAt_of_get? get]
  rcases h with here | ⟨i', get', handed, start, rfl⟩
  · have stays : ¬ (s.leg timing a k).isHandedOver s i.action = true := by
      rw [action, here]
      simp only [Leg.isHandedOver, decide_eq_true_eq]
      exact fun ⟨other, unfed⟩ => fits.elim other unfed
    rw [Leg.consumed, if_neg stays, here]
  · obtain rfl := Option.some.inj (Except.ok.inj (get.symm.trans get'))
    rw [Leg.consumed, if_pos handed]

/-- Whoever is where its link is fed from has come on its leg. -/
theorem GoesOn.leg_of_feeds (h : s.GoesOn timing a k r now) (get : a.plan.get? k = .ok (some i))
    (action : i.action = .traverse link velocity) (feeds : s.Feeds r link.val) : s.leg timing a k = ⟨now, r⟩ := by
  refine h.resolve_right ?_
  rintro ⟨i', get', -, start, -⟩
  obtain rfl := Option.some.inj (Except.ok.inj (get.symm.trans get'))
  rw [action] at start
  exact ne_linkPart_of_feeds feeds (Option.some.inj start)

/-- Whoever is neither where its link is nor where the link is fed from is handed over. -/
theorem GoesOn.onward (h : s.GoesOn timing a k r now) (get : a.plan.get? k = .ok (some i))
    (action : i.action = .traverse link velocity) (elsewhere : s.linkPart link.val ≠ r)
    (unfed : ¬ s.Feeds r link.val) : s.GoesOn timing a k (s.linkPart link.val) (now + 1) := by
  have here : s.leg timing a k = ⟨now, r⟩ := by
    refine h.resolve_right ?_
    rintro ⟨i', get', -, start, -⟩
    obtain rfl := Option.some.inj (Except.ok.inj (get.symm.trans get'))
    rw [action] at start
    exact elsewhere (Option.some.inj start)
  refine .inr ⟨i, get, ?_, ?_, ?_⟩
  · rw [action, here]
    exact decide_eq_true ⟨elsewhere, unfed⟩
  · rw [action]
    rfl
  · rw [here]

/-- Whoever sleeps has come on its leg. -/
theorem GoesOn.leg (h : s.GoesOn timing a k r now) (get : a.plan.get? k = .ok (some i)) {time second : Nat}
    (wakes : i.action.wakeTime second = some time) : s.leg timing a k = ⟨now, r⟩ := by
  rcases h with here | ⟨i', get', handed, -, -⟩
  · exact here
  · obtain rfl := Option.some.inj (Except.ok.inj (get.symm.trans get'))
    cases hi : i.action with
    | traverse =>
      rw [hi] at wakes
      cases wakes
    | sleepFor | sleepUntil | access | egress | stopArrive | stopDelay | stopDepart | wait =>
      rw [hi] at handed
      cases handed

theorem leg_succ_of_traverse (get : a.plan.get? k = .ok (some i)) (action : i.action = .traverse link velocity)
    (consumed : s.consumedAt timing a k = some now) :
    s.leg timing a (k + 1) =
      ⟨Clock.after now (s.travelTime link.val velocity.val timing.delay), s.linkPart link.val⟩ := by
  rw [consumedAt_of_get? get] at consumed
  have same := Option.some.inj consumed
  rw [action] at same
  rw [leg_succ get, action, Leg.next, same]

theorem lt_wakeTime {action : Action} {time : Nat} (h : action.wakeTime now = some time)
    (plain : action.isPlain = true) (last : now < Clock.last) : now < time := by
  cases action with
  | sleepFor duration =>
    obtain rfl := Option.some.inj h
    exact Clock.lt_after last (Nat.lt_of_lt_of_le Nat.one_pos (Nat.le_max_right ..))
  | sleepUntil =>
    obtain rfl := Option.some.inj h
    exact Nat.lt_of_lt_of_le (Nat.lt_succ_self now) (Nat.le_max_right ..)
  | traverse => cases h
  | access | egress | stopArrive | stopDelay | stopDepart | wait => cases plain

/-! ## No move breaks the rule -/

theorem FreeFlow.not_stalls (free : s.FreeFlow timing) : ¬ s.Stalls False x k := by
  rintro (jam | ⟨j, i, stop, rfl, next, action⟩)
  · exact jam
  · have plain := free.plain x j i next
    rcases action with action | action <;> rw [action] at plain <;> cases plain

/-- Whoever takes its turn in free flow goes where its plan says. -/
theorem FreeFlow.turned {rule : Rule} (free : s.FreeFlow timing) (hs : raw.partition method = .ok s)
    (most : front ≤ now + 1) (last : now < Clock.last) (moves : Moves s timing now False rule x ⟨r, .acting, k⟩ stand)
    (obeys : s.Flows timing now front x ⟨r, .acting, k⟩) : s.Flows timing now front x stand := by
  obtain ⟨a, found, past, stays | goes⟩ := obeys
  · cases stays
  obtain ⟨working, here⟩ : front ≤ now ∧ s.GoesOn timing a k r now := by
    cases goes with
    | acting working here => exact ⟨working, here⟩
  cases moves with
  | finishes ended =>
    obtain ⟨b, there, ended⟩ := ended
    obtain rfl := Option.some.inj (there.symm.trans found)
    exact ⟨b, found, past, .inl (.gone (Nat.lt_succ_self now) ended)⟩
  | @handedOver _ _ target i next place elsewhere unfed =>
    have plain := free.plain x k i next
    cases action : i.action with
    | traverse link velocity =>
      rw [action] at place
      obtain rfl : s.linkPart link.val = target := Option.some.inj place
      exact ⟨a, found, past,
        .inr (.handedOver (here.onward (next.get? found) action elsewhere (unfed link velocity action)))⟩
    | sleepFor | sleepUntil =>
      rw [action] at place
      cases place
    | access | egress | stopArrive | stopDelay | stopDepart | wait =>
      rw [action] at plain
      cases plain
  | outbound next action feeds =>
    have get := next.get? found
    have consumed := here.consumedAt get action (.inr feeds)
    exact ⟨a, found, past.succ consumed (Nat.lt_succ_self now),
      .inr (.outbound get action rfl consumed (here.leg_of_feeds get action feeds))⟩
  | entered next action mine =>
    have get := next.get? found
    have consumed := here.consumedAt get action (.inl mine)
    refine ⟨a, found, past.succ consumed (Nat.lt_succ_self now), .inl (.queued get action rfl ?_ ?_)⟩
    · exact most.trans (Clock.lt_after last (travelTime_pos hs next action timing.delay))
    · rw [leg_succ_of_traverse get action consumed, mine]
  | @paused _ _ time i next wakes =>
    have get := next.get? found
    have leg := here.leg get wakes
    have plain := free.plain x k i next
    obtain ⟨stays, after⟩ : (⟨now, r⟩ : Leg).isHandedOver s i.action = false ∧
        (⟨now, r⟩ : Leg).next s timing i.action = ⟨time, r⟩ := Leg.next_of_wakeTime plain wakes
    have consumed : s.consumedAt timing a k = some now := by
      rw [consumedAt_of_get? get, leg, Leg.consumed, stays]
      rfl
    refine ⟨a, found, past.succ consumed (Nat.lt_succ_self now), .inl (.due (lt_wakeTime wakes plain last) (.inl ?_))⟩
    rw [leg_succ get, leg, after]
  | waits next action =>
    have plain := free.plain _ _ _ next
    rw [action] at plain
    cases plain
  | serves next action =>
    have plain := free.plain _ _ _ next
    rcases action with action | action <;> rw [action] at plain <;> cases plain
  | retries stalls | stays ripe stalls => exact absurd stalls free.not_stalls

/-- Whoever comes in a message goes on as its plan says. -/
theorem FreeFlow.delivered {rule : Rule} {target : Nat} {onto : Option Nat} (hs : raw.partition method = .ok s)
    (most : front ≤ now + 1) (last : now < Clock.last)
    (moves : Moves s timing now False rule x ⟨r, .mailed target onto, k⟩ stand)
    (obeys : s.Flows timing now front x ⟨r, .mailed target onto, k⟩) : s.Flows timing now front x stand := by
  obtain ⟨a, found, past, stays | goes⟩ := obeys
  · cases stays
  cases moves with
  | received =>
    cases goes with
    | handedOver there => exact ⟨a, found, past, .inl (.due (Nat.le_refl _) there)⟩
  | linesUp jam => exact jam.elim
  | @arrives _ k target link event requested velocity last' =>
    cases goes with
    | mailed get action onto consumed =>
      obtain rfl := Option.some.inj (Except.ok.inj (get.symm.trans (last'.get? found)))
      obtain ⟨rfl, rfl⟩ := Action.traverse.inj action
      refine ⟨a, found, past, .inl (.queued get rfl onto ?_ ?_)⟩
      · rw [← onto]
        exact most.trans (Clock.lt_after last (travelTime_pos hs last' rfl timing.delay))
      · rw [leg_succ_of_traverse get rfl consumed, onto]

/-- In free flow every move leads where the plan says. -/
theorem FreeFlow.closed (free : s.FreeFlow timing) (hs : raw.partition method = .ok s) (now front : Nat)
    (least : now ≤ front) (most : front ≤ now + 1) (last : now < Clock.last) :
    Rule.Closed (s.Flows timing now front) s timing now False := by
  rintro x ⟨r, site, k⟩ stand moves obeys
  cases site with
  | acting => exact free.turned hs most last moves obeys
  | mailed => exact FreeFlow.delivered hs most last moves obeys
  | due =>
    obtain ⟨a, found, past, stays | goes⟩ := obeys
    · cases stays with
      | due later here =>
        cases moves with
        | called => exact absurd later (Nat.not_succ_le_self now)
        | late after => exact ⟨a, found, past, .inl (.beyond later after here)⟩
    · cases goes
  | queued =>
    obtain ⟨a, found, past, stays | goes⟩ := obeys
    · cases stays with
      | queued get action onto later here =>
        cases moves with
        | leads ripe =>
          have now_eq : now = _ := Nat.le_antisymm (least.trans later) ripe
          exact ⟨a, found, past, .inr (.acting (later.trans ripe) (.inl (now_eq ▸ here)))⟩
    · cases goes
  | outbound =>
    obtain ⟨a, found, past, stays | goes⟩ := obeys
    · cases stays
    · cases goes with
      | outbound get action onto consumed here =>
        cases moves with
        | posted => exact ⟨a, found, past, .inr (.mailed get action onto consumed)⟩
  | inbound | stop | aboard =>
    -- Nobody waits, and nobody sits in a vehicle.
    obtain ⟨a, -, -, stays | goes⟩ := obeys
    · cases stays
    · cases goes
  | beyond | gone => cases moves

end Scenario

end Mobility
