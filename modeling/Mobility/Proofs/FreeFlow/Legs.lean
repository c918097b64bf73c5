import Mobility.Proofs.Safety.Start
import Mobility.Proofs.Whereabouts.Routes

/-!
# What a plan takes if nothing holds its agent up

Agents which only traverse links and sleep meet each other on links only. If links have room for everybody, and
if it takes everybody the same time to traverse a link (`Scenario.FreeFlow`), they don't hold each other up. When
an agent consumes its instructions can be read off its plan then, leg by leg (`Scenario.consumedAt`). Nothing of
the other agents, of queues or of messages is in this recurrence.

Instructions are consumed one after the other: a later one comes in a later second (`FreeFlow.lt_consumedAt`).
-/

set_option autoImplicit false

namespace Mobility

/-- An action which an agent does by itself: it traverses a link or sleeps. -/
def Action.isPlain : Action → Bool
  | traverse .. | sleepFor _ | sleepUntil _ => true
  | access _ | egress _ | stopArrive _ | stopDelay _ | stopDepart _ | wait .. => false

/-- When an agent is ready for an instruction, and where it is then. -/
structure Leg where
  ready : Nat
  rank : Nat
deriving DecidableEq

instance Scenario.decidableFeeds (s : Scenario) (rank link : Nat) : Decidable (s.Feeds rank link) :=
  decidable_of_iff ((s.links[link]?).any fun spec => rank ∈ s.feeders spec) (by
    simp only [Option.any_eq_true, decide_eq_true_eq, Feeds])

namespace Leg

variable (s : Scenario) (timing : Timing) (l : Leg)

/-- It takes a second to be handed over to the owner of a link if no link of the own partition leads there. -/
def isHandedOver : Action → Bool
  | .traverse link _ => s.linkPart link.val ≠ l.rank ∧ ¬ s.Feeds l.rank link.val
  | _ => false

/-- When the agent consumes an instruction. -/
def consumed (action : Action) : Nat := if l.isHandedOver s action then l.ready + 1 else l.ready

/-- When the agent is ready for what comes after an instruction, and where. -/
def next (action : Action) : Leg :=
  match action with
  | .traverse link velocity =>
    ⟨Clock.after (l.consumed s action) (s.travelTime link.val velocity.val timing.delay), s.linkPart link.val⟩
  | .sleepFor duration => ⟨Clock.after l.ready (max duration.val 1), l.rank⟩
  | .sleepUntil time => ⟨max time.val (l.ready + 1), l.rank⟩
  | _ => l

variable {s timing l} {action : Action} {n : Nat}

theorem ready_le_consumed : l.ready ≤ l.consumed s action := by
  unfold consumed
  split <;> omega

/-- Sleeping takes the time which the action says. -/
theorem next_of_wakeTime {time : Nat} (plain : action.isPlain = true) (h : action.wakeTime l.ready = some time) :
    l.isHandedOver s action = false ∧ l.next s timing action = ⟨time, l.rank⟩ := by
  cases action with
  | sleepFor | sleepUntil =>
    obtain rfl := Option.some.inj h
    exact ⟨rfl, rfl⟩
  | traverse => cases h
  | access | egress | stopArrive | stopDelay | stopDepart | wait => cases plain

/-- The next leg begins later. -/
theorem lt_ready_next (plain : action.isPlain = true)
    (moves : ∀ link velocity, action = .traverse link velocity → 0 < s.travelTime link.val velocity.val timing.delay)
    (h : n ≤ l.consumed s action) (last : n < Clock.last) : n < (l.next s timing action).ready := by
  have later : ∀ {e d : Nat}, n ≤ e → 0 < d → n < Clock.after e d := fun he hd => by
    unfold Clock.after
    omega
  cases action with
  | traverse link velocity => exact later h (moves link velocity rfl)
  | sleepFor duration =>
    have h : n ≤ l.ready := h
    exact later h (Nat.lt_of_lt_of_le Nat.one_pos (Nat.le_max_right ..))
  | sleepUntil time =>
    have h : n ≤ l.ready := h
    exact Nat.lt_of_le_of_lt h (Nat.lt_of_lt_of_le (Nat.lt_succ_self _) (Nat.le_max_right ..))
  | access | egress | stopArrive | stopDelay | stopDepart | wait => cases plain

end Leg

namespace Scenario

variable {raw s : Scenario} {method : Method} {timing : Timing} {a : Agent} {x k : Nat} {i : Instruction}

/-- The legs of an agent: leg `k` is for instruction `k`, and the first one begins at home. -/
def leg (s : Scenario) (timing : Timing) (a : Agent) : Nat → Leg
  | 0 => ⟨timing.start, s.homeOf a⟩
  | k + 1 =>
    match a.plan.get? k with
    | .ok (some i) => (s.leg timing a k).next s timing i.action
    | _ => s.leg timing a k

/-- The second in which an agent consumes instruction `k`, if its plan has so many. -/
def consumedAt (s : Scenario) (timing : Timing) (a : Agent) (k : Nat) : Option Nat :=
  match a.plan.get? k with
  | .ok (some i) => some ((s.leg timing a k).consumed s i.action)
  | _ => none

theorem leg_succ (h : a.plan.get? k = .ok (some i)) :
    s.leg timing a (k + 1) = (s.leg timing a k).next s timing i.action := by
  rw [leg, h]

theorem consumedAt_of_get? (h : a.plan.get? k = .ok (some i)) :
    s.consumedAt timing a k = some ((s.leg timing a k).consumed s i.action) := by
  rw [consumedAt, h]

theorem get?_of_consumedAt {t : Nat} (h : s.consumedAt timing a k = some t) :
    ∃ i, a.plan.get? k = .ok (some i) ∧ (s.leg timing a k).consumed s i.action = t := by
  unfold consumedAt at h
  split at h
  · rename_i i get
    exact ⟨i, get, Option.some.inj h⟩
  · cases h

theorem Instructs.get? (h : s.Instructs x k i) (found : s.agents[x]? = some a) : a.plan.get? k = .ok (some i) := by
  obtain ⟨b, there, get⟩ := h
  obtain rfl := Option.some.inj (there.symm.trans found)
  exact get

/-! ## Plans of an accepted scenario -/

/-- All instructions of a plan can be read. -/
theorem exists_get? (hs : raw.partition method = .ok s) (found : s.agents[x]? = some a) (h : k < a.plan.length) :
    ∃ i, a.plan.get? k = .ok (some i) := by
  obtain ⟨step, get, -⟩ := grounded_initial hs ⟨0, 0, 0, 0⟩ 0 x a k found
  cases step with
  | some i => exact ⟨i, get⟩
  | none => exact absurd (Plan.get?_eq_none.1 get) (Nat.not_le.2 h)

theorem lt_length_of_get? (h : a.plan.get? k = .ok (some i)) : k < a.plan.length := by
  obtain ⟨w, hw, -⟩ := word_of_get? h
  rw [Array.getElem?_toList] at hw
  exact (Array.getElem?_eq_some_iff.1 hw).1

/-- A link which an agent traverses exists, and traversing it takes time. -/
theorem travelTime_pos (hs : raw.partition method = .ok s) (next : s.Instructs x k i) {link : LinkRef}
    {velocity : Velocity} (action : i.action = .traverse link velocity) (delay : Nat) :
    0 < s.travelTime link.val velocity.val delay := by
  obtain ⟨a, found, get⟩ := next
  obtain ⟨step, get', resolves⟩ := grounded_initial hs ⟨0, 0, 0, 0⟩ 0 x a k found
  obtain rfl := Except.ok.inj (get.symm.trans get')
  have known := resolves i rfl
  rw [action] at known
  have known : link.val < (s.views 0).size := known
  rw [views, Array.size_map] at known
  unfold travelTime
  rw [Array.getElem?_eq_getElem known]
  exact Link.travelTime_pos ..

/-! ## Free flow -/

/-- Agents only traverse links and sleep. -/
def Plain (s : Scenario) : Prop := ∀ (x k : Nat) i, s.Instructs x k i → i.action.isPlain = true

/-- Agents have nothing to do with vehicles, and links have room for all of them, even if they enter a link which
they are still on. Traversing a link takes everybody the same time. -/
structure FreeFlow (s : Scenario) (timing : Timing) : Prop where
  plain : s.Plain
  spacious : ∀ spec ∈ s.links.toList, s.agents.size < spec.capacity
  even : ∀ (x k : Nat) i (y l : Nat) j (link : LinkRef) (velocity velocity' : Velocity), s.Instructs x k i →
    s.Instructs y l j → i.action = .traverse link velocity → j.action = .traverse link velocity' →
    s.travelTime link.val velocity.val timing.delay = s.travelTime link.val velocity'.val timing.delay

namespace FreeFlow

variable (free : s.FreeFlow timing) (hs : raw.partition method = .ok s)

include free hs

theorem lt_ready_succ {n t : Nat} (found : s.agents[x]? = some a) (consumed : s.consumedAt timing a k = some t)
    (h : n ≤ t) (last : n < Clock.last) : n < (s.leg timing a (k + 1)).ready := by
  obtain ⟨i, get, rfl⟩ := get?_of_consumedAt consumed
  have next : s.Instructs x k i := ⟨a, found, get⟩
  rw [leg_succ get]
  exact Leg.lt_ready_next (free.plain x k i next)
    (fun link velocity action => travelTime_pos hs next action timing.delay) h last

/-- Later instructions are consumed later, as long as seconds can be told apart. -/
theorem lt_consumedAt {j n t u : Nat} (found : s.agents[x]? = some a) (first : s.consumedAt timing a j = some t)
    (later : s.consumedAt timing a k = some u) (after : j < k) (h : n ≤ t) (last : n < Clock.last) : n < u := by
  induction k generalizing u with
  | zero => exact absurd after (Nat.not_lt_zero j)
  | succ k ih =>
    obtain ⟨i, get, rfl⟩ := get?_of_consumedAt later
    refine Nat.lt_of_lt_of_le ?_ Leg.ready_le_consumed
    rcases Nat.lt_succ_iff_lt_or_eq.1 after with after | rfl
    · have inside := lt_length_of_get? get
      obtain ⟨i', get'⟩ := exists_get? (k := k) hs found (by omega)
      have between : s.consumedAt timing a k = some _ := consumedAt_of_get? get'
      exact free.lt_ready_succ hs found between (ih between after).le last
    · exact free.lt_ready_succ hs found first h last

end FreeFlow

end Scenario

end Mobility
