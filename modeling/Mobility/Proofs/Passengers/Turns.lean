import Mobility.Proofs.Moments
import Mobility.Proofs.Whereabouts.Routes
import Mobility.Proofs.Whereabouts.Seconds

/-!
# Vehicles and the plans of their passengers

Whoever waits at a stop stands in the row of the stop, the route and the index which its plan names
(`Agent.Waits`), and whoever sits in a vehicle sits in the row of the index where its plan says it leaves
(`Agent.Rides`). It is the vehicle that moves its passengers on in their plans, and it carries them from one
partition to the other. If the rows of a partition are in step with the plans (`Partition.Coupled`), a turn lets
those passengers leave and board who want to leave and board there, and nobody else (`Partition.Conveys`).
-/

set_option autoImplicit false

namespace Mobility

open Act

/-! ## What plans say -/

namespace Agent

/-- The agent has just begun to wait at a stop for a route, and after boarding it is going to leave at an index. -/
def Waits (a : Agent) (stop route index : Nat) : Prop :=
  ∃ before after ref at_ leaving, a.previous = .ok (some ⟨before, .wait ref at_⟩) ∧ at_.val = stop ∧
    ref.val = route ∧ a.plan.get? (a.cursor + 1) = .ok (some ⟨after, .egress leaving⟩) ∧ leaving.index.val = index

/-- The agent is about to leave at an index. -/
def Rides (a : Agent) (index : Nat) : Prop :=
  ∃ event leaving, a.current = .ok (some ⟨event, .egress leaving⟩) ∧ leaving.index.val = index

end Agent

/-- Rows are in step with the plans of those who stand or sit in them. -/
def Scenario.Coupled (s : Scenario) : Rule
  | x, ⟨_, .stop stop route index, k⟩ => ∃ leaving, s.Awaits x k stop route leaving ∧ leaving.index.val = index
  | x, ⟨_, .aboard _ index, k⟩ => ∃ event leaving, s.Instructs x k ⟨event, .egress leaving⟩ ∧ leaving.index.val = index
  | _, _ => True

/-- No move gets a row out of step. -/
theorem Scenario.closed_coupled (s : Scenario) (timing : Timing) (now : Nat) :
    Rule.Closed s.Coupled s timing now True := by
  intro x a b moves obeys
  cases moves with
  | waits next action here egress =>
    exact ⟨_, ⟨_, _, _, _, _, rfl, next, action, rfl, rfl, egress⟩, rfl⟩
  | boards vehicle stops action ahead =>
    obtain ⟨leaving, ⟨j, waiting, ref, at_, event, rfl, -, -, -, -, egress⟩, index⟩ := obeys
    exact ⟨event, leaving, egress, index⟩
  | rides => exact obeys
  | called | leads | finishes | handedOver | outbound | entered | paused | serves | alights | retries | stays | late |
    admitted | posted | received | linesUp | arrives => trivial

namespace Partition

variable {s : Scenario} {timing : Timing} {now i id x k link time : Nat} {p q r : Partition} {hand rest : Multiset Nat}
  {m m' : Moment}

/-- A partition which has these agents at hand: everybody in a row of a stop waits for what the row is for, and
everybody in a row of a vehicle which is here leaves where the row is for. -/
structure Coupled (hand : Multiset Nat) (p : Partition) : Prop where
  waiting : ∀ stop route index, ∀ x ∈ p.platforms.row stop route index,
    ∃ a, p.agents[x]? = some a ∧ a.Waits stop route index
  aboard : ∀ v ∈ hand + p.roots, ∀ index, ∀ x ∈ p.rowOf v index, ∃ a, p.agents[x]? = some a ∧ a.Rides index

/-- The agent is about to let passengers leave and board at a stop. -/
def StopsAt (p : Partition) (v : Nat) (stop : StopRef) : Prop :=
  ∃ a event, p.agents[v]? = some a ∧ a.current = .ok (some ⟨event, .stopDelay stop⟩)

/-- Whoever sits in a vehicle in `q` has sat there in `p`, or the vehicle was about to serve the stop where it
waited for the route, and not behind the index where it leaves. Whoever sat there in `p` still does, or the vehicle
was about to serve the stop with the index where it leaves. -/
structure Conveys (p q : Partition) : Prop where
  boards : ∀ v index, ∀ x ∈ q.rowOf v index, x ∈ p.rowOf v index ∨
    ∃ stop, p.StopsAt v stop ∧ stop.index.val ≤ index ∧ x ∈ p.platforms.row stop.stop.val stop.route.val index ∧
      ∃ a, p.agents[x]? = some a ∧ a.Waits stop.stop.val stop.route.val index
  leaves : ∀ v index, ∀ x ∈ p.rowOf v index, x ∈ q.rowOf v index ∨
    ∃ stop, p.StopsAt v stop ∧ stop.index.val = index ∧ ∃ a, p.agents[x]? = some a ∧ a.Rides index

/-! ## Plans of the scenario -/

theorem Setting.plan_get? {a : Agent} {step : Instruction} (h : p.Setting s timing i)
    (found : p.agents[x]? = some a) (next : s.Instructs x k step) : a.plan.get? k = .ok (some step) := by
  obtain ⟨spec, hspec, blank⟩ := h.agent found
  obtain ⟨spec', hspec', get⟩ := next
  obtain rfl := Option.some.inj (hspec.symm.trans hspec')
  exact Agent.plan_of_blank blank ▸ get

/-- If everybody obeys the rule, rows are in step. -/
theorem Held.coupled (h : p.Held s.Coupled ⟨hand, none, hand + p.roots⟩) (setting : p.Setting s timing i)
    (known : ∀ x ∈ p.census hand, ∃ a, p.agents[x]? = some a) : p.Coupled hand := by
  refine ⟨fun stop route index x there => ?_, fun v here index x there => ?_⟩
  · have counted : x ∈ p.census hand := by
      rw [census, aboardOf]
      exact Multiset.mem_add.2 (.inl (Multiset.mem_add.2 (.inr (Platforms.mem_everybody.2 ⟨_, _, _, there⟩))))
    obtain ⟨a, found⟩ := known x counted
    obtain ⟨leaving, ⟨j, step, ref, at_, event, cursor, waits, action, place, route, egress⟩, same⟩ :=
      h.spots (.stop stop route index) x a there found
    refine ⟨a, found, step.event, event, ref, at_, leaving, ?_, place, route, ?_, same⟩
    · rw [Agent.previous, if_neg (by omega), cursor, Nat.add_sub_cancel, setting.plan_get? found waits, ← action]
    · rw [cursor]
      exact setting.plan_get? found egress
  · have counted : x ∈ p.census hand := by
      rw [census, aboardOf]
      exact Multiset.mem_add.2 (.inl (Multiset.mem_add.2 (.inl (Multiset.mem_add.2
        (.inr (Multiset.mem_bind.2 ⟨v, here, mem_crew.2 ⟨_, there⟩⟩))))))
    obtain ⟨a, found⟩ := known x counted
    obtain ⟨event, leaving, egress, same⟩ := h.spots (.aboard v index) x a ⟨here, there⟩ found
    exact ⟨a, found, event, leaving, setting.plan_get? found egress, same⟩

/-- Rows stay in step if agents and stops are what they were, and no vehicle has come. -/
theorem Coupled.of_same (h : p.Coupled hand) (agents : q.agents = p.agents) (platforms : q.platforms = p.platforms)
    (roots : ∀ v ∈ rest + q.roots, v ∈ hand + p.roots) : q.Coupled rest := by
  refine ⟨fun stop route index x there => ?_, fun v here index x there => ?_⟩
  · rw [platforms] at there
    rw [agents]
    exact h.waiting stop route index x there
  · unfold rowOf at there
    rw [agents] at there ⊢
    exact h.aboard v (roots v here) index x there

/-! ## Who sits where -/

/-- Everybody sits where they sat. -/
def SameSeats (p q : Partition) : Prop :=
  ∀ v : Nat, q.agents[v]?.map Agent.seats = p.agents[v]?.map Agent.seats

instance : Std.Refl SameSeats := ⟨fun _ _ => rfl⟩

instance : IsTrans Partition SameSeats where
  trans _ _ _ h k v := (k v).trans (h v)

namespace SameSeats

theorem trans (h : SameSeats p q) (k : SameSeats q r) : SameSeats p r := IsTrans.trans _ _ _ h k

theorem of_agents (h : q.agents = p.agents) : SameSeats p q := fun v => by rw [h]

theorem setAgent {a b : Agent} (found : p.agents[id]? = some a) (seats : b.seats = a.seats) :
    SameSeats p { p with agents := p.agents.setIfInBounds id b } := by
  obtain ⟨hlt, -⟩ := Array.getElem?_eq_some_iff.1 found
  intro v
  by_cases own : id = v
  · subst own
    rw [Array.getElem?_setIfInBounds_self_of_lt hlt, found, Option.map_some, Option.map_some, seats]
  · rw [Array.getElem?_setIfInBounds_ne own]

theorem rowOf (h : SameSeats p q) (v index : Nat) : q.rowOf v index = p.rowOf v index := by
  have row : ∀ r : Partition, r.rowOf v index = (r.agents[v]?.map Agent.seats).elim [] (·.passengers.row index) := by
    intro r
    unfold Partition.rowOf
    cases r.agents[v]? <;> rfl
  rw [row, row, h v]

theorem conveys (h : SameSeats p q) : Conveys p q where
  boards v index x there := .inl (h.rowOf v index ▸ there)
  leaves v index x there := .inl (by rw [h.rowOf v index]; exact there)

end SameSeats

theorem Conveys.sameSeats (h : Conveys p q) (k : SameSeats q r) : Conveys p r where
  boards v index x there := h.boards v index x (k.rowOf v index ▸ there)
  leaves v index x there := (h.leaves v index x there).imp_left fun still => by rw [k.rowOf v index]; exact still

theorem sameSeats_consume {how : Consumption} (h : Ends (consume id how now) p () q) : SameSeats p q := by
  obtain ⟨a, step, found, -, rfl⟩ := consume_ends h
  exact SameSeats.setAgent (b := { a with cursor := a.cursor + 1 }) found rfl

theorem sameSeats_wake (h : Ends (wake id time) p () q) : SameSeats p q := by
  obtain ⟨due, -, rfl⟩ := wake_eq_ok.1 h
  exact .of_agents rfl

theorem sameSeats_revisit (h : Ends (revisit link time) p () q) : SameSeats p q := by
  obtain ⟨due, -, rfl⟩ := revisit_eq_ok.1 h
  exact .of_agents rfl

theorem sameSeats_admitted {g h : Gateway} {waiting : List (Nat × Nat)} (admitted : Admitted now g waiting p h q) :
    SameSeats p q := by
  induction admitted with
  | nobody | full => exact Std.Refl.refl _
  | @entered g h p q id part finish rest a room enters later ih =>
    exact (SameSeats.setAgent (b := a.onLink now finish) enters.found rfl).trans ih

theorem sameSeats_drained (h : Ends (drainInbound link now) p () q) : SameSeats p q := by
  obtain ⟨v, -, ⟨g, k, r, rfl, admitted, rfl⟩ | ⟨-, rfl⟩⟩ := drainInbound_ends h
  · exact (sameSeats_admitted admitted).trans (.of_agents rfl)
  · exact Std.Refl.refl p

/-! ## Leaving and boarding -/

namespace Exchanged

variable {stop : StopRef} (e : Exchanged id stop now p q)

include e

/-- Those who have left have taken nobody else with them. -/
theorem seats_after : e.after.seats = e.seatsLeft := by
  have leaves : SameSeats _ e.left := e.leaves.relates fun _ _ _ _ ⟨_, consumes, wakes⟩ =>
    (sameSeats_consume consumes).trans (sameSeats_wake wakes)
  have same := leaves id
  rw [e.vehicleLeft, Array.getElem?_setIfInBounds_self_of_lt (Array.getElem?_eq_some_iff.1 e.vehicle).1] at same
  exact Option.some.inj same

/-- Those who board are let in one after the other. -/
theorem admits : Seats.Admits
    (Platforms.waiting (p.platforms.queuesOf stop.stop.val stop.route.val) stop.index.val) e.seatsLeft e.boarded
    e.seats := by
  have admits := (Seats.board_eq e.board).1
  rwa [e.platforms_left, e.seats_after] at admits

/-- The rows of vehicles after passengers have left one and boarded it. -/
theorem rowOf (v index : Nat) : q.rowOf v index = if v = id then
    (if index = stop.index.val then [] else p.rowOf v index) ++
      (e.boarded.filter fun x => x.1 = index).map Prod.snd
    else p.rowOf v index := by
  have boards : SameSeats _ q := e.boards.relates fun _ _ _ _ boards => sameSeats_consume boards
  have leaves : SameSeats _ e.left := e.leaves.relates fun _ _ _ _ ⟨_, consumes, wakes⟩ =>
    (sameSeats_consume consumes).trans (sameSeats_wake wakes)
  rw [boards.rowOf]
  show Partition.rowOf { e.left with
    agents := e.left.agents.setIfInBounds id { e.after with seats := e.seats } } v index = _
  rw [rowOf_setIfInBounds e.vehicleLeft, leaves.rowOf, rowOf_setIfInBounds e.vehicle,
    (sameSeats_consume e.consumes).rowOf]
  by_cases own : v = id
  · subst own
    rw [if_pos rfl, if_pos rfl, e.admits.row, Seats.row_egress e.egress, ← rowOf_eq e.vehicle,
      (sameSeats_consume e.consumes).rowOf]
  · rw [if_neg own, if_neg own, if_neg own]

end Exchanged

/-- Only those leave and board who want to. -/
theorem conveys_exchanged {stop : StopRef} {event : EventId} {a : Agent} (h : p.Coupled hand)
    (present : id ∈ hand + p.roots) (found : p.agents[id]? = some a)
    (current : a.current = .ok (some ⟨event, .stopDelay stop⟩)) (e : Exchanged id stop now p q) : Conveys p q := by
  have stops : p.StopsAt id stop := ⟨a, event, found, current⟩
  refine ⟨fun v index x there => ?_, fun v index x there => ?_⟩
  · rw [e.rowOf] at there
    split at there
    · rename_i own
      subst own
      rcases List.mem_append.1 there with old | boards
      · split at old
        · cases old
        · exact .inl old
      · have listed := Table.mem_filter_rows.1 boards
        obtain ⟨ahead, waits⟩ := Platforms.mem_waiting (e.admits.isPrefix.subset listed)
        exact .inr ⟨stop, stops, ahead, waits, h.waiting _ _ _ x waits⟩
    · exact .inl there
  · rw [e.rowOf]
    split
    · rename_i own
      subst own
      split
      · rename_i here
        exact .inr ⟨stop, stops, here.symm, h.aboard v present index x there⟩
      · exact .inl (List.mem_append_left _ there)
    · exact .inl there

/-- In a turn only those leave and board who want to. -/
theorem conveys_dispatched {b : Bool} (h : p.Coupled hand) (present : id ∈ hand + p.roots)
    (turn : Dispatched id now p b q) : Conveys p q := by
  cases turn with
  | finished | refused => exact SameSeats.conveys (.of_agents rfl)
  | handedOver found current sent owner => exact SameSeats.conveys (.of_agents (sheds_send sent).agents)
  | @outbound a step link velocity x y _ found current action view pushed consumes =>
    have onLink : SameSeats p { p with
        links := p.links.setIfInBounds link.val (.proxy y)
        agents := p.agents.setIfInBounds id (a.onLink now now) } :=
      (SameSeats.setAgent (b := a.onLink now now) found rfl).trans (.of_agents rfl)
    exact (onLink.trans (sameSeats_consume consumes)).conveys
  | @entered a step link velocity v w l finish r _ found current action view owned time pushed consumes scheduled =>
    have onLink : SameSeats p { p with
        links := p.links.setIfInBounds link.val w
        agents := p.agents.setIfInBounds id (a.onLink now finish) } :=
      (SameSeats.setAgent (b := a.onLink now finish) found rfl).trans (.of_agents rfl)
    have entered : SameSeats p r := onLink.trans (sameSeats_consume consumes)
    exact (entered.trans (relates_scheduled sameSeats_revisit scheduled Eq.symm)).conveys
  | paused found current action consumes wakes => exact ((sameSeats_consume consumes).trans (sameSeats_wake wakes)).conveys
  | queued found current action consumes =>
    exact ((sameSeats_consume consumes).trans (.of_agents (by rfl))).conveys
  | @exchanged a step stop _ found current action exchange =>
    obtain ⟨event, _⟩ := step
    obtain rfl := action
    exact conveys_exchanged h present found current exchange
  | departed found current action consumes => exact (sameSeats_consume consumes).conveys

/-! ## Moments -/

/-- Whatever a partition does next, only those leave and board who want to. -/
theorem conveys_performed (h : p.Coupled m.hand) (performed : Performed now m p m' q) : Conveys p q := by
  cases performed with
  | looked => exact SameSeats.conveys (Std.Refl.refl p)
  | called | turned => exact SameSeats.conveys (.of_agents rfl)
  | @acted _ _ id rest acts =>
    have present : id ∈ (Moment.acting (id :: rest)).hand + p.roots :=
      Multiset.mem_add.2 (.inl (Multiset.mem_coe.2 List.mem_cons_self))
    rcases acts with turn | ⟨r, again, wakes⟩
    · exact conveys_dispatched h present turn
    · exact (conveys_dispatched h present again).sameSeats (sameSeats_wake wakes)
  | revisited revisits => exact (sameSeats_revisit revisits).conveys
  | @blocked _ r _ _ _ _ _ head view front due turn scheduled =>
    have present : head.agent ∈ 0 + p.roots := Multiset.mem_add.2 (.inr (front_mem_roots view front))
    exact (conveys_dispatched h present turn).sameSeats (sameSeats_revisit scheduled)
  | @left _ r _ link _ _ _ _ w' head _ view front due turn after pops drained =>
    have present : head.agent ∈ 0 + p.roots := Multiset.mem_add.2 (.inr (front_mem_roots view front))
    have popped : SameSeats r { r with links := r.links.setIfInBounds link w' } := .of_agents rfl
    exact (conveys_dispatched h present turn).sameSeats (popped.trans (sameSeats_drained drained))
  | emptied empties => exact SameSeats.conveys (.of_agents (sheds_emptied empties).agents)
  | reported reports => exact SameSeats.conveys (.of_agents (sheds_reported reports).agents)

/-- This holds of the partition, or it held when the partition had worked, and since then agents have only been
sent. -/
def Follows (I : Multiset Nat → Partition → Prop) (m : Moment) (p : Partition) : Prop :=
  ∃ w, I m.hand w ∧ Sheds w p ∧ (m.isWorking = true → w = p)

theorem Follows.performed {F : Failure → Prop} {I : Multiset Nat → Partition → Prop} (sustains : Sustains F now I)
    (h : Follows I m p) (performed : Performed now m p m' q) : Follows I m' q := by
  obtain ⟨w, before, sheds, works⟩ := h
  by_cases still : m'.isWorking = true
  · have worked : m.isWorking = true := by
      cases performed with
      | looked _ _ onward => exact onward still
      | emptied | reported => cases still
      | _ => rfl
    obtain rfl := works worked
    exact ⟨q, sustains.performed before performed still, Std.Refl.refl q, fun _ => rfl⟩
  · refine ⟨w, ?_⟩
    cases performed with
    | looked hand hand' =>
      rw [hand] at before
      rw [hand']
      exact ⟨before, sheds, fun works => absurd works still⟩
    | emptied empties => exact ⟨before, sheds.trans (sheds_emptied empties), fun works => absurd works still⟩
    | reported reports => exact ⟨before, sheds.trans (sheds_reported reports), fun works => absurd works still⟩
    | _ => exact absurd rfl still

theorem Reaches.follows {F : Failure → Prop} {I : Multiset Nat → Partition → Prop} (sustains : Sustains F now I)
    (start : I 0 p) (h : Reaches now p m q) : Follows I m q := by
  induction h with
  | begins => exact ⟨p, start, Std.Refl.refl p, fun _ => rfl⟩
  | goes _ performs ih => exact ih.performed sustains (performed_of_ends performs)

theorem Follows.coupled {p₀ : Partition} (h : Follows (Amid s.Coupled now p₀) m p)
    (start : p₀.Setting s timing i) :
    p.Coupled m.hand := by
  obtain ⟨w, amid, sheds, -⟩ := h
  refine (amid.held.coupled (amid.setting start) amid.ready.known).of_same sheds.agents sheds.platforms fun v here => ?_
  exact Multiset.mem_of_le (add_le_add_right sheds.roots _) here

/-- Amid taking in what has come, everybody obeys the rule. -/
theorem Receives.greets {rule : Rule} {crowd : Prop} {transfers : List Transfer} {entrants : List Entrant}
    {d : Delivery} (h : Receives now d p entrants q) (closed : rule.Closed s timing now crowd)
    (room : Welcoming s timing rule now i crowd)
    (read : Outbox.readTransfers p.rank now p.isVehicle d = .ok transfers)
    (greets : Greets s timing rule now i (transfers.flatMap Transfer.entrants) p) :
    Greets s timing rule now i entrants q := by
  induction h with
  | begins read' =>
    obtain rfl := Except.ok.inj (read.symm.trans read')
    exact greets.sorted
  | goes _ receives ih =>
    obtain ⟨taken⟩ := receiveAgent_ends receives
    exact ih.takenIn closed room taken

end Partition

end Mobility
