import Mobility.Proofs.Acts
import Mobility.Proofs.Outcomes

/-!
# What the steps of a second do

For each act of a second one lemma says what it can have done when it ended well, in terms of
elementary acts and plain changes of the state. The main one is about `Partition.dispatch`: the
inductive relation `Dispatched` lists the ten ways in which an agent's turn can go. Everything that
is proved about a second later goes through these lists, and looks at no definition of an act again.
-/

set_option autoImplicit false

namespace Mobility

open Act

/-- The passengers of an agent under way are listed if it is a vehicle. -/
def AgentRecord.Known (isVehicle : Nat → Option Bool) (r : AgentRecord) : Prop :=
  isVehicle r.id = some r.passengers.isSome

namespace Partition

/-- `x` is what the partition knows of a passenger with this index and id. -/
def Seated (p : Partition) (seat : Nat × Nat) (x : PassengerRecord) : Prop :=
  x.index = seat.1 ∧ x.id = seat.2 ∧ ∃ b, p.agents[seat.2]? = some b ∧ x.cursor = b.cursor

/-- `r` is what the partition knows of an agent. -/
def Records (p : Partition) (r : AgentRecord) : Prop :=
  ∃ a, p.agents[r.id]? = some a ∧ r.cursor = a.cursor ∧ r.passengers.isSome = a.isVehicle ∧
    ∀ passengers, r.passengers = some passengers →
      List.Forall₂ p.Seated a.seats.carried passengers

variable {p q : Partition}

theorem Records.known {r : AgentRecord} (h : p.Records r) : r.Known p.isVehicle := by
  obtain ⟨a, ha, -, hv, -⟩ := h
  rw [AgentRecord.Known, isVehicle, ha, Option.map_some, ← hv]

/-! ## Consuming and sending -/

/-- What consuming an instruction does: the cursor moves on, and at most one event is stamped. -/
theorem consume_ends {id : Nat} {how : Consumption} {now : Nat} (h : Ends (consume id how now) p () q) :
    ∃ a i, p.agents[id]? = some a ∧ a.current = .ok (some i) ∧
      q = { p with
        agents := p.agents.setIfInBounds id { a with cursor := a.cursor + 1 }
        log := if i.event.val = 0 then p.log else p.log.push ⟨now, how.stamp a.id i.event⟩ } := by
  simp only [consume, bind_eq_ok, agent_eq_ok, attempt_eq_ok, setAgent_eq_ok] at h
  obtain ⟨a, _, ⟨ha, rfl⟩, ⟨b, event⟩, _, ⟨hc, rfl⟩, ⟨⟩, _, rfl, h⟩ := h
  obtain ⟨i, hi, rfl, rfl⟩ := Agent.consume_eq_ok hc
  refine ⟨a, i, ha, hi, ?_⟩
  by_cases hz : i.event.val = 0
  · simp only [hz, reduceIte, pure_eq_ok, true_and] at h ⊢
    exact h.symm
  · simpa [hz] using h

theorem record_ends {id : Nat} {r : AgentRecord} (h : Ends (record id) p r q) :
    p = q ∧ r.id = id ∧ p.Records r := by
  simp only [record, bind_eq_ok, agent_eq_ok] at h
  obtain ⟨a, _, ⟨ha, rfl⟩, h⟩ := h
  split at h
  · rename_i hv
    simp only [bind_eq_ok, pure_eq_ok] at h
    obtain ⟨passengers, r', hm, rfl, rfl⟩ := h
    obtain ⟨rfl, hall⟩ := mapM_reads (P := p.Seated) (p := p) (fun seat _ x r hx => by
      simp only [bind_eq_ok, agent_eq_ok, pure_eq_ok] at hx
      obtain ⟨b, _, ⟨hb, rfl⟩, rfl, rfl⟩ := hx
      exact ⟨rfl, rfl, rfl, b, hb, rfl⟩) hm
    refine ⟨rfl, rfl, a, ha, rfl, by simp [hv], ?_⟩
    rintro _ ⟨⟩
    exact hall
  · rename_i hv
    simp only [pure_eq_ok] at h
    obtain ⟨rfl, rfl⟩ := h
    refine ⟨rfl, rfl, a, ha, rfl, by simpa using hv, ?_⟩
    rintro _ ⟨⟩

theorem send_ends {target : Nat} {link : Option Nat} {id now : Nat}
    (h : Ends (send target link id now) p () q) :
    ∃ r, p.Records r ∧ r.id = id ∧
      q = { p with outbox := p.outbox.addAgent target link r now } := by
  simp only [send, bind_eq_ok, modify_eq_ok] at h
  obtain ⟨r, _, hr, rfl⟩ := h
  obtain ⟨rfl, hid, hrec⟩ := record_ends hr
  exact ⟨r, hrec, hid, rfl⟩

/-! ## An agent's turn -/

end Partition

/-- The gateway with an agent from partition `part` behind its queue, to leave at `finish`. -/
def Gateway.append (g : Gateway) (id part finish : Nat) : Gateway :=
  { g with link := { g.link with queue := g.link.queue ++ [⟨id, finish, some part⟩] } }

/-- The second at which an action that only lets time pass is over. -/
def Action.wakeTime (now : Nat) : Action → Option Nat
  | sleepFor duration => some (Clock.after now (max duration.val 1))
  | sleepUntil time => some (max time.val (now + 1))
  | stopArrive _ => some (now + 1)
  | _ => none

namespace Partition

/-- The stop is on a link of partition `owner`. -/
def StopAt (p : Partition) (stop owner : Nat) : Prop :=
  ∃ link v, p.stopLinks[stop]? = some link ∧ p.links[link]? = some v ∧ v.owner p.rank = owner

/-- The action is up to partition `target`, and agents aren't sent there on a link. -/
def IsUpTo (p : Partition) (target : Nat) : Action → Prop
  | .traverse link _ => ∃ id, p.links[link.val]? = some (.remote id target)
  | .wait _ stop => target ≠ p.rank ∧ p.StopAt stop.val target
  | .stopArrive stop => target ≠ p.rank ∧ p.StopAt stop.stop.val target
  | _ => False

/-- How a passenger has left a vehicle: it acts again in the next second. -/
def LeftAt (vehicle now passenger : Nat) (p q : Partition) : Prop :=
  ∃ r, Ends (consume passenger (.egress vehicle) now) p () r ∧
    Ends (wake passenger (now + 1)) r () q

/-- How passengers have left and boarded a vehicle: the instruction of the vehicle is consumed, then
everybody who leaves here acts again in the next second, then those board who are let in. -/
structure Exchanged (id : Nat) (stop : StopRef) (now : Nat) (p q : Partition) where
  /-- The state after the vehicle consumed its instruction. -/
  consumed : Partition
  /-- The state after the passengers for this stop have left. -/
  left : Partition
  before : Agent
  after : Agent
  leaving : List Nat
  seatsLeft : Seats
  boarded : List (Nat × Nat)
  platforms : Platforms
  seats : Seats
  consumes : Ends (consume id .advance now) p () consumed
  vehicle : consumed.agents[id]? = some before
  egress : before.seats.egress stop.index.val = .ok (leaving, seatsLeft)
  leaves : Along (LeftAt id now) leaving
    { consumed with
      agents := consumed.agents.setIfInBounds id { before with seats := seatsLeft } } left
  vehicleLeft : left.agents[id]? = some after
  board : left.platforms.board stop.stop.val stop.route.val stop.index.val
    (fun index passenger seats =>
      match seats.access index passenger with
      | some seats => (true, seats)
      | none => (false, seats)) after.seats = ((boarded, platforms), seats)
  boards : Along (fun row p q => Ends (consume row.2 (.access id) now) p () q) boarded
    { left with
      agents := left.agents.setIfInBounds id { after with seats := seats }
      platforms := platforms } q

/-- A reflexive and transitive relation holds along an exchange when consuming an instruction, waking an agent
and changing agents and stops do not break it. -/
theorem Exchanged.relates {S : Partition → Partition → Prop} [Std.Refl S] [IsTrans Partition S] {id now : Nat}
    {stop : StopRef} {p q : Partition}
    (consumes : ∀ x how p q, Ends (consume x how now) p () q → S p q)
    (wakes : ∀ x p q, Ends (wake x (now + 1)) p () q → S p q)
    (seats : ∀ (p : Partition) (agents : Array Agent) (platforms : Platforms),
      S p { p with agents := agents, platforms := platforms })
    (h : Exchanged id stop now p q) : S p q := by
  have consumed : S p h.consumed := consumes _ _ _ _ h.consumes
  have vacated : S h.consumed { h.consumed with
      agents := h.consumed.agents.setIfInBounds id { h.before with seats := h.seatsLeft } } := seats ..
  have left : S _ h.left := h.leaves.relates fun _ _ _ _ ⟨_, leaves, woken⟩ =>
    IsTrans.trans _ _ _ (consumes _ _ _ _ leaves) (wakes _ _ _ woken)
  have seated : S h.left { h.left with
      agents := h.left.agents.setIfInBounds id { h.after with seats := h.seats }
      platforms := h.platforms } := seats ..
  have boarded : S _ q := h.boards.relates fun _ _ _ _ boards => consumes _ _ _ _ boards
  exact IsTrans.trans _ _ _ consumed (IsTrans.trans _ _ _ vacated
    (IsTrans.trans _ _ _ left (IsTrans.trans _ _ _ seated boarded)))

/-- What an agent's turn does: whether the agent needs no further attempt, and the state after. -/
inductive Dispatched (id now : Nat) (p : Partition) : Bool → Partition → Prop where
  /-- The plan is consumed. -/
  | finished {a : Agent} (found : p.agents[id]? = some a) (current : a.current = .ok none) :
      Dispatched id now p true { p with
        log := p.log.push ⟨now, ⟨.finish, id, a.finishEvent, none⟩⟩
        finished := p.finished + 1 }
  /-- The instruction belongs to another partition. -/
  | handedOver {a : Agent} {i : Instruction} {target : Nat} {q : Partition}
      (found : p.agents[id]? = some a) (current : a.current = .ok (some i))
      (sent : Ends (send target none id now) p () q) (owner : p.IsUpTo target i.action) :
      Dispatched id now p true q
  /-- There is no room on the link. -/
  | refused {a : Agent} {i : Instruction} {link : LinkRef} {velocity : Velocity} {v : LinkView}
      {finish : Nat} (found : p.agents[id]? = some a) (current : a.current = .ok (some i))
      (action : i.action = .traverse link velocity) (view : p.links[link.val]? = some v)
      (full : v.push id finish = .ok none) : Dispatched id now p false p
  /-- The agent is to be sent to a link of a neighbor. -/
  | outbound {a : Agent} {i : Instruction} {link : LinkRef} {velocity : Velocity} {x y : Proxy}
      {q : Partition} (found : p.agents[id]? = some a) (current : a.current = .ok (some i))
      (action : i.action = .traverse link velocity) (view : p.links[link.val]? = some (.proxy x))
      (pushed : x.push id = some y)
      (consumes : Ends (consume id .advance now)
        { p with
          links := p.links.setIfInBounds link.val (.proxy y)
          agents := p.agents.setIfInBounds id (a.onLink now now) } () q) :
      Dispatched id now p true q
  /-- The agent stands on an owned link. -/
  | entered {a : Agent} {i : Instruction} {link : LinkRef} {velocity : Velocity} {v w : LinkView}
      {l : Link} {finish : Nat} {r q : Partition} (found : p.agents[id]? = some a)
      (current : a.current = .ok (some i)) (action : i.action = .traverse link velocity)
      (view : p.links[link.val]? = some v) (owned : v.link? = some l)
      (time : finish = Clock.after now (l.travelTime velocity.val p.timing.delay))
      (pushed : v.push id finish = .ok (some w))
      (consumes : Ends (consume id .advance now)
        { p with
          links := p.links.setIfInBounds link.val w
          agents := p.agents.setIfInBounds id (a.onLink now finish) } () r)
      (scheduled : if l.queue = [] then Ends (revisit link.val (max finish (now + 1))) r () q
        else r = q) :
      Dispatched id now p true q
  /-- Only time passes. -/
  | paused {a : Agent} {i : Instruction} {time : Nat} {r q : Partition}
      (found : p.agents[id]? = some a) (current : a.current = .ok (some i))
      (action : i.action.wakeTime now = some time) (consumes : Ends (consume id .advance now) p () r)
      (wakes : Ends (wake id time) r () q)
      (here : ∀ stop, i.action = .stopArrive stop → p.StopAt stop.stop.val p.rank) :
      Dispatched id now p true q
  /-- The agent waits at a stop. -/
  | queued {a b : Agent} {i : Instruction} {route : RouteId} {stop : StopId} {event : EventId}
      {leaving : StopRef} {r : Partition} (found : p.agents[id]? = some a)
      (current : a.current = .ok (some i)) (action : i.action = .wait route stop)
      (consumes : Ends (consume id .advance now) p () r) (waiting : r.agents[id]? = some b)
      (egress : b.plan.get? (b.cursor + 1) = .ok (some ⟨event, .egress leaving⟩))
      (here : p.StopAt stop.val p.rank) :
      Dispatched id now p true
        { r with platforms := r.platforms.add stop.val route.val leaving.index.val id }
  /-- Passengers leave and board. -/
  | exchanged {a : Agent} {i : Instruction} {stop : StopRef} {q : Partition}
      (found : p.agents[id]? = some a) (current : a.current = .ok (some i))
      (action : i.action = .stopDelay stop) (exchange : Exchanged id stop now p q) :
      Dispatched id now p false q
  /-- The vehicle has departed from a stop. -/
  | departed {a : Agent} {i : Instruction} {stop : StopRef} {q : Partition}
      (found : p.agents[id]? = some a) (current : a.current = .ok (some i))
      (action : i.action = .stopDepart stop) (consumes : Ends (consume id .advance now) p () q) :
      Dispatched id now p false q

variable {p q : Partition}

/-! ## Scheduling a link -/

section Scheduling

variable {queue : List Entry} {link time : Nat} {otherwise : Prop}

/-- A link which somebody has entered is scheduled if nobody stood there, and that is all that happens. -/
theorem scheduled_ends (h : if queue = [] then Ends (revisit link time) p () q else otherwise)
    (same : otherwise → q = p) : ∃ due, q = { p with dueLinks := due } := by
  split at h
  · obtain ⟨due, -, rfl⟩ := revisit_eq_ok.1 h
    exact ⟨due, rfl⟩
  · exact ⟨p.dueLinks, same h⟩

theorem relates_scheduled {R : Partition → Partition → Prop} [Std.Refl R]
    (revisits : Ends (revisit link time) p () q → R p q)
    (h : if queue = [] then Ends (revisit link time) p () q else otherwise) (same : otherwise → q = p) :
    R p q := by
  split at h
  · exact revisits h
  · rw [same h]
    exact Std.Refl.refl p

end Scheduling

/-! ## What a turn does -/

theorem exchangePassengers_ends {id : Nat} {stop : StopRef} {now : Nat}
    (h : Ends (exchangePassengers id stop now) p () q) : Nonempty (Exchanged id stop now p q) := by
  simp only [exchangePassengers, bind_eq_ok, agent_eq_ok, attempt_eq_ok, setAgent_eq_ok,
    get_eq_ok] at h
  obtain ⟨⟨⟩, consumed, hc, before, _, ⟨hb, rfl⟩, ⟨leaving, seatsLeft⟩, _, ⟨he, rfl⟩, ⟨⟩, _, rfl, ⟨⟩,
    left, hl, after, _, ⟨ha, rfl⟩, _, _, ⟨rfl, rfl⟩, h⟩ := h
  split at h
  rename_i boarded platforms seats hboard
  simp only [bind_eq_ok, setAgent_eq_ok, modify_eq_ok] at h
  obtain ⟨⟨⟩, _, rfl, ⟨⟩, _, rfl, h⟩ := h
  refine ⟨⟨consumed, left, before, after, leaving, seatsLeft, boarded, platforms, seats, hc, hb, he,
    along_of_forM (fun passenger p q h => ?_) hl, ha, hboard,
    along_of_forM (fun row p q h => h) h⟩⟩
  obtain ⟨⟨⟩, r, hconsume, hwake⟩ := bind_eq_ok.1 h
  exact ⟨r, hconsume, hwake⟩

theorem enter_ends {id link now : Nat} {velocity : Velocity} {v : LinkView} {l : Link} {b : Bool}
    (h : Ends (enter id link velocity now v l) p b q) :
    let finish := Clock.after now (l.travelTime velocity.val p.timing.delay)
    (b = false ∧ p = q ∧ v.push id finish = .ok none) ∨
      b = true ∧ ∃ w a r, v.push id finish = .ok (some w) ∧ p.agents[id]? = some a ∧
        Ends (consume id .advance now)
          { p with
            links := p.links.setIfInBounds link w
            agents := p.agents.setIfInBounds id (a.onLink now finish) } () r ∧
        if l.queue = [] then Ends (revisit link (max finish (now + 1))) r () q else r = q := by
  simp only [enter, bind_eq_ok, get_eq_ok, attempt_eq_ok] at h
  obtain ⟨_, _, ⟨rfl, rfl⟩, pushed, _, ⟨hp, rfl⟩, h⟩ := h
  cases pushed with
  | none =>
    simp only [pure_eq_ok] at h
    exact .inl ⟨h.1.symm, h.2, hp⟩
  | some w =>
    simp only [bind_eq_ok, setView_eq_ok, agent_eq_ok, setAgent_eq_ok] at h
    obtain ⟨⟨⟩, _, rfl, a, _, ⟨ha, rfl⟩, ⟨⟩, _, rfl, ⟨⟩, r, hc, h⟩ := h
    refine .inr ?_
    split at h
    · rename_i he
      simp only [bind_eq_ok, pure_eq_ok] at h
      obtain ⟨⟨⟩, _, hr, rfl, rfl⟩ := h
      exact ⟨rfl, w, a, r, hp, ha, hc, by simpa [List.isEmpty_iff.1 he] using hr⟩
    · rename_i he
      simp only [pure_eq_ok] at h
      have hne : l.queue ≠ [] := fun e => he (by simp [e])
      obtain ⟨rfl, rfl⟩ := h
      exact ⟨rfl, w, a, r, hp, ha, hc, by simp [hne]⟩

theorem dispatched_traverse {id now : Nat} {link : LinkRef} {velocity : Velocity} {a : Agent}
    {i : Instruction} {b : Bool} (found : p.agents[id]? = some a) (current : a.current = .ok (some i))
    (action : i.action = .traverse link velocity)
    (h : Ends (traverse id link.val velocity now) p b q) : Dispatched id now p b q := by
  simp only [traverse, bind_eq_ok, view_eq_ok] at h
  obtain ⟨v, _, ⟨hv, rfl⟩, h⟩ := h
  cases v with
  | remote j owner =>
    simp only [bind_eq_ok, pure_eq_ok] at h
    obtain ⟨⟨⟩, _, hs, rfl, rfl⟩ := h
    exact .handedOver found current hs (by rw [action]; exact ⟨j, hv⟩)
  | proxy x =>
    simp only at h
    cases hp : x.push id with
    | none =>
      simp only [hp, pure_eq_ok] at h
      obtain ⟨rfl, rfl⟩ := h
      have full : (LinkView.proxy x).push id now = .ok none := by simp [LinkView.push, hp]
      exact .refused found current action hv full
    | some y =>
      simp only [hp, bind_eq_ok, setView_eq_ok, agent_eq_ok, setAgent_eq_ok, pure_eq_ok] at h
      obtain ⟨⟨⟩, _, rfl, a', _, ⟨ha, rfl⟩, ⟨⟩, _, rfl, ⟨⟩, _, hc, rfl, rfl⟩ := h
      obtain rfl : a' = a := Option.some.inj (ha.symm.trans found)
      exact .outbound found current action hv hp hc
  | owned l =>
    rcases enter_ends h with ⟨rfl, rfl, hp⟩ | ⟨rfl, w, a', r, hp, ha, hc, hr⟩
    · exact .refused found current action hv hp
    · obtain rfl : a' = a := Option.some.inj (ha.symm.trans found)
      exact .entered found current action hv rfl rfl hp hc hr
  | gateway g =>
    rcases enter_ends h with ⟨rfl, rfl, hp⟩ | ⟨rfl, w, a', r, hp, ha, hc, hr⟩
    · exact .refused found current action hv hp
    · obtain rfl : a' = a := Option.some.inj (ha.symm.trans found)
      exact .entered found current action hv rfl rfl hp hc hr

theorem dispatched_wait {id now : Nat} {route : RouteId} {stop : StopId} {a : Agent}
    {i : Instruction} {b : Bool} (found : p.agents[id]? = some a) (current : a.current = .ok (some i))
    (action : i.action = .wait route stop) (h : Ends (wait id route stop now) p b q) :
    Dispatched id now p b q := by
  simp only [wait, bind_eq_ok, stopOwner_eq_ok, get_eq_ok] at h
  obtain ⟨owner, _, ⟨link, v, located, view, owned, rfl⟩, _, _, ⟨rfl, rfl⟩, h⟩ := h
  have place : StopAt _ stop.val owner := ⟨link, v, located, view, owned⟩
  split at h
  · rename_i elsewhere
    simp only [bind_eq_ok, pure_eq_ok] at h
    obtain ⟨⟨⟩, _, hs, rfl, rfl⟩ := h
    exact .handedOver found current hs (by rw [action]; exact ⟨elsewhere, place⟩)
  · rename_i here
    simp only [bind_eq_ok, agent_eq_ok, attempt_eq_ok] at h
    obtain ⟨⟨⟩, r, hc, b, _, ⟨hb, rfl⟩, next, _, ⟨hn, rfl⟩, h⟩ := h
    split at h
    · rename_i event leaving
      simp only [bind_eq_ok, modify_eq_ok, pure_eq_ok] at h
      obtain ⟨⟨⟩, _, rfl, rfl, rfl⟩ := h
      exact .queued found current action hc hb hn (not_not.1 here ▸ place)
    · exact absurd h throw_ne_ok

theorem dispatched_stopArrive {id now : Nat} {stop : StopRef} {a : Agent} {i : Instruction} {b : Bool}
    (found : p.agents[id]? = some a) (current : a.current = .ok (some i))
    (action : i.action = .stopArrive stop) (h : Ends (stopArrive id stop now) p b q) :
    Dispatched id now p b q := by
  simp only [stopArrive, bind_eq_ok, stopOwner_eq_ok, get_eq_ok] at h
  obtain ⟨owner, _, ⟨link, v, located, view, owned, rfl⟩, _, _, ⟨rfl, rfl⟩, h⟩ := h
  have place : StopAt _ stop.stop.val owner := ⟨link, v, located, view, owned⟩
  split at h
  · rename_i elsewhere
    simp only [bind_eq_ok, pure_eq_ok] at h
    obtain ⟨⟨⟩, _, hs, rfl, rfl⟩ := h
    exact .handedOver found current hs (by rw [action]; exact ⟨elsewhere, place⟩)
  · rename_i here
    simp only [bind_eq_ok, pure_eq_ok] at h
    obtain ⟨⟨⟩, r, hc, ⟨⟩, _, hw, rfl, rfl⟩ := h
    refine .paused found current (by rw [action]; rfl) hc hw fun stop' same => ?_
    obtain rfl : stop = stop' := Action.stopArrive.inj (action.symm.trans same)
    exact not_not.1 here ▸ place

theorem dispatched_sleep {id now time : Nat} {a : Agent} {i : Instruction}
    (found : p.agents[id]? = some a) (current : a.current = .ok (some i))
    (action : i.action.wakeTime now = some time) (anywhere : ∀ stop, i.action ≠ .stopArrive stop)
    (h : Ends (sleep id time now) p () q) : Dispatched id now p true q := by
  simp only [sleep, bind_eq_ok] at h
  obtain ⟨⟨⟩, r, hc, hw⟩ := h
  exact .paused found current action hc hw fun stop same => absurd same (anywhere stop)

/-- Every turn that ends well goes one of the ten ways. -/
theorem dispatch_ends {id now : Nat} {b : Bool} (h : Ends (dispatch id now) p b q) :
    Dispatched id now p b q := by
  simp only [dispatch, bind_eq_ok, agent_eq_ok, attempt_eq_ok] at h
  obtain ⟨a, _, ⟨ha, rfl⟩, current, _, ⟨hc, rfl⟩, h⟩ := h
  cases current with
  | none =>
    simp only [finish, bind_eq_ok, agent_eq_ok, publish_eq_ok, modify_eq_ok, pure_eq_ok] at h
    obtain ⟨⟨⟩, _, ⟨a', _, ⟨ha', rfl⟩, ⟨⟩, _, rfl, rfl⟩, rfl, rfl⟩ := h
    obtain rfl : a' = a := Option.some.inj (ha'.symm.trans ha)
    exact .finished ha hc
  | some i =>
    obtain ⟨event, action⟩ := i
    cases action with
    | traverse link velocity => exact dispatched_traverse ha hc rfl h
    | sleepFor duration =>
      simp only [bind_eq_ok, pure_eq_ok] at h
      obtain ⟨⟨⟩, _, hs, rfl, rfl⟩ := h
      exact dispatched_sleep ha hc rfl (by rintro _ ⟨⟩) hs
    | sleepUntil time =>
      simp only [bind_eq_ok, pure_eq_ok] at h
      obtain ⟨⟨⟩, _, hs, rfl, rfl⟩ := h
      exact dispatched_sleep ha hc rfl (by rintro _ ⟨⟩) hs
    | wait route stop => exact dispatched_wait ha hc rfl h
    | stopArrive stop => exact dispatched_stopArrive ha hc rfl h
    | stopDelay stop =>
      simp only [bind_eq_ok, pure_eq_ok] at h
      obtain ⟨⟨⟩, _, he, rfl, rfl⟩ := h
      obtain ⟨e⟩ := exchangePassengers_ends he
      exact .exchanged ha hc rfl e
    | stopDepart stop =>
      simp only [bind_eq_ok, pure_eq_ok] at h
      obtain ⟨⟨⟩, _, he, rfl, rfl⟩ := h
      exact .departed ha hc rfl he
    | access stop => exact absurd h throw_ne_ok
    | egress stop => exact absurd h throw_ne_ok

/-! ## Links -/

/-- The second at which the agent leaves if it enters the link now, at the velocity it asked for. -/
structure Enters (p : Partition) (l : Link) (id now finish : Nat) (a : Agent) : Prop where
  found : p.agents[id]? = some a
  time : ∃ event link velocity, a.previous = .ok (some ⟨event, .traverse link velocity⟩) ∧
    finish = Clock.after now (l.travelTime velocity.val p.timing.delay)

theorem requestedVelocity_ends {id : Nat} {velocity : Velocity}
    (h : Ends (requestedVelocity id) p velocity q) :
    p = q ∧ ∃ a event link, p.agents[id]? = some a ∧
      a.previous = .ok (some ⟨event, .traverse link velocity⟩) := by
  simp only [requestedVelocity, bind_eq_ok, agent_eq_ok, attempt_eq_ok] at h
  obtain ⟨a, _, ⟨ha, rfl⟩, previous, _, ⟨hp, rfl⟩, h⟩ := h
  split at h
  · rename_i event link v
    simp only [pure_eq_ok] at h
    obtain ⟨rfl, rfl⟩ := h
    exact ⟨rfl, a, event, link, ha, hp⟩
  · exact absurd h throw_ne_ok

theorem letIn_ends {g h : Gateway} {id part now : Nat} {velocity : Velocity}
    (he : Ends (letIn g id part now velocity) p h q) :
    ∃ a finish, p.agents[id]? = some a ∧
      finish = Clock.after now (g.link.travelTime velocity.val p.timing.delay) ∧
      h = g.append id part finish ∧
      q = { p with agents := p.agents.setIfInBounds id (a.onLink now finish) } := by
  simp only [letIn, bind_eq_ok, get_eq_ok, agent_eq_ok, setAgent_eq_ok, pure_eq_ok] at he
  obtain ⟨_, _, ⟨rfl, rfl⟩, a, _, ⟨ha, rfl⟩, ⟨⟩, _, rfl, rfl, rfl⟩ := he
  exact ⟨a, _, ha, rfl, rfl, rfl⟩

/-- How agents waiting in front of a gateway enter it: `waiting` are the ones still to look at. -/
inductive Admitted (now : Nat) :
    Gateway → List (Nat × Nat) → Partition → Gateway → Partition → Prop where
  | nobody {g : Gateway} {p : Partition} : Admitted now g [] p { g with inbound := [] } p
  | full {g : Gateway} {p : Partition} {first : Nat × Nat} {rest : List (Nat × Nat)}
      (full : g.link.isFull = true) :
      Admitted now g (first :: rest) p { g with inbound := first :: rest } p
  | entered {g h : Gateway} {p q : Partition} {id part finish : Nat} {rest : List (Nat × Nat)}
      {a : Agent} (room : g.link.isFull = false) (enters : p.Enters g.link id now finish a)
      (later : Admitted now (g.append id part finish) rest
        { p with agents := p.agents.setIfInBounds id (a.onLink now finish) } h q) :
      Admitted now g ((id, part) :: rest) p h q

theorem admitWaiting_ends {now : Nat} {waiting : List (Nat × Nat)} {g h : Gateway}
    (he : Ends (admitWaiting g now waiting) p h q) : Admitted now g waiting p h q := by
  induction waiting generalizing g p with
  | nil =>
    simp only [admitWaiting, pure_eq_ok] at he
    obtain ⟨rfl, rfl⟩ := he
    exact .nobody
  | cons first rest ih =>
    obtain ⟨id, part⟩ := first
    simp only [admitWaiting] at he
    split at he
    · rename_i hf
      simp only [pure_eq_ok] at he
      obtain ⟨rfl, rfl⟩ := he
      exact .full hf
    · rename_i hf
      simp only [bind_eq_ok] at he
      obtain ⟨velocity, _, hv, k, _, hk, hrest⟩ := he
      obtain ⟨rfl, a, event, link, ha, hp⟩ := requestedVelocity_ends hv
      obtain ⟨a', finish, ha', hfin, rfl, rfl⟩ := letIn_ends hk
      obtain rfl : a' = a := Option.some.inj (ha'.symm.trans ha)
      exact .entered (by simpa using hf) ⟨ha, event, link, velocity, hp, hfin⟩ (ih hrest)

/-- Filling the room on a link changes an owned gateway only. -/
theorem drainInbound_ends {link now : Nat} (h : Ends (drainInbound link now) p () q) :
    ∃ v, p.links[link]? = some v ∧
      ((∃ g k r, v = .gateway g ∧ Admitted now g g.inbound p k r ∧
        q = { r with links := r.links.setIfInBounds link (.gateway k) }) ∨
      (∀ g, v ≠ .gateway g) ∧ p = q) := by
  simp only [drainInbound, bind_eq_ok, view_eq_ok] at h
  obtain ⟨v, _, ⟨hv, rfl⟩, h⟩ := h
  refine ⟨v, hv, ?_⟩
  split at h
  · rename_i g
    simp only [bind_eq_ok, setView_eq_ok] at h
    obtain ⟨k, r, hk, rfl⟩ := h
    exact .inl ⟨g, k, r, rfl, admitWaiting_ends hk, rfl⟩
  · rename_i kind
    simp only [pure_eq_ok, true_and] at h
    exact .inr ⟨fun g hg => kind g hg, h⟩

/-! ## Rounds -/

/-- Lets the first agent on a link act if it may leave by now. Returns whether it got on. If it didn't, the link is
looked at again when the agent may leave, but not in the same second. -/
def tryHead (link now : Nat) : Act Bool := do
  match (← view link).front? with
  | none => return false
  | some head =>
    if now < head.finish then
      revisit link head.finish
      return false
    else if ← dispatch head.agent now then return true
    else
      revisit link (now + 1)
      return false

/-- Takes the first agent from a link, and fills the room with those who wait in front of it. -/
def takeHead (link now : Nat) : Act Unit := do
  let (_, v) ← attempt (← view link).pop
  setView link v
  drainInbound link now

/-- A bounded loop is a round and a loop with a lower bound. -/
theorem serve_succ (link now budget : Nat) : serve link now (budget + 1) = (do
    if ← tryHead link now then
      takeHead link now
      serve link now budget) := by
  simp only [serve, tryHead, takeHead, bind_assoc]
  congr
  funext v
  cases v.front? with
  | none => rfl
  | some head =>
    dsimp only
    split
    · simp only [bind_assoc, pure_bind]
      exact (bind_pure _).symm
    · simp only [bind_assoc]
      congr
      funext gone
      cases gone with
      | false =>
        simp only [Bool.false_eq_true, if_false, bind_assoc, pure_bind]
        exact (bind_pure _).symm
      | true => simp only [if_true, pure_bind]

/-- How trying the first agent ends well. -/
inductive Tried (link now : Nat) (p : Partition) : Bool → Partition → Prop where
  | nobody {v : LinkView} (view : p.links[link]? = some v) (front : v.front? = none) : Tried link now p false p
  | later {v : LinkView} {head : Entry} {q : Partition} (view : p.links[link]? = some v)
      (front : v.front? = some head) (late : now < head.finish)
      (scheduled : Ends (revisit link head.finish) p () q) : Tried link now p false q
  | blocked {v : LinkView} {head : Entry} {q r : Partition} (view : p.links[link]? = some v)
      (front : v.front? = some head) (due : head.finish ≤ now) (turn : Dispatched head.agent now p false r)
      (scheduled : Ends (revisit link (now + 1)) r () q) : Tried link now p false q
  | gone {v : LinkView} {head : Entry} {q : Partition} (view : p.links[link]? = some v)
      (front : v.front? = some head) (due : head.finish ≤ now) (turn : Dispatched head.agent now p true q) :
      Tried link now p true q

theorem tryHead_ends {link now : Nat} {b : Bool} (h : Ends (tryHead link now) p b q) : Tried link now p b q := by
  simp only [tryHead, bind_eq_ok, view_eq_ok] at h
  obtain ⟨v, _, ⟨view, rfl⟩, h⟩ := h
  cases front : v.front? with
  | none =>
    simp only [front, pure_eq_ok] at h
    obtain ⟨rfl, rfl⟩ := h
    exact .nobody view front
  | some head =>
    simp only [front] at h
    split at h
    · rename_i late
      simp only [bind_eq_ok, pure_eq_ok] at h
      obtain ⟨⟨⟩, _, scheduled, rfl, rfl⟩ := h
      exact .later view front late scheduled
    · rename_i due
      simp only [bind_eq_ok] at h
      obtain ⟨gone, r, turn, h⟩ := h
      cases gone with
      | false =>
        simp only [Bool.false_eq_true, if_false, bind_eq_ok, pure_eq_ok] at h
        obtain ⟨⟨⟩, _, scheduled, rfl, rfl⟩ := h
        exact .blocked view front (Nat.le_of_not_lt due) (dispatch_ends turn) scheduled
      | true =>
        simp only [if_true, pure_eq_ok] at h
        obtain ⟨rfl, rfl⟩ := h
        exact .gone view front (Nat.le_of_not_lt due) (dispatch_ends turn)

theorem takeHead_ends {link now : Nat} (h : Ends (takeHead link now) p () q) :
    ∃ v popped w, p.links[link]? = some v ∧ v.pop = .ok (popped, w) ∧
      Ends (drainInbound link now) { p with links := p.links.setIfInBounds link w } () q := by
  simp only [takeHead, bind_eq_ok, view_eq_ok, attempt_eq_ok, setView_eq_ok] at h
  obtain ⟨v, _, ⟨view, rfl⟩, ⟨popped, w⟩, _, ⟨pops, rfl⟩, ⟨⟩, _, rfl, drains⟩ := h
  exact ⟨v, popped, w, view, pops, drains⟩

/-- How agents leave a link, one after the other. -/
inductive Served (link now : Nat) : Partition → Partition → Prop where
  | empty {p : Partition} {v : LinkView} (view : p.links[link]? = some v)
      (front : v.front? = none) : Served link now p p
  /-- The first agent is looked at when it may leave. -/
  | later {p q : Partition} {v : LinkView} {head : Entry} (view : p.links[link]? = some v)
      (front : v.front? = some head) (scheduled : Ends (revisit link head.finish) p () q) :
      Served link now p q
  /-- The first agent can't get on. -/
  | blocked {p r q : Partition} {v : LinkView} {head : Entry} (view : p.links[link]? = some v)
      (front : v.front? = some head) (due : head.finish ≤ now)
      (turn : Dispatched head.agent now p false r)
      (scheduled : Ends (revisit link (now + 1)) r () q) : Served link now p q
  /-- The first agent leaves, and others who wait in front of the link may enter. -/
  | left {p r s q : Partition} {v w w' : LinkView} {head popped : Entry}
      (view : p.links[link]? = some v) (front : v.front? = some head) (due : head.finish ≤ now)
      (turn : Dispatched head.agent now p true r) (after : r.links[link]? = some w)
      (pops : w.pop = .ok (popped, w'))
      (drained : Ends (drainInbound link now)
        { r with links := r.links.setIfInBounds link w' } () s)
      (served : Served link now s q) : Served link now p q

theorem serve_ends {link now budget : Nat} (h : Ends (serve link now budget) p () q) :
    Served link now p q := by
  induction budget generalizing p with
  | zero =>
    simp only [serve, revisitHead, bind_eq_ok, view_eq_ok] at h
    obtain ⟨v, _, ⟨hv, rfl⟩, h⟩ := h
    cases hf : v.front? with
    | none =>
      simp only [hf, pure_eq_ok, true_and] at h
      exact h ▸ .empty hv hf
    | some head =>
      rw [hf] at h
      exact .later hv hf h
  | succ budget ih =>
    rw [serve_succ, bind_eq_ok] at h
    obtain ⟨gone, r, tries, h⟩ := h
    cases tryHead_ends tries with
    | nobody view front =>
      obtain ⟨-, rfl⟩ := pure_eq_ok.1 h
      exact .empty view front
    | later view front late scheduled =>
      obtain ⟨-, rfl⟩ := pure_eq_ok.1 h
      exact .later view front scheduled
    | blocked view front due turn scheduled =>
      obtain ⟨-, rfl⟩ := pure_eq_ok.1 h
      exact .blocked view front due turn scheduled
    | gone view front due turn =>
      obtain ⟨⟨⟩, s, takes, h⟩ := bind_eq_ok.1 h
      obtain ⟨w, popped, w', after, pops, drained⟩ := takeHead_ends takes
      exact .left view front due turn after pops drained (ih h)

/-- What looking at a link does: it is served if it is owned. -/
def Visited (link now : Nat) (p q : Partition) : Prop :=
  (∃ v, p.links[link]? = some v ∧ v.link? = none ∧ p = q) ∨ Served link now p q

theorem serveLink_ends {link now : Nat} (h : Ends (serveLink link now) p () q) :
    Visited link now p q := by
  simp only [serveLink, bind_eq_ok, view_eq_ok] at h
  obtain ⟨v, _, ⟨hv, rfl⟩, h⟩ := h
  split at h
  · rename_i foreign
    simp only [pure_eq_ok, true_and] at h
    exact .inl ⟨v, hv, foreign, h⟩
  · exact .inr (serve_ends h)

/-- What an agent which is due does: it takes its turn, and is due again if it needs another
attempt. -/
def Acted (id now : Nat) (p q : Partition) : Prop :=
  Dispatched id now p true q ∨
    ∃ r, Dispatched id now p false r ∧ Ends (wake id (now + 1)) r () q

theorem actOrRetry_ends {id now : Nat} (h : Ends (actOrRetry id now) p () q) :
    Acted id now p q := by
  simp only [actOrRetry, bind_eq_ok] at h
  obtain ⟨b, r, hd, h⟩ := h
  have turn := dispatch_ends hd
  cases b with
  | false => exact .inr ⟨r, turn, by simpa using h⟩
  | true =>
    simp only [if_true, pure_eq_ok, true_and] at h
    exact .inl (h ▸ turn)

/-- The work of a second: whoever is due takes a turn, and then each link that is due is looked at.
-/
theorem work_ends {now : Nat} (h : Ends (work now) p () q) :
    ∃ ids dueAgents links dueLinks r, p.dueAgents.visit now = .ok (ids, dueAgents) ∧
      Along (fun id => Acted id now) ids { p with dueAgents := dueAgents } r ∧
      r.dueLinks.visit now = .ok (links, dueLinks) ∧
      Along (fun link => Visited link now) links { r with dueLinks := dueLinks } q := by
  simp only [work, serveAgents, serveLinks, bind_eq_ok, get_eq_ok, attempt_eq_ok, modify_eq_ok] at h
  obtain ⟨⟨⟩, r, ⟨_, _, ⟨rfl, rfl⟩, ⟨ids, due⟩, _, ⟨hv, rfl⟩, ⟨⟩, _, rfl, ha⟩, _, _, ⟨rfl, rfl⟩,
    ⟨links, due'⟩, _, ⟨hv', rfl⟩, ⟨⟩, _, rfl, hl⟩ := h
  refine ⟨ids, due, links, due', r, hv, along_of_forM (fun id p q h => ?_) ha, hv',
    along_of_forM (fun link p q h => ?_) hl⟩
  · exact actOrRetry_ends h
  · exact serveLink_ends h

end Partition

end Mobility
