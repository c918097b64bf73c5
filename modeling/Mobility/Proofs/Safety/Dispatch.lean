import Mobility.Proofs.Partition.Timetable
import Mobility.Proofs.Safety.Turns

/-!
# Turns are safe

An agent which takes its turn at a second that has a next one only fails because of its plan
(`Partition.safe_dispatch`). What this needs (`Partition.Ready`) is there before each turn of a second,
because a turn leaves it behind, and so does everything done between two turns.
-/

set_option autoImplicit false

namespace Mobility

open Act

namespace Partition

variable {F : Failure → Prop} {p q r : Partition} {id link now time : Nat} {hand : Multiset Nat}

/-! ## Agendas -/

/-- The agendas have come as far as before. -/
structure Paced (p q : Partition) : Prop where
  agents : q.dueAgents.next = p.dueAgents.next
  links : q.dueLinks.next = p.dueLinks.next

instance : Std.Refl Paced := ⟨fun _ => ⟨rfl, rfl⟩⟩

instance : IsTrans Partition Paced :=
  ⟨fun _ _ _ h k => ⟨k.agents.trans h.agents, k.links.trans h.links⟩⟩

theorem Paced.trans (h : Paced p q) (k : Paced q r) : Paced p r := IsTrans.trans _ _ _ h k

theorem paced_consume {how : Consumption} (h : Ends (consume id how now) p () q) : Paced p q := by
  obtain ⟨a, i, -, -, rfl⟩ := consume_ends h
  exact ⟨rfl, rfl⟩

theorem paced_wake (h : Ends (wake id time) p () q) : Paced p q := by
  obtain ⟨due, added, rfl⟩ := wake_eq_ok.1 h
  exact ⟨(Agenda.add_eq_ok added).2.1, rfl⟩

theorem paced_revisit (h : Ends (revisit link time) p () q) : Paced p q := by
  obtain ⟨due, added, rfl⟩ := revisit_eq_ok.1 h
  exact ⟨rfl, (Agenda.add_eq_ok added).2.1⟩

theorem paced_send {target : Nat} {link : Option Nat} (h : Ends (send target link id now) p () q) :
    Paced p q := by
  obtain ⟨record, -, -, rfl⟩ := send_ends h
  exact ⟨rfl, rfl⟩

theorem paced_exchanged {stop : StopRef} (h : Exchanged id stop now p q) : Paced p q :=
  h.relates (fun _ _ _ _ consumes => paced_consume consumes) (fun _ _ _ wakes => paced_wake wakes)
    fun _ _ _ => ⟨rfl, rfl⟩

theorem paced_dispatched {b : Bool} (h : Dispatched id now p b q) : Paced p q := by
  cases h with
  | finished | refused => exact ⟨rfl, rfl⟩
  | handedOver found current sent => exact paced_send sent
  | outbound found current action view pushed consumes =>
    have consumed := paced_consume consumes
    exact ⟨consumed.agents, consumed.links⟩
  | @entered a i link velocity v w l finish r q found current action view owned time pushed consumes
      scheduled =>
    have consumed := paced_consume consumes
    have later : Paced r q := relates_scheduled paced_revisit scheduled Eq.symm
    exact ⟨later.agents.trans consumed.agents, later.links.trans consumed.links⟩
  | paused found current action consumes wakes => exact (paced_consume consumes).trans (paced_wake wakes)
  | queued found current action consumes waiting egress =>
    have consumed := paced_consume consumes
    exact ⟨consumed.agents, consumed.links⟩
  | exchanged found current action exchange => exact paced_exchanged exchange
  | departed found current action consumes => exact paced_consume consumes

/-! ## What a turn needs -/

/-- Everybody can go on and is counted once, and the next second can be scheduled. -/
structure Ready (now : Nat) (hand : Multiset Nat) (p : Partition) : Prop where
  able : p.Able hand
  orderly : p.Orderly
  once : (p.census hand).Nodup
  known : ∀ x ∈ p.census hand, ∃ a, p.agents[x]? = some a
  agents : p.dueAgents.next ≤ now + 1
  links : p.dueLinks.next ≤ now + 1

namespace Ready

variable {rest : Multiset Nat}

/-- What keeps everybody counted leaves behind what the next turn needs. -/
theorem after (h : Ready now hand p) (able : q.Able rest) (kept : Kept LinkView.Alike p q)
    (census : q.census rest = p.census hand) (orderly : q.Orderly) (paced : Paced p q) :
    Ready now rest q where
  able := able
  orderly := orderly
  once := census ▸ h.once
  known x hx := by
    obtain ⟨a, ha⟩ := h.known x (census ▸ hx)
    obtain ⟨b, hb, -⟩ := kept.copy ha
    exact ⟨b, hb⟩
  agents := paced.agents ▸ h.agents
  links := paced.links ▸ h.links

theorem found (h : Ready now hand p) (present : id ∈ hand + p.roots) : ∃ a, p.agents[id]? = some a := by
  refine h.known id ?_
  rw [census, aboardOf, add_assoc, add_assoc]
  exact Multiset.mem_add.2 (.inl present)

theorem aboard (h : Ready now hand p) (present : id ∈ hand + p.roots) :
    ∀ y ∈ p.crew id, ∃ a, p.agents[y]? = some a := by
  intro y hy
  refine h.known y ?_
  rw [census, aboardOf, add_assoc, add_assoc]
  exact Multiset.mem_add.2 (.inr (Multiset.mem_add.2 (.inl (Multiset.mem_bind.2 ⟨id, present, hy⟩))))

/-- An agent which takes its turn leaves behind what the next turn needs. -/
theorem acted (h : Ready now (id ::ₘ hand) p) (acts : Acted id now p q) : Ready now hand q := by
  have free : Free (id ::ₘ hand) id p := free_of_nodup h.once (here_of_hand p id hand)
  have present : id ∈ id ::ₘ hand + p.roots :=
    Multiset.mem_add.2 (.inl (Multiset.mem_cons_self id hand))
  obtain ⟨census, orderly⟩ := census_acted h.orderly h.once acts
  have kept := (worked_acted acts).kept.mono LinkView.Balanced.alike
  rcases acts with turn | ⟨r, turn, wakes⟩
  · have able := h.able.dispatched h.orderly h.once free present turn
    refine h.after (able.mono fun v hv => ?_) kept census orderly (paced_dispatched turn)
    exact Multiset.mem_add.2 (.inl (Multiset.mem_cons_of_mem hv))
  · have able := h.able.dispatched h.orderly h.once free present turn
    exact h.after (able.wake wakes) kept census orderly ((paced_dispatched turn).trans (paced_wake wakes))

end Ready

/-! ## Safe turns -/

/-- Whoever has an instruction can consume it. -/
theorem fails_consume_current {how : Consumption} {a : Agent} {i : Instruction} (found : p.agents[id]? = some a)
    (current : a.current = .ok (some i)) : Fails F (consume id how now) p := by
  have consumed : ∃ r, a.consume how = .ok r := by
    unfold Agent.consume
    rw [current]
    exact ⟨_, rfl⟩
  obtain ⟨⟨b, event⟩, ok⟩ := consumed
  refine .after (ends_agent found) (.after (attempt_eq_ok.2 ⟨ok, rfl⟩) (.after (ends_setAgent p id b) ?_))
  cases event with
  | none => exact .pure ()
  | some event => exact .modify _

/-- Whoever has something left in a plan that can be read has an instruction. -/
theorem current_of_remains (grounded : p.Grounded) (h : p.Remains 1 id) :
    ∃ a i, p.agents[id]? = some a ∧ a.current = .ok (some i) := by
  obtain ⟨a, found, left⟩ := h
  obtain ⟨current, get, -⟩ := grounded id a a.cursor found
  cases current with
  | none =>
    have consumed := Plan.get?_eq_none.1 get
    omega
  | some i => exact ⟨a, i, found, get⟩

theorem safe_consume {how : Consumption} (grounded : p.Grounded) (h : p.Remains 1 id) :
    Fails F (consume id how now) p := by
  obtain ⟨a, i, found, current⟩ := current_of_remains grounded h
  exact fails_consume_current found current

/-- What is known of an agent and its passengers can be written down. -/
theorem safe_record (found : ∃ a, p.agents[id]? = some a)
    (aboard : ∀ y ∈ p.crew id, ∃ a, p.agents[y]? = some a) : Fails F (record id) p := by
  obtain ⟨a, found⟩ := found
  refine .after (ends_agent found) ?_
  split
  · refine .bind (.mapM (P := fun rows r => r = p ∧ ∀ row ∈ rows, ∃ b, p.agents[row.2]? = some b)
      ?_ ?_ ⟨rfl, fun row hrow => ?_⟩) fun _ _ _ => .pure _
    · rintro row rest _ ⟨rfl, there⟩
      obtain ⟨b, hb⟩ := there row List.mem_cons_self
      exact .after (ends_agent hb) (.pure _)
    · rintro row rest _ x q ⟨rfl, there⟩ ends
      simp only [bind_eq_ok, agent_eq_ok, pure_eq_ok] at ends
      obtain ⟨b, _, ⟨-, rfl⟩, -, rfl⟩ := ends
      exact ⟨rfl, fun row hrow => there row (List.mem_cons_of_mem _ hrow)⟩
    · refine aboard row.2 ?_
      rw [crew, found]
      show row.2 ∈ a.seats.riders
      rw [← Seats.coe_carried]
      exact Multiset.mem_coe.2 (List.mem_map_of_mem hrow)
  · exact .pure _

theorem safe_send {target : Nat} {link : Option Nat} (found : ∃ a, p.agents[id]? = some a)
    (aboard : ∀ y ∈ p.crew id, ∃ a, p.agents[y]? = some a) : Safe (send target link id now) p :=
  .bind (safe_record found aboard) fun _ _ _ => .modify _

/-- The agent has its current instruction still to consume. -/
theorem remains_of_current {a : Agent} {i : Instruction} (found : p.agents[id]? = some a)
    (current : a.current = .ok (some i)) : p.Remains 1 id :=
  ⟨a, found, Plan.lt_length_of_get? current⟩

theorem fails_enter {velocity : Velocity} {v : LinkView} {l : Link} {a : Agent} {i : Instruction}
    (found : p.agents[id]? = some a) (current : a.current = .ok (some i)) (owned : v.link? = some l)
    (soon : p.dueLinks.next ≤ now + 1) : Fails F (enter id link velocity now v l) p := by
  refine .after (ends_get p) ?_
  dsimp only
  generalize Clock.after now (l.travelTime velocity.val p.timing.delay) = finish
  have answered : ∃ w, v.push id finish = .ok w := by
    cases v with
    | owned | gateway => exact ⟨_, rfl⟩
    | proxy | remote => cases owned
  obtain ⟨w, pushed⟩ := answered
  refine .after (attempt_eq_ok.2 ⟨pushed, rfl⟩) ?_
  cases w with
  | none => exact .pure false
  | some w =>
    refine .after (ends_setView p link w) (.after (ends_agent found) (.after (ends_setAgent _ id _) ?_))
    have onLink : (p.agents.setIfInBounds id (a.onLink now finish))[id]? = some (a.onLink now finish) :=
      Array.getElem?_setIfInBounds_self_of_lt (Array.getElem?_eq_some_iff.1 found).1
    refine .bind (fails_consume_current onLink current) fun _ r consumes => ?_
    split
    · refine .bind (safe_revisit ?_) fun _ _ _ => .pure true
      have next : r.dueLinks.next = p.dueLinks.next := (paced_consume consumes).links
      exact next ▸ soon.trans (Nat.le_max_right ..)
    · exact .pure true

/-- Whoever has an instruction can enter a link which exists, or is refused, if the owner can be told of it. -/
theorem fails_traverse {velocity : Velocity} {v : LinkView} {a : Agent} {i : Instruction}
    (found : p.agents[id]? = some a) (current : a.current = .ok (some i)) (view : p.links[link]? = some v)
    (sends : ∀ j owner, v = .remote j owner → Fails F (handOver id owner now) p)
    (soon : p.dueLinks.next ≤ now + 1) : Fails F (traverse id link velocity now) p := by
  refine .after (ends_view view) ?_
  cases v with
  | remote j owner => exact .bind (sends j owner rfl) fun _ _ _ => .pure true
  | proxy x =>
    dsimp only
    cases pushed : x.push id with
    | none => exact .pure false
    | some y =>
      refine .after (ends_setView p link _) (.after (ends_agent found) (.after (ends_setAgent _ id _) ?_))
      have onLink : (p.agents.setIfInBounds id (a.onLink now now))[id]? = some (a.onLink now now) :=
        Array.getElem?_setIfInBounds_self_of_lt (Array.getElem?_eq_some_iff.1 found).1
      exact .bind (fails_consume_current onLink current) fun _ _ _ => .pure true
  | owned l => exact fails_enter found current rfl soon
  | gateway g => exact fails_enter found current rfl soon

/-- The owner of a stop which exists is known. -/
theorem ends_stopOwner {stop : Nat} (h : p.HasStop stop) :
    ∃ owner, Ends (stopOwner stop) p owner p ∧ p.StopAt stop owner := by
  obtain ⟨link, stopLink, inside⟩ := h
  have view := Array.getElem?_eq_getElem inside
  exact ⟨_, stopOwner_eq_ok.2 ⟨link, _, stopLink, view, rfl, rfl⟩, link, _, stopLink, view, rfl⟩

/-- What the turn of an agent needs, whatever it does: plans can be read and what they name exists, the next
second can be scheduled, and the agent can be handed over to whom its instruction is up to. -/
structure Prepared (F : Failure → Prop) (now id : Nat) (p : Partition) : Prop where
  grounded : p.Grounded
  agents : p.dueAgents.next ≤ now + 1
  links : p.dueLinks.next ≤ now + 1
  sends : ∀ target action, p.IsUpTo target action → Fails F (handOver id target now) p
  misplanned : ∀ f : Failure, f.isMisplanned = true → F f

namespace Prepared

theorem fails_traverse {link : LinkRef} {velocity : Velocity} (h : Prepared F now id p)
    (inside : link.val < p.links.size) (remains : p.Remains 1 id) :
    Fails F (traverse id link.val velocity now) p := by
  have view := Array.getElem?_eq_getElem inside
  obtain ⟨a, i, found, current⟩ := current_of_remains h.grounded remains
  exact Partition.fails_traverse found current view
    (fun j owner remote => h.sends owner (.traverse link velocity) ⟨j, remote ▸ view⟩) h.links

theorem fails_wait {route : RouteId} {stop : StopId} (h : Prepared F now id p) (stops : p.HasStop stop.val)
    (remains : p.Remains 1 id) : Fails F (wait id route stop now) p := by
  obtain ⟨owner, ends, located⟩ := ends_stopOwner stops
  refine .after ends (.after (ends_get p) ?_)
  split
  · rename_i other
    exact .bind (h.sends owner (.wait route stop) ⟨other, located⟩) fun _ _ _ => .pure true
  · refine .bind (safe_consume h.grounded remains) fun _ r consumes => ?_
    have kept : Kept LinkView.Alike p r := kept_consume consumes
    obtain ⟨a, found, -⟩ := remains
    obtain ⟨b, found, -⟩ := kept.copy found
    obtain ⟨next, get, -⟩ := h.grounded.of_kept kept id b (b.cursor + 1) found
    refine .after (ends_agent found) (.after (attempt_eq_ok.2 ⟨get, rfl⟩) ?_)
    split
    · exact .bind (.modify _) fun _ _ _ => .pure true
    · exact .throw (h.misplanned _ rfl)

theorem fails_sleep (h : Prepared F now id p) (remains : p.Remains 1 id) (later : now + 1 ≤ time) :
    Fails F (sleep id time now) p := by
  refine .bind (safe_consume h.grounded remains) fun _ r consumes => safe_wake ?_
  rw [(paced_consume consumes).agents]
  exact h.agents.trans later

theorem fails_stopArrive {stop : StopRef} (h : Prepared F now id p) (stops : p.HasStop stop.stop.val)
    (remains : p.Remains 1 id) : Fails F (stopArrive id stop now) p := by
  obtain ⟨owner, ends, located⟩ := ends_stopOwner stops
  refine .after ends (.after (ends_get p) ?_)
  split
  · rename_i other
    exact .bind (h.sends owner (.stopArrive stop) ⟨other, located⟩) fun _ _ _ => .pure true
  · refine .bind (safe_consume h.grounded remains) fun _ r consumes => ?_
    refine .bind (safe_wake ?_) fun _ _ _ => .pure true
    rw [(paced_consume consumes).agents]
    exact h.agents

/-- The turn of an agent doesn't fail otherwise than its plan, its hand-over and the exchange of passengers. -/
theorem fails_dispatch (h : Prepared F now id p) (last : now < Clock.last) (found : ∃ a, p.agents[id]? = some a)
    (exchange : ∀ stop, p.Remains 1 id → Fails F (exchangePassengers id stop now) p) :
    Fails F (dispatch id now) p := by
  obtain ⟨a, found⟩ := found
  obtain ⟨current, get, resolves⟩ := h.grounded id a a.cursor found
  refine .after (ends_agent found) (.after (attempt_eq_ok.2 ⟨get, rfl⟩) ?_)
  cases current with
  | none =>
    refine .bind ?_ fun _ _ _ => .pure true
    exact .after (ends_agent found) (.bind (.modify _) fun _ _ _ => .modify _)
  | some i =>
    have remains := remains_of_current found get
    have there := resolves i rfl
    obtain ⟨event, action⟩ := i
    cases action with
    | traverse link velocity => exact h.fails_traverse there remains
    | sleepFor duration =>
      refine .bind (h.fails_sleep remains ?_) fun _ _ _ => .pure true
      exact Clock.lt_after last (lt_of_lt_of_le Nat.zero_lt_one (Nat.le_max_right ..))
    | sleepUntil time => exact .bind (h.fails_sleep remains (Nat.le_max_right ..)) fun _ _ _ => .pure true
    | wait route stop => exact h.fails_wait there remains
    | stopArrive stop => exact h.fails_stopArrive there remains
    | stopDelay stop => exact .bind (exchange stop remains) fun _ _ _ => .pure false
    | stopDepart stop => exact .bind (safe_consume h.grounded remains) fun _ _ _ => .pure false
    | access stop | egress stop => exact .throw (h.misplanned _ rfl)

end Prepared

/-! ## Passengers who leave and board -/

section Exchange

variable {stop : StopRef} {leaving : List Nat} {boarded : List (Nat × Nat)}

/-- What holds of a partition in which agents are about to consume an instruction each, one after the other. -/
structure Files (F : Failure → Prop) (now : Nat) (P : List Nat → Partition → Prop) : Prop where
  soon : ∀ {ids : List Nat} {p : Partition}, P ids p → p.dueAgents.next ≤ now + 1
  fails : ∀ {x : Nat} {how : Consumption} {rest : List Nat} {p : Partition}, P (x :: rest) p →
    Fails F (consume x how now) p
  consumed : ∀ {x : Nat} {how : Consumption} {rest : List Nat} {p q : Partition}, P (x :: rest) p →
    Ends (consume x how now) p () q → P rest q
  woken : ∀ {x time : Nat} {ids : List Nat} {p q : Partition}, P ids p → Ends (wake x time) p () q → P ids q

/-- A vehicle has consumed its instruction, and those who leave it here have been taken from their seats. -/
inductive Vacated (id : Nat) (stop : StopRef) (now : Nat) (p : Partition) (leaving : List Nat) : Partition → Prop where
  | intro {consumed : Partition} {before : Agent} {seatsLeft : Seats}
      (consumes : Ends (consume id .advance now) p () consumed)
      (vehicle : consumed.agents[id]? = some before)
      (egress : before.seats.egress stop.index.val = .ok (leaving, seatsLeft)) :
      Vacated id stop now p leaving { consumed with
        agents := consumed.agents.setIfInBounds id { before with seats := seatsLeft } }

namespace Vacated

theorem kept (h : Vacated id stop now p leaving r) : Kept LinkView.Alike p r := by
  obtain ⟨consumes, vehicle, egress⟩ := h
  have kept : Kept LinkView.Alike p _ := kept_consume consumes
  exact kept.trans (Kept.setAgent vehicle (Agent.blank_withSeats (Seats.capacity_egress egress))
    fun honest => Seats.honest_egress honest egress)

theorem paced (h : Vacated id stop now p leaving r) : Paced p r := by
  obtain ⟨consumes, vehicle, egress⟩ := h
  exact ⟨(paced_consume consumes).agents, (paced_consume consumes).links⟩

theorem platforms (h : Vacated id stop now p leaving r) : r.platforms = p.platforms := by
  obtain ⟨consumes, vehicle, egress⟩ := h
  exact (still_consume consumes).platforms

/-- Those who leave were aboard. -/
theorem aboard (h : Vacated id stop now p leaving r) : (leaving : Multiset Nat) ≤ p.crew id := by
  obtain @⟨consumed, before, seatsLeft, consumes, vehicle, egress⟩ := h
  have crew : before.seats.riders = p.crew id := by
    rw [← (still_consume consumes).crew, Partition.crew, vehicle]
    rfl
  rw [← crew, ← Seats.riders_egress egress]
  exact Multiset.le_add_left _ _

/-- Nothing has happened to anybody but the vehicle. -/
theorem same {x : Nat} (h : Vacated id stop now p leaving r) (other : x ≠ id) : r.agents[x]? = p.agents[x]? := by
  obtain ⟨consumes, vehicle, egress⟩ := h
  exact (Array.getElem?_setIfInBounds_ne (Ne.symm other)).trans (same_consume consumes other)

end Vacated

/-- Those who leave a vehicle here have done so, and those who are let in have been given their seats. -/
inductive Seating (id : Nat) (stop : StopRef) (now : Nat) (p : Partition) (boarded : List (Nat × Nat)) :
    Partition → Prop where
  | intro {leaving : List Nat} {r left : Partition} {after : Agent} {platforms : Platforms} {seats : Seats}
      (vacated : Vacated id stop now p leaving r) (leaves : Along (LeftAt id now) leaving r left)
      (vehicleLeft : left.agents[id]? = some after)
      (board : left.platforms.board stop.stop.val stop.route.val stop.index.val
        (fun index passenger seats =>
          match seats.access index passenger with
          | some seats => (true, seats)
          | none => (false, seats)) after.seats = ((boarded, platforms), seats)) :
      Seating id stop now p boarded { left with
        agents := left.agents.setIfInBounds id { after with seats := seats }
        platforms := platforms }

theorem kept_leaves (leaves : Along (LeftAt id now) leaving p q) : Kept LinkView.Alike p q :=
  leaves.relates fun _ _ _ _ ⟨_, consumes, wakes⟩ => (kept_consume consumes).trans (kept_wake wakes)

theorem paced_leaves (leaves : Along (LeftAt id now) leaving p q) : Paced p q :=
  leaves.relates fun _ _ _ _ ⟨_, consumes, wakes⟩ => (paced_consume consumes).trans (paced_wake wakes)

namespace Seating

theorem kept (h : Seating id stop now p boarded r) : Kept LinkView.Alike p r := by
  obtain @⟨_, _, left, _, _, seats, vacated, leaves, vehicleLeft, board⟩ := h
  obtain ⟨admits, -⟩ := Seats.board_eq board
  have seated : Kept LinkView.Alike left { left with agents := left.agents.setIfInBounds id _ } :=
    Kept.setAgent vehicleLeft (Agent.blank_withSeats admits.capacity) admits.honest
  exact (vacated.kept.trans (kept_leaves leaves)).trans (seated.trans (Kept.aside ..))

theorem paced (h : Seating id stop now p boarded r) : Paced p r := by
  obtain ⟨vacated, leaves, vehicleLeft, board⟩ := h
  have paced := vacated.paced.trans (paced_leaves leaves)
  exact ⟨paced.agents, paced.links⟩

/-- Those who board have waited. -/
theorem waited (h : Seating id stop now p boarded r) :
    ((boarded.map Prod.snd : List Nat) : Multiset Nat) ≤ p.platforms.everybody := by
  obtain ⟨vacated, leaves, vehicleLeft, board⟩ := h
  obtain ⟨admits, queues⟩ := Seats.board_eq board
  have everybody := Platforms.everybody_board admits.isPrefix queues
  rw [(leftAt_along leaves).2.2.1, vacated.platforms] at everybody
  rw [← everybody]
  exact Multiset.le_add_left _ _

end Seating

/-- The exchange of passengers doesn't fail otherwise if nobody who takes part in it does, one after the other. -/
theorem Files.fails_exchange {P : List Nat → Partition → Prop} (files : Files F now P) (honest : p.Honest)
    (found : ∃ a, p.agents[id]? = some a) (begins : Fails F (consume id .advance now) p)
    (leaving : ∀ {ids : List Nat} {r : Partition}, Vacated id stop now p ids r → P ids r)
    (boarding : ∀ {rows : List (Nat × Nat)} {r : Partition}, Seating id stop now p rows r →
      P (rows.map Prod.snd) r) : Fails F (exchangePassengers id stop now) p := by
  refine .bind begins fun _ consumed consumes => ?_
  have kept : Kept LinkView.Alike p consumed := kept_consume consumes
  obtain ⟨a, found⟩ := found
  obtain ⟨before, vehicle, -⟩ := kept.copy found
  obtain ⟨⟨ids, seatsLeft⟩, egress⟩ := (kept.honest honest id before vehicle).egress stop.index.val
  refine .after (ends_agent vehicle) (.after (attempt_eq_ok.2 ⟨egress, rfl⟩)
    (.after (ends_setAgent consumed id { before with seats := seatsLeft }) ?_))
  have vacated : Vacated id stop now p ids _ := .intro consumes vehicle egress
  refine .bind (.forM (P := P) (fun x rest s file => ?_) (fun x rest s t file ends => ?_) (leaving vacated))
    fun _ left ends => ?_
  · exact .bind (files.fails file) fun _ r consumes => safe_wake (files.soon (files.consumed file consumes))
  · obtain ⟨⟨⟩, u, consumes, wakes⟩ := bind_eq_ok.1 ends
    exact files.woken (files.consumed file consumes) wakes
  have leaves : Along (LeftAt id now) ids _ left := along_of_forM (fun x s t ends => by
    obtain ⟨⟨⟩, u, consumes, wakes⟩ := bind_eq_ok.1 ends
    exact ⟨u, consumes, wakes⟩) ends
  obtain ⟨after, vehicleLeft, -⟩ :=
    (kept_leaves leaves).copy (Array.getElem?_setIfInBounds_self_of_lt (Array.getElem?_eq_some_iff.1 vehicle).1)
  refine .after (ends_agent vehicleLeft) (.after (ends_get left) ?_)
  split
  rename_i boarded platforms seats board
  refine .after (ends_setAgent left id _) (.after (ends_modify _ _) ?_)
  exact .forM (P := fun rows => P (rows.map Prod.snd)) (fun row rest s file => files.fails file)
    (fun row rest s t file consumes => files.consumed file consumes)
    (boarding (.intro vacated leaves vehicleLeft board))

/-- Agents who consume an instruction each, one after the other. -/
structure Queue (now : Nat) (ids : List Nat) (p : Partition) : Prop where
  grounded : p.Grounded
  once : ids.Nodup
  remain : ∀ y ∈ ids, p.Remains 1 y
  soon : p.dueAgents.next ≤ now + 1

namespace Queue

theorem files : Files F now (Queue now) where
  soon h := h.soon
  fails h := safe_consume h.grounded (h.remain _ List.mem_cons_self)
  consumed {x how rest p q} h ends := by
    have kept : Kept LinkView.Alike p q := kept_consume ends
    obtain ⟨absent, once⟩ := List.nodup_cons.1 h.once
    refine ⟨h.grounded.of_kept kept, once, fun y hy => ?_, (paced_consume ends).agents ▸ h.soon⟩
    have other : y ≠ x := fun own => absent (own ▸ hy)
    exact (h.remain y (List.mem_cons_of_mem _ hy)).of_same (same_consume ends other)
  woken h ends := by
    have soon := (paced_wake ends).agents ▸ h.soon
    obtain ⟨due, -, rfl⟩ := wake_eq_ok.1 ends
    exact ⟨h.grounded, h.once, h.remain, soon⟩

end Queue

namespace Ready

/-- The passengers who leave can do so. -/
theorem queue_leaving (h : Ready now hand p) (present : id ∈ hand + p.roots) (free : Free hand id p)
    (vacated : Vacated id stop now p leaving r) : Queue now leaving r := by
  obtain ⟨-, -, riders⟩ := aboard_of_nodup h.once
  refine ⟨h.able.grounded.of_kept vacated.kept, ?_, fun y hy => ?_, vacated.paced.agents ▸ h.agents⟩
  · exact Multiset.coe_nodup.1 (Multiset.nodup_of_le vacated.aboard (riders id present).1)
  · have rides := Multiset.mem_of_le vacated.aboard (Multiset.mem_coe.2 hy)
    have other : y ≠ id := by
      rintro rfl
      exact free.riders y present rides
    exact (h.able.riders id present y rides).of_same (vacated.same other)

/-- After that, those who board can do so. -/
theorem queue_boarding (h : Ready now hand p) (present : id ∈ hand + p.roots) (free : Free hand id p)
    (seating : Seating id stop now p boarded r) : Queue now (boarded.map Prod.snd) r := by
  obtain ⟨once, -, riders⟩ := aboard_of_nodup h.once
  refine ⟨h.able.grounded.of_kept seating.kept, ?_, fun y hy => ?_, seating.paced.agents ▸ h.agents⟩
  · exact Multiset.coe_nodup.1 (Multiset.nodup_of_le seating.waited once)
  · have waits := Multiset.mem_of_le seating.waited (Multiset.mem_coe.2 hy)
    have other : y ≠ id := by
      rintro rfl
      exact free.waiting waits
    obtain @⟨leaving, s, left, _, _, _, vacated, leaves, vehicleLeft, board⟩ := seating
    have stays : y ∉ leaving := fun hl =>
      ((riders id present).2 y (Multiset.mem_of_le vacated.aboard hl)).2.1 waits
    have same : left.agents[y]? = p.agents[y]? := (same_left leaves stays).trans (vacated.same other)
    exact ((h.able.waiting y waits).le (Nat.le_succ 1)).of_same
      ((Array.getElem?_setIfInBounds_ne (Ne.symm other)).trans same)

/-- Passengers can leave and board if the vehicle is free. -/
theorem safe_exchange (h : Ready now hand p) (present : id ∈ hand + p.roots)
    (free : Free hand id p) (remains : p.Remains 1 id) : Fails F (exchangePassengers id stop now) p :=
  Queue.files.fails_exchange h.able.honest (h.found present) (safe_consume h.able.grounded remains)
    (h.queue_leaving present free) (h.queue_boarding present free)

/-- Whoever is counted is prepared for its turn. -/
theorem prepared (h : Ready now hand p) (present : id ∈ hand + p.roots) :
    Prepared (fun f => f.isDocumented = true ∨ f.isDiscord = true) now id p where
  grounded := h.able.grounded
  agents := h.agents
  links := h.links
  sends _ _ _ := safe_send (h.found present) (h.aboard present)
  misplanned f misplanned := by
    refine .inl ?_
    unfold Failure.isMisplanned at misplanned
    split at misplanned
    · rfl
    · rfl
    · cases misplanned

/-- An agent's turn only fails because of its plan. -/
theorem safe_dispatch (h : Ready now hand p) (last : now < Clock.last) (present : id ∈ hand + p.roots)
    (free : Free hand id p) : Safe (dispatch id now) p :=
  (h.prepared present).fails_dispatch last (h.found present) fun _ remains =>
    h.safe_exchange present free remains

end Ready

end Exchange

end Partition

end Mobility
