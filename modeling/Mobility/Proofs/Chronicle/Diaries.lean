import Mobility.Proofs.Census.Turns

/-!
# Diaries

What is stamped for an agent by one partition is the diary of the agent there. When an agent acts, the
events of the instructions which it consumes are added to its diary, in the order of its plan, and its
cursor moves on over them; and its end is stamped when it has consumed its plan. A turn of one agent is an
act of this agent, of its passengers and of whoever waits at a stop. Nobody else notices it.
-/

set_option autoImplicit false

namespace Mobility

open Act

/-! ## The events of a plan -/

namespace Plan

/-- The events of the first `count` instructions. Event 0 is none. -/
def events (p : Plan) (count : Nat) : List EventId :=
  ((p.words.toList.take count).filterMap fun w => (Instruction.decode w).toOption.map (·.event)).filter
    (·.val ≠ 0)

variable {p : Plan} {k : Nat} {i : Instruction}

theorem events_succ (h : p.get? k = .ok (some i)) :
    p.events (k + 1) = p.events k ++ if i.event.val = 0 then [] else [i.event] := by
  obtain ⟨w, hw, hd⟩ := get?_eq_some.1 h
  have hw : p.words.toList[k]? = some w := by rw [← hw, Array.getElem?_toList]
  unfold events
  rw [List.take_add_one, hw, List.filterMap_append, List.filter_append]
  by_cases hz : i.event.val = 0 <;> simp [hd, Except.toOption, hz, -Fin.val_eq_zero_iff]

end Plan

/-! ## Steps of an agent -/

theorem Agent.plan_of_blank {a b : Agent} (h : b.blank = a.blank) : b.plan = a.plan :=
  (congrArg Agent.plan h : b.blank.plan = a.blank.plan)

theorem Agent.id_of_blank {a b : Agent} (h : b.blank = a.blank) : b.id = a.id :=
  (congrArg Agent.id h : b.blank.id = a.blank.id)

/-- The agent has gone on in its plan, over instructions with these events. -/
structure Agent.Goes (a b : Agent) (events : List EventId) : Prop where
  blank : b.blank = a.blank
  grows : a.cursor ≤ b.cursor
  within : a.cursor ≤ a.plan.length → b.cursor ≤ a.plan.length
  events : a.plan.events b.cursor = a.plan.events a.cursor ++ events

namespace Agent.Goes

variable {a b c : Agent} {xs ys : List EventId}

theorem plan (h : a.Goes b xs) : b.plan = a.plan := Agent.plan_of_blank h.blank

theorem stays (hb : b.blank = a.blank) (hc : b.cursor = a.cursor) : a.Goes b [] :=
  ⟨hb, hc.ge, fun h => hc ▸ h, by rw [hc, List.append_nil]⟩

theorem trans (h : a.Goes b xs) (k : b.Goes c ys) : a.Goes c (xs ++ ys) := by
  refine ⟨k.blank.trans h.blank, h.grows.trans k.grows, fun ha => ?_, ?_⟩
  · rw [← h.plan]
    exact k.within (h.plan ▸ h.within ha)
  · rw [← List.append_assoc, ← h.events, ← h.plan, k.events]

end Agent.Goes

theorem Agent.goes_consume {a : Agent} {i : Instruction} (h : a.current = .ok (some i)) :
    a.Goes { a with cursor := a.cursor + 1 } (if i.event.val = 0 then [] else [i.event]) :=
  ⟨rfl, Nat.le_succ _, fun _ => Plan.lt_length_of_get? h, Plan.events_succ h⟩

namespace Consumption

variable (how : Consumption) (id : Nat) (event : EventId)

@[simp] theorem agent_stamp : (how.stamp id event).agent = id := by cases how <;> rfl

@[simp] theorem event_stamp : (how.stamp id event).event = event := by cases how <;> rfl

theorem kind_stamp : (how.stamp id event).kind ≠ .finish := by cases how <;> simp [stamp]

end Consumption

/-! ## Diaries -/

/-- What is stamped for an agent. -/
def EventLog.of (log : EventLog) (id : Nat) : List Stamp := log.toList.filter fun s => s.what.agent = id

theorem EventLog.of_push (log : EventLog) (s : Stamp) (id : Nat) :
    EventLog.of (log.push s) id = log.of id ++ if s.what.agent = id then [s] else [] := by
  unfold EventLog.of
  rw [Array.toList_push, List.filter_append, List.filter_singleton]
  simp

theorem EventLog.mem_finishers {log : EventLog} {id : Nat} :
    id ∈ log.finishers ↔ ∃ s ∈ log.of id, s.what.kind = .finish := by
  simp only [EventLog.finishers, EventLog.of, List.mem_filterMap, List.mem_filter, decide_eq_true_eq,
    Option.ite_none_right_eq_some, Option.some.injEq]
  constructor
  · rintro ⟨s, hs, hk, hid⟩
    exact ⟨s, ⟨hs, hid⟩, hk⟩
  · rintro ⟨s, ⟨hs, hid⟩, hk⟩
    exact ⟨s, hs, hk, hid⟩

namespace Partition

/-- What the partition has stamped for an agent. -/
def diary (p : Partition) (id : Nat) : List Stamp := p.log.of id

/-- Every agent knows its number. -/
def Named (p : Partition) : Prop := ∀ (id : Nat) a, p.agents[id]? = some a → a.id = id

/-- Nothing has happened to the agent. -/
structure Quiet (x : Nat) (p q : Partition) : Prop where
  agents : q.agents[x]? = p.agents[x]?
  diary : q.diary x = p.diary x

/-- The agent has gone on in its plan, and what it has consumed is stamped. -/
def Advances (now x : Nat) (p q : Partition) : Prop :=
  ∃ stamps, q.diary x = p.diary x ++ stamps ∧ (∀ s ∈ stamps, s.time = now ∧ s.what.kind ≠ .finish) ∧
    ∀ a, p.agents[x]? = some a →
      ∃ b, q.agents[x]? = some b ∧ a.Goes b (stamps.map (·.what.event))

/-- What happens to agents when only these ones act. -/
def Deeds (now : Nat) (xs : Multiset Nat) (p q : Partition) : Prop :=
  p.Named → q.Named ∧ ∀ x, (x ∉ xs → Quiet x p q) ∧ Advances now x p q

/-- The agent has consumed its plan, and its end is stamped. -/
def Finishes (id now : Nat) (p q : Partition) : Prop :=
  ∃ a, p.agents[id]? = some a ∧ a.current = .ok none ∧
    q = { p with
      log := p.log.push ⟨now, ⟨.finish, id, a.finishEvent, none⟩⟩
      finished := p.finished + 1 }

variable {p q r : Partition} {id x now : Nat} {xs ys : Multiset Nat}

theorem Named.of_kept {R : LinkView → LinkView → Prop} (h : p.Named) (k : Kept R p q) : q.Named := by
  intro id b hb
  obtain ⟨a, ha, hblank⟩ := k.agent hb
  exact (Agent.id_of_blank hblank).trans (h id a ha)

instance : Std.Refl (Quiet x) := ⟨fun _ => ⟨rfl, rfl⟩⟩

instance : IsTrans Partition (Quiet x) where
  trans _ _ _ h k := ⟨k.agents.trans h.agents, k.diary.trans h.diary⟩

theorem Quiet.trans (h : Quiet x p q) (k : Quiet x q r) : Quiet x p r := IsTrans.trans _ _ _ h k

theorem Quiet.advances (h : Quiet x p q) : Advances now x p q :=
  ⟨[], by rw [h.diary, List.append_nil], by simp, fun a ha => ⟨a, by rw [h.agents, ha], .stays rfl rfl⟩⟩

theorem Advances.trans (h : Advances now x p q) (k : Advances now x q r) : Advances now x p r := by
  obtain ⟨ss, hd, hs, ha⟩ := h
  obtain ⟨ts, kd, ks, ka⟩ := k
  refine ⟨ss ++ ts, by rw [kd, hd, List.append_assoc], fun s hm => ?_, fun a hp => ?_⟩
  · exact (List.mem_append.1 hm).elim (hs s) (ks s)
  · obtain ⟨b, hb, goes⟩ := ha a hp
    obtain ⟨c, hc, later⟩ := ka b hb
    exact ⟨c, hc, List.map_append ▸ goes.trans later⟩

instance : Std.Refl (Deeds now xs) :=
  ⟨fun p named => ⟨named, fun _ => ⟨fun _ => Std.Refl.refl p, (Std.Refl.refl p : Quiet _ p p).advances⟩⟩⟩

instance : IsTrans Partition (Deeds now xs) where
  trans _ _ _ h k named := by
    obtain ⟨named, hx⟩ := h named
    obtain ⟨named, kx⟩ := k named
    exact ⟨named, fun x => ⟨fun hn => ((hx x).1 hn).trans ((kx x).1 hn), (hx x).2.trans (kx x).2⟩⟩

namespace Deeds

theorem trans (h : Deeds now xs p q) (k : Deeds now xs q r) : Deeds now xs p r := IsTrans.trans _ _ _ h k

theorem mono (h : Deeds now xs p q) (sub : ∀ x ∈ xs, x ∈ ys) : Deeds now ys p q := fun named =>
  ⟨(h named).1, fun x => ⟨fun hn => ((h named).2 x).1 fun hx => hn (sub x hx), ((h named).2 x).2⟩⟩

/-- What leaves agents and logs alone is nobody's deed. -/
theorem nobody (agents : q.agents = p.agents) (log : q.log = p.log) : Deeds now xs p q := by
  intro named
  have quiet : ∀ x, Quiet x p q := fun x => ⟨by rw [agents], by rw [diary, log]; rfl⟩
  exact ⟨fun id a ha => named id a (agents ▸ ha), fun x => ⟨fun _ => quiet x, (quiet x).advances⟩⟩

/-- An agent whose place in its plan stays the same. -/
theorem setAgent {a b : Agent} (h : p.agents[id]? = some a) (blank : b.blank = a.blank)
    (cursor : b.cursor = a.cursor) (hid : id ∈ xs) :
    Deeds now xs p { p with agents := p.agents.setIfInBounds id b } := by
  intro named
  obtain ⟨hlt, -⟩ := Array.getElem?_eq_some_iff.1 h
  have there := Array.getElem?_setIfInBounds_self_of_lt (a := b) hlt
  refine ⟨fun x c hc => ?_, fun x => ?_⟩
  · by_cases hx : id = x
    · subst hx
      obtain rfl := Option.some.inj (there.symm.trans hc)
      exact (Agent.id_of_blank blank).trans (named id a h)
    · exact named x c (Array.getElem?_setIfInBounds_ne hx ▸ hc)
  by_cases hx : id = x
  · subst hx
    refine ⟨fun hn => absurd hid hn, [], (List.append_nil _).symm, by simp, fun a' ha' => ?_⟩
    obtain rfl := Option.some.inj (h.symm.trans ha')
    exact ⟨b, there, .stays blank cursor⟩
  · have quiet : Quiet x p { p with agents := p.agents.setIfInBounds id b } :=
      ⟨Array.getElem?_setIfInBounds_ne hx, rfl⟩
    exact ⟨fun _ => quiet, quiet.advances⟩

theorem consume {how : Consumption} (h : Ends (consume id how now) p () q) (hid : id ∈ xs) :
    Deeds now xs p q := by
  intro named
  have kept : Kept Eq p q := kept_consume h
  refine ⟨named.of_kept kept, fun x => ?_⟩
  obtain ⟨a, i, ha, hi, rfl⟩ := consume_ends h
  obtain ⟨hlt, -⟩ := Array.getElem?_eq_some_iff.1 ha
  have stamped : ∀ x, EventLog.of (if i.event.val = 0 then p.log else
      p.log.push ⟨now, how.stamp a.id i.event⟩) x =
      p.diary x ++ if i.event.val = 0 then [] else if id = x then [⟨now, how.stamp a.id i.event⟩] else [] := by
    intro x
    split
    · exact (List.append_nil _).symm
    · rw [EventLog.of_push]
      simp only [Consumption.agent_stamp, named id a ha]
      rfl
  by_cases hx : id = x
  · subst hx
    refine ⟨fun hn => absurd hid hn, _, stamped id, fun s hs => ?_, fun a' ha' => ?_⟩
    · split at hs
      · cases hs
      · rw [if_pos rfl] at hs
        obtain rfl := List.mem_singleton.1 hs
        exact ⟨rfl, how.kind_stamp a.id i.event⟩
    · obtain rfl := Option.some.inj (ha.symm.trans ha')
      refine ⟨_, Array.getElem?_setIfInBounds_self_of_lt hlt, ?_⟩
      have goes := Agent.goes_consume hi
      by_cases hz : i.event.val = 0
      · simpa [hz] using goes
      · simpa [hz] using goes
  · have same := stamped x
    rw [if_neg hx, ite_self, List.append_nil] at same
    have quiet : Quiet x p { p with
        agents := p.agents.setIfInBounds id { a with cursor := a.cursor + 1 }
        log := if i.event.val = 0 then p.log else p.log.push ⟨now, how.stamp a.id i.event⟩ } :=
      ⟨Array.getElem?_setIfInBounds_ne hx, same⟩
    exact ⟨fun _ => quiet, quiet.advances⟩

theorem wake {time : Nat} (h : Ends (wake id time) p () q) : Deeds now xs p q := by
  obtain ⟨due, -, rfl⟩ := wake_eq_ok.1 h
  exact nobody rfl rfl

theorem revisit {link time : Nat} (h : Ends (revisit link time) p () q) : Deeds now xs p q := by
  obtain ⟨due, -, rfl⟩ := revisit_eq_ok.1 h
  exact nobody rfl rfl

end Deeds

namespace Finishes

theorem quiet (h : Finishes id now p q) (hx : x ≠ id) : Quiet x p q := by
  obtain ⟨a, -, -, rfl⟩ := h
  refine ⟨rfl, ?_⟩
  show EventLog.of (p.log.push _) x = _
  rw [EventLog.of_push, if_neg (Ne.symm hx), List.append_nil]
  rfl

theorem named (h : Finishes id now p q) (named : p.Named) : q.Named := by
  obtain ⟨a, -, -, rfl⟩ := h
  exact named

theorem diary (h : Finishes id now p q) : ∃ a, p.agents[id]? = some a ∧ q.agents[id]? = some a ∧
    a.plan.length ≤ a.cursor ∧ q.diary id = p.diary id ++ [⟨now, ⟨.finish, id, a.finishEvent, none⟩⟩] := by
  obtain ⟨a, ha, current, rfl⟩ := h
  refine ⟨a, ha, ha, Plan.get?_eq_none.1 current, ?_⟩
  show EventLog.of (p.log.push _) id = _
  rw [EventLog.of_push, if_pos rfl]
  rfl

end Finishes

/-! ## Turns -/

/-- An exchange of passengers is a deed of the vehicle and of those who leave or board. -/
theorem deeds_exchanged {stop : StopRef} (h : Exchanged id stop now p q) :
    Deeds now (id ::ₘ ((h.leaving : Multiset Nat) + (h.boarded.map Prod.snd : List Nat))) p q := by
  have self : id ∈ id ::ₘ ((h.leaving : Multiset Nat) + (h.boarded.map Prod.snd : List Nat)) :=
    Multiset.mem_cons_self ..
  have vacated := (Deeds.consume h.consumes self).trans (.setAgent h.vehicle
    (Agent.blank_withSeats (Seats.capacity_egress h.egress)) rfl self)
  have left := vacated.trans (h.leaves.relates fun x hx p q ⟨r, hc, hw⟩ =>
    (Deeds.consume hc (Multiset.mem_cons_of_mem (Multiset.mem_add.2 (.inl hx)))).trans (.wake hw))
  have seated := left.trans (.setAgent h.vehicleLeft
    (Agent.blank_withSeats (Seats.board_eq h.board).1.capacity) rfl self)
  have moved := seated.trans (.nobody (q := { h.left with
      agents := h.left.agents.setIfInBounds id { h.after with seats := h.seats }
      platforms := h.platforms }) rfl rfl)
  refine moved.trans (h.boards.relates fun row hrow p q hc => .consume hc ?_)
  exact Multiset.mem_cons_of_mem (Multiset.mem_add.2 (.inr (List.mem_map_of_mem hrow)))

/-- A turn is a deed of the agent, or its end, or passengers leave and board. -/
theorem deeds_dispatched {b : Bool} (h : Dispatched id now p b q) :
    Deeds now {id} p q ∨ Finishes id now p q ∨ ∃ stop, Nonempty (Exchanged id stop now p q) := by
  have self : id ∈ ({id} : Multiset Nat) := Multiset.mem_singleton_self id
  cases h with
  | finished found current => exact .inr (.inl ⟨_, found, current, rfl⟩)
  | handedOver found current sent =>
    obtain ⟨record, -, -, rfl⟩ := send_ends sent
    exact .inl (.nobody rfl rfl)
  | refused => exact .inl (Std.Refl.refl p)
  | @outbound a i link velocity x y q found current action view pushed consumes =>
    have pushed : Deeds now {id} p { p with links := p.links.setIfInBounds link.val (.proxy y) } :=
      .nobody rfl rfl
    have onLink := pushed.trans (.setAgent (b := a.onLink now now) found rfl rfl self)
    exact .inl (onLink.trans (.consume consumes self))
  | @entered a i link velocity v w l finish r q found current action view owned time pushed consumes
      scheduled =>
    have pushed : Deeds now {id} p { p with links := p.links.setIfInBounds link.val w } :=
      .nobody rfl rfl
    have onLink := pushed.trans (.setAgent (b := a.onLink now finish) found rfl rfl self)
    have consumed : Deeds now {id} p r := onLink.trans (.consume consumes self)
    exact .inl (consumed.trans (relates_scheduled Deeds.revisit scheduled Eq.symm))
  | paused found current action consumes wakes =>
    exact .inl ((Deeds.consume consumes self).trans (.wake wakes))
  | queued found current action consumes waiting egress =>
    exact .inl ((Deeds.consume consumes self).trans (.nobody rfl rfl))
  | @exchanged a i stop q found current action exchange => exact .inr (.inr ⟨stop, ⟨exchange⟩⟩)
  | departed found current action consumes => exact .inl (.consume consumes self)

/-- Whoever may act in a turn of an agent: the agent, its passengers, and whoever waits at a stop. -/
def acting (p : Partition) (id : Nat) : Multiset Nat := p.aboardOf {id} + p.platforms.everybody

theorem mem_acting_self (p : Partition) (id : Nat) : id ∈ p.acting id := by
  rw [acting, aboardOf_singleton]
  exact Multiset.mem_add.2 (.inl (Multiset.mem_cons_self ..))

/-- Whoever leaves was aboard, and whoever boards has waited. -/
theorem mem_acting_of_exchanged {stop : StopRef} (h : Exchanged id stop now p q) :
    ∀ x ∈ id ::ₘ ((h.leaving : Multiset Nat) + (h.boarded.map Prod.snd : List Nat)), x ∈ p.acting id := by
  obtain ⟨seated, reseated⟩ := reseated_exchanged h
  intro x hx
  rcases Multiset.mem_cons.1 hx with rfl | hx
  · exact mem_acting_self p x
  · rw [acting, aboardOf_singleton]
    rcases Multiset.mem_add.1 hx with hx | hx
    · exact Multiset.mem_add.2
        (.inl (Multiset.mem_cons_of_mem (Multiset.mem_of_le reseated.aboard hx)))
    · exact Multiset.mem_add.2 (.inr (reseated.platforms ▸ Multiset.mem_add.2 (.inr hx)))

/-- A turn is a deed of those who may act in it, or the end of the agent. -/
theorem deeds_acting {b : Bool} (h : Dispatched id now p b q) :
    Deeds now (p.acting id) p q ∨ Finishes id now p q := by
  rcases deeds_dispatched h with deeds | finishes | ⟨stop, ⟨exchange⟩⟩
  · exact .inl (deeds.mono fun x hx => Multiset.mem_singleton.1 hx ▸ mem_acting_self p id)
  · exact .inr finishes
  · exact .inl ((deeds_exchanged exchange).mono (mem_acting_of_exchanged exchange))

/-- Whoever enters a gateway keeps its place in its plan. -/
theorem deeds_admitted {g k : Gateway} {waiting : List (Nat × Nat)} (h : Admitted now g waiting p k q) :
    Deeds now (waiting.map Prod.fst : List Nat) p q := by
  induction h with
  | nobody => exact Std.Refl.refl _
  | full => exact Std.Refl.refl _
  | @entered g k p q id part finish rest a room enters _ ih =>
    have onLink : Deeds now (((id, part) :: rest).map Prod.fst : List Nat) p _ :=
      .setAgent (b := a.onLink now finish) enters.found rfl rfl (by simp)
    refine onLink.trans (ih.mono fun x hx => ?_)
    rw [List.map_cons, ← Multiset.cons_coe]
    exact Multiset.mem_cons_of_mem hx

theorem deeds_drained {link : Nat} (h : Ends (drainInbound link now) p () q) :
    Deeds now p.standing p q := by
  obtain ⟨v, view, ⟨g, k, r, rfl, admitted, rfl⟩ | ⟨-, rfl⟩⟩ := drainInbound_ends h
  · have inside : ∀ x ∈ (g.inbound.map Prod.fst : List Nat), x ∈ p.standing := by
      intro x hx
      have hset := standing_setView (w := .remote 0 0) view
      rw [show (LinkView.remote 0 0).standing = 0 from rfl, add_zero] at hset
      exact hset ▸ Multiset.mem_add.2 (.inr (Multiset.mem_add.2 (.inr hx)))
    exact ((deeds_admitted admitted).mono inside).trans (.nobody rfl rfl)
  · exact Std.Refl.refl p

end Partition

end Mobility
