import Mobility.Proofs.Entries
import Mobility.Proofs.Passengers.Calls

/-!
# Kinds of stamps

It isn't the instruction which says with which kind it is stamped, but how it is consumed. A stamp is in order if it
is the one which the instruction asks for; there is one exception, an agent which boards though its plan doesn't go on
with boarding (`Agent.OmitsBoarding`). Whatever a partition does at a moment of its second, and even if it fails, it
only makes such stamps (`Partition.stamps_perform`), if rows are in step with the plans of those who stand in them.
-/

set_option autoImplicit false

namespace Mobility

open Act

/-! ## What plans ask for -/

/-- The kind of the stamp which an instruction of this kind asks for. -/
def Kind.stampKind : Kind → StampKind
  | access => .access
  | egress => .egress
  | linkTraversal | sleepFor | sleepUntil | stopArrive | stopDelay | stopDepart | wait => .advance

theorem Kind.stampKind_eq_advance {k : Kind} (access : k ≠ .access) (egress : k ≠ .egress) :
    k.stampKind = .advance := by
  cases k with
  | access => exact absurd rfl access
  | egress => exact absurd rfl egress
  | linkTraversal | sleepFor | sleepUntil | stopArrive | stopDelay | stopDepart | wait => rfl

/-- The kind of the stamps which are made for instructions consumed in this way. -/
def Consumption.stampKind : Consumption → StampKind
  | advance => .advance
  | access _ => .access
  | egress _ => .egress

theorem Consumption.kind_eq (how : Consumption) (id : Nat) (event : EventId) :
    (how.stamp id event).kind = how.stampKind := by
  cases how <;> rfl

/-- The kind of an instruction of a plan. -/
def Plan.kindAt (plan : Plan) (k : Nat) : Option Kind := (plan.get? k).toOption.join.map Instruction.kind

theorem Plan.kindAt_eq {plan : Plan} {k : Nat} {i : Instruction} (h : plan.get? k = .ok (some i)) :
    plan.kindAt k = some i.kind := by
  rw [kindAt, h]
  rfl

/-- Whoever has waited boards then. -/
def Plan.Boards (plan : Plan) : Prop :=
  ∀ k < plan.length, plan.kindAt k = some .wait → plan.kindAt (k + 1) = some .access

instance (plan : Plan) : Decidable plan.Boards :=
  inferInstanceAs (Decidable (∀ k < plan.length, plan.kindAt k = some .wait → plan.kindAt (k + 1) = some .access))

/-- The agent has just begun to wait for a vehicle which it is going to leave after its next instruction, and this
instruction isn't boarding. -/
def Agent.OmitsBoarding (a : Agent) (i : Instruction) : Prop :=
  i.kind ≠ .access ∧ ∃ stop route index, a.Waits stop route index

/-- Nobody omits boarding whose plan doesn't. -/
theorem Plan.Boards.omits {a : Agent} {i : Instruction} (h : a.plan.Boards) (current : a.current = .ok (some i)) :
    ¬ a.OmitsBoarding i := by
  rintro ⟨other, stop, route, index, before, after, ref, at_, leaving, previous, -⟩
  unfold Agent.previous at previous
  split at previous
  · cases previous
  · rename_i begun
    have next : a.plan.kindAt (a.cursor - 1 + 1) = some i.kind := by
      rw [Nat.sub_add_cancel (Nat.one_le_iff_ne_zero.2 begun)]
      exact Plan.kindAt_eq current
    have boarding := h (a.cursor - 1) (Plan.lt_length_of_get? previous) (Plan.kindAt_eq previous)
    exact other (Option.some.inj (next.symm.trans boarding))

theorem Agent.current_congr {a b : Agent} (plan : a.plan = b.plan) (cursor : a.cursor = b.cursor) :
    a.current = b.current := by
  rw [current, plan, cursor]
  rfl

namespace Partition

variable {p q r : Partition} {v id link now x : Nat} {hand : Multiset Nat} {st : Stamp}

/-- What a stamp is made for which is new in `q`: an agent consumes an instruction which asks for it or which it
boards with, or nothing is left of its plan. -/
inductive Makes (now : Nat) (p q : Partition) (st : Stamp) : Prop where
  | consumes {a : Agent} {i : Instruction} (found : p.agents[st.what.agent]? = some a)
      (current : a.current = .ok (some i)) (moves : q.cursorOf st.what.agent = a.cursor + 1) (time : st.time = now)
      (event : st.what.event = i.event)
      (kind : st.what.kind = i.kind.stampKind ∨ st.what.kind = .access ∧ a.OmitsBoarding i)
  | finishes {a : Agent} (found : p.agents[st.what.agent]? = some a) (current : a.current = .ok none)
      (time : st.time = now) (event : st.what.event = a.finishEvent) (kind : st.what.kind = .finish)

/-- The stamps which are new in `q` are those which have to be made. -/
def Stamps (now : Nat) (p q : Partition) : Prop :=
  ∃ new, q.log.toList = p.log.toList ++ new ∧ ∀ st ∈ new, Makes now p q st

instance : Std.Refl (Stamps now) := ⟨fun _ => ⟨[], (List.append_nil _).symm, nofun⟩⟩

/-! ## Where nobody moves -/

theorem Unmoved.stamps (h : Unmoved p q) : Stamps now p q := ⟨[], by rw [h.log, List.append_nil], nofun⟩

/-- Whoever is found has the same instructions in front and behind. -/
theorem Unmoved.plan (h : Unmoved p q) {b : Agent} (hb : q.agents[id]? = some b) :
    ∃ a, p.agents[id]? = some a ∧ a.id = b.id ∧ a.plan = b.plan ∧ a.cursor = b.cursor ∧
      a.finishEvent = b.finishEvent := by
  obtain ⟨a, ha, blank, cursor⟩ := h.found hb
  have finish : a.blank.finishEvent = b.blank.finishEvent := congrArg Agent.finishEvent blank
  exact ⟨a, ha, Agent.id_of_blank blank, Agent.plan_of_blank blank, cursor, finish⟩

theorem Unmoved.named (h : Unmoved p q) (named : p.Named) : q.Named := by
  intro x b hb
  obtain ⟨a, ha, same, -⟩ := h.plan hb
  exact same.symm.trans (named x a ha)

theorem Makes.before (h : Unmoved p q) (k : Makes now q r st) : Makes now p r st := by
  cases k with
  | @consumes b i found current moves time event kind =>
    obtain ⟨a, ha, -, plan, cursor, -⟩ := h.plan found
    have same := Agent.current_congr plan cursor
    have waits : b.OmitsBoarding i → a.OmitsBoarding i := by
      rintro ⟨other, stop, route, index, waits⟩
      refine ⟨other, stop, route, index, ?_⟩
      unfold Agent.Waits Agent.previous at waits ⊢
      rwa [plan, cursor]
    exact .consumes ha (same.trans current) (cursor ▸ moves) time event (kind.imp_right (And.imp_right waits))
  | @finishes b found current time event kind =>
    obtain ⟨a, ha, -, plan, cursor, finish⟩ := h.plan found
    have same := Agent.current_congr plan cursor
    exact .finishes ha (same.trans current) time (event.trans finish.symm) kind

theorem Makes.after (h : Makes now p q st) (k : Unmoved q r) : Makes now p r st := by
  cases h with
  | consumes found current moves time event kind =>
    exact .consumes found current ((k.cursorOf _).trans moves) time event kind
  | finishes found current time event kind => exact .finishes found current time event kind

theorem Stamps.before (h : Unmoved p q) (k : Stamps now q r) : Stamps now p r := by
  obtain ⟨new, log, makes⟩ := k
  exact ⟨new, by rw [log, h.log], fun st hst => (makes st hst).before h⟩

theorem Stamps.after (h : Stamps now p q) (k : Unmoved q r) : Stamps now p r := by
  obtain ⟨new, log, makes⟩ := h
  exact ⟨new, by rw [k.log, log], fun st hst => (makes st hst).after k⟩

theorem spans_stamps : Spans (Stamps now) where
  still := Unmoved.stamps
  before := Stamps.before
  after := Stamps.after

/-! ## Consuming -/

/-- The stamp of an instruction which an agent consumes is in order if it asks for it, or if the agent boards
with it. -/
def Suits (p : Partition) (id : Nat) (how : Consumption) : Prop :=
  ∀ a i, p.agents[id]? = some a → a.current = .ok (some i) →
    how.stampKind = i.kind.stampKind ∨ how.stampKind = .access ∧ a.OmitsBoarding i

theorem Makes.of_suits {a : Agent} {i : Instruction} {how : Consumption} (found : p.agents[x]? = some a)
    (current : a.current = .ok (some i)) (moves : q.cursorOf x = a.cursor + 1)
    (suits : how.stampKind = i.kind.stampKind ∨ how.stampKind = .access ∧ a.OmitsBoarding i) :
    Makes now p q ⟨now, how.stamp x i.event⟩ := by
  have own : (how.stamp x i.event).agent = x := how.agent_stamp x i.event
  refine .consumes (a := a) (i := i) (own.symm ▸ found) current (own.symm ▸ moves) rfl (how.event_stamp x i.event) ?_
  rw [how.kind_eq]
  exact suits

/-- Consuming an instruction fails before anything has changed. -/
theorem stamps_consume {how : Consumption} (named : p.Named) (suits : p.Suits id how) :
    Leaves (Stamps now) (consume id how now) p := by
  refine .look (looks_agent id) fun a found => .look (looks_attempt _) fun ⟨b, event⟩ consumed => ?_
  obtain ⟨found, -⟩ := agent_eq_ok.1 found
  obtain ⟨i, current, rfl, rfl⟩ := Agent.consume_eq_ok (attempt_eq_ok.1 consumed).1
  obtain ⟨inside, -⟩ := Array.getElem?_eq_some_iff.1 found
  have moved := Array.getElem?_setIfInBounds_self_of_lt (a := { a with cursor := a.cursor + 1 }) inside
  by_cases silent : i.event.val = 0
  · simp only [if_pos silent]
    exact .of_ends (q := { p with agents := p.agents.setIfInBounds id { a with cursor := a.cursor + 1 } }) (a := ())
      (bind_eq_ok.2 ⟨(), _, setAgent_eq_ok.2 rfl, pure_eq_ok.2 ⟨rfl, rfl⟩⟩) ⟨[], (List.append_nil _).symm, nofun⟩
  · simp only [if_neg silent]
    refine .of_ends (a := ()) (bind_eq_ok.2 ⟨(), _, setAgent_eq_ok.2 rfl, publish_eq_ok.2 rfl⟩)
      ⟨[⟨now, how.stamp a.id i.event⟩], Array.toList_push, fun st hst => ?_⟩
    obtain rfl := List.mem_singleton.1 hst
    obtain rfl : a.id = id := named id a found
    exact .of_suits found current (cursorOf_eq (a := { a with cursor := a.cursor + 1 }) moved) (suits a i found current)

/-! ## Turns -/

theorem mem_stamped {how : Consumption} (h : st ∈ p.stamped now how x) :
    ∃ a i, p.agents[x]? = some a ∧ a.current = .ok (some i) ∧ st = ⟨now, how.stamp x i.event⟩ := by
  unfold stamped at h
  split at h
  · rename_i i seen
    obtain ⟨a, found, current⟩ := Option.map_eq_some_iff.1 seen
    split at h
    · cases h
    · exact ⟨a, i, found, current, List.mem_singleton.1 h⟩
  · cases h

/-- Whoever leaves or boards a vehicle at a stop is stamped as its plan asks for, unless it omits boarding. -/
theorem CallsAt.stamps {a : Agent} {stop : StopRef} {event : EventId} (h : CallsAt v a stop now p q)
    (coupled : p.Coupled hand) (present : v ∈ hand + p.roots) (found : p.agents[v]? = some a)
    (current : a.current = .ok (some ⟨event, .stopDelay stop⟩)) : Stamps now p q := by
  refine ⟨_, h.log, fun st hst => ?_⟩
  obtain ⟨⟨x, how⟩, row, hst⟩ := List.mem_flatMap.1 hst
  obtain ⟨b, i, hb, ahead, rfl⟩ := mem_stamped hst
  have aboard : ∀ x ∈ p.rowOf v stop.index.val ++ (p.boarders a stop).map Prod.snd, ∀ b, p.agents[x]? = some b →
      q.cursorOf x = b.cursor + 1 := by
    intro x hx b hb
    obtain ⟨c, hc, moved⟩ := h.passengers x hx
    obtain rfl := Option.some.inj (hb.symm.trans hc)
    exact cursorOf_eq moved
  rcases List.mem_cons.1 row with vehicle | passenger
  · obtain ⟨rfl, rfl⟩ := Prod.mk.inj vehicle
    obtain rfl := Option.some.inj (found.symm.trans hb)
    obtain ⟨seats, moved, -⟩ := h.vehicle
    obtain rfl := Option.some.inj (Except.ok.inj (current.symm.trans ahead))
    exact .of_suits found current (cursorOf_eq moved) (.inl rfl)
  · rcases List.mem_append.1 passenger with leaves | boards
    · obtain ⟨y, hy, same⟩ := List.mem_map.1 leaves
      obtain ⟨rfl, rfl⟩ := Prod.mk.inj same
      obtain ⟨c, hc, number, leaving, next, -⟩ := coupled.aboard v present _ y hy
      obtain rfl := Option.some.inj (hb.symm.trans hc)
      obtain rfl := Option.some.inj (Except.ok.inj (next.symm.trans ahead))
      exact .of_suits hb next (aboard y (List.mem_append_left _ hy) b hb) (.inl rfl)
    · obtain ⟨⟨index, y⟩, hy, same⟩ := List.mem_map.1 boards
      obtain ⟨rfl, rfl⟩ := Prod.mk.inj same
      obtain ⟨-, waiting⟩ := Platforms.mem_waiting (List.mem_of_mem_take hy)
      obtain ⟨c, hc, waits⟩ := coupled.waiting _ _ _ y waiting
      obtain rfl := Option.some.inj (hb.symm.trans hc)
      refine .of_suits hb ahead (aboard y (List.mem_append_right _ (List.mem_map.2 ⟨_, hy, rfl⟩)) b hb) ?_
      by_cases boarding : i.kind = .access
      · exact .inl (by rw [boarding]; rfl)
      · exact .inr ⟨rfl, boarding, _, _, _, waits⟩

/-- An agent which takes its turn, and all with it, are stamped as their plans ask for. -/
theorem stamps_dispatch (h : Ready now hand p) (coupled : p.Coupled hand) (present : v ∈ hand + p.roots)
    (free : Free hand v p) : Leaves (Stamps now) (dispatch v now) p := by
  obtain ⟨a, found⟩ := h.found present
  refine spans_stamps.dispatch found (fun ahead => ?_) (fun event stop ahead => ?_)
    fun i ahead access egress q still => ?_
  · refine .of_ends (ends_finish found) ⟨[⟨now, ⟨.finish, v, a.finishEvent, none⟩⟩], Array.toList_push, fun st hst => ?_⟩
    obtain rfl := List.mem_singleton.1 hst
    exact .finishes found ahead rfl rfl rfl
  · obtain ⟨q, ends, calls⟩ := h.callsAt present free found ahead
    exact .of_ends ends (calls.stamps coupled present found ahead)
  · -- The agent is still about to consume the same instruction, and it isn't one which a vehicle consumes for it.
    refine stamps_consume (still.named h.able.named) fun b j hb current => .inl ?_
    obtain ⟨c, hc, -, plan, cursor, -⟩ := still.plan hb
    obtain rfl := Option.some.inj (found.symm.trans hc)
    have same := Agent.current_congr plan cursor
    obtain rfl := Option.some.inj (Except.ok.inj (ahead.symm.trans (same.trans current)))
    exact (Kind.stampKind_eq_advance access egress).symm

/-! ## Waiting -/

/-- How an agent begins to wait at a stop of the partition: it queues if its plan has leaving after the next
instruction, and the partition fails otherwise. -/
theorem dispatch_wait {a : Agent} {event : EventId} {route : RouteId} {stop : StopId} (h : Ready now hand p)
    (found : p.agents[v]? = some a) (current : a.current = .ok (some ⟨event, .wait route stop⟩))
    (here : p.StopAt stop.val p.rank) :
    (∃ later leaving q, a.plan.get? (a.cursor + 2) = .ok (some ⟨later, .egress leaving⟩) ∧
      Ends (dispatch v now) p true q ∧ q.platforms = p.platforms.add stop.val route.val leaving.index.val v) ∨
    ∃ next r, a.plan.get? (a.cursor + 2) = .ok next ∧ (∀ later leaving, next ≠ some ⟨later, .egress leaving⟩) ∧
      (dispatch v now).run p = .error (.fault (.noEgress v stop.val next)) r := by
  obtain ⟨next, get, -⟩ := h.able.grounded v a (a.cursor + 2) found
  have consumes : Fails (fun _ => False) (consume v .advance now) p :=
    fails_consume_current found current
  obtain ⟨⟨⟩, r, consumes⟩ := ends_of_never consumes
  have platforms : r.platforms = p.platforms := (still_consume consumes).platforms
  have moved : r.agents[v]? = some { a with cursor := a.cursor + 1 } := by
    obtain ⟨b, i, hb, -, rfl⟩ := consume_ends consumes
    obtain rfl := Option.some.inj (found.symm.trans hb)
    exact Array.getElem?_setIfInBounds_self_of_lt (Array.getElem?_eq_some_iff.1 found).1
  obtain ⟨link, view, located, seen, owner⟩ := here
  have turn : (dispatch v now).run p = (wait v route stop now).run p := by
    rw [dispatch, run_bind_of_ends (ends_agent found), run_bind_of_ends (attempt_eq_ok.2 ⟨current, rfl⟩)]
  rw [wait, run_bind_of_ends (stopOwner_eq_ok.2 ⟨link, view, located, seen, owner, rfl⟩),
    run_bind_of_ends (ends_get p), if_neg (not_not.2 rfl), run_bind_of_ends consumes,
    run_bind_of_ends (ends_agent moved), run_bind_of_ends (attempt_eq_ok.2 ⟨get, rfl⟩)] at turn
  split at turn
  · rename_i later leaving
    exact .inl ⟨later, leaving, _, get, turn,
      congrArg (Platforms.add · stop.val route.val leaving.index.val v) platforms⟩
  · rename_i other
    exact .inr ⟨next, r, get, fun later leaving same => other later leaving same, turn⟩

/-! ## Moments -/

/-- Whatever a partition does next, and even if it fails, all that it stamps is in order. -/
theorem stamps_perform {m : Moment} (ready : m.isWorking = true → Ready now m.hand p) (coupled : p.Coupled m.hand) :
    Leaves (Stamps now) (m.perform now) p := by
  refine spans_stamps.perform fun v turn => ?_
  have ready := ready (by cases turn <;> rfl)
  obtain ⟨present, free⟩ := turn.free ready.once
  exact stamps_dispatch ready coupled present free

end Partition

end Mobility
