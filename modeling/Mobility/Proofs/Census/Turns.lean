import Mathlib.Data.Multiset.Bind
import Mobility.Proofs.Census.Holders
import Mobility.Proofs.Partition.Letters
import Mobility.Proofs.Partition.Queues

/-!
# The census in the work of a second

The census of a partition lists everybody who is in it: who has finished there, who is due, who stands
on a link, in front of one, or is to be sent to one, who waits at a stop, who is queued for a neighbor,
and who is aboard of any of these. Agents which are just about to act are counted apart, as agents at
hand. A turn moves an agent from one place to another, and passengers between a vehicle and the rest,
so the work of a second leaves the census as it is.
-/

set_option autoImplicit false

namespace Mobility

open Act

namespace EventLog

/-- The agents whose end is stamped. -/
def finishers (log : EventLog) : List Nat :=
  log.toList.filterMap fun stamp =>
    if stamp.what.kind = .finish then some stamp.what.agent else none

theorem finishers_push (log : EventLog) (stamp : Stamp) :
    finishers (log.push stamp) =
      finishers log ++ if stamp.what.kind = .finish then [stamp.what.agent] else [] := by
  unfold finishers
  rw [Array.toList_push, List.filterMap_append]
  by_cases h : stamp.what.kind = .finish <;> simp [h]

end EventLog

namespace Partition

/-- The passengers of an agent, as far as the partition knows. -/
def crew (p : Partition) (id : Nat) : Multiset Nat := (p.agents[id]?).elim 0 (·.seats.riders)

/-- Everybody on a link, in front of one, or to be sent to one. -/
def standing (p : Partition) : Multiset Nat := (p.links.toList.map LinkView.standing).sum

/-- Everybody who is in the partition without being a passenger or waiting for a vehicle. -/
def roots (p : Partition) : Multiset Nat := p.log.finishers + p.dueAgents.held + p.standing

/-- These agents, with everybody aboard. -/
def aboardOf (p : Partition) (ids : Multiset Nat) : Multiset Nat := ids + ids.bind p.crew

/-- Everybody in the partition, with the agents at hand. -/
def census (p : Partition) (hand : Multiset Nat) : Multiset Nat :=
  p.aboardOf (hand + p.roots) + p.platforms.everybody + p.outbox.queued

/-- Only vehicles carry passengers, and vehicles neither wait nor are passengers themselves. -/
structure Orderly (p : Partition) : Prop where
  pedestrians : ∀ id, p.isVehicle id = some false → p.crew id = 0
  riders : ∀ id, ∀ x ∈ p.crew id, p.isVehicle x = some false
  waiting : ∀ x ∈ p.platforms.everybody, p.isVehicle x = some false
  plans : ∀ (id : Nat) a k i route stop, p.agents[id]? = some a → a.isVehicle = true →
    a.plan.get? k = .ok (some i) → i.action ≠ .wait route stop
  sealed : p.outbox.Proper (AgentRecord.Proper p.isVehicle) p.links.size

variable {p q r : Partition} {id : Nat} {hand : Multiset Nat}

theorem aboardOf_add (p : Partition) (xs ys : Multiset Nat) :
    p.aboardOf (xs + ys) = p.aboardOf xs + p.aboardOf ys := by
  simp only [aboardOf, Multiset.add_bind]
  abel

theorem aboardOf_singleton (p : Partition) (id : Nat) : p.aboardOf {id} = id ::ₘ p.crew id := by
  simp [aboardOf]

theorem aboardOf_congr {ids : Multiset Nat} (h : ∀ id ∈ ids, q.crew id = p.crew id) :
    q.aboardOf ids = p.aboardOf ids := by
  rw [aboardOf, aboardOf, Multiset.bind_congr h]

theorem crew_setIfInBounds {a b : Agent} (h : p.agents[id]? = some a) (x : Nat) :
    crew { p with agents := p.agents.setIfInBounds id b } x = if x = id then b.seats.riders else p.crew x := by
  obtain ⟨hlt, -⟩ := Array.getElem?_eq_some_iff.1 h
  unfold crew
  by_cases hx : x = id
  · subst hx
    rw [if_pos rfl, Array.getElem?_setIfInBounds_self_of_lt hlt]
    rfl
  · rw [if_neg hx, Array.getElem?_setIfInBounds_ne (Ne.symm hx)]

/-- Everybody who is in the partition is counted. -/
theorem census_eq (p : Partition) (hand : Multiset Nat) :
    p.census hand = p.aboardOf hand + p.aboardOf p.roots + p.platforms.everybody + p.outbox.queued := by
  rw [census, aboardOf_add]

theorem Orderly.of_kept {R : LinkView → LinkView → Prop} (o : p.Orderly) (k : Kept R p q)
    (pedestrians : ∀ id, p.isVehicle id = some false → q.crew id = 0)
    (riders : ∀ id, ∀ x ∈ q.crew id, p.isVehicle x = some false)
    (waiting : ∀ x ∈ q.platforms.everybody, p.isVehicle x = some false)
    (sealed : q.outbox.Proper (AgentRecord.Proper p.isVehicle) p.links.size) : q.Orderly := by
  refine ⟨?_, ?_, ?_, fun id b n i route stop hb hv hi => ?_, ?_⟩
  · rwa [k.isVehicle]
  · rwa [k.isVehicle]
  · rwa [k.isVehicle]
  · obtain ⟨a, ha, hblank⟩ := k.agent hb
    have hplan : b.blank.plan = a.blank.plan := congrArg Agent.plan hblank
    have hvehicle : b.blank.isVehicle = a.blank.isVehicle := congrArg Agent.isVehicle hblank
    exact o.plans id a n i route stop ha (hvehicle ▸ hv) (hplan ▸ hi)
  · rwa [k.isVehicle, k.size]

/-! ## Acts which move nobody -/

/-- Nobody has come, gone or boarded. -/
structure Still (p q : Partition) : Prop where
  roots : q.roots = p.roots
  platforms : q.platforms = p.platforms
  outbox : q.outbox = p.outbox
  crew : ∀ id, q.crew id = p.crew id

instance : Std.Refl Still := ⟨fun _ => ⟨rfl, rfl, rfl, fun _ => rfl⟩⟩

instance : IsTrans Partition Still where
  trans _ _ _ h k := ⟨k.roots.trans h.roots, k.platforms.trans h.platforms, k.outbox.trans h.outbox,
    fun id => (k.crew id).trans (h.crew id)⟩

namespace Still

theorem aboardOf (h : Still p q) (ids : Multiset Nat) : q.aboardOf ids = p.aboardOf ids :=
  aboardOf_congr fun id _ => h.crew id

theorem census (h : Still p q) (hand : Multiset Nat) : q.census hand = p.census hand := by
  rw [Partition.census, Partition.census, h.roots, h.aboardOf, h.platforms, h.outbox]

theorem orderly {R : LinkView → LinkView → Prop} (h : Still p q) (k : Kept R p q) (o : p.Orderly) :
    q.Orderly :=
  o.of_kept k (fun id hv => (h.crew id).trans (o.pedestrians id hv))
    (fun id x hx => o.riders id x (h.crew id ▸ hx)) (fun x hx => o.waiting x (h.platforms ▸ hx))
    (h.outbox ▸ o.sealed)

end Still

theorem still_setAgent {a b : Agent} (h : p.agents[id]? = some a) (hb : b.seats.riders = a.seats.riders) :
    Still p { p with agents := p.agents.setIfInBounds id b } := by
  refine ⟨rfl, rfl, rfl, fun x => ?_⟩
  rw [crew_setIfInBounds h]
  split
  · rename_i hx
    rw [hb, crew, hx, h]
    rfl
  · rfl

theorem still_consume {how : Consumption} {now : Nat} (h : Ends (consume id how now) p () q) :
    Still p q := by
  obtain ⟨a, i, ha, -, rfl⟩ := consume_ends h
  have moved := still_setAgent (b := { a with cursor := a.cursor + 1 }) ha rfl
  refine ⟨?_, rfl, rfl, moved.crew⟩
  -- What is stamped is no end.
  have stamped : EventLog.finishers (if i.event.val = 0 then p.log else
      p.log.push ⟨now, how.stamp a.id i.event⟩) = p.log.finishers := by
    split
    · rfl
    · cases how <;> simp [EventLog.finishers_push, Consumption.stamp]
  show ((EventLog.finishers _ : List Nat) : Multiset Nat) + _ + p.standing = _
  rw [stamped, roots]

theorem still_revisit {link time : Nat} (h : Ends (revisit link time) p () q) : Still p q := by
  obtain ⟨due, -, rfl⟩ := revisit_eq_ok.1 h
  exact ⟨rfl, rfl, rfl, fun _ => rfl⟩

/-- A view with the same agents. -/
theorem still_setView {link : Nat} {v w : LinkView} (h : p.links[link]? = some v)
    (hw : w.standing = v.standing) : Still p { p with links := p.links.setIfInBounds link w } := by
  refine ⟨?_, rfl, rfl, fun _ => rfl⟩
  have hset := sum_setIfInBounds LinkView.standing w h
  rw [hw] at hset
  show _ + _ + ((p.links.setIfInBounds link w).toList.map LinkView.standing).sum = _
  rw [add_right_cancel hset, roots, standing]

/-! ## Acts which put somebody somewhere -/

/-- The agent has been put somewhere, with everybody aboard. -/
structure Placed (id : Nat) (p q : Partition) : Prop where
  census : ∀ hand, q.census hand = p.census hand + p.aboardOf {id}
  crew : ∀ x, q.crew x = p.crew x

/-- A place among the roots. -/
theorem placed_of_roots (hroots : q.roots = p.roots + {id}) (hcrew : ∀ x, q.crew x = p.crew x)
    (hplatforms : q.platforms = p.platforms) (houtbox : q.outbox = p.outbox) : Placed id p q := by
  refine ⟨fun hand => ?_, hcrew⟩
  rw [census_eq, census_eq, hroots, hplatforms, houtbox, aboardOf_congr fun x _ => hcrew x,
    aboardOf_congr fun x _ => hcrew x, aboardOf_add]
  abel

theorem roots_wake {time : Nat} (h : Ends (wake id time) p () q) : q.roots = p.roots + {id} := by
  obtain ⟨due, hadd, rfl⟩ := wake_eq_ok.1 h
  show _ + due.held + _ = _
  rw [Agenda.held_add hadd, roots]
  exact (congrArg (· + _) (add_assoc ..).symm).trans (add_right_comm ..)

theorem placed_wake {time : Nat} (h : Ends (wake id time) p () q) : Placed id p q := by
  have hroots := roots_wake h
  obtain ⟨due, -, rfl⟩ := wake_eq_ok.1 h
  exact placed_of_roots hroots (fun _ => rfl) rfl rfl

theorem Orderly.wake {time : Nat} (o : p.Orderly) (h : Ends (wake id time) p () q) :
    Placed id p q ∧ q.Orderly := by
  refine ⟨placed_wake h, ?_⟩
  have kept : Kept Eq p q := kept_wake h
  obtain ⟨due, -, rfl⟩ := wake_eq_ok.1 h
  exact o.of_kept kept o.pedestrians o.riders o.waiting o.sealed

theorem standing_setView {link : Nat} {v w : LinkView} (h : p.links[link]? = some v) :
    standing { p with links := p.links.setIfInBounds link w } + v.standing = p.standing + w.standing :=
  sum_setIfInBounds LinkView.standing w h

theorem roots_setView {link : Nat} {v w : LinkView} (h : p.links[link]? = some v)
    (hw : w.standing = v.standing + {id}) :
    roots { p with links := p.links.setIfInBounds link w } = p.roots + {id} := by
  have hset := standing_setView (w := w) h
  rw [hw, ← add_assoc, add_right_comm] at hset
  show _ + _ + standing { p with links := p.links.setIfInBounds link w } = p.roots + {id}
  rw [add_right_cancel hset]
  exact (add_assoc ..).symm

/-- The record of an agent lists everybody aboard. -/
theorem load_record {record : AgentRecord} (o : p.Orderly) (h : p.Records record) :
    record.load = p.aboardOf {record.id} ∧ record.Proper p.isVehicle := by
  have known := h.known
  obtain ⟨a, ha, -, hv, hpassengers⟩ := h
  have riders : record.riders = p.crew record.id := by
    cases hp : record.passengers with
    | none =>
      rw [AgentRecord.Known, hp] at known
      rw [o.pedestrians _ known, AgentRecord.riders, hp]
    | some passengers =>
      have rows := hpassengers passengers hp
      rw [AgentRecord.riders, hp, crew, ha]
      show ((passengers.map (·.id) : List Nat) : Multiset Nat) = a.seats.riders
      rw [← Seats.coe_carried]
      congr 1
      clear hp hpassengers
      generalize a.seats.carried = seats at rows
      induction rows with
      | nil => rfl
      | cons first _ ih => rw [List.map_cons, List.map_cons, first.2.1, ih]
  refine ⟨by rw [aboardOf_singleton, AgentRecord.load, riders], known, fun x hx => ?_⟩
  exact o.riders record.id x (riders ▸ hx)

theorem placed_record {target now : Nat} {link : Option Nat} {record : AgentRecord} (o : p.Orderly)
    (h : p.Records record) (hlink : ∀ l, link = some l → l < p.links.size) :
    Placed record.id p { p with outbox := p.outbox.addAgent target link record now } ∧
      ({ p with outbox := p.outbox.addAgent target link record now } : Partition).Orderly := by
  have kept : Kept Eq p { p with outbox := p.outbox.addAgent target link record now } :=
    Kept.setOutbox rfl rfl
  obtain ⟨hload, hproper⟩ := load_record o h
  refine ⟨⟨fun hand => ?_, fun _ => rfl⟩, o.of_kept kept o.pedestrians o.riders o.waiting ?_⟩
  · rw [census_eq, census_eq]
    show _ + _ + _ + (p.outbox.addAgent target link record now).queued = _
    rw [Outbox.queued_addAgent, hload, ← add_assoc]
    rfl
  · exact Outbox.proper_addAgent o.sealed hproper hlink

theorem placed_send {target now : Nat} {link : Option Nat} (o : p.Orderly)
    (hlink : ∀ l, link = some l → l < p.links.size) (h : Ends (send target link id now) p () q) :
    Placed id p q ∧ q.Orderly := by
  obtain ⟨record, hr, rfl, rfl⟩ := send_ends h
  exact placed_record o hr hlink

theorem Placed.orderly {R : LinkView → LinkView → Prop} (h : Placed id p q) (k : Kept R p q)
    (o : p.Orderly) (waiting : ∀ x ∈ q.platforms.everybody, p.isVehicle x = some false)
    (sealed : q.outbox.Proper (AgentRecord.Proper p.isVehicle) p.links.size) : q.Orderly :=
  o.of_kept k (fun x hv => (h.crew x).trans (o.pedestrians x hv))
    (fun x y hy => o.riders x y (h.crew x ▸ hy)) waiting sealed

/-! ## Turns -/

/-- At least `count` instructions of the agent are still to be consumed. -/
def Remains (p : Partition) (count id : Nat) : Prop :=
  ∃ a, p.agents[id]? = some a ∧ a.cursor + count ≤ a.plan.length

/-- Where an agent is after its turn, unless passengers have left or boarded: among the roots, in a
message, at a stop, or where it was if the turn isn't over. -/
inductive Put (id : Nat) (p : Partition) : Bool → Partition → Prop where
  | root {q : Partition} (roots : q.roots = p.roots + {id}) (crew : ∀ x, q.crew x = p.crew x)
      (platforms : q.platforms = p.platforms) (outbox : q.outbox = p.outbox) : Put id p true q
  | sent {target now : Nat} {record : AgentRecord} {action : Action} (records : p.Records record)
      (own : record.id = id) (owner : p.IsUpTo target action) :
      Put id p true { p with outbox := p.outbox.addAgent target none record now }
  | waits {q : Partition} {stop route index : Nat} (roots : q.roots = p.roots)
      (crew : ∀ x, q.crew x = p.crew x) (platforms : q.platforms = p.platforms.add stop route index id)
      (outbox : q.outbox = p.outbox) (walks : p.Orderly → p.isVehicle id = some false)
      (remains : q.Remains 2 id) :
      Put id p true q
  | stays {q : Partition} (still : Still p q) : Put id p false q

theorem Still.put_wake {time : Nat} (h : Still p r) (k : Ends (wake id time) r () q) :
    Put id p true q := by
  have hroots := roots_wake k
  obtain ⟨due, -, rfl⟩ := wake_eq_ok.1 k
  exact .root (h.roots ▸ hroots) h.crew h.platforms h.outbox

/-- An agent that goes onto a link is a root. -/
theorem put_pushed {link finish : Nat} {v w : LinkView} (view : p.links[link]? = some v)
    (pushed : v.push id finish = .ok (some w))
    (still : Still { p with links := p.links.setIfInBounds link w } q) : Put id p true q := by
  refine .root ?_ still.crew still.platforms still.outbox
  rw [still.roots]
  exact roots_setView view (LinkView.standing_push pushed)

theorem put_dispatched {b : Bool} {now : Nat} (h : Dispatched id now p b q) :
    Put id p b q ∨ b = false ∧ ∃ stop, Nonempty (Exchanged id stop now p q) := by
  cases h with
  | @finished a found current =>
    refine .inl (.root ?_ (fun _ => rfl) rfl rfl)
    show ((EventLog.finishers (p.log.push _) : List Nat) : Multiset Nat) + _ + p.standing = _
    rw [EventLog.finishers_push, if_pos rfl, ← Multiset.coe_add, roots, Multiset.coe_singleton]
    abel
  | handedOver found current sent owner =>
    obtain ⟨record, records, own, rfl⟩ := send_ends sent
    exact .inl (.sent records own owner)
  | refused => exact .inl (.stays (Std.Refl.refl p))
  | @outbound a i link velocity x y q found current action view pushed consumes =>
    have push : (LinkView.proxy x).push id now = .ok (some (.proxy y)) := by
      simp [LinkView.push, pushed]
    have onLink : Still { p with links := p.links.setIfInBounds link.val (.proxy y) } _ :=
      still_setAgent (b := a.onLink now now) found rfl
    exact .inl (put_pushed view push (IsTrans.trans _ _ _ onLink (still_consume consumes)))
  | @entered a i link velocity v w l finish r q found current action view owned time pushed consumes
      scheduled =>
    have still : Still r q := relates_scheduled still_revisit scheduled Eq.symm
    have onLink : Still { p with links := p.links.setIfInBounds link.val w } _ :=
      still_setAgent (b := a.onLink now finish) found rfl
    have consumed : Still _ r := still_consume consumes
    exact .inl (put_pushed view pushed
      (IsTrans.trans _ _ _ onLink (IsTrans.trans _ _ _ consumed still)))
  | paused found current action consumes wakes => exact .inl ((still_consume consumes).put_wake wakes)
  | @queued a b i route stop event leaving r found current action consumes waiting egress =>
    have still := still_consume consumes
    -- Whoever waits is no vehicle.
    have walks : p.Orderly → p.isVehicle id = some false := by
      intro o
      rw [isVehicle, found, Option.map_some]
      cases hv : a.isVehicle with
      | false => rfl
      | true => exact absurd action (o.plans id a a.cursor i route stop found hv current)
    exact .inl (.waits still.roots still.crew
      (congrArg (·.add stop.val route.val leaving.index.val id) still.platforms) still.outbox walks
      ⟨b, waiting, Plan.lt_length_of_get? egress⟩)
  | @exchanged a i stop q found current action exchange => exact .inr ⟨rfl, stop, ⟨exchange⟩⟩
  | departed found current action consumes => exact .inl (.stays (still_consume consumes))

theorem Put.placed {R : LinkView → LinkView → Prop} (h : Put id p true q) (k : Kept R p q)
    (o : p.Orderly) : Placed id p q ∧ q.Orderly := by
  cases h with
  | root roots crew platforms outbox =>
    have placed := placed_of_roots roots crew platforms outbox
    exact ⟨placed, placed.orderly k o (platforms ▸ o.waiting) (outbox ▸ o.sealed)⟩
  | @sent target now record action records own =>
    subst own
    exact placed_record o records (by simp)
  | waits roots crew platforms outbox walks =>
    have placed : Placed id p q := by
      refine ⟨fun hand => ?_, crew⟩
      rw [aboardOf_singleton, o.pedestrians id (walks o), census, census, roots, aboardOf_congr fun x _ => crew x,
        platforms, outbox, Platforms.everybody_add, ← Multiset.singleton_add, add_zero]
      abel
    refine ⟨placed, placed.orderly k o (fun x hx => ?_) (outbox ▸ o.sealed)⟩
    rw [platforms, Platforms.everybody_add] at hx
    rcases Multiset.mem_add.1 hx with hx | hx
    · exact o.waiting x hx
    · rw [Multiset.mem_singleton.1 hx]
      exact walks o

/-- An agent whose turn it was to do nothing more has been put somewhere. -/
theorem placed_dispatched {now : Nat} (o : p.Orderly) (h : Dispatched id now p true q) :
    Placed id p q ∧ q.Orderly := by
  have kept := (worked_dispatched h).kept
  rcases put_dispatched h with put | ⟨unfinished, -⟩
  · exact put.placed kept o
  · cases unfinished

/-- Passengers who have left have become roots. -/
theorem leftAt_along {vehicle now : Nat} {leaving : List Nat}
    (h : Along (LeftAt vehicle now) leaving p q) :
    q.roots = p.roots + (leaving : Multiset Nat) ∧ (∀ x, q.crew x = p.crew x) ∧
      q.platforms = p.platforms ∧ q.outbox = p.outbox := by
  induction h with
  | nil => exact ⟨(add_zero _).symm, fun _ => rfl, rfl, rfl⟩
  | @cons passenger rest p r q first _ ih =>
    obtain ⟨s, hconsume, hwake⟩ := first
    have still := still_consume hconsume
    obtain ⟨hroots, hcrew, hplatforms, houtbox⟩ := ih
    rw [roots_wake hwake, still.roots] at hroots
    obtain ⟨due, -, rfl⟩ := wake_eq_ok.1 hwake
    refine ⟨?_, fun x => (hcrew x).trans (still.crew x), hplatforms.trans still.platforms,
      houtbox.trans still.outbox⟩
    rw [hroots, ← Multiset.cons_coe, ← Multiset.singleton_add, add_assoc]

namespace Exchanged

variable {id now : Nat} {stop : StopRef} (e : Exchanged id stop now p q)

include e

/-- A vehicle which has consumed its instruction is otherwise what it was. -/
theorem before_eq {a : Agent} (found : p.agents[id]? = some a) : e.before = { a with cursor := a.cursor + 1 } := by
  have vehicle := e.vehicle
  obtain ⟨b, step, found', -, consumed⟩ := consume_ends e.consumes
  obtain rfl := Option.some.inj (found'.symm.trans found)
  rw [consumed, Array.getElem?_setIfInBounds_self_of_lt (Array.getElem?_eq_some_iff.1 found).1] at vehicle
  exact (Option.some.inj vehicle).symm

/-- Nobody has boarded before those who leave have left. -/
theorem platforms_left : e.left.platforms = p.platforms :=
  (leftAt_along e.leaves).2.2.1.trans (still_consume e.consumes).platforms

end Exchanged

/-- What an exchange of passengers does: whoever leaves becomes a root, and whoever boards comes from a
stop. -/
structure Reseated (id : Nat) (p q : Partition) (leaving boarded seated : Multiset Nat) : Prop where
  roots : q.roots = p.roots + leaving
  outbox : q.outbox = p.outbox
  platforms : q.platforms.everybody + boarded = p.platforms.everybody
  crew : ∀ x, q.crew x = if x = id then seated else p.crew x
  aboard : leaving ≤ p.crew id
  exchange : seated + leaving = p.crew id + boarded
  vehicle : p.crew id = 0 → p.isVehicle id = some false → seated = 0

theorem reseated_exchanged {stop : StopRef} {now : Nat} (h : Exchanged id stop now p q) :
    ∃ seated, Reseated id p q h.leaving (h.boarded.map Prod.snd : List Nat) seated := by
  have kept := (worked_left h).kept
  obtain ⟨consumed, left, before, after, leaving, seatsLeft, boarded, platforms, seats, consumes, vehicle,
    egress, leaves, vehicleLeft, board, boards⟩ := h
  have still := still_consume consumes
  have crewBefore : p.crew id = before.seats.riders := by
    rw [← still.crew, crew, vehicle]
    rfl
  obtain ⟨hroots, hcrew, hplatforms, houtbox⟩ := leftAt_along leaves
  have crewLeft : ∀ x, left.crew x = if x = id then seatsLeft.riders else p.crew x := by
    intro x
    rw [hcrew, crew_setIfInBounds vehicle, still.crew]
  -- The vehicle has the seats it had when the passengers left.
  have ridersAfter : after.seats.riders = seatsLeft.riders := by
    have := crewLeft id
    rwa [if_pos rfl, crew, vehicleLeft] at this
  obtain ⟨admits, hqueues⟩ := Seats.board_eq board
  have seated : seats.riders = seatsLeft.riders + (boarded.map Prod.snd : List Nat) :=
    ridersAfter ▸ admits.riders
  have boardsStill : Still _ q := boards.relates fun row _ p q hc => still_consume hc
  refine ⟨seats.riders, ?_, ?_, ?_, fun x => ?_, ?_, ?_, fun empty walks => ?_⟩
  · rw [boardsStill.roots]
    show left.roots = _
    rw [hroots]
    show consumed.roots + _ = _
    rw [still.roots]
  · rw [boardsStill.outbox]
    show left.outbox = _
    rw [houtbox]
    exact still.outbox
  · have hboard := Platforms.everybody_board admits.isPrefix hqueues
    rw [boardsStill.platforms]
    show platforms.everybody + _ = _
    rw [hboard, hplatforms]
    show consumed.platforms.everybody = _
    rw [still.platforms]
  · rw [boardsStill.crew]
    show crew { left with agents := left.agents.setIfInBounds id { after with seats := seats } } x = _
    rw [crew_setIfInBounds vehicleLeft, crewLeft]
    split
    · rfl
    · rfl
  · rw [crewBefore, ← Seats.riders_egress egress]
    exact Multiset.le_add_left _ _
  · rw [seated, crewBefore, ← Seats.riders_egress egress]
    abel
  · have nobody : seatsLeft.riders = 0 := by
      have := Seats.riders_egress egress
      rw [← crewBefore, empty] at this
      exact Multiset.le_zero.1 (this ▸ Multiset.le_add_right _ _)
    have capacity : after.seats.capacity = 0 := by
      have hv : left.isVehicle id = some false := by rw [kept.isVehicle, walks]
      rw [isVehicle, vehicleLeft, Option.map_some, Agent.isVehicle] at hv
      simpa using hv
    rw [seated, nobody, admits.nobody_of_capacity capacity]
    rfl

namespace Reseated

variable {leaving boarded seated : Multiset Nat}

/-- Whoever leaves or boards is no vehicle. -/
theorem walks (h : Reseated id p q leaving boarded seated) (o : p.Orderly) :
    ∀ x ∈ seated + leaving, p.isVehicle x = some false := by
  intro x hx
  rw [h.exchange] at hx
  rcases Multiset.mem_add.1 hx with hx | hx
  · exact o.riders id x hx
  · exact o.waiting x (h.platforms ▸ Multiset.mem_add.2 (.inr hx))

theorem orderly {R : LinkView → LinkView → Prop} (h : Reseated id p q leaving boarded seated)
    (k : Kept R p q) (o : p.Orderly) : q.Orderly := by
  refine o.of_kept k (fun x hx => ?_) (fun x y hy => ?_) (fun x hx => ?_) (h.outbox ▸ o.sealed)
  · rw [h.crew]
    split
    · rename_i hid
      exact h.vehicle (o.pedestrians id (hid ▸ hx)) (hid ▸ hx)
    · exact o.pedestrians x hx
  · rw [h.crew] at hy
    split at hy
    · exact h.walks o y (Multiset.mem_add.2 (.inl hy))
    · exact o.riders x y hy
  · exact o.waiting x (h.platforms ▸ Multiset.mem_add.2 (.inl hx))

/-- The census stays the same if the vehicle itself is counted once. -/
theorem census (h : Reseated id p q leaving boarded seated) (o : p.Orderly) {hand : Multiset Nat}
    (once : (hand + p.roots).count id = 1) : q.census hand = p.census hand := by
  obtain ⟨others, hothers⟩ : ∃ others, hand + p.roots = id ::ₘ others :=
    Multiset.exists_cons_of_mem (Multiset.count_pos.1 (by omega))
  have absent : id ∉ others := by
    rw [hothers, Multiset.count_cons_self] at once
    exact Multiset.count_eq_zero.1 (by omega)
  have same : q.aboardOf others = p.aboardOf others :=
    aboardOf_congr fun x hx => by rw [h.crew, if_neg fun e : x = id => absent (e ▸ hx)]
  -- Whoever leaves has nobody aboard.
  have left : q.aboardOf leaving = leaving := by
    have empty : ∀ x ∈ leaving, q.crew x = 0 := by
      intro x hx
      have walks := h.walks o x (Multiset.mem_add.2 (.inr hx))
      rw [h.crew]
      split
      · rename_i hid
        exact h.vehicle (o.pedestrians id (hid ▸ walks)) (hid ▸ walks)
      · exact o.pedestrians x walks
    rw [aboardOf, Multiset.bind_congr empty, Multiset.bind_zero, add_zero]
  have after : q.aboardOf (hand + q.roots) = {id} + seated + p.aboardOf others + leaving := by
    rw [h.roots, ← add_assoc, hothers, ← Multiset.singleton_add, aboardOf_add, aboardOf_add, same, left,
      aboardOf_singleton, h.crew, if_pos rfl, ← Multiset.singleton_add]
  have before : p.aboardOf (hand + p.roots) = {id} + p.crew id + p.aboardOf others := by
    rw [hothers, ← Multiset.singleton_add, aboardOf_add, aboardOf_singleton, ← Multiset.singleton_add]
  calc q.census hand
      = {id} + p.aboardOf others + (seated + leaving) + q.platforms.everybody + q.outbox.queued := by
        rw [Partition.census, after]
        abel
    _ = p.census hand := by
        rw [h.exchange, Partition.census, before, ← h.platforms, h.outbox]
        abel

end Reseated

/-- A turn which isn't over leaves everybody counted, if the agent itself is counted once. -/
theorem census_dispatched {now : Nat} (o : p.Orderly) (h : Dispatched id now p false q)
    (once : (hand + p.roots).count id = 1) : q.census hand = p.census hand ∧ q.Orderly := by
  have kept := (worked_dispatched h).kept
  rcases put_dispatched h with put | ⟨-, stop, ⟨exchange⟩⟩
  · cases put with
    | stays still => exact ⟨still.census hand, still.orderly kept o⟩
  · obtain ⟨seated, reseated⟩ := reseated_exchanged exchange
    exact ⟨reseated.census o once, reseated.orderly kept o⟩

/-! ## The work of a second -/

theorem census_cons (p : Partition) (id : Nat) (hand : Multiset Nat) :
    p.census (id ::ₘ hand) = p.census hand + p.aboardOf {id} := by
  rw [census_eq, census_eq, ← Multiset.singleton_add, aboardOf_add]
  abel

/-- Whoever is at hand or a root is counted, so nobody is both or twice if nobody is counted twice. -/
theorem count_roots_of_nodup (nodup : (p.census hand).Nodup) (h : id ∈ hand + p.roots) :
    (hand + p.roots).count id = 1 := by
  have le : hand + p.roots ≤ p.census hand := by
    rw [census, aboardOf, add_assoc, add_assoc]
    exact Multiset.le_add_right _ _
  exact Multiset.count_eq_one_of_mem (Multiset.nodup_of_le le nodup) h

theorem census_acted {now : Nat} (o : p.Orderly) (nodup : (p.census (id ::ₘ hand)).Nodup)
    (h : Acted id now p q) : q.census hand = p.census (id ::ₘ hand) ∧ q.Orderly := by
  rcases h with h | ⟨r, h, hwake⟩
  · obtain ⟨placed, orderly⟩ := placed_dispatched o h
    exact ⟨by rw [placed.census, census_cons], orderly⟩
  · have once := count_roots_of_nodup nodup (by simp : id ∈ id ::ₘ hand + p.roots)
    obtain ⟨hr, orderly⟩ := census_dispatched o h once
    obtain ⟨placed, orderly⟩ := orderly.wake hwake
    exact ⟨by rw [placed.census, ← census_cons, hr], orderly⟩

theorem census_acted_along {now : Nat} {ids : List Nat} (o : p.Orderly)
    (nodup : (p.census ids).Nodup) (h : Along (fun id => Acted id now) ids p q) :
    q.census 0 = p.census ids ∧ q.Orderly := by
  induction h with
  | nil => exact ⟨rfl, o⟩
  | @cons id rest p r q first _ ih =>
    obtain ⟨hr, orderly⟩ := census_acted o (show (p.census (id ::ₘ (rest : Multiset Nat))).Nodup from nodup) first
    obtain ⟨hq, orderly⟩ := ih orderly (hr ▸ nodup)
    exact ⟨hq.trans hr, orderly⟩

/-- Whoever enters a link from in front of it was there before. -/
theorem still_admitted {now : Nat} {g k : Gateway} {waiting : List (Nat × Nat)}
    (h : Admitted now g waiting p k q) :
    Still p q ∧ q.links = p.links ∧ (LinkView.gateway k).standing =
      (g.link.queue.map (·.agent) : List Nat) + (waiting.map (·.1) : List Nat) := by
  induction h with
  | nobody => exact ⟨Std.Refl.refl _, rfl, rfl⟩
  | full => exact ⟨Std.Refl.refl _, rfl, rfl⟩
  | @entered g k p q id part finish rest a room enters _ ih =>
    obtain ⟨still, links, standing⟩ := ih
    have moved : Still p _ := still_setAgent (b := a.onLink now finish) enters.found rfl
    refine ⟨IsTrans.trans _ _ _ moved still, links, ?_⟩
    rw [standing, Gateway.append, List.map_append, ← Multiset.coe_add, List.map_cons,
      ← Multiset.cons_coe, add_assoc]
    rfl

theorem still_drained {link now : Nat} (h : Ends (drainInbound link now) p () q) : Still p q := by
  obtain ⟨v, hv, ⟨g, k, r, rfl, admitted, rfl⟩ | ⟨-, rfl⟩⟩ := drainInbound_ends h
  · obtain ⟨still, links, standing⟩ := still_admitted admitted
    have view : r.links[link]? = some (.gateway g) := by rw [links, hv]
    have filled : Still r { r with links := r.links.setIfInBounds link (.gateway k) } :=
      still_setView view standing
    exact IsTrans.trans _ _ _ still filled
  · exact Std.Refl.refl p

theorem front_mem_standing {link : Nat} {v : LinkView} {head : Entry}
    (view : p.links[link]? = some v) (front : v.front? = some head) : head.agent ∈ p.standing := by
  have here : head.agent ∈ v.standing := by
    cases v with
    | owned l =>
      exact Multiset.mem_coe.2 (List.mem_map_of_mem (List.mem_of_mem_head? front))
    | gateway g =>
      exact Multiset.mem_add.2 (.inl (List.mem_map_of_mem (List.mem_of_mem_head? front)))
    | proxy | remote => cases front
  have hset := standing_setView (w := .remote 0 0) view
  rw [show (LinkView.remote 0 0).standing = 0 from rfl, add_zero] at hset
  exact hset ▸ Multiset.mem_add.2 (.inr here)

/-- Whoever stands first on a link is a root. -/
theorem front_mem_roots {link : Nat} {v : LinkView} {head : Entry} (view : p.links[link]? = some v)
    (front : v.front? = some head) : head.agent ∈ p.roots :=
  Multiset.mem_add.2 (.inr (front_mem_standing view front))

/-- Once the first agent of a link is in its new place and off the link, everybody is counted again. -/
theorem census_popped {link now : Nat} {v w w' : LinkView} {head popped : Entry} (o : p.Orderly)
    (view : p.links[link]? = some v) (front : v.front? = some head)
    (turn : Dispatched head.agent now p true q) (after : q.links[link]? = some w)
    (pops : w.pop = .ok (popped, w')) :
    census { q with links := q.links.setIfInBounds link w' } 0 = p.census 0 ∧
      ({ q with links := q.links.setIfInBounds link w' } : Partition).Orderly := by
  obtain ⟨placed, orderly⟩ := placed_dispatched o turn
  obtain ⟨w₁, hw₁, hfront⟩ := front_dispatched turn view front
  obtain rfl := Option.some.inj (hw₁.symm.trans after)
  obtain ⟨hstanding, hpopped⟩ := LinkView.standing_pop pops
  obtain rfl := Option.some.inj (hfront.symm.trans hpopped)
  -- For a moment the agent is in two places: in the new one and still at the head of the link.
  have hroots : q.roots = roots { q with links := q.links.setIfInBounds link w' } + {head.agent} := by
    have hset := standing_setView (w := w') after
    rw [hstanding, ← add_assoc, add_right_comm] at hset
    rw [roots, ← add_right_cancel hset, ← add_assoc]
    rfl
  have popped : Placed head.agent { q with links := q.links.setIfInBounds link w' } q :=
    placed_of_roots hroots (fun _ => rfl) rfl rfl
  have kept : Kept LinkView.Balanced q { q with links := q.links.setIfInBounds link w' } :=
    Kept.setView after (LinkView.balanced_pop pops)
  refine ⟨?_, orderly.of_kept (q := { q with links := q.links.setIfInBounds link w' }) kept
    orderly.pedestrians orderly.riders orderly.waiting orderly.sealed⟩
  have twice := (popped.census 0).symm.trans (placed.census 0)
  have aboard : p.aboardOf {head.agent} =
      aboardOf { q with links := q.links.setIfInBounds link w' } {head.agent} :=
    aboardOf_congr fun x _ => (placed.crew x).symm
  rw [aboard] at twice
  exact add_right_cancel twice

theorem census_drained {link now : Nat} (o : p.Orderly) (h : Ends (drainInbound link now) p () q) :
    q.census 0 = p.census 0 ∧ q.Orderly := by
  have still := still_drained h
  have balanced : Worked now p q := worked_drained h
  exact ⟨still.census 0, still.orderly balanced.kept o⟩

theorem census_served {link now : Nat} (o : p.Orderly) (nodup : (p.census 0).Nodup)
    (h : Served link now p q) : q.census 0 = p.census 0 ∧ q.Orderly := by
  induction h with
  | empty => exact ⟨rfl, o⟩
  | later view front scheduled =>
    have still := still_revisit scheduled
    exact ⟨still.census 0, still.orderly (R := Eq) (kept_revisit scheduled) o⟩
  | @blocked p r q v head view front due turn scheduled =>
    have here : head.agent ∈ 0 + p.roots := by
      rw [zero_add]
      exact front_mem_roots view front
    obtain ⟨hr, orderly⟩ := census_dispatched o turn (count_roots_of_nodup nodup here)
    have still := still_revisit scheduled
    exact ⟨(still.census 0).trans hr, still.orderly (R := Eq) (kept_revisit scheduled) orderly⟩
  | @left p r s q v w w' head popped view front due turn after pops drained served ih =>
    obtain ⟨hr, orderly⟩ := census_popped o view front turn after pops
    obtain ⟨hs, orderly⟩ := census_drained orderly drained
    obtain ⟨hq, orderly⟩ := ih orderly (hs ▸ hr ▸ nodup)
    exact ⟨hq.trans (hs.trans hr), orderly⟩

/-- Whoever is due at a second is at hand when the second is visited. -/
theorem roots_visit {now : Nat} {ids : List Nat} {dueAgents : Agenda Nat}
    (h : p.dueAgents.visit now = .ok (ids, dueAgents)) :
    (ids : Multiset Nat) + roots { p with dueAgents := dueAgents } = p.roots := by
  show (ids : Multiset Nat) + (p.log.finishers + dueAgents.held + p.standing) =
    p.log.finishers + p.dueAgents.held + p.standing
  rw [← Agenda.held_visit h]
  abel

theorem census_visit {now : Nat} {ids : List Nat} {dueAgents : Agenda Nat} (o : p.Orderly)
    (h : p.dueAgents.visit now = .ok (ids, dueAgents)) :
    census { p with dueAgents := dueAgents } ids = p.census 0 ∧
      ({ p with dueAgents := dueAgents } : Partition).Orderly := by
  refine ⟨?_, o.pedestrians, o.riders, o.waiting, o.plans, o.sealed⟩
  rw [census, roots_visit h, census, zero_add]
  rfl

theorem still_dueLinks (p : Partition) (dueLinks : Agenda Nat) :
    Still p { p with dueLinks := dueLinks } :=
  ⟨rfl, rfl, rfl, fun _ => rfl⟩

/-- The work of a second leaves everybody counted. -/
theorem census_work {now : Nat} (o : p.Orderly) (nodup : (p.census 0).Nodup)
    (h : Ends (work now) p () q) : q.census 0 = p.census 0 ∧ q.Orderly := by
  obtain ⟨ids, dueAgents, links, dueLinks, r, visit, agents, -, visits⟩ := work_ends h
  obtain ⟨taken, orderly⟩ := census_visit o visit
  obtain ⟨hr, orderly⟩ := census_acted_along orderly (taken ▸ nodup) agents
  have still := still_dueLinks r dueLinks
  have kept : Kept LinkView.Balanced r { r with dueLinks := dueLinks } :=
    Kept.aside r r.dueAgents dueLinks r.platforms r.log r.finished
  refine visits.keeps (P := fun s => s.census 0 = p.census 0 ∧ s.Orderly)
    (fun link _ s t visited hs => ?_) ⟨(still.census 0).trans (hr.trans taken), still.orderly kept orderly⟩
  obtain ⟨hs, orderly⟩ := hs
  rcases visited with ⟨v, -, -, rfl⟩ | served
  · exact ⟨hs, orderly⟩
  · obtain ⟨ht, orderly⟩ := census_served orderly (hs ▸ nodup) served
    exact ⟨ht.trans hs, orderly⟩

end Partition

end Mobility
