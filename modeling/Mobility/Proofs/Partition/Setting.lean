import Mobility.Proofs.Census.Holders
import Mobility.Proofs.Partition.Exchanges

/-!
# What acts leave alone

Nothing a partition does in a run changes who it is: its rank, its horizon, its neighbors, the plans
and seats of the agents, and which kind of view it has of each link. `Partition.Kept R p q` says
that `p` and `q` agree on all of that, and that every link has gone from its view in `p` to its view
in `q` by `R`. There are two such relations. `LinkView.Alike` only says that the views agree up to
what a run may change. `LinkView.Balanced` says more, and holds of the work of a second, but not of
the exchange: what the owner of a link owes to a neighbor, and what a neighbor has reserved beyond
what it still has to send, stays the same.
-/

set_option autoImplicit false

namespace Mobility

open Act

/-- The agent before its first step, with empty seats. -/
def Agent.blank (a : Agent) : Agent :=
  { a with cursor := 0, linkFinish := 0, linkStart := 0, seats := .free a.seats.capacity }

theorem Agent.blank_onLink (a : Agent) (start finish : Nat) : (a.onLink start finish).blank = a.blank :=
  rfl

theorem Agent.blank_withSeats {a : Agent} {seats : Seats}
    (h : seats.capacity = a.seats.capacity) : ({ a with seats := seats } : Agent).blank = a.blank := by
  simp [blank, h]

/-! ## Views of a link -/

namespace LinkView

/-- The view of the link before anybody came. -/
def cleared : LinkView → LinkView
  | owned link => owned { link with queue := [] }
  | gateway gate =>
    gateway { gate with link := { gate.link with queue := [] }, inbound := [], released := .empty }
  | proxy p => proxy { p with occupancy := 0, outbox := [] }
  | remote id owner => remote id owner

/-- How many agents from partition `part` are on the link or in front of it, or have left it without
having been reported. -/
def credit (part : Nat) : LinkView → Nat
  | gateway g =>
    g.link.queue.countP (fun e => e.fromPart = some part) +
      g.inbound.countP (fun x => x.2 = part) + (g.released.get? part).getD 0
  | owned _ | proxy _ | remote .. => 0

/-- How many agents a neighbor of the owner counts on the link. -/
def reserved : LinkView → Nat
  | proxy x => x.occupancy
  | owned _ | gateway _ | remote .. => 0

/-- How many agents a neighbor of the owner may count on the link. -/
def room : LinkView → Nat
  | proxy x => x.capacity
  | owned _ | gateway _ | remote .. => 0

/-- The agents to be sent to the owner. -/
def outgoing : LinkView → List Nat
  | proxy x => x.outbox
  | owned _ | gateway _ | remote .. => []

/-- How many agents from each partition have left the link without having been reported. -/
def released : LinkView → Table Nat
  | gateway g => g.released
  | owned _ | proxy _ | remote .. => .empty

/-- Two views of the same link at different times. -/
def Alike (v w : LinkView) : Prop := w.cleared = v.cleared

instance : Std.Refl Alike := ⟨fun _ => rfl⟩

instance : IsTrans LinkView Alike := ⟨fun _ _ _ h k => Eq.trans k h⟩

/-- Two views of the same link with the same `f`. -/
structure Same {α : Type} (f : LinkView → α) (v w : LinkView) : Prop where
  alike : Alike v w
  same : f w = f v

instance {α : Type} {f : LinkView → α} : Std.Refl (Same f) := ⟨fun _ => ⟨rfl, rfl⟩⟩

instance {α : Type} {f : LinkView → α} : IsTrans LinkView (Same f) where
  trans _ _ _ h k := ⟨IsTrans.trans _ _ _ h.alike k.alike, k.same.trans h.same⟩

/-- Two views of the same link between which no agent came from or went to another partition. -/
structure Balanced (v w : LinkView) : Prop where
  alike : Alike v w
  credit : ∀ part, w.credit part = v.credit part
  unsent : w.reserved + v.outgoing.length = v.reserved + w.outgoing.length
  room : v.reserved ≤ v.room → w.reserved ≤ w.room

instance : Std.Refl Balanced := ⟨fun _ => ⟨rfl, fun _ => rfl, rfl, fun h => h⟩⟩

instance : IsTrans LinkView Balanced where
  trans _ _ _ h k :=
    ⟨IsTrans.trans _ _ _ h.alike k.alike, fun part => (k.credit part).trans (h.credit part),
      by have := h.unsent; have := k.unsent; omega, fun hr => k.room (h.room hr)⟩

theorem balanced_push {v w : LinkView} {id finish : Nat} (h : v.push id finish = .ok (some w)) :
    Balanced v w := by
  rcases push_eq_ok h with ⟨l, m, rfl, rfl, hm⟩ | ⟨g, m, rfl, rfl, -, hm⟩ | ⟨x, y, rfl, rfl, hy⟩
  · obtain ⟨-, rfl⟩ := Link.push_eq_some hm
    exact ⟨rfl, fun _ => rfl, rfl, fun h => h⟩
  · obtain ⟨-, rfl⟩ := Link.push_eq_some hm
    exact ⟨rfl, fun part => by simp [LinkView.credit], rfl, fun h => h⟩
  · obtain ⟨hlt, rfl⟩ := Proxy.push_eq_some hy
    refine ⟨rfl, fun _ => rfl, ?_, fun _ => hlt⟩
    simp only [reserved, outgoing, List.length_append, List.length_singleton]
    omega

theorem balanced_pop {v w : LinkView} {entry : Entry} (h : v.pop = .ok (entry, w)) :
    Balanced v w := by
  rcases pop_eq_ok h with ⟨l, m, rfl, rfl, hm⟩ | ⟨g, k, rfl, rfl, hk⟩
  · obtain ⟨-, hm⟩ := Link.pop_eq_ok hm
    rw [hm]
    exact ⟨rfl, fun _ => rfl, rfl, fun h => h⟩
  · obtain ⟨hq, hk⟩ := Gateway.pop_eq_ok hk
    rw [hk]
    refine ⟨rfl, fun part => ?_, rfl, fun h => h⟩
    -- The agent which leaves the queue of the link is the one that is counted as released.
    simp only [LinkView.credit, hq, List.countP_cons, decide_eq_true_eq]
    cases hf : entry.fromPart with
    | none => simp [Gateway.count]
    | some other =>
      by_cases hp : other = part
      · subst hp
        simp only [Gateway.count, Table.get?_alter, if_true, Option.getD_some]
        omega
      · simp [Gateway.count, hp, Ne.symm hp]

end LinkView

namespace Partition

/-! ## The setting of a partition -/

/-- The seats of all agents are counted right. -/
def Honest (p : Partition) : Prop := ∀ (id : Nat) a, p.agents[id]? = some a → a.seats.Honest

/-- `q` is the same partition as `p` up to what a run may change, and `R` leads from each link of
`p` to the one of `q`. -/
structure Kept (R : LinkView → LinkView → Prop) (p q : Partition) : Prop where
  rank : q.rank = p.rank
  timing : q.timing = p.timing
  gateways : q.gateways = p.gateways
  proxies : q.proxies = p.proxies
  stopLinks : q.stopLinks = p.stopLinks
  outboxRank : q.outbox.rank = p.outbox.rank
  neighbors : q.outbox.neighbors = p.outbox.neighbors
  agents : ∀ id : Nat, q.agents[id]?.map Agent.blank = p.agents[id]?.map Agent.blank
  honest : p.Honest → q.Honest
  links : ∀ link : Nat, Option.Rel R p.links[link]? q.links[link]?

namespace Kept

variable {R S : LinkView → LinkView → Prop} {p q r : Partition}

theorem mono (hRS : ∀ {v w}, R v w → S v w) (k : Kept R p q) : Kept S p q := by
  refine ⟨k.rank, k.timing, k.gateways, k.proxies, k.stopLinks, k.outboxRank, k.neighbors, k.agents,
    k.honest, fun link => ?_⟩
  have hk := k.links link
  revert hk
  cases p.links[link]? <;> cases q.links[link]? <;> intro hk <;> cases hk
  · exact .none
  · exact .some (hRS ‹_›)

/-- An agent is found again, with a new state. -/
theorem agent (k : Kept R p q) {id : Nat} {b : Agent} (h : q.agents[id]? = some b) :
    ∃ a, p.agents[id]? = some a ∧ b.blank = a.blank := by
  have hk := k.agents id
  rw [h, Option.map_some] at hk
  obtain ⟨a, ha, hb⟩ := Option.map_eq_some_iff.1 hk.symm
  exact ⟨a, ha, hb.symm⟩

/-- Every agent has a copy later on. -/
theorem copy (k : Kept R p q) {id : Nat} {a : Agent} (h : p.agents[id]? = some a) :
    ∃ b, q.agents[id]? = some b ∧ b.blank = a.blank := by
  have hk := k.agents id
  rw [h, Option.map_some] at hk
  exact Option.map_eq_some_iff.1 hk

/-- A link is found again, with a new view. -/
theorem view (k : Kept R p q) {link : Nat} {w : LinkView} (h : q.links[link]? = some w) :
    ∃ v, p.links[link]? = some v ∧ R v w := by
  have hk := k.links link
  rw [h] at hk
  cases hp : p.links[link]? with
  | none => rw [hp] at hk; cases hk
  | some v =>
    rw [hp] at hk
    exact ⟨v, rfl, Option.rel_some_some.1 hk⟩

theorem size (k : Kept R p q) : q.links.size = p.links.size := by
  have hp := k.links p.links.size
  have hq := k.links q.links.size
  rw [Array.getElem?_size] at hp hq
  have le : q.links.size ≤ p.links.size := by
    cases h : q.links[p.links.size]? with
    | none => exact Array.getElem?_eq_none_iff.1 h
    | some v => rw [h] at hp; cases hp
  have ge : p.links.size ≤ q.links.size := by
    cases h : p.links[q.links.size]? with
    | none => exact Array.getElem?_eq_none_iff.1 h
    | some v => rw [h] at hq; cases hq
  omega

theorem isVehicle (k : Kept R p q) : q.isVehicle = p.isVehicle := by
  funext id
  have hk := congrArg (Option.map Agent.isVehicle) (k.agents id)
  rw [Option.map_map, Option.map_map] at hk
  exact hk

theorem trans [IsTrans LinkView R] (h : Kept R p q) (k : Kept R q r) : Kept R p r := by
  refine ⟨k.rank.trans h.rank, k.timing.trans h.timing, k.gateways.trans h.gateways,
    k.proxies.trans h.proxies, k.stopLinks.trans h.stopLinks, k.outboxRank.trans h.outboxRank,
    k.neighbors.trans h.neighbors, fun id => (k.agents id).trans (h.agents id),
    fun honest => k.honest (h.honest honest), fun link => ?_⟩
  have hl := h.links link
  have kl := k.links link
  revert hl kl
  cases p.links[link]? <;> cases q.links[link]? <;> cases r.links[link]? <;>
    intro hl kl <;> cases hl <;> cases kl
  · exact .none
  · exact .some (IsTrans.trans _ _ _ ‹_› ‹_›)

instance [IsTrans LinkView R] : IsTrans Partition (Kept R) := ⟨fun _ _ _ h k => h.trans k⟩

variable [Std.Refl R]

theorem links_refl (p : Partition) (link : Nat) : Option.Rel R p.links[link]? p.links[link]? := by
  cases p.links[link]? with
  | none => exact .none
  | some v => exact .some (Std.Refl.refl v)

instance : Std.Refl (Kept R) :=
  ⟨fun p => ⟨rfl, rfl, rfl, rfl, rfl, rfl, rfl, fun _ => rfl, fun h => h, links_refl p⟩⟩

/-- What is due, waiting or published isn't part of the setting. -/
theorem aside (p : Partition) (agents links : Agenda Nat) (platforms : Platforms) (log : EventLog)
    (finished : Nat) :
    Kept R p { p with
      dueAgents := agents, dueLinks := links, platforms := platforms, log := log,
      finished := finished } :=
  ⟨rfl, rfl, rfl, rfl, rfl, rfl, rfl, fun _ => rfl, fun h => h, links_refl p⟩

theorem setOutbox {o : Outbox} (hr : o.rank = p.outbox.rank) (hn : o.neighbors = p.outbox.neighbors) :
    Kept R p { p with outbox := o } :=
  ⟨rfl, rfl, rfl, rfl, rfl, hr, hn, fun _ => rfl, fun h => h, links_refl p⟩

theorem setAgent {id : Nat} {a b : Agent} (h : p.agents[id]? = some a) (hb : b.blank = a.blank)
    (hs : a.seats.Honest → b.seats.Honest) :
    Kept R p { p with agents := p.agents.setIfInBounds id b } := by
  obtain ⟨hlt, -⟩ := Array.getElem?_eq_some_iff.1 h
  have there := Array.getElem?_setIfInBounds_self_of_lt (a := b) hlt
  refine ⟨rfl, rfl, rfl, rfl, rfl, rfl, rfl, fun i => ?_, fun honest i c hc => ?_, links_refl p⟩
  · by_cases hi : id = i
    · subst hi
      simp [there, h, hb]
    · simp [Array.getElem?_setIfInBounds_ne hi]
  · by_cases hi : id = i
    · subst hi
      obtain rfl := Option.some.inj (there.symm.trans hc)
      exact hs (honest id a h)
    · exact honest i c (Array.getElem?_setIfInBounds_ne hi ▸ hc)

theorem setView {link : Nat} {v w : LinkView} (h : p.links[link]? = some v) (hw : R v w) :
    Kept R p { p with links := p.links.setIfInBounds link w } := by
  refine ⟨rfl, rfl, rfl, rfl, rfl, rfl, rfl, fun _ => rfl, fun h => h, fun i => ?_⟩
  obtain ⟨hlt, -⟩ := Array.getElem?_eq_some_iff.1 h
  by_cases hi : link = i
  · subst hi
    rw [h, Array.getElem?_setIfInBounds_self_of_lt hlt]
    exact .some hw
  · rw [Array.getElem?_setIfInBounds_ne hi]
    exact links_refl p i

/-- A link and an agent may change together. -/
theorem setBoth {link id : Nat} {v w : LinkView} {a b : Agent} (hv : p.links[link]? = some v)
    (hw : R v w) (ha : p.agents[id]? = some a) (hb : b.blank = a.blank)
    (hs : a.seats.Honest → b.seats.Honest) :
    Kept R p { p with
      links := p.links.setIfInBounds link w
      agents := p.agents.setIfInBounds id b } := by
  have hl := setView (R := R) hv hw
  have hg := setAgent (R := R) ha hb hs
  exact ⟨rfl, rfl, rfl, rfl, rfl, rfl, rfl, hg.agents, hg.honest, hl.links⟩

end Kept

/-! ## Elementary acts -/

section Elementary

variable {R : LinkView → LinkView → Prop} [Std.Refl R] {p q : Partition}

theorem kept_wake {id time : Nat} (h : Ends (wake id time) p () q) : Kept R p q := by
  obtain ⟨due, -, rfl⟩ := wake_eq_ok.1 h
  exact Kept.aside ..

theorem kept_revisit {link time : Nat} (h : Ends (revisit link time) p () q) : Kept R p q := by
  obtain ⟨due, -, rfl⟩ := revisit_eq_ok.1 h
  exact Kept.aside ..

theorem kept_consume [IsTrans LinkView R] {id : Nat} {how : Consumption} {now : Nat}
    (h : Ends (consume id how now) p () q) : Kept R p q := by
  obtain ⟨a, i, ha, -, rfl⟩ := consume_ends h
  exact (Kept.setAgent ha (b := { a with cursor := a.cursor + 1 }) rfl fun h => h).trans
    (Kept.aside ..)

theorem kept_send {target : Nat} {link : Option Nat} {id now : Nat}
    (h : Ends (send target link id now) p () q) : Kept R p q := by
  obtain ⟨r, -, -, rfl⟩ := send_ends h
  exact Kept.setOutbox rfl rfl

end Elementary

/-! ## The work of a second -/

end Partition

namespace Outbox

/-- The outbox with some agents queued who enter no link, each with the partition it goes to. -/
def addHanded (now : Nat) (o : Outbox) (handed : List (Nat × AgentRecord)) : Outbox :=
  handed.foldl (fun o h => o.addAgent h.1 none h.2 now) o

/-- What a queue of agents to hand over is good for, if each of them is. -/
theorem addHanded_induct {P : Outbox → Prop} {now : Nat} {handed : List (Nat × AgentRecord)}
    {o : Outbox} (hstep : ∀ o target r, P o → P (o.addAgent target none r now)) (h : P o) :
    P (o.addHanded now handed) := by
  induction handed generalizing o with
  | nil => exact h
  | cons row rest ih => exact ih (hstep o row.1 row.2 h)

end Outbox

namespace Partition

/-- What the work of a second does to a partition: every link is balanced, and all that is put into
the outbox are agents which are handed over. -/
structure Worked (now : Nat) (p q : Partition) : Prop where
  kept : Kept LinkView.Balanced p q
  handed : ∃ handed : List (Nat × AgentRecord), (∀ row ∈ handed, row.2.Known p.isVehicle) ∧
    q.outbox = p.outbox.addHanded now handed

section Work

variable {now : Nat} {p q r : Partition}

theorem Kept.worked (k : Kept LinkView.Balanced p q) (h : q.outbox = p.outbox) : Worked now p q :=
  ⟨k, [], by simp, h⟩

instance : Std.Refl (Worked now) := ⟨fun p => Kept.worked (Std.Refl.refl p) rfl⟩

theorem Worked.trans (h : Worked now p q) (k : Worked now q r) : Worked now p r := by
  obtain ⟨first, knownFirst, hq⟩ := h.handed
  obtain ⟨second, knownSecond, hr⟩ := k.handed
  refine ⟨h.kept.trans k.kept, first ++ second, fun row hrow => ?_, ?_⟩
  · rcases List.mem_append.1 hrow with hrow | hrow
    · exact knownFirst row hrow
    · exact h.kept.isVehicle ▸ knownSecond row hrow
  rw [hr, hq, Outbox.addHanded, Outbox.addHanded, Outbox.addHanded, List.foldl_append]

instance : IsTrans Partition (Worked now) := ⟨fun _ _ _ h k => h.trans k⟩

theorem worked_wake {id time : Nat} (h : Ends (wake id time) p () q) : Worked now p q := by
  refine (kept_wake h).worked ?_
  obtain ⟨due, -, rfl⟩ := wake_eq_ok.1 h
  rfl

theorem worked_revisit {link time : Nat} (h : Ends (revisit link time) p () q) :
    Worked now p q := by
  refine (kept_revisit h).worked ?_
  obtain ⟨due, -, rfl⟩ := revisit_eq_ok.1 h
  rfl

theorem worked_consume {id second : Nat} {how : Consumption}
    (h : Ends (consume id how second) p () q) : Worked now p q := by
  refine (kept_consume h).worked ?_
  obtain ⟨a, i, -, -, rfl⟩ := consume_ends h
  rfl

theorem worked_handOver {target id : Nat} (h : Ends (send target none id now) p () q) :
    Worked now p q := by
  refine ⟨kept_send h, ?_⟩
  obtain ⟨r, records, -, rfl⟩ := send_ends h
  exact ⟨[(target, r)], fun row hrow => List.mem_singleton.1 hrow ▸ records.known, rfl⟩

theorem worked_left {id : Nat} {stop : StopRef} (h : Exchanged id stop now p q) :
    Worked now p h.left := by
  have vacated : Worked now _ _ := (Kept.setAgent h.vehicle
    (Agent.blank_withSeats (Seats.capacity_egress h.egress))
    fun honest => Seats.honest_egress honest h.egress).worked rfl
  have left : Worked now _ h.left := h.leaves.relates fun passenger _ p q ⟨r, hconsume, hwake⟩ =>
    (worked_consume hconsume).trans (worked_wake hwake)
  exact (worked_consume h.consumes).trans (vacated.trans left)

theorem worked_exchanged {id : Nat} {stop : StopRef} (h : Exchanged id stop now p q) :
    Worked now p q := by
  have seated : Worked now _ _ := (Kept.setAgent h.vehicleLeft
    (Agent.blank_withSeats (Seats.board_eq h.board).1.capacity)
    (Seats.board_eq h.board).1.honest).worked rfl
  have boarded : Worked now _ q := h.boards.relates fun row _ p q hconsume =>
    worked_consume hconsume
  exact (worked_left h).trans (seated.trans (((Kept.aside ..).worked rfl).trans boarded))

theorem worked_dispatched {id : Nat} {b : Bool} (h : Dispatched id now p b q) :
    Worked now p q := by
  cases h with
  | finished found current => exact (Kept.aside ..).worked rfl
  | handedOver found current sent => exact worked_handOver sent
  | refused found current action view full => exact Std.Refl.refl p
  | @outbound a i link velocity x y q found current action view pushed consumes =>
    have push : (LinkView.proxy x).push id now = .ok (some (.proxy y)) := by
      simp [LinkView.push, pushed]
    have hb : LinkView.Balanced (.proxy x) (.proxy y) := LinkView.balanced_push push
    have entered : Worked now p _ :=
      (Kept.setBoth view hb found (a.blank_onLink now now) fun h => h).worked rfl
    exact entered.trans (worked_consume consumes)
  | @entered a i link velocity v w l finish r q found current action view owned time pushed consumes
      scheduled =>
    have entered : Worked now p _ := (Kept.setBoth view (LinkView.balanced_push pushed) found
      (a.blank_onLink now finish) fun h => h).worked rfl
    exact entered.trans ((worked_consume consumes).trans (relates_scheduled worked_revisit scheduled Eq.symm))
  | paused found current action consumes wakes =>
    exact (worked_consume consumes).trans (worked_wake wakes)
  | queued found current action consumes waiting egress =>
    exact (worked_consume consumes).trans ((Kept.aside ..).worked rfl)
  | exchanged found current action exchange => exact worked_exchanged exchange
  | departed found current action consumes => exact worked_consume consumes

/-- Whoever enters a gateway from the row in front of it was counted before and is counted after. -/
theorem worked_admitted {g h : Gateway} {waiting : List (Nat × Nat)}
    (ha : Admitted now g waiting p h q) :
    Worked now p q ∧ q.links = p.links ∧
      LinkView.Balanced (.gateway { g with inbound := waiting }) (.gateway h) := by
  induction ha with
  | nobody => exact ⟨Std.Refl.refl _, rfl, Std.Refl.refl _⟩
  | full hf => exact ⟨Std.Refl.refl _, rfl, Std.Refl.refl _⟩
  | @entered g h p q id part finish rest a room enters later ih =>
    obtain ⟨hk, hl, hb⟩ := ih
    have entered : Worked now p _ :=
      (Kept.setAgent enters.found (a.blank_onLink now finish) fun h => h).worked rfl
    refine ⟨entered.trans hk, hl, ?_⟩
    have moved : LinkView.Balanced (.gateway { g with inbound := (id, part) :: rest })
        (.gateway { g.append id part finish with inbound := rest }) := by
      refine ⟨rfl, fun other => ?_, rfl, fun h => h⟩
      simp only [LinkView.credit, Gateway.append, List.countP_append, List.countP_cons,
        List.countP_nil, Option.some.injEq]
      omega
    exact IsTrans.trans _ _ _ moved hb

theorem worked_drained {link : Nat} (h : Ends (drainInbound link now) p () q) :
    Worked now p q := by
  obtain ⟨v, hv, ⟨g, k, r, rfl, ha, rfl⟩ | ⟨-, rfl⟩⟩ := drainInbound_ends h
  · obtain ⟨hk, hl, hb⟩ := worked_admitted ha
    exact hk.trans ((Kept.setView (hl ▸ hv) hb).worked rfl)
  · exact Std.Refl.refl p

theorem worked_served {link : Nat} (h : Served link now p q) : Worked now p q := by
  induction h with
  | empty view front => exact Std.Refl.refl _
  | later view front scheduled => exact worked_revisit scheduled
  | blocked view front due turn scheduled =>
    exact (worked_dispatched turn).trans (worked_revisit scheduled)
  | left view front due turn after pops drained served ih =>
    have popped : Worked now _ _ := (Kept.setView after (LinkView.balanced_pop pops)).worked rfl
    exact (worked_dispatched turn).trans (popped.trans ((worked_drained drained).trans ih))

theorem worked_acted {id : Nat} (h : Acted id now p q) : Worked now p q := by
  rcases h with turn | ⟨r, turn, wakes⟩
  · exact worked_dispatched turn
  · exact (worked_dispatched turn).trans (worked_wake wakes)

theorem worked_visited {link : Nat} (h : Visited link now p q) : Worked now p q := by
  rcases h with ⟨v, -, -, rfl⟩ | served
  · exact Std.Refl.refl p
  · exact worked_served served

theorem worked_work (h : Ends (work now) p () q) : Worked now p q := by
  obtain ⟨ids, dueAgents, links, dueLinks, r, -, agents, -, visits⟩ := work_ends h
  have acted : Worked now _ r := agents.relates fun id _ p q h => worked_acted h
  have visited : Worked now _ q := visits.relates fun link _ p q h => worked_visited h
  have agentsTaken : Worked now p { p with dueAgents := dueAgents } :=
    (Kept.aside p dueAgents p.dueLinks p.platforms p.log p.finished).worked rfl
  have linksTaken : Worked now r { r with dueLinks := dueLinks } :=
    (Kept.aside r r.dueAgents dueLinks r.platforms r.log r.finished).worked rfl
  exact agentsTaken.trans (acted.trans (linksTaken.trans visited))

end Work

/-! ## The exchange of a second -/

section Exchange

variable {p q : Partition}

/-- Emptying a proxy takes nothing but what is to be sent. -/
theorem kept_emptied {now link : Nat} (h : Emptied now link p q) :
    Kept (LinkView.Same fun v => (v.credit, v.reserved, v.released)) p q := by
  cases h with
  | @proxy q x view sends =>
    have sent : Kept (LinkView.Same fun v => (v.credit, v.reserved, v.released)) _ q :=
      sends.relates fun id _ p q h => kept_send h
    exact (Kept.setView view (w := .proxy { x with outbox := [] }) ⟨rfl, rfl⟩).trans sent
  | other view kind => exact Std.Refl.refl p

/-- A report has nothing to do with what is to be sent. -/
theorem kept_reported {now link : Nat} (h : Reported now link p q) :
    Kept (LinkView.Same fun v => (v.outgoing, v.reserved)) p q := by
  cases h with
  | @gateway g view =>
    exact (Kept.setView view (w := .gateway { g with released := .empty }) ⟨rfl, rfl⟩).trans
      (Kept.setOutbox (by simp) (by simp))
  | other view kind => exact Std.Refl.refl p

theorem kept_mailed {now : Nat} {messages : Table Transfer} (h : Mailed now messages p q) :
    Kept (LinkView.Same LinkView.reserved) p q := by
  cases h with
  | @intro r s emptied reported =>
    have hr : Kept (LinkView.Same LinkView.reserved) p r := emptied.relates fun link _ p q h =>
      (kept_emptied h).mono fun k => ⟨k.alike, congrArg (·.2.1) k.same⟩
    have hs : Kept (LinkView.Same LinkView.reserved) r s := reported.relates fun link _ p q h =>
      (kept_reported h).mono fun k => ⟨k.alike, congrArg (·.2) k.same⟩
    exact hr.trans (hs.trans (Kept.setOutbox rfl rfl))

theorem kept_wrote {now : Nat} {messages : Table Transfer} (h : Wrote now messages p q) :
    Kept LinkView.Alike p q := by
  obtain ⟨w, hw, mailed⟩ := h
  exact ((worked_work hw).kept.mono LinkView.Balanced.alike).trans
    ((kept_mailed mailed).mono LinkView.Same.alike)

theorem kept_depart {now : Nat} {buffers : Buffers} (h : Ends (depart now) p buffers q) :
    Kept LinkView.Alike p q := by
  obtain ⟨messages, wrote, -⟩ := depart_ends h
  exact kept_wrote wrote

theorem kept_updated {R : LinkView → LinkView → Prop} [Std.Refl R] {x : PassengerRecord}
    (h : Updated x p q) : Kept R p q := by
  obtain ⟨a, ha, -, rfl⟩ := h
  exact Kept.setAgent ha rfl fun h => h

theorem kept_boarded {R : LinkView → LinkView → Prop} [Std.Refl R] [IsTrans LinkView R]
    {r : AgentRecord} (h : Boarded r p q) : Kept R p q := by
  cases h with
  | nobody unlisted => exact Std.Refl.refl p
  | @seated passengers s a seats listed updated found seated =>
    have hs : Kept R p s := updated.relates fun x _ p q h => kept_updated h
    exact hs.trans (Kept.setAgent found (Agent.blank_withSeats (Seats.capacity_replace seated))
      fun _ => Seats.honest_replace seated)

/-- Receiving transfers has nothing to do with proxies and with what has left a gateway. -/
theorem kept_welcomed {id link part now : Nat} (h : Welcomed id link part now p q) :
    Kept (LinkView.Same fun v => (v.outgoing, v.reserved, v.released)) p q := by
  cases h with
  | waits view known closed => exact Kept.setView view ⟨rfl, rfl⟩
  | @enters g a finish q view known empty room enters scheduled =>
    have hb := Kept.setBoth (R := LinkView.Same fun v => (v.outgoing, v.reserved, v.released)) view
      (w := .gateway (g.append id part finish)) ⟨rfl, rfl⟩ enters.found (a.blank_onLink now finish)
      fun h => h
    exact hb.trans (relates_scheduled kept_revisit scheduled fun same => same)

theorem kept_placed {r : AgentRecord} {link : Option Nat} {part now : Nat}
    (h : TakenIn r link part now p q) :
    Kept (LinkView.Same fun v => (v.outgoing, v.reserved, v.released)) h.boarded q := by
  have placed := h.placed
  refine (Kept.setAgent h.found (b := { h.before with cursor := r.cursor }) rfl fun h => h).trans ?_
  cases link with
  | none => exact kept_wake placed
  | some link => exact kept_welcomed placed

theorem kept_takenIn {r : AgentRecord} {link : Option Nat} {part now : Nat}
    (h : TakenIn r link part now p q) :
    Kept (LinkView.Same fun v => (v.outgoing, v.reserved, v.released)) p q :=
  (kept_boarded h.boards).trans (kept_placed h)

theorem kept_absorbed {now : Nat} {t : Transfer} (h : Absorbed now t p q) :
    Kept (LinkView.Same fun v => (v.outgoing, v.reserved, v.released)) p q :=
  h.relates fun _ _ _ _ group => group.relates fun _ _ _ _ ⟨taken⟩ => kept_takenIn taken

theorem kept_receiveTransfers {now : Nat} {delivery : Delivery}
    (h : Ends (receiveTransfers now delivery) p () q) :
    Kept (LinkView.Same fun v => (v.outgoing, v.reserved, v.released)) p q := by
  obtain ⟨transfers, -, absorbed⟩ := receiveTransfers_ends h
  exact absorbed.relates fun t _ p q h => kept_absorbed h

theorem kept_sendReleases {R : LinkView → LinkView → Prop} [Std.Refl R] {now : Nat}
    {buffers : Buffers} (h : Ends (sendReleases now) p buffers q) : Kept R p q := by
  obtain ⟨messages, -, -, rfl⟩ := sendReleases_ends h
  exact Kept.setOutbox rfl rfl

theorem kept_arrive {now : Nat} {delivery : Delivery} {buffers : Buffers}
    (h : Ends (arrive now delivery) p buffers q) :
    Kept (LinkView.Same fun v => (v.outgoing, v.reserved, v.released)) p q := by
  obtain ⟨⟨⟩, r, hr, hs⟩ := bind_eq_ok.1 h
  exact (kept_receiveTransfers hr).trans (kept_sendReleases hs)

/-- Releasing room has nothing to do with gateways and with what is to be sent. -/
theorem kept_applyCount {part link count : Nat} (h : Ends (applyCount part link count) p () q) :
    Kept (LinkView.Same fun v => (v.outgoing, v.credit, v.released)) p q := by
  obtain ⟨x, y, hx, -, hy, rfl⟩ := applyCount_eq_ok.1 h
  obtain ⟨-, rfl⟩ := Proxy.release_eq_ok hy
  exact Kept.setView hx ⟨rfl, rfl⟩

theorem kept_receiveReleases {now : Nat} {delivery : Delivery}
    (h : Ends (receiveReleases now delivery) p () q) :
    Kept (LinkView.Same fun v => (v.outgoing, v.credit, v.released)) p q := by
  obtain ⟨releases, -, h⟩ := receiveReleases_eq_ok.1 h
  exact h.relates fun r _ p q h => h.relates fun row _ p q h => kept_applyCount h

end Exchange

end Partition

end Mobility
