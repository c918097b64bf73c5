import Mobility.Proofs.Chronicle.Work
import Mobility.Proofs.Partition.Accounts
import Mobility.Proofs.Second

/-!
# Agents which can go on

What keeps a partition from failing is that its agents are where their plans allow it. The plan of a
passenger goes on, and the one of somebody who waits at a stop goes on for two instructions, so leaving and
boarding consume something. Whoever is about to enter a link from elsewhere has consumed a traversal. Seats
are counted right, what plans name exists, agents on a link come from where agents may cross into it, and
whoever is queued for a neighbor can go on there. `Partition.Able hand p` says all of this of a partition
with the agents `hand` at hand. An agent which acts is neither a passenger, nor does it wait, nor is it about
to enter a link (`Partition.Free`), so its turn takes nothing of this from the others.
-/

set_option autoImplicit false

namespace Mobility

open Act

/-! ## Links -/

namespace LinkView

variable {v w : LinkView} {id finish : Nat}

/-- Whoever has consumed a traversal of the link without standing on it yet. -/
def heading : LinkView → Multiset Nat
  | gateway g => (g.inbound.map (·.1) : List Nat)
  | proxy x => (x.outbox : List Nat)
  | owned _ | remote .. => 0

theorem heading_le (v : LinkView) : v.heading ≤ v.standing := by
  cases v with
  | gateway g => exact Multiset.le_add_left _ _
  | proxy x => exact le_refl _
  | owned | remote => exact Multiset.zero_le _

/-- Whoever stands first on a link isn't about to enter it. -/
theorem front_heading {head : Entry} (h : v.front? = some head) :
    {head.agent} + v.heading ≤ v.standing := by
  cases v with
  | owned l =>
    refine (add_zero _).le.trans (Multiset.singleton_le.2 ?_)
    exact Multiset.mem_coe.2 (List.mem_map_of_mem (List.mem_of_mem_head? h))
  | gateway g =>
    refine add_le_add_left (Multiset.singleton_le.2 ?_) _
    exact Multiset.mem_coe.2 (List.mem_map_of_mem (List.mem_of_mem_head? h))
  | proxy | remote => cases h

theorem heading_push {l : Link} (h : v.push id finish = .ok (some w)) (owned : v.link? = some l) :
    w.heading = v.heading := by
  rcases push_eq_ok h with ⟨l', m, rfl, rfl, hm⟩ | ⟨g, m, rfl, rfl, -, hm⟩ | ⟨x, y, rfl, rfl, hy⟩
  · rfl
  · rfl
  · cases owned

theorem heading_pop {entry : Entry} (h : v.pop = .ok (entry, w)) : w.heading = v.heading := by
  rcases pop_eq_ok h with ⟨l, m, rfl, rfl, hm⟩ | ⟨g, k, rfl, rfl, hk⟩
  · rfl
  · obtain ⟨-, hk⟩ := Gateway.pop_eq_ok hk
    rw [hk]
    rfl

end LinkView

/-- Whoever is or was on the link, or waits in front of it, has come from where agents may come from. -/
structure Gateway.Genuine (g : Gateway) : Prop where
  queue : ∀ e ∈ g.link.queue, ∀ part, e.fromPart = some part → part ∈ g.fromParts
  inbound : ∀ row ∈ g.inbound, row.2 ∈ g.fromParts
  released : ∀ part ∈ g.released.keys, part ∈ g.fromParts

theorem Gateway.Genuine.append {g : Gateway} {id part finish : Nat} (h : g.Genuine)
    (known : part ∈ g.fromParts) : (g.append id part finish).Genuine := by
  refine ⟨fun e he other from_eq => ?_, h.inbound, h.released⟩
  rcases List.mem_append.1 he with he | he
  · exact h.queue e he other from_eq
  · obtain rfl := List.mem_singleton.1 he
    exact Option.some.inj from_eq ▸ known

/-- The agents of a gateway have come from where agents may come from. -/
def LinkView.Genuine (v : LinkView) : Prop := ∀ g, v = .gateway g → g.Genuine

namespace LinkView

variable {v w : LinkView} {id finish : Nat}

theorem genuine_push (h : v.Genuine) (pushed : v.push id finish = .ok (some w)) : w.Genuine := by
  rintro k rfl
  rcases push_eq_ok pushed with ⟨l, m, rfl, ⟨⟩, hm⟩ | ⟨g, m, rfl, hk, -, hm⟩ | ⟨x, y, rfl, ⟨⟩, hy⟩
  obtain ⟨-, rfl⟩ := Link.push_eq_some hm
  obtain rfl := LinkView.gateway.inj hk
  have before := h g rfl
  refine ⟨fun e he part from_eq => ?_, before.inbound, before.released⟩
  rcases List.mem_append.1 he with he | he
  · exact before.queue e he part from_eq
  · obtain rfl := List.mem_singleton.1 he
    cases from_eq

theorem genuine_pop {entry : Entry} (h : v.Genuine) (popped : v.pop = .ok (entry, w)) : w.Genuine := by
  rintro k rfl
  rcases pop_eq_ok popped with ⟨l, m, rfl, ⟨⟩, hm⟩ | ⟨g, k', rfl, hk, hpop⟩
  obtain rfl := LinkView.gateway.inj hk
  obtain ⟨hq, hk⟩ := Gateway.pop_eq_ok hpop
  have before := h g rfl
  have parts : k.fromParts = g.fromParts := by rw [hk]
  have inbound : k.inbound = g.inbound := by rw [hk]
  have released : k.released = g.count entry.fromPart := by rw [hk]
  refine ⟨fun e he => ?_, fun row hrow => ?_, fun part hpart => ?_⟩ <;> rw [parts]
  · exact before.queue e (hq ▸ List.mem_cons_of_mem _ he)
  · exact before.inbound row (inbound ▸ hrow)
  · -- Whoever leaves is counted for where it has come from.
    rw [released] at hpart
    cases hf : entry.fromPart with
    | none =>
      rw [hf] at hpart
      exact before.released part hpart
    | some other =>
      rw [hf] at hpart
      obtain ⟨n, hn⟩ := Table.mem_keys.1 hpart
      rw [Gateway.count, Table.get?_alter] at hn
      split at hn
      · rename_i same
        exact same ▸ before.queue entry (hq ▸ List.mem_cons_self) other hf
      · exact before.released part (Table.mem_keys.2 ⟨n, hn⟩)

end LinkView

/-! ## Partitions -/

namespace Partition

variable {p q r : Partition} {id now x n : Nat} {hand : Multiset Nat}

/-- Whoever is about to enter a link from elsewhere, or to be sent to one. -/
def heading (p : Partition) : Multiset Nat := (p.links.toList.map LinkView.heading).sum

theorem heading_setView {link : Nat} {v w : LinkView} (h : p.links[link]? = some v) :
    heading { p with links := p.links.setIfInBounds link w } + v.heading = p.heading + w.heading :=
  sum_setIfInBounds LinkView.heading w h

theorem heading_le_standing (p : Partition) : p.heading ≤ p.standing := by
  unfold heading standing
  induction p.links.toList with
  | nil => exact le_refl _
  | cons v rest ih =>
    rw [List.map_cons, List.sum_cons, List.map_cons, List.sum_cons]
    exact add_le_add v.heading_le ih

/-- The stop is on a link. -/
def HasStop (p : Partition) (stop : Nat) : Prop :=
  ∃ link, p.stopLinks[stop]? = some link ∧ link < p.links.size

/-- The link or stop where the action takes place exists. -/
def Resolves (p : Partition) : Action → Prop
  | .traverse link _ => link.val < p.links.size
  | .wait _ stop => p.HasStop stop.val
  | .stopArrive stop => p.HasStop stop.stop.val
  | .sleepFor _ | .sleepUntil _ | .access _ | .egress _ | .stopDelay _ | .stopDepart _ => True

/-- All plans can be read, and what they name exists. -/
def Grounded (p : Partition) : Prop :=
  ∀ (id : Nat) a k, p.agents[id]? = some a →
    ∃ found, a.plan.get? k = .ok found ∧ ∀ i ∈ found, p.Resolves i.action

theorem Grounded.of_kept {R : LinkView → LinkView → Prop} (h : p.Grounded) (k : Kept R p q) :
    q.Grounded := by
  intro id b n hb
  obtain ⟨a, ha, blank⟩ := k.agent hb
  obtain ⟨found, get, resolves⟩ := h id a n ha
  have stops : ∀ stop, p.HasStop stop → q.HasStop stop := by
    rintro stop ⟨link, hlink, hlt⟩
    exact ⟨link, k.stopLinks ▸ hlink, k.size ▸ hlt⟩
  refine ⟨found, Agent.plan_of_blank blank ▸ get, fun i hi => ?_⟩
  have before := resolves i hi
  cases ha : i.action with
  | traverse link velocity =>
    rw [ha] at before
    show link.val < q.links.size
    exact k.size ▸ before
  | wait route stop =>
    rw [ha] at before
    exact stops stop.val before
  | stopArrive stop =>
    rw [ha] at before
    exact stops stop.stop.val before
  | sleepFor | sleepUntil | access | egress | stopDelay | stopDepart => trivial

theorem Remains.of_same (h : p.Remains n x) (same : q.agents[x]? = p.agents[x]?) : q.Remains n x := by
  obtain ⟨a, ha, left⟩ := h
  exact ⟨a, same.trans ha, left⟩

theorem Remains.le {m : Nat} (h : p.Remains n x) (hm : m ≤ n) : p.Remains m x := by
  obtain ⟨a, ha, left⟩ := h
  exact ⟨a, ha, by omega⟩

theorem Traversed.of_same (h : p.Traversed x) (same : q.agents[x]? = p.agents[x]?) : q.Traversed x := by
  obtain ⟨a, ha, traversed⟩ := h
  exact ⟨a, same.trans ha, traversed⟩

theorem same_consume {how : Consumption} (h : Ends (consume id how now) p () q) (hx : x ≠ id) :
    q.agents[x]? = p.agents[x]? := by
  obtain ⟨a, i, -, -, rfl⟩ := consume_ends h
  exact Array.getElem?_setIfInBounds_ne (Ne.symm hx)

theorem Remains.consume {how : Consumption} (h : p.Remains (n + 1) x)
    (hc : Ends (consume id how now) p () q) : q.Remains n x := by
  by_cases hx : x = id
  · subst hx
    obtain ⟨a, ha, left⟩ := h
    obtain ⟨b, i, hb, -, rfl⟩ := consume_ends hc
    obtain rfl := Option.some.inj (hb.symm.trans ha)
    obtain ⟨hlt, -⟩ := Array.getElem?_eq_some_iff.1 ha
    refine ⟨_, Array.getElem?_setIfInBounds_self_of_lt hlt, ?_⟩
    show b.cursor + 1 + n ≤ b.plan.length
    omega
  · exact (h.of_same (same_consume hc hx)).le (Nat.le_succ n)

/-! ## What is queued -/

/-- The agent of the record has consumed a traversal by then. -/
def Heads (p : Partition) (record : AgentRecord) : Prop :=
  ∃ a, p.agents[record.id]? = some a ∧ a.plan.Traversed record.cursor

/-- The agent of the record has seats for its passengers, whose plans go on. -/
def Carries (p : Partition) (record : AgentRecord) : Prop :=
  ∀ xs, record.passengers = some xs →
    (∃ a, p.agents[record.id]? = some a ∧ xs.length ≤ a.seats.capacity) ∧
      ∀ x ∈ xs, ∃ b, p.agents[x.id]? = some b ∧ x.cursor + 1 ≤ b.plan.length

/-- Agents who are to enter the link are sent to partition `part`. -/
def Leads (p : Partition) (part link : Nat) : Prop :=
  ∃ x, p.links[link]? = some (.proxy x) ∧ x.toPart = part

/-- The record of an agent for partition `target` brings an agent which can go on there, and with it no more
passengers than it has seats, who can leave some time. -/
structure Fit (p : Partition) (target : Nat) (link : Option Nat) (record : AgentRecord) : Prop where
  entering : ∀ l, link = some l → p.Leads target l ∧ p.Heads record
  passengers : p.Carries record

section Copies

variable {record : AgentRecord}
  (same : ∀ id : Nat, q.agents[id]?.map Agent.blank = p.agents[id]?.map Agent.blank)

include same

theorem copy_of_blank {a : Agent} (h : p.agents[id]? = some a) :
    ∃ b, q.agents[id]? = some b ∧ b.blank = a.blank := by
  have copy := same id
  rw [h, Option.map_some] at copy
  exact Option.map_eq_some_iff.1 copy

theorem Heads.of_blank (h : p.Heads record) : q.Heads record := by
  obtain ⟨a, ha, traversed⟩ := h
  obtain ⟨b, hb, blank⟩ := copy_of_blank same ha
  exact ⟨b, hb, Agent.plan_of_blank blank ▸ traversed⟩

theorem Carries.of_blank (h : p.Carries record) : q.Carries record := by
  intro xs hxs
  obtain ⟨⟨a, ha, few⟩, each⟩ := h xs hxs
  obtain ⟨b, hb, blank⟩ := copy_of_blank same ha
  have capacity : b.seats.capacity = a.seats.capacity :=
    (congrArg (·.seats.capacity) blank : b.blank.seats.capacity = a.blank.seats.capacity)
  refine ⟨⟨b, hb, capacity ▸ few⟩, fun x hx => ?_⟩
  obtain ⟨c, hc, left⟩ := each x hx
  obtain ⟨d, hd, blank⟩ := copy_of_blank same hc
  exact ⟨d, hd, Agent.plan_of_blank blank ▸ left⟩

end Copies

theorem Leads.of_kept {part link : Nat} (h : p.Leads part link) (k : Kept LinkView.Alike p q) :
    q.Leads part link := by
  obtain ⟨x, view, owner⟩ := h
  have alike := k.seen link
  rw [seen_of_view view] at alike
  cases hq : q.seen link with
  | proxy y =>
    rw [hq] at alike
    have same : y.toPart = x.toPart := congrArg (LinkView.owner 0) alike
    exact ⟨y, view_of_seen hq (by simp), same.trans owner⟩
  | owned | gateway | remote =>
    rw [hq] at alike
    cases alike

theorem Fit.of_kept {target : Nat} {link : Option Nat} {record : AgentRecord}
    (h : p.Fit target link record) (k : Kept LinkView.Alike p q) : q.Fit target link record := by
  refine ⟨fun l hl => ?_, h.passengers.of_blank k.agents⟩
  obtain ⟨leads, heads⟩ := h.entering l hl
  exact ⟨leads.of_kept k, heads.of_blank k.agents⟩

/-- What a partition records of an agent is fit if the agent and its passengers are where their plans allow
it. -/
theorem Records.fit {target : Nat} {link : Option Nat} {record : AgentRecord} (h : p.Records record)
    (honest : p.Honest) (riders : ∀ y ∈ p.crew record.id, p.Remains 1 y)
    (entering : ∀ l, link = some l → p.Leads target l ∧ p.Traversed record.id) :
    p.Fit target link record := by
  obtain ⟨a, ha, cursor, -, seated⟩ := h
  refine ⟨fun l hl => ?_, fun xs hxs => ?_⟩
  · obtain ⟨leads, b, hb, traversed⟩ := entering l hl
    obtain rfl := Option.some.inj (ha.symm.trans hb)
    exact ⟨leads, a, ha, cursor ▸ traversed⟩
  · have rows := seated xs hxs
    have fair := honest record.id a ha
    have count : xs.length = a.seats.riders.card := by
      rw [← rows.length_eq, ← Seats.coe_carried, Multiset.coe_card, List.length_map]
    refine ⟨⟨a, ha, by rw [count, ← fair.counted]; exact fair.room⟩, fun x hx => ?_⟩
    obtain ⟨seat, hseat, -, hid, b, hb, hcursor⟩ := exists_of_forall₂ rows hx
    have aboard : seat.2 ∈ p.crew record.id := by
      rw [crew, ha]
      show seat.2 ∈ a.seats.riders
      rw [← Seats.coe_carried]
      exact Multiset.mem_coe.2 (List.mem_map_of_mem hseat)
    obtain ⟨c, hc, left⟩ := riders seat.2 aboard
    obtain rfl := Option.some.inj (hb.symm.trans hc)
    exact ⟨b, hid ▸ hb, hcursor ▸ left⟩

end Partition

namespace Outbox

theorem Every.mono {good better : Nat → Option Nat → AgentRecord → Prop} {o : Outbox} (h : o.Every good)
    (imp : ∀ target link r, good target link r → better target link r) : o.Every better :=
  fun target t ht g hg r hr => imp target g.link r (h target t ht g hg r hr)

end Outbox

namespace Partition

variable {p q r : Partition} {id now x n : Nat} {hand rest : Multiset Nat}

/-! ## Everybody can go on -/

/-- Everybody in the partition, with the agents at hand, can go on. -/
structure Able (hand : Multiset Nat) (p : Partition) : Prop where
  grounded : p.Grounded
  named : p.Named
  honest : p.Honest
  riders : ∀ v ∈ hand + p.roots, ∀ y ∈ p.crew v, p.Remains 1 y
  waiting : ∀ y ∈ p.platforms.everybody, p.Remains 2 y
  heading : ∀ y ∈ p.heading, p.Traversed y
  genuine : ∀ (link : Nat) v, p.links[link]? = some v → v.Genuine
  queued : p.outbox.Every p.Fit

/-- The agent isn't a passenger, doesn't wait, and isn't about to enter a link. -/
structure Free (hand : Multiset Nat) (id : Nat) (p : Partition) : Prop where
  riders : ∀ v ∈ hand + p.roots, id ∉ p.crew v
  waiting : id ∉ p.platforms.everybody
  heading : id ∉ p.heading

/-- Nobody is in two places. -/
theorem free_of_nodup (nodup : (p.census hand).Nodup) (here : {id} + p.heading ≤ hand + p.roots) :
    Free hand id p := by
  have present : id ∈ hand + p.roots :=
    Multiset.mem_of_le here (Multiset.mem_add.2 (.inl (Multiset.mem_singleton_self id)))
  have parts := nodup
  rw [census, aboardOf, add_assoc, add_assoc, Multiset.nodup_add] at parts
  obtain ⟨once, -, apart⟩ := parts
  have elsewhere := Multiset.disjoint_left.1 apart present
  refine ⟨fun v hv hid => elsewhere ?_, fun hid => elsewhere ?_, fun hid => ?_⟩
  · exact Multiset.mem_add.2 (.inl (Multiset.mem_bind.2 ⟨v, hv, hid⟩))
  · exact Multiset.mem_add.2 (.inr (Multiset.mem_add.2 (.inl hid)))
  · have twice := Multiset.nodup_of_le here once
    exact Multiset.disjoint_left.1 (Multiset.nodup_add.1 twice).2.2 (Multiset.mem_singleton_self id) hid

theorem here_of_hand (p : Partition) (id : Nat) (hand : Multiset Nat) :
    {id} + p.heading ≤ (id ::ₘ hand) + p.roots := by
  rw [← Multiset.singleton_add, add_assoc]
  refine add_le_add_right (le_trans (p.heading_le_standing) ?_) _
  exact (Multiset.le_add_left _ _).trans (Multiset.le_add_left _ _)

theorem here_of_front {link : Nat} {v : LinkView} {head : Entry} (view : p.links[link]? = some v)
    (front : v.front? = some head) : {head.agent} + p.heading ≤ 0 + p.roots := by
  have stands := standing_setView (w := .remote 0 0) view
  have heads := heading_setView (w := .remote 0 0) view
  rw [show (LinkView.remote 0 0).standing = 0 from rfl, add_zero] at stands
  rw [show (LinkView.remote 0 0).heading = 0 from rfl, add_zero] at heads
  rw [zero_add, roots, ← heads, ← stands]
  refine le_trans ?_ (Multiset.le_add_left _ _)
  rw [add_left_comm]
  exact add_le_add (heading_le_standing _) (LinkView.front_heading front)

namespace Able

theorem mono (h : p.Able hand) (sub : ∀ v ∈ rest, v ∈ hand + p.roots) : p.Able rest := by
  refine ⟨h.grounded, h.named, h.honest, fun v hv => h.riders v ?_, h.waiting, h.heading, h.genuine, h.queued⟩
  rcases Multiset.mem_add.1 hv with hv | hv
  · exact sub v hv
  · exact Multiset.mem_add.2 (.inr hv)

/-- A turn of a free agent leaves everybody able to go on. -/
theorem turn (h : p.Able hand) (kept : Kept LinkView.Alike p q) (free : Free hand id p)
    (present : id ∈ hand + p.roots) (others : ∀ x, x ≠ id → q.agents[x]? = p.agents[x]?)
    (roots : ∀ v ∈ q.roots, v ∈ p.roots ∨ v = id) (crew : ∀ v, q.crew v = p.crew v)
    (waiting : ∀ y ∈ q.platforms.everybody, y ∈ p.platforms.everybody ∨ q.Remains 2 y)
    (heading : ∀ y ∈ q.heading, y ∈ p.heading ∨ q.Traversed y)
    (genuine : ∀ (link : Nat) v, q.links[link]? = some v → v.Genuine)
    (queued : q.outbox.Every p.Fit) : q.Able hand := by
  refine ⟨h.grounded.of_kept kept, h.named.of_kept kept, kept.honest h.honest, fun v hv y hy => ?_,
    fun y hy => ?_, fun y hy => ?_, genuine, queued.mono fun _ _ _ fit => fit.of_kept kept⟩
  · rw [crew] at hy
    have before : v ∈ hand + p.roots := by
      rcases Multiset.mem_add.1 hv with hv | hv
      · exact Multiset.mem_add.2 (.inl hv)
      · rcases roots v hv with hv | rfl
        · exact Multiset.mem_add.2 (.inr hv)
        · exact present
    refine (h.riders v before y hy).of_same (others y ?_)
    rintro rfl
    exact free.riders v before hy
  · rcases waiting y hy with hy | remains
    · refine (h.waiting y hy).of_same (others y ?_)
      rintro rfl
      exact free.waiting hy
    · exact remains
  · rcases heading y hy with hy | traversed
    · refine (h.heading y hy).of_same (others y ?_)
      rintro rfl
      exact free.heading hy
    · exact traversed

end Able

end Partition

end Mobility
