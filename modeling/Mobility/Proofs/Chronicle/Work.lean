import Mobility.Proofs.Census.Seconds
import Mobility.Proofs.Chronicle.Diaries

/-!
# Diaries in the work of a second

Nobody is in two places, so whoever has finished or is queued for a neighbor doesn't act any more. In the
work of a second an agent therefore goes on in its plan and may come to its end, and that is the last which
is stamped for it; and what is queued for a neighbor tells how far the agents in it have come.
-/

set_option autoImplicit false

namespace Mobility

open Act

/-! ## What is queued -/

/-- Whoever enters a link, or none, is good for it. -/
def Transfer.Every (good : Option Nat → AgentRecord → Prop) (t : Transfer) : Prop :=
  ∀ g ∈ t.records, ∀ r ∈ g.agents, good g.link r

theorem Transfer.every_addAgent {good : Option Nat → AgentRecord → Prop} {t : Transfer}
    {link : Option Nat} {r : AgentRecord} (h : t.Every good) (hr : good link r) :
    (t.addAgent link r).Every good := by
  have records : ∀ groups : List LinkRecord, (∀ g ∈ groups, ∀ r ∈ g.agents, good g.link r) →
      ∀ g ∈ addRecord link r groups, ∀ r ∈ g.agents, good g.link r := by
    intro groups
    induction groups with
    | nil =>
      intro _ g hg x hx
      obtain rfl := List.mem_singleton.1 hg
      exact List.mem_singleton.1 hx ▸ hr
    | cons first rest ih =>
      intro hall g hg
      have hrest : ∀ g ∈ rest, ∀ r ∈ g.agents, good g.link r :=
        fun g hg => hall g (List.mem_cons_of_mem _ hg)
      unfold addRecord at hg
      split at hg
      · rename_i same
        rcases List.mem_cons.1 hg with rfl | hg
        · intro x hx
          rcases List.mem_append.1 hx with hx | hx
          · exact hall first List.mem_cons_self x hx
          · rw [List.mem_singleton.1 hx]
            exact same ▸ hr
        · exact hrest g hg
      · rcases List.mem_cons.1 hg with rfl | hg
        · exact hall g List.mem_cons_self
        · exact ih hrest g hg
  exact records t.records h

namespace Outbox

/-- Whoever is queued for a partition, to enter a link or none, is good for it. -/
def Every (good : Nat → Option Nat → AgentRecord → Prop) (o : Outbox) : Prop :=
  ∀ target t, o.transfers.get? target = some t → t.Every (good target)

variable {good : Nat → Option Nat → AgentRecord → Prop} {o : Outbox}

theorem every_addAgent {target now : Nat} {link : Option Nat} {r : AgentRecord} (h : o.Every good)
    (hr : good target link r) : (o.addAgent target link r now).Every good := by
  intro i t ht
  unfold addAgent at ht
  dsimp only at ht
  rw [Table.get?_alter] at ht
  split at ht
  · rename_i same
    subst same
    obtain rfl := Option.some.inj ht
    refine Transfer.every_addAgent ?_ hr
    cases hg : o.transfers.get? i with
    | none =>
      rintro g ⟨⟩
    | some t => exact h i t hg
  · exact h i t ht

theorem load_le_queued {target : Nat} {t : Transfer} {g : LinkRecord} {r : AgentRecord}
    (ht : o.transfers.get? target = some t) (hg : g ∈ t.records) (hr : r ∈ g.agents) :
    r.load ≤ o.queued := by
  have inGroup : r.load ≤ g.load := le_sum_map hr
  have inTransfer : g.load ≤ t.load := le_sum_map hg
  have value : t ∈ o.transfers.values := List.mem_map_of_mem (f := Prod.snd) (Table.mem_entries.2 ht)
  exact inGroup.trans (inTransfer.trans (le_sum_map value))

end Outbox

/-- The agents under way with their cursors. -/
def AgentRecord.cursors (r : AgentRecord) : List (Nat × Nat) :=
  (r.id, r.cursor) :: (r.passengers.getD []).map fun x => (x.id, x.cursor)

theorem AgentRecord.coe_cursors (r : AgentRecord) :
    ((r.cursors.map Prod.fst : List Nat) : Multiset Nat) = r.load := by
  rw [cursors, load, List.map_cons, ← Multiset.cons_coe, List.map_map, riders]
  cases r.passengers <;> rfl

theorem AgentRecord.mem_load {r : AgentRecord} {x : Nat} : x ∈ r.load ↔ ∃ k, (x, k) ∈ r.cursors := by
  rw [← coe_cursors, Multiset.mem_coe, List.mem_map]
  constructor
  · rintro ⟨⟨x, k⟩, hm, rfl⟩
    exact ⟨k, hm⟩
  · rintro ⟨k, hm⟩
    exact ⟨_, hm, rfl⟩

namespace Partition

variable {p q r s : Partition} {id x now : Nat} {hand xs : Multiset Nat}

/-- The record tells how far its agents have come. -/
def Tells (p : Partition) (r : AgentRecord) : Prop :=
  ∀ row ∈ r.cursors, ∃ a, p.agents[row.1]? = some a ∧ row.2 = a.cursor

theorem Records.tells {record : AgentRecord} (h : p.Records record) : p.Tells record := by
  obtain ⟨a, ha, cursor, -, seated⟩ := h
  intro row hrow
  rcases List.mem_cons.1 hrow with rfl | hrow
  · exact ⟨a, ha, cursor⟩
  · cases hp : record.passengers with
    | none =>
      rw [hp] at hrow
      cases hrow
    | some passengers =>
      rw [hp] at hrow
      obtain ⟨y, hy, rfl⟩ := List.mem_map.1 hrow
      have rows := seated passengers hp
      clear hrow hp seated ha cursor
      generalize a.seats.carried = seats at rows
      induction rows with
      | nil => cases hy
      | cons first _ ih =>
        rcases List.mem_cons.1 hy with rfl | hy
        · obtain ⟨-, hid, b, hb, hc⟩ := first
          exact ⟨b, hid ▸ hb, hc⟩
        · exact ih hy

theorem Tells.of_quiet {record : AgentRecord} (h : p.Tells record)
    (quiet : ∀ x ∈ record.load, Quiet x p q) : q.Tells record := by
  intro row hrow
  obtain ⟨a, ha, cursor⟩ := h row hrow
  have known : row.1 ∈ record.load := AgentRecord.mem_load.2 ⟨row.2, hrow⟩
  exact ⟨a, (quiet row.1 known).agents.trans ha, cursor⟩

/-- A turn queues nobody but an agent which is handed over. -/
theorem outbox_dispatched {b : Bool} (h : Dispatched id now p b q) :
    q.outbox = p.outbox ∨ ∃ target second record, p.Records record ∧ record.id = id ∧
      q = { p with outbox := p.outbox.addAgent target none record second } := by
  rcases put_dispatched h with put | ⟨-, stop, ⟨exchange⟩⟩
  · cases put with
    | root roots crew platforms outbox => exact .inl outbox
    | sent records own => exact .inr ⟨_, _, _, records, own, rfl⟩
    | waits roots crew platforms outbox => exact .inl outbox
    | stays still => exact .inl still.outbox
  · obtain ⟨seated, reseated⟩ := reseated_exchanged exchange
    exact .inl reseated.outbox

/-! ## Who doesn't act -/

/-- These agents are some of a crowd, and they have neither finished nor left. -/
structure Apart (p : Partition) (xs crowd : Multiset Nat) : Prop where
  inside : ∀ x ∈ xs, x ∈ crowd
  finishers : ∀ x ∈ xs, x ∉ p.log.finishers
  queued : ∀ x ∈ xs, x ∉ p.outbox.queued

theorem apart_of_le {crowd : Multiset Nat} (nodup : crowd.Nodup)
    (h : xs + ((p.log.finishers : Multiset Nat) + p.outbox.queued) ≤ crowd) : Apart p xs crowd := by
  have disjoint := (Multiset.nodup_add.1 (Multiset.nodup_of_le h nodup)).2.2
  refine ⟨fun x hx => ?_, fun x hx hf => ?_, fun x hx hq => ?_⟩
  · exact Multiset.mem_of_le ((Multiset.le_add_right _ _).trans h) hx
  · exact Multiset.disjoint_left.1 disjoint hx (Multiset.mem_add.2 (.inl (Multiset.mem_coe.2 hf)))
  · exact Multiset.disjoint_left.1 disjoint hx (Multiset.mem_add.2 (.inr hq))

/-- Whoever may act in a turn is in no other place. -/
theorem acting_apart (nodup : (p.census hand).Nodup)
    (h : {id} + (p.log.finishers : Multiset Nat) ≤ hand + p.roots) :
    Apart p (p.acting id) (p.census hand) := by
  refine apart_of_le nodup ?_
  obtain ⟨others, hothers⟩ := Multiset.le_iff_exists_add.1 h
  have finishers : (p.log.finishers : Multiset Nat) ≤ p.aboardOf p.log.finishers :=
    Multiset.le_add_right _ _
  calc p.acting id + ((p.log.finishers : Multiset Nat) + p.outbox.queued)
      ≤ p.acting id + (p.aboardOf p.log.finishers + p.outbox.queued) := by gcongr
    _ ≤ p.acting id + (p.aboardOf p.log.finishers + p.outbox.queued) + p.aboardOf others :=
        Multiset.le_add_right _ _
    _ = p.census hand := by
        rw [census, hothers, aboardOf_add, aboardOf_add, acting]
        abel

theorem acting_apart_of_hand (nodup : (p.census (id ::ₘ hand)).Nodup) :
    Apart p (p.acting id) (p.census (id ::ₘ hand)) := by
  refine acting_apart nodup ?_
  rw [← Multiset.singleton_add, roots]
  refine (Multiset.le_add_right _ (hand + (p.dueAgents.held + p.standing))).trans (le_of_eq ?_)
  abel

theorem acting_apart_of_front {link : Nat} {v : LinkView} {head : Entry} (nodup : (p.census 0).Nodup)
    (view : p.links[link]? = some v) (front : v.front? = some head) :
    Apart p (p.acting head.agent) (p.census 0) := by
  refine acting_apart nodup ?_
  have here : {head.agent} ≤ p.standing := Multiset.singleton_le.2 (front_mem_standing view front)
  rw [zero_add, roots, add_comm]
  refine (add_le_add_right here _).trans ?_
  rw [add_right_comm]
  exact Multiset.le_add_right _ _

theorem standing_apart (nodup : (p.census 0).Nodup) : Apart p p.standing (p.census 0) := by
  refine apart_of_le nodup ?_
  rw [census, zero_add, aboardOf, roots]
  refine (Multiset.le_add_right _ (p.dueAgents.held +
    (p.log.finishers + p.dueAgents.held + p.standing : Multiset Nat).bind p.crew +
    p.platforms.everybody)).trans (le_of_eq ?_)
  abel

/-! ## The work of a second -/

/-- What a second is for an agent which hasn't finished. -/
inductive Tale (now x : Nat) (p q : Partition) : Prop where
  | underWay (advances : Advances now x p q)
  | ended {m r : Partition} (advances : Advances now x p m) (finishes : Finishes x now m r)
      (after : Quiet x r q)

theorem Quiet.finishers (h : Quiet x p q) : x ∈ q.log.finishers ↔ x ∈ p.log.finishers := by
  rw [EventLog.mem_finishers, EventLog.mem_finishers]
  show (∃ s ∈ q.diary x, _) ↔ ∃ s ∈ p.diary x, _
  rw [h.diary]

theorem Finishes.finisher (h : Finishes x now p q) : x ∈ q.log.finishers := by
  obtain ⟨a, -, -, rfl⟩ := h
  rw [EventLog.finishers_push, if_pos rfl]
  exact List.mem_append_right _ List.mem_cons_self

/-- How far a partition has come with the work of a second, from `p` on. -/
structure Told (now : Nat) (crowd : Multiset Nat) (p q : Partition) : Prop where
  named : q.Named
  quiet : ∀ x, x ∉ crowd ∨ x ∈ p.log.finishers → Quiet x p q
  tale : ∀ x, x ∉ p.log.finishers → Tale now x p q
  queued : q.outbox.Every fun _ _ r => q.Tells r

namespace Told

variable {crowd : Multiset Nat}

theorem refl (named : p.Named) (idle : p.outbox.transfers = .empty) : Told now crowd p p :=
  ⟨named, fun _ _ => Std.Refl.refl p, fun _ _ => .underWay (Std.Refl.refl p : Quiet _ p p).advances,
    fun _ _ ht => by rw [idle] at ht; cases ht⟩

/-- Whoever has finished has done so before, or in the meantime. -/
theorem finishers (h : Told now crowd p q) (hx : x ∈ p.log.finishers) : x ∈ q.log.finishers :=
  (h.quiet x (.inr hx)).finishers.2 hx

theorem deeds (h : Told now crowd p q) (d : Deeds now xs q r) (apart : Apart q xs crowd)
    (outbox : r.outbox = q.outbox) : Told now crowd p r := by
  obtain ⟨named, each⟩ := d h.named
  refine ⟨named, fun x hx => (h.quiet x hx).trans ((each x).1 fun hxs => ?_), fun x hx => ?_,
    fun target t ht g hg record hr => ?_⟩
  · rcases hx with hx | hx
    · exact hx (apart.inside x hxs)
    · exact apart.finishers x hxs (h.finishers hx)
  · cases h.tale x hx with
    | underWay advances => exact .underWay (advances.trans (each x).2)
    | ended advances finishes after =>
      -- Whoever has finished doesn't act.
      have done : x ∈ q.log.finishers := after.finishers.2 finishes.finisher
      exact .ended advances finishes (after.trans ((each x).1 fun hxs => apart.finishers x hxs done))
  · rw [outbox] at ht
    refine (h.queued target t ht g hg record hr).of_quiet fun x hx => (each x).1 fun hxs => ?_
    exact apart.queued x hxs (Multiset.mem_of_le (Outbox.load_le_queued ht hg hr) hx)

theorem aside (h : Told now crowd p q) (agents : r.agents = q.agents) (log : r.log = q.log)
    (outbox : r.outbox = q.outbox) : Told now crowd p r :=
  h.deeds (Deeds.nobody agents log : Deeds now 0 q r) ⟨by simp, by simp, by simp⟩ outbox

theorem finishes (h : Told now crowd p q) (f : Finishes id now q r) (apart : Apart q {id} crowd) :
    Told now crowd p r := by
  have unfinished : id ∉ q.log.finishers := apart.finishers id (Multiset.mem_singleton_self id)
  refine ⟨f.named h.named, fun x hx => (h.quiet x hx).trans (f.quiet ?_), fun x hx => ?_,
    fun target t ht g hg record hr => ?_⟩
  · rintro rfl
    rcases hx with hx | hx
    · exact hx (apart.inside x (Multiset.mem_singleton_self x))
    · exact unfinished (h.finishers hx)
  · by_cases hid : x = id
    · subst hid
      cases h.tale x hx with
      | underWay advances => exact .ended advances f (Std.Refl.refl r)
      | ended advances finishes after =>
        exact absurd (after.finishers.2 finishes.finisher) unfinished
    · cases h.tale x hx with
      | underWay advances => exact .underWay (advances.trans (f.quiet hid).advances)
      | ended advances finishes after => exact .ended advances finishes (after.trans (f.quiet hid))
  · obtain ⟨a, -, -, rfl⟩ := f
    exact h.queued target t ht g hg record hr

/-- Nobody notices that somebody is queued. -/
theorem queue {o : Outbox} (h : Told now crowd p q) (every : o.Every fun _ _ r => q.Tells r) :
    Told now crowd p { q with outbox := o } := by
  have quiet : ∀ x, Quiet x q { q with outbox := o } := fun x => ⟨rfl, rfl⟩
  refine ⟨h.named, fun x hx => (h.quiet x hx).trans (quiet x), fun x hx => ?_, every⟩
  cases h.tale x hx with
  | underWay advances => exact .underWay (advances.trans (quiet x).advances)
  | ended advances finishes after => exact .ended advances finishes (after.trans (quiet x))

theorem dispatched {b : Bool} (h : Told now crowd p q) (apart : Apart q (q.acting id) crowd)
    (turn : Dispatched id now q b r) : Told now crowd p r := by
  rcases outbox_dispatched turn with outbox | ⟨target, second, record, records, -, rfl⟩
  · rcases deeds_acting turn with deeds | finishes
    · exact h.deeds deeds apart outbox
    · refine h.finishes finishes ⟨fun x hx => ?_, fun x hx => ?_, fun x hx => ?_⟩ <;>
        rw [Multiset.mem_singleton.1 hx]
      · exact apart.inside id (mem_acting_self q id)
      · exact apart.finishers id (mem_acting_self q id)
      · exact apart.queued id (mem_acting_self q id)
  · exact h.queue (Outbox.every_addAgent h.queued records.tells)

theorem wake {time : Nat} (h : Told now crowd p q) (hw : Ends (wake id time) q () r) :
    Told now crowd p r := by
  obtain ⟨due, -, rfl⟩ := wake_eq_ok.1 hw
  exact h.aside rfl rfl rfl

theorem revisit {link time : Nat} (h : Told now crowd p q) (hr : Ends (revisit link time) q () r) :
    Told now crowd p r := by
  obtain ⟨due, -, rfl⟩ := revisit_eq_ok.1 hr
  exact h.aside rfl rfl rfl

theorem acted (h : Told now crowd p q) (hq : q.census (id ::ₘ hand) = crowd)
    (nodup : crowd.Nodup) (ha : Acted id now q r) : Told now crowd p r := by
  have apart := acting_apart_of_hand (hq.symm ▸ nodup)
  rw [hq] at apart
  rcases ha with turn | ⟨s, turn, wakes⟩
  · exact h.dispatched apart turn
  · exact (h.dispatched apart turn).wake wakes

theorem acted_along {ids : List Nat} (h : Told now crowd p q) (o : q.Orderly)
    (hq : q.census ids = crowd) (nodup : crowd.Nodup)
    (ha : Along (fun id => Acted id now) ids q r) : Told now crowd p r := by
  induction ha with
  | nil => exact h
  | @cons id rest q s r first _ ih =>
    have hq : q.census (id ::ₘ (rest : Multiset Nat)) = crowd := hq
    obtain ⟨hs, orderly⟩ := census_acted o (hq ▸ nodup) first
    exact ih (h.acted hq nodup first) orderly (hs.trans hq)

theorem served {link : Nat} (h : Told now crowd p q) (o : q.Orderly) (hq : q.census 0 = crowd)
    (nodup : crowd.Nodup) (hs : Served link now q r) : Told now crowd p r := by
  induction hs with
  | empty => exact h
  | later view front scheduled => exact h.revisit scheduled
  | blocked view front due turn scheduled =>
    have apart := acting_apart_of_front (hq.symm ▸ nodup) view front
    rw [hq] at apart
    exact (h.dispatched apart turn).revisit scheduled
  | @left q r s t v w w' head popped view front due turn after pops drained served ih =>
    have apart := acting_apart_of_front (hq.symm ▸ nodup) view front
    rw [hq] at apart
    obtain ⟨hr, popOrderly⟩ := census_popped o view front turn after pops
    obtain ⟨hs, orderly⟩ := census_drained popOrderly drained
    have told := (h.dispatched apart turn).aside
      (r := { r with links := r.links.setIfInBounds link w' }) rfl rfl rfl
    have apart := standing_apart (hr.trans hq ▸ nodup)
    rw [hr, hq] at apart
    exact ih (told.deeds (deeds_drained drained) apart (still_drained drained).outbox) orderly
      (hs.trans (hr.trans hq))

end Told

/-- What the work of a second is for everybody. -/
theorem told_work (o : p.Orderly) (nodup : (p.census 0).Nodup) (named : p.Named)
    (idle : p.outbox.transfers = .empty) (h : Ends (work now) p () q) : Told now (p.census 0) p q := by
  obtain ⟨ids, dueAgents, links, dueLinks, r, visit, agents, -, visits⟩ := work_ends h
  obtain ⟨taken, orderly⟩ := census_visit o visit
  have told : Told now (p.census 0) p { p with dueAgents := dueAgents } :=
    (Told.refl named idle).aside rfl rfl rfl
  have acted := told.acted_along orderly taken nodup agents
  obtain ⟨hr, rOrderly⟩ := census_acted_along orderly (taken ▸ nodup) agents
  have still := still_dueLinks r dueLinks
  have balanced : Kept LinkView.Balanced r { r with dueLinks := dueLinks } :=
    Kept.aside r r.dueAgents dueLinks r.platforms r.log r.finished
  have start := (acted.aside (r := { r with dueLinks := dueLinks }) rfl rfl rfl)
  refine (visits.keeps (P := fun s => s.census 0 = p.census 0 ∧ s.Orderly ∧ Told now (p.census 0) p s)
    (fun link _ s t visited hs => ?_) ⟨(still.census 0).trans (hr.trans taken),
      still.orderly balanced rOrderly, start⟩).2.2
  obtain ⟨hs, orderly, told⟩ := hs
  rcases visited with ⟨v, -, -, rfl⟩ | served
  · exact ⟨hs, orderly, told⟩
  · obtain ⟨ht, tOrderly⟩ := census_served orderly (hs ▸ nodup) served
    exact ⟨ht.trans hs, tOrderly, told.served orderly hs nodup served⟩

end Partition

end Mobility
