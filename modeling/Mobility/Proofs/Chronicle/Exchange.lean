import Mobility.Proofs.Chronicle.Work

/-!
# Cursors in an exchange

A transfer tells how far its agents have come, and the partition which takes them in sets their cursors to
that. The cursors of all others stay where they are, and nothing is stamped.
-/

set_option autoImplicit false

namespace Mobility

open Act

namespace Partition

variable {p q r s : Partition} {x now : Nat}

/-! ## Sending -/

/-- What is queued while proxies are emptied is good if it was before, and if whoever is to be sent to a
link is good for that link. -/
theorem every_emptied {good : Nat → Option Nat → AgentRecord → Prop} {links : List Nat}
    (every : p.outbox.Every good) (sends : ∀ (link : Nat) y record, p.links[link]? = some (.proxy y) →
      record.id ∈ y.outbox → p.Records record → good y.toPart (some link) record)
    (h : Along (Emptied now) links p q) :
    q.outbox.Every good ∧ q.agents = p.agents ∧ q.log = p.log := by
  induction h with
  | nil => exact ⟨every, rfl, rfl⟩
  | @cons link rest p r q first _ ih =>
    cases first with
    | other => exact ih every sends
    | @proxy r y view sent =>
      have each : ∀ {ids : List Nat} {s t : Partition},
          Along (fun id s t => Ends (send y.toPart (some link) id now) s () t) ids s t →
          (∀ id ∈ ids, id ∈ y.outbox) → s.agents = p.agents → s.outbox.Every good →
          t.outbox.Every good ∧ t.agents = p.agents ∧ t.log = s.log ∧ t.links = s.links := by
        intro ids s t h
        induction h with
        | nil => exact fun _ agents every => ⟨every, agents, rfl, rfl⟩
        | @cons id rest s u t first _ ih =>
          intro inside agents every
          obtain ⟨record, records, hid, rfl⟩ := send_ends first
          have records : p.Records record := by
            unfold Records Seated at records ⊢
            rwa [agents] at records
          exact ih (fun id hid => inside id (List.mem_cons_of_mem _ hid)) agents
            (Outbox.every_addAgent every
              (sends link y record view (hid ▸ inside id List.mem_cons_self) records))
      obtain ⟨every, agents, log, views⟩ := each sent (fun _ hid => hid) rfl every
      have later := ih every fun other z record hz hid records => by
        rw [views] at hz
        have records : p.Records record := by
          unfold Records Seated at records ⊢
          rwa [agents] at records
        by_cases same : link = other
        · subst same
          obtain ⟨hlt, -⟩ := Array.getElem?_eq_some_iff.1 view
          rw [Array.getElem?_setIfInBounds_self_of_lt hlt, Option.some.injEq, LinkView.proxy.injEq] at hz
          subst hz
          cases hid
        · rw [Array.getElem?_setIfInBounds_ne same] at hz
          exact sends other z record hz hid records
      exact ⟨later.1, later.2.1.trans agents, later.2.2.trans log⟩

/-- Reporting counts is no matter of agents. -/
theorem reported_along {links : List Nat} (h : Along (Reported now) links p q) :
    q.outbox.transfers = p.outbox.transfers ∧ q.agents = p.agents ∧ q.log = p.log := by
  refine h.keeps (P := fun s => s.outbox.transfers = p.outbox.transfers ∧ s.agents = p.agents ∧
    s.log = p.log) (fun link _ s t hst hs => ?_) ⟨rfl, rfl, rfl⟩
  refine ⟨(transfers_reported hst).trans hs.1, ?_⟩
  cases hst with
  | gateway => exact hs.2
  | other => exact hs.2

/-- What is sent is good, if it was queued so and whoever is to be sent to a link is good for it. -/
theorem every_mailed {good : Nat → Option Nat → AgentRecord → Prop} {messages : Table Transfer}
    (every : p.outbox.Every good) (sends : ∀ (link : Nat) y record, p.links[link]? = some (.proxy y) →
      record.id ∈ y.outbox → p.Records record → good y.toPart (some link) record)
    (h : Mailed now messages p q) :
    (∀ target t, messages.get? target = some t → t.Every (good target)) ∧ q.agents = p.agents ∧
      q.log = p.log := by
  cases h with
  | @intro r s emptied reported complete =>
    obtain ⟨every, agents, log⟩ := every_emptied every sends emptied
    obtain ⟨transfers, agents', log'⟩ := reported_along reported
    refine ⟨fun target t ht => ?_, agents'.trans agents, log'.trans log⟩
    rw [Outbox.get?_complete complete] at ht
    split at ht
    · obtain rfl := Option.some.inj ht
      rw [transfers]
      cases hq : r.outbox.transfers.get? target with
      | none => rintro g ⟨⟩
      | some t => exact every target t hq
    · cases ht

/-! ## Receiving -/

/-- These cursors have been brought, and nothing else has changed for agents. -/
structure Brought (cursors : List (Nat × Nat)) (p q : Partition) : Prop where
  log : q.log = p.log
  others : ∀ x, x ∉ cursors.map Prod.fst → q.agents[x]? = p.agents[x]?
  brings : ∀ x k, (x, k) ∈ cursors → ∀ a, p.agents[x]? = some a →
    a.cursor ≤ k ∧ ∃ b, q.agents[x]? = some b ∧ b.blank = a.blank ∧ b.cursor = k

namespace Brought

variable {xs ys : List (Nat × Nat)}

theorem nothing (log : q.log = p.log) (agents : q.agents = p.agents) : Brought [] p q :=
  ⟨log, fun x _ => by rw [agents], by simp⟩

theorem setAgent {id k : Nat} {a b : Agent} (h : p.agents[id]? = some a) (blank : b.blank = a.blank)
    (cursor : b.cursor = k) (grows : a.cursor ≤ k) :
    Brought [(id, k)] p { p with agents := p.agents.setIfInBounds id b } := by
  obtain ⟨hlt, -⟩ := Array.getElem?_eq_some_iff.1 h
  refine ⟨rfl, fun x hx => Array.getElem?_setIfInBounds_ne fun e => hx ?_, fun x l hm a' ha' => ?_⟩
  · rw [e]
    exact List.mem_singleton_self x
  · obtain ⟨rfl, rfl⟩ := Prod.mk.injEq .. ▸ List.mem_singleton.1 hm
    obtain rfl := Option.some.inj (h.symm.trans ha')
    exact ⟨grows, b, Array.getElem?_setIfInBounds_self_of_lt hlt, blank, cursor⟩

theorem trans (h : Brought xs p q) (k : Brought ys q r)
    (apart : ∀ x ∈ xs.map Prod.fst, x ∉ ys.map Prod.fst) : Brought (xs ++ ys) p r := by
  refine ⟨k.log.trans h.log, fun x hx => ?_, fun x n hm a ha => ?_⟩
  · rw [List.map_append, List.mem_append, not_or] at hx
    exact (k.others x hx.2).trans (h.others x hx.1)
  · rcases List.mem_append.1 hm with hm | hm
    · obtain ⟨grows, b, hb, blank, cursor⟩ := h.brings x n hm a ha
      have later : x ∉ ys.map Prod.fst := apart x (List.mem_map_of_mem hm)
      exact ⟨grows, b, (k.others x later).trans hb, blank, cursor⟩
    · have before : x ∉ xs.map Prod.fst := fun hx => apart x hx (List.mem_map_of_mem hm)
      exact k.brings x n hm a ((h.others x before).trans ha)

/-- An agent may be brought to its place in more than one step. -/
theorem again {id k l : Nat} (h : Brought [(id, k)] p q) (g : Brought [(id, l)] q r) :
    Brought [(id, l)] p r := by
  refine ⟨g.log.trans h.log, fun x hx => (g.others x hx).trans (h.others x hx), fun x n hm a ha => ?_⟩
  obtain ⟨rfl, rfl⟩ := Prod.mk.injEq .. ▸ List.mem_singleton.1 hm
  obtain ⟨grows, b, hb, blank, cursor⟩ := h.brings x k List.mem_cons_self a ha
  obtain ⟨grows', c, hc, blank', cursor'⟩ := g.brings x n List.mem_cons_self b hb
  exact ⟨by omega, c, hc, blank'.trans blank, cursor'⟩

theorem congr (h : Brought xs p q) (same : xs.Perm ys) : Brought ys p q :=
  ⟨h.log, fun x hx => h.others x fun hm => hx ((same.map _).mem_iff.1 hm),
    fun x k hm => h.brings x k (same.mem_iff.2 hm)⟩

end Brought

/-- What each round of a loop brings, the loop brings. -/
theorem brought_along {α : Type} {R : α → Partition → Partition → Prop} {f : α → List (Nat × Nat)}
    {xs : List α} (step : ∀ x p q, ((f x).map Prod.fst).Nodup → R x p q → Brought (f x) p q)
    (nodup : ((xs.flatMap f).map Prod.fst).Nodup) (h : Along R xs p q) : Brought (xs.flatMap f) p q := by
  induction h with
  | nil => exact .nothing rfl rfl
  | @cons x rest p r q first _ ih =>
    rw [List.flatMap_cons, List.map_append, List.nodup_append] at nodup
    obtain ⟨here, later, apart⟩ := nodup
    exact (step x p r here first).trans (ih later) fun y hy hz => apart y hy y hz rfl

theorem brought_updated {x : PassengerRecord} (h : Updated x p q) : Brought [(x.id, x.cursor)] p q := by
  obtain ⟨a, ha, grows, rfl⟩ := h
  exact .setAgent ha rfl rfl grows

theorem brought_takenIn {record : AgentRecord} {link : Option Nat} {part : Nat}
    (nodup : (record.cursors.map Prod.fst).Nodup) (h : TakenIn record link part now p q) :
    Brought record.cursors p q := by
  obtain ⟨b, a, boards, found, grows, placed⟩ := h
  -- The agent itself is brought after its passengers.
  have own : Brought [(record.id, record.cursor)] b q := by
    have moved := Brought.setAgent found (b := { a with cursor := record.cursor }) rfl rfl grows
    obtain ⟨hlt, -⟩ := Array.getElem?_eq_some_iff.1 found
    cases link with
    | none =>
      obtain ⟨due, -, rfl⟩ := wake_eq_ok.1 placed
      exact moved.trans (.nothing rfl rfl) (by simp)
    | some link =>
      cases placed with
      | waits => exact moved.trans (.nothing rfl rfl) (by simp)
      | @enters g a' finish q view known empty room enters scheduled =>
        have same : a'.cursor = record.cursor := by
          have := enters.found
          rw [Array.getElem?_setIfInBounds_self_of_lt hlt, Option.some.injEq] at this
          rw [← this]
        have stands := moved.again
          (.setAgent enters.found (b := a'.onLink now finish) (k := record.cursor) rfl same same.le)
        obtain ⟨due, rfl⟩ := scheduled_ends scheduled fun same => same
        exact stands.trans (.nothing rfl rfl) (by simp)
  cases boards with
  | nobody unlisted =>
    rw [AgentRecord.cursors, unlisted]
    exact own
  | @seated passengers s a' seats listed updated vehicle replaced =>
    have rows : record.cursors =
        (record.id, record.cursor) :: passengers.flatMap fun x => [(x.id, x.cursor)] := by
      rw [AgentRecord.cursors, listed]
      exact congrArg _ (List.flatMap_pure_eq_map _ passengers).symm
    rw [rows, List.map_cons, List.nodup_cons] at nodup
    have seated := Brought.setAgent vehicle (b := { a' with seats := seats })
      (Agent.blank_withSeats (Seats.capacity_replace replaced)) rfl le_rfl
    have all := (brought_along (fun x p q _ hx => brought_updated hx) nodup.2 updated).trans
      (seated.again own) fun x hx hy => by
        obtain rfl := List.mem_singleton.1 hy
        exact nodup.1 hx
    rw [rows]
    exact all.congr List.perm_append_comm

end Partition

/-! ## Transfers -/

/-- The cursors which the agents of a group bring. -/
def LinkRecord.cursors (g : LinkRecord) : List (Nat × Nat) := g.agents.flatMap AgentRecord.cursors

/-- The cursors which a transfer brings. -/
def Transfer.cursors (t : Transfer) : List (Nat × Nat) := t.records.flatMap LinkRecord.cursors

theorem coe_flatMap_cursors {α : Type} {f : α → List (Nat × Nat)} {load : α → Multiset Nat}
    (h : ∀ x, (((f x).map Prod.fst : List Nat) : Multiset Nat) = load x) (xs : List α) :
    (((xs.flatMap f).map Prod.fst : List Nat) : Multiset Nat) = (xs.map load).sum := by
  induction xs with
  | nil => rfl
  | cons x rest ih =>
    rw [List.flatMap_cons, List.map_append, ← Multiset.coe_add, h, ih, List.map_cons, List.sum_cons]

theorem LinkRecord.coe_cursors (g : LinkRecord) :
    ((g.cursors.map Prod.fst : List Nat) : Multiset Nat) = g.load :=
  coe_flatMap_cursors AgentRecord.coe_cursors g.agents

theorem Transfer.coe_cursors (t : Transfer) :
    ((t.cursors.map Prod.fst : List Nat) : Multiset Nat) = t.load :=
  coe_flatMap_cursors LinkRecord.coe_cursors t.records

theorem AgentRecord.cursors_arrival {r : AgentRecord}
    (small : ∀ row ∈ r.cursors, row.1 < Wire.base ∧ row.2 < Wire.base) :
    r.arrival.cursors = r.cursors := by
  obtain ⟨id, cursor, passengers⟩ := r
  obtain ⟨hid, hcursor⟩ := small (id, cursor) List.mem_cons_self
  have later : ∀ row ∈ (passengers.getD []).map fun x => (x.id, x.cursor),
      row.1 < Wire.base ∧ row.2 < Wire.base := fun row hrow => small row (List.mem_cons_of_mem _ hrow)
  simp only [AgentRecord.cursors, AgentRecord.arrival, Nat.mod_eq_of_lt hid, Nat.mod_eq_of_lt hcursor]
  congr 1
  cases passengers with
  | none => rfl
  | some passengers =>
    simp only [Option.map_some, Option.getD_some, List.map_map] at later ⊢
    refine List.map_congr_left fun x hx => ?_
    obtain ⟨hid, hcursor⟩ := later _ (List.mem_map_of_mem hx)
    exact Prod.ext (Nat.mod_eq_of_lt hid) (Nat.mod_eq_of_lt hcursor)

/-- Nothing in a transfer is changed on its way if nothing is too great. -/
theorem Transfer.cursors_arrival {t : Transfer} {target : Nat}
    (small : ∀ row ∈ t.cursors, row.1 < Wire.base ∧ row.2 < Wire.base) :
    (t.arrival target).cursors = t.cursors := by
  unfold Transfer.cursors at small ⊢
  rw [Transfer.arrival, List.flatMap_map]
  refine List.flatMap_congr fun g hg => ?_
  unfold LinkRecord.cursors at small ⊢
  rw [LinkRecord.arrival, List.flatMap_map]
  refine List.flatMap_congr fun r hr => AgentRecord.cursors_arrival fun row hrow => ?_
  exact small row (List.mem_flatMap.2 ⟨g, hg, List.mem_flatMap.2 ⟨r, hr, hrow⟩⟩)

/-- Whoever is in a transfer is in one of its records. -/
theorem Transfer.mem_cursors {t : Transfer} {row : Nat × Nat} :
    row ∈ t.cursors ↔ ∃ g ∈ t.records, ∃ r ∈ g.agents, row ∈ r.cursors := by
  simp only [Transfer.cursors, LinkRecord.cursors, List.mem_flatMap]

namespace Partition

variable {p q : Partition} {now : Nat}

theorem brought_absorbed {t : Transfer} (nodup : (t.cursors.map Prod.fst).Nodup)
    (h : Absorbed now t p q) : Brought t.cursors p q := by
  refine brought_along (fun g p q apart hg => ?_) nodup h
  exact brought_along (fun r p q apart ⟨taken⟩ => brought_takenIn apart taken) apart hg

/-- What a partition receives in a second brings its agents to their places. -/
theorem brought_arrive {d : Delivery} {b : Buffers} {transfers : List Transfer}
    (read : Outbox.readTransfers p.rank now p.isVehicle d = .ok transfers)
    (nodup : (transfers.map Transfer.load).sum.Nodup) (h : Ends (arrive now d) p b q) :
    Brought (transfers.flatMap Transfer.cursors) p q := by
  obtain ⟨transfers', r, read', absorbed, rfl⟩ := arrive_ends h
  obtain rfl := Except.ok.inj (read.symm.trans read')
  have sorted := List.mergeSort_perm transfers fun a b => decide (a.sender ≤ b.sender)
  rw [← coe_flatMap_cursors Transfer.coe_cursors, Multiset.coe_nodup] at nodup
  have nodup := (((sorted.flatMap_right Transfer.cursors).map Prod.fst).nodup_iff).2 nodup
  have brought := brought_along (fun t p q apart ht => brought_absorbed apart ht) nodup absorbed
  have sent : Brought [] r { r with outbox := { r.outbox with releases := .empty } } := .nothing rfl rfl
  have all := brought.trans sent (by simp)
  rw [List.append_nil] at all
  exact all.congr (sorted.flatMap_right _)

end Partition

end Mobility
