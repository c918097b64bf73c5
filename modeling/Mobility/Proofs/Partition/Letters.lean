import Mobility.Proofs.Partition.Setting
import Mobility.Proofs.Totals
import Mobility.Proofs.Wire

/-!
# The messages of a second

A partition which starts a second with an empty outbox sends one transfer and one release to every
neighbor and nothing to anybody else, and each of them names that second and that partition at its
head. Afterwards the outbox is empty again.
-/

set_option autoImplicit false

namespace Mobility

open Act

/-! ## What is queued -/

/-- Somebody enters the link, which is one of `size` links, and everybody who does is `good`. -/
structure LinkRecord.Proper (good : AgentRecord → Prop) (size : Nat) (g : LinkRecord) : Prop where
  somebody : g.agents ≠ []
  link : ∀ link, g.link = some link → link < size
  agents : ∀ r ∈ g.agents, good r

/-- The groups of a transfer are proper. -/
def Transfer.Proper (good : AgentRecord → Prop) (size : Nat) (t : Transfer) : Prop :=
  ∀ g ∈ t.records, g.Proper good size

theorem Transfer.proper_empty {good : AgentRecord → Prop} {size time sender target : Nat} :
    (Transfer.empty time sender target).Proper good size := by
  rintro g ⟨⟩

theorem Transfer.proper_addAgent {good : AgentRecord → Prop} {size : Nat} {t : Transfer}
    {link : Option Nat} {r : AgentRecord} (h : t.Proper good size) (hr : good r)
    (hlink : ∀ l, link = some l → l < size) : (t.addAgent link r).Proper good size := by
  have records : ∀ groups : List LinkRecord, (∀ g ∈ groups, g.Proper good size) →
      ∀ g ∈ addRecord link r groups, g.Proper good size := by
    intro groups
    induction groups with
    | nil =>
      intro _ g hg
      obtain rfl := List.mem_singleton.1 hg
      exact ⟨by simp, hlink, fun x hx => List.mem_singleton.1 hx ▸ hr⟩
    | cons first rest ih =>
      intro hall g hg
      have hfirst := hall first List.mem_cons_self
      have hrest : ∀ g ∈ rest, g.Proper good size := fun g hg => hall g (List.mem_cons_of_mem _ hg)
      unfold addRecord at hg
      split at hg
      · rcases List.mem_cons.1 hg with rfl | hg
        · refine ⟨by simp, hfirst.link, fun x hx => ?_⟩
          rcases List.mem_append.1 hx with hx | hx
          · exact hfirst.agents x hx
          · exact List.mem_singleton.1 hx ▸ hr
        · exact hrest g hg
      · rcases List.mem_cons.1 hg with rfl | hg
        · exact hfirst
        · exact ih hrest g hg
  exact records t.records h

namespace Outbox

/-- All transfers which are queued are proper. -/
def Proper (good : AgentRecord → Prop) (size : Nat) (o : Outbox) : Prop :=
  ∀ target t, o.transfers.get? target = some t → t.Proper good size

theorem proper_addAgent {good : AgentRecord → Prop} {size target now : Nat} {o : Outbox}
    {link : Option Nat} {r : AgentRecord} (h : o.Proper good size) (hr : good r)
    (hlink : ∀ l, link = some l → l < size) : (o.addAgent target link r now).Proper good size := by
  intro i t ht
  unfold addAgent at ht
  dsimp only at ht
  rw [Table.get?_alter] at ht
  split at ht
  · obtain rfl := Option.some.inj ht
    refine Transfer.proper_addAgent ?_ hr hlink
    cases hg : o.transfers.get? target with
    | none => exact Transfer.proper_empty
    | some t => exact h target t hg
  · exact h i t ht

theorem proper_addHanded {good : AgentRecord → Prop} {size now : Nat} {o : Outbox}
    {handed : List (Nat × AgentRecord)} (h : o.Proper good size) (hgood : ∀ row ∈ handed, good row.2) :
    (o.addHanded now handed).Proper good size := by
  induction handed generalizing o with
  | nil => exact h
  | cons row rest ih =>
    exact ih (proper_addAgent h (hgood row List.mem_cons_self) (by simp))
      fun row hrow => hgood row (List.mem_cons_of_mem _ hrow)

/-- Nothing is queued. -/
structure Idle (o : Outbox) : Prop where
  transfers : o.transfers = .empty
  releases : o.releases = .empty

/-- All that is queued is about second `now`. -/
structure Stamped (now : Nat) (o : Outbox) : Prop where
  transfers : ∀ target t, o.transfers.get? target = some t → t.time = now ∧ t.sender = o.rank
  releases : ∀ target r, o.releases.get? target = some r → r.time = now ∧ r.sender = o.rank

variable {now : Nat} {o : Outbox}

theorem Idle.stamped (h : o.Idle) : o.Stamped now :=
  ⟨fun target t ht => by simp [h.transfers] at ht, fun target r hr => by simp [h.releases] at hr⟩

theorem Stamped.addAgent (h : o.Stamped now) (target : Nat) (link : Option Nat) (r : AgentRecord) :
    (o.addAgent target link r now).Stamped now := by
  refine ⟨fun i t ht => ?_, h.releases⟩
  simp only [Outbox.addAgent, Table.get?_alter] at ht
  split at ht
  · obtain rfl := Option.some.inj ht
    cases hq : o.transfers.get? target with
    | none => exact ⟨rfl, rfl⟩
    | some t => exact h.transfers target t hq
  · exact h.transfers i t ht

theorem Stamped.addCount (h : o.Stamped now) (target link count : Nat) :
    (o.addCount target link count now).Stamped now := by
  refine ⟨h.transfers, fun i r hr => ?_⟩
  simp only [Outbox.addCount, Table.get?_alter] at hr
  split at hr
  · obtain rfl := Option.some.inj hr
    cases hq : o.releases.get? target with
    | none => exact ⟨rfl, rfl⟩
    | some r => exact h.releases target r hq
  · exact h.releases i r hr

theorem Stamped.addHanded (h : o.Stamped now) (handed : List (Nat × AgentRecord)) :
    (o.addHanded now handed).Stamped now :=
  addHanded_induct (fun _ target r ho => ho.addAgent target none r) h

theorem Stamped.addCounts (h : o.Stamped now) (link : Nat) (counts : List (Nat × Nat)) :
    (o.addCounts link now counts).Stamped now := by
  induction counts generalizing o with
  | nil => exact h
  | cons row rest ih => exact ih (h.addCount row.1 link row.2)

/-- What the complete messages of a queue are, one for each neighbor. -/
theorem get?_complete {α : Type} {neighbors : Table Unit} {queued messages : Table α}
    {blank : Nat → α} (h : complete neighbors queued blank = .ok messages) (target : Nat) :
    messages.get? target =
      if neighbors.contains target then some ((queued.get? target).getD (blank target)) else none := by
  obtain ⟨-, rfl⟩ := complete_eq_ok h
  rw [Table.get?_mapRows, Table.contains]
  cases neighbors.get? target <;> rfl

end Outbox

/-- The buffers are one for each of these partitions, and all of them say that `sender` sent them in
second `now`. -/
structure Addressed (now sender : Nat) (partners : List Nat) (buffers : Buffers) : Prop where
  keys : buffers.keys = partners
  headed : ∀ target data, buffers.get? target = some data → Wire.Headed now sender data

namespace Partition

variable {now : Nat} {p q : Partition} {buffers : Buffers}

/-! ## Collecting -/

theorem stamped_emptied {link : Nat} (h : Emptied now link p q) (hp : p.outbox.Stamped now) :
    q.outbox.Stamped now := by
  cases h with
  | @proxy q x view sends =>
    have all : ∀ {ids : List Nat} {r s : Partition},
        Along (fun id p q => Ends (send x.toPart (some link) id now) p () q) ids r s →
        r.outbox.Stamped now → s.outbox.Stamped now := by
      intro ids r s h
      induction h with
      | nil => exact id
      | cons first _ ih =>
        intro hr
        obtain ⟨record, -, -, rfl⟩ := send_ends first
        exact ih (hr.addAgent x.toPart (some link) record)
    exact all sends hp
  | other view kind => exact hp

theorem stamped_reported {link : Nat} (h : Reported now link p q) (hp : p.outbox.Stamped now) :
    q.outbox.Stamped now := by
  cases h with
  | gateway view => exact hp.addCounts link _
  | other view kind => exact hp

/-! ## Sending -/

/-- What a partition sends before it receives anything. -/
theorem depart_addressed (h : Ends (depart now) p buffers q) (idle : p.outbox.Idle) :
    Addressed now p.outbox.rank p.outbox.neighbors.keys buffers ∧
      q.outbox.transfers = .empty ∧ q.outbox.Stamped now := by
  obtain ⟨messages, ⟨r, hw, @⟨s, u, emptied, reported, complete⟩⟩, rfl⟩ := depart_ends h
  have worked := worked_work hw
  obtain ⟨handed, -, hr⟩ := worked.handed
  have kept : Kept LinkView.Alike r u :=
    Kept.trans (emptied.relates fun link _ p q h => (kept_emptied h).mono LinkView.Same.alike)
      (reported.relates fun link _ p q h => (kept_reported h).mono LinkView.Same.alike)
  have rank := kept.outboxRank.trans worked.kept.outboxRank
  have neighbors := kept.neighbors.trans worked.kept.neighbors
  have stamped : u.outbox.Stamped now := by
    have hr : r.outbox.Stamped now := hr ▸ idle.stamped.addHanded handed
    have hs : s.outbox.Stamped now := emptied.keeps (P := fun p => p.outbox.Stamped now)
      (fun link _ p q => stamped_emptied) hr
    exact reported.keeps (P := fun p => p.outbox.Stamped now) (fun link _ p q => stamped_reported) hs
  refine ⟨⟨?_, fun target data hd => ?_⟩, rfl, ⟨fun target t ht => ?_, stamped.releases⟩⟩
  · obtain ⟨-, rfl⟩ := Outbox.complete_eq_ok complete
    rw [Table.keys_mapRows, Table.keys_mapRows, neighbors]
  · rw [Table.get?_mapRows, Outbox.get?_complete complete] at hd
    split at hd
    · obtain rfl := Option.some.inj hd
      cases hq : u.outbox.transfers.get? target with
      | none =>
        rw [Option.getD_none]
        exact rank ▸ (Transfer.empty now u.outbox.rank target).headed_encode
      | some t =>
        obtain ⟨htime, hsender⟩ := stamped.transfers target t hq
        rw [Option.getD_some, ← htime, ← rank, ← hsender]
        exact t.headed_encode
    · cases hd
  · simp at ht

theorem outbox_boarded {r : AgentRecord} (h : Boarded r p q) : q.outbox = p.outbox := by
  cases h with
  | nobody unlisted => rfl
  | @seated passengers s a seats listed updated found seated =>
    have hs : s.outbox = p.outbox := updated.keeps (P := fun s => s.outbox = p.outbox)
      (fun x _ s u ⟨a, _, _, hu⟩ hs => by rw [hu]; exact hs) rfl
    exact hs

theorem outbox_welcomed {id link part : Nat} (h : Welcomed id link part now p q) :
    q.outbox = p.outbox := by
  cases h with
  | waits view known closed => rfl
  | enters view known empty room enters scheduled =>
    obtain ⟨due, rfl⟩ := scheduled_ends scheduled fun same => same
    rfl

theorem outbox_takenIn {r : AgentRecord} {link : Option Nat} {part : Nat}
    (h : TakenIn r link part now p q) : q.outbox = p.outbox := by
  obtain ⟨b, a, boards, found, cursor, placed⟩ := h
  rw [← outbox_boarded boards]
  cases link with
  | none =>
    obtain ⟨due, -, rfl⟩ := wake_eq_ok.1 placed
    rfl
  | some link =>
    have hq := outbox_welcomed placed
    exact hq

/-- Receiving transfers changes nothing in the outbox. -/
theorem outbox_receiveTransfers {delivery : Delivery} (h : Ends (receiveTransfers now delivery) p () q) :
    q.outbox = p.outbox := by
  obtain ⟨transfers, -, absorbed⟩ := receiveTransfers_ends h
  refine absorbed.keeps (P := fun r => r.outbox = p.outbox) (fun t _ r s hs hr => ?_) rfl
  refine Along.keeps (P := fun r => r.outbox = p.outbox) (fun group _ r s hs hr => ?_) hs hr
  refine Along.keeps (P := fun r => r.outbox = p.outbox) (fun record _ r s hs hr => ?_) hs hr
  obtain ⟨taken⟩ := hs
  exact (outbox_takenIn taken).trans hr

/-- What a partition sends after it has received the transfers. -/
theorem arrive_addressed {delivery : Delivery} (h : Ends (arrive now delivery) p buffers q)
    (transfers : p.outbox.transfers = .empty) (stamped : p.outbox.Stamped now) :
    Addressed now p.outbox.rank p.outbox.neighbors.keys buffers ∧ q.outbox.Idle := by
  obtain ⟨⟨⟩, r, hr, hs⟩ := bind_eq_ok.1 h
  have ho := outbox_receiveTransfers hr
  obtain ⟨messages, complete, rfl, rfl⟩ := sendReleases_ends hs
  rw [ho] at complete
  refine ⟨⟨?_, fun target data hd => ?_⟩, ⟨by show r.outbox.transfers = _; rw [ho, transfers], rfl⟩⟩
  · obtain ⟨-, rfl⟩ := Outbox.complete_eq_ok complete
    rw [Table.keys_mapRows, Table.keys_mapRows]
  · rw [Table.get?_mapRows, Outbox.get?_complete complete] at hd
    split at hd
    · obtain rfl := Option.some.inj hd
      cases hq : p.outbox.releases.get? target with
      | none => exact (Release.empty now p.outbox.rank target).headed_encode
      | some t =>
        obtain ⟨htime, hsender⟩ := stamped.releases target t hq
        rw [Option.getD_some, ← htime, ← hsender]
        exact t.headed_encode
    · cases hd

/-- Applying releases changes nothing but links. -/
theorem receiveReleases_links {delivery : Delivery} (h : Ends (receiveReleases now delivery) p () q) :
    q = { p with links := q.links } := by
  obtain ⟨releases, -, h⟩ := receiveReleases_eq_ok.1 h
  refine h.keeps (P := fun s => s = { p with links := s.links }) (fun r _ s u hu hs => ?_) rfl
  refine hu.keeps (P := fun s => s = { p with links := s.links }) (fun row _ s u hu hs => ?_) hs
  obtain ⟨x, y, -, -, -, rfl⟩ := applyCount_eq_ok.1 hu
  rw [hs]

end Partition

end Mobility
