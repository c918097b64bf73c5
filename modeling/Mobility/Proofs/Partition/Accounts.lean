import Mobility.Proofs.Partition.Letters

/-!
# Accounts between partitions

A neighbor of the owner of a link counts the agents it has on the link, and the owner counts those of
the neighbor which have left. These lemmas say where the counts are during the exchange of a second:
what the proxies hold goes into transfers, what the gateways have counted goes into releases, and
receiving a transfer or a release puts the numbers in it on the other side.
-/

set_option autoImplicit false

namespace Mobility

open Act

/-! ## What is counted -/

/-- How many agents are to be sent to partition `target`. -/
def LinkView.bound (target : Nat) : LinkView → Nat
  | proxy x => if x.toPart = target then x.outbox.length else 0
  | owned _ | gateway _ | remote .. => 0

theorem LinkView.bound_of_outgoing {v : LinkView} (h : v.outgoing = []) (target : Nat) :
    v.bound target = 0 := by
  cases v with
  | proxy x =>
    have empty : x.outbox = [] := h
    simp [bound, empty]
  | owned | gateway | remote => rfl

/-- How many agents of a transfer enter a link. -/
def Transfer.entering (link : Nat) (t : Transfer) : Nat :=
  (t.records.map fun g => if g.link = some link then g.agents.length else 0).sum

theorem Transfer.entering_addAgent (t : Transfer) (link : Nat) (l : Option Nat) (r : AgentRecord) :
    (t.addAgent l r).entering link = t.entering link + if l = some link then 1 else 0 := by
  have records : ∀ groups : List LinkRecord,
      ((addRecord l r groups).map fun g => if g.link = some link then g.agents.length else 0).sum =
        (groups.map fun g => if g.link = some link then g.agents.length else 0).sum +
          if l = some link then 1 else 0 := by
    intro groups
    induction groups with
    | nil => simp [addRecord]
    | cons g rest ih =>
      unfold addRecord
      split
      · rename_i hl
        subst hl
        simp only [List.map_cons, List.sum_cons, List.length_append, List.length_singleton]
        split <;> omega
      · rw [List.map_cons, List.sum_cons, ih, List.map_cons, List.sum_cons, Nat.add_assoc]
  exact records t.records

/-- How many agents have left a link, by a release. -/
def Release.reporting (link : Nat) (r : Release) : Nat :=
  (r.counts.map fun c => if c.1 = link then c.2 else 0).sum

theorem Release.reporting_addCount (r : Release) (link l count : Nat) :
    (r.addCount l count).reporting link = r.reporting link + if l = link then count else 0 := by
  simp [addCount, reporting]

namespace Outbox

/-- How many agents for a link of `target` are queued. -/
def entering (o : Outbox) (target link : Nat) : Nat :=
  Table.worth (Transfer.entering link) (o.transfers.get? target)

/-- How many agents of `target` which have left a link are queued. -/
def reporting (o : Outbox) (target link : Nat) : Nat :=
  Table.worth (Release.reporting link) (o.releases.get? target)

theorem entering_addAgent (o : Outbox) (target link owner now : Nat) (l : Option Nat) (r : AgentRecord) :
    (o.addAgent owner l r now).entering target link =
      o.entering target link + if target = owner ∧ l = some link then 1 else 0 := by
  unfold entering addAgent
  rw [Table.get?_alter]
  by_cases ht : target = owner
  · subst ht
    rw [if_pos rfl, Table.worth_some, Transfer.entering_addAgent]
    simp only [true_and]
    cases o.transfers.get? target <;> rfl
  · rw [if_neg ht, if_neg fun h => ht h.1, Nat.add_zero]

theorem entering_addHanded (o : Outbox) (target link now : Nat) (handed : List (Nat × AgentRecord)) :
    (o.addHanded now handed).entering target link = o.entering target link :=
  addHanded_induct (P := fun o' => o'.entering target link = o.entering target link)
    (fun o' owner r h => by rw [entering_addAgent, h]; simp) rfl

/-- A count of a link is put into the release for the partition it concerns. -/
theorem releases_addCounts (o : Outbox) (target link now : Nat) (counts : Table Nat) :
    (o.addCounts link now counts.entries).releases.get? target = match counts.get? target with
      | some count =>
        some (((o.releases.get? target).getD (.empty now o.rank target)).addCount link count)
      | none => o.releases.get? target := by
  have rows : ∀ (rows : List (Nat × Nat)) (o : Outbox), rows.Pairwise (fun a b => a.1 < b.1) →
      (o.addCounts link now rows).releases.get? target = match Table.lookup target rows with
        | some count =>
          some (((o.releases.get? target).getD (.empty now o.rank target)).addCount link count)
        | none => o.releases.get? target := by
    intro rows
    induction rows with
    | nil => intro o _; rfl
    | cons row rest ih =>
      intro o ascending
      rw [List.pairwise_cons] at ascending
      show ((o.addCount row.1 link row.2 now).addCounts link now rest).releases.get? target = _
      rw [ih _ ascending.2, Table.lookup]
      by_cases ht : target = row.1
      · have absent : Table.lookup target rest = none :=
          Table.lookup_eq_none fun other hother => ht ▸ ascending.1 other hother
        rw [absent, if_pos ht, ht]
        simp [addCount]
      · rw [if_neg ht]
        simp [addCount, ht]
  exact rows counts.entries o counts.ascending

/-- The counts of a link are reported to whom they concern. -/
theorem reporting_addCounts (o : Outbox) (target link l now : Nat) (counts : Table Nat) :
    (o.addCounts l now counts.entries).reporting target link =
      o.reporting target link + if l = link then (counts.get? target).getD 0 else 0 := by
  unfold reporting
  rw [releases_addCounts]
  cases counts.get? target with
  | none => simp
  | some count =>
    rw [Table.worth_some, Release.reporting_addCount]
    cases o.releases.get? target <;> rfl

/-- The releases which are queued have at most `most` counts each, of some of `size` links. -/
def Reports (most size : Nat) (o : Outbox) : Prop :=
  ∀ target r, o.releases.get? target = some r → r.counts.length ≤ most ∧ ∀ c ∈ r.counts, c.1 < size

theorem Reports.addCounts {o : Outbox} {most size link now : Nat} (h : o.Reports most size)
    (hlink : link < size) (counts : Table Nat) :
    (o.addCounts link now counts.entries).Reports (most + 1) size := by
  intro target r hr
  rw [releases_addCounts] at hr
  have before : ∀ r, o.releases.get? target = some r →
      r.counts.length ≤ most + 1 ∧ ∀ c ∈ r.counts, c.1 < size :=
    fun r hr => (h target r hr).imp_left Nat.le_succ_of_le
  cases hc : counts.get? target with
  | none =>
    rw [hc] at hr
    exact before r hr
  | some count =>
    rw [hc] at hr
    obtain rfl := Option.some.inj hr
    cases ho : o.releases.get? target with
    | none => simp [Release.addCount, Release.empty, hlink]
    | some r =>
      obtain ⟨hmost, hsize⟩ := h target r ho
      refine ⟨by simpa [Release.addCount] using hmost, fun c hc => ?_⟩
      rcases List.mem_append.1 hc with hc | hc
      · exact hsize c hc
      · exact List.mem_singleton.1 hc ▸ hlink

end Outbox

namespace Partition

/-- The view of a link. Links which don't exist are as if they were somebody else's. -/
def seen (p : Partition) (link : Nat) : LinkView := (p.links[link]?).getD (.remote 0 0)

variable {p q r : Partition} {now link : Nat}

theorem seen_of_view {v : LinkView} (h : p.links[link]? = some v) : p.seen link = v := by
  rw [seen, h, Option.getD_some]

/-- A link of which something is known is there. -/
theorem view_of_seen {v : LinkView} (h : p.seen link = v) (known : v ≠ .remote 0 0) :
    p.links[link]? = some v := by
  unfold seen at h
  cases hv : p.links[link]? with
  | none => exact absurd (by rw [← h, hv]; rfl) known
  | some w =>
    rw [hv] at h
    exact congrArg some h

theorem seen_setView {v w : LinkView} (h : p.links[link]? = some v) (i : Nat) :
    seen { p with links := p.links.setIfInBounds link w } i = if i = link then w else p.seen i := by
  obtain ⟨hlt, -⟩ := Array.getElem?_eq_some_iff.1 h
  unfold seen
  by_cases hi : i = link
  · subst hi
    rw [if_pos rfl, Array.getElem?_setIfInBounds_self_of_lt hlt, Option.getD_some]
  · rw [if_neg hi, Array.getElem?_setIfInBounds_ne (Ne.symm hi)]

theorem Kept.seen {R : LinkView → LinkView → Prop} [Std.Refl R] (k : Kept R p q) (link : Nat) :
    R (p.seen link) (q.seen link) := by
  unfold Partition.seen
  cases hq : q.links[link]? with
  | some w =>
    obtain ⟨v, hv, hR⟩ := k.view hq
    rw [hv]
    exact hR
  | none =>
    have hk := k.links link
    rw [hq] at hk
    cases hp : p.links[link]? with
    | none => exact Std.Refl.refl _
    | some v => rw [hp] at hk; cases hk

/-- Every proxy is emptied and every gateway reports in each second. -/
structure Listed (p : Partition) : Prop where
  proxies : ∀ (link : Nat) x, p.links[link]? = some (.proxy x) → link ∈ p.proxies
  gateways : ∀ (link : Nat) g, p.links[link]? = some (.gateway g) → link ∈ p.gateways
  few : p.gateways.length ≤ p.links.size

theorem Listed.of_kept (k : Kept LinkView.Alike p q) (h : p.Listed) : q.Listed := by
  refine ⟨fun link y hy => ?_, fun link g hg => ?_, by rw [k.gateways, k.size]; exact h.few⟩
  · obtain ⟨v, hv, alike⟩ := k.view hy
    cases v with
    | proxy x => exact k.proxies ▸ h.proxies link x hv
    | owned | gateway | remote => cases alike
  · obtain ⟨v, hv, alike⟩ := k.view hg
    cases v with
    | gateway x => exact k.gateways ▸ h.gateways link x hv
    | owned | proxy | remote => cases alike

/-! ## Collecting -/

theorem entering_sent {owner link : Nat} {ids : List Nat}
    (h : Along (fun id p q => Ends (send owner (some link) id now) p () q) ids p q) (target i : Nat) :
    q.links = p.links ∧ q.outbox.entering target i =
      p.outbox.entering target i + if target = owner ∧ link = i then ids.length else 0 := by
  induction h with
  | nil => simp
  | cons first _ ih =>
    obtain ⟨r, -, -, rfl⟩ := send_ends first
    refine ⟨ih.1, ?_⟩
    rw [ih.2]
    dsimp only
    rw [Outbox.entering_addAgent, List.length_cons]
    simp only [Option.some.injEq]
    split <;> omega

/-- What a proxy holds goes into the transfer for the owner of the link. -/
theorem seen_emptied (h : Emptied now link p q) (i : Nat) :
    (q.seen i).outgoing = (if i = link then [] else (p.seen i).outgoing) ∧
      ∀ target, q.outbox.entering target i + (q.seen i).bound target =
        p.outbox.entering target i + (p.seen i).bound target := by
  cases h with
  | @proxy q x view sends =>
    have seen : q.seen i = if i = link then .proxy { x with outbox := [] } else p.seen i := by
      rw [← seen_setView view]
      unfold Partition.seen
      rw [(entering_sent sends 0 0).1]
    refine ⟨?_, fun target => ?_⟩
    · rw [seen]
      split <;> rfl
    · rw [(entering_sent sends target i).2, seen]
      show p.outbox.entering target i + _ + _ = _
      by_cases hi : i = link
      · subst hi
        rw [if_pos rfl, seen_of_view view]
        simp only [LinkView.bound, List.length_nil, and_true, eq_comm (a := x.toPart)]
        split <;> omega
      · rw [if_neg hi, if_neg fun h => hi h.2.symm, Nat.add_zero]
  | @other v view kind =>
    refine ⟨?_, fun _ => rfl⟩
    split
    · rename_i hi
      rw [hi, seen_of_view view]
      cases v with
      | proxy x => exact absurd rfl (kind x)
      | owned | gateway | remote => rfl
    · rfl

/-- What the proxies hold goes into transfers. -/
theorem seen_collected {links : List Nat} (h : Along (Emptied now) links p q) (i : Nat) :
    (q.seen i).outgoing = (if i ∈ links then [] else (p.seen i).outgoing) ∧
      ∀ target, q.outbox.entering target i + (q.seen i).bound target =
        p.outbox.entering target i + (p.seen i).bound target := by
  induction h with
  | nil => exact ⟨rfl, fun _ => rfl⟩
  | @cons link rest p r q first _ ih =>
    obtain ⟨hout, hbound⟩ := seen_emptied first i
    obtain ⟨ihout, ihbound⟩ := ih
    refine ⟨?_, fun target => (ihbound target).trans (hbound target)⟩
    rw [ihout, hout]
    by_cases hi : i = link
    · simp [hi]
    · simp [hi]

/-- What a gateway has counted goes into releases. -/
theorem seen_reported (h : Reported now link p q) (i : Nat) :
    (q.seen i).released = (if i = link then .empty else (p.seen i).released) ∧
      ∀ part, q.outbox.reporting part i + (q.seen i).credit part =
        p.outbox.reporting part i + (p.seen i).credit part := by
  cases h with
  | @gateway g view =>
    have seen : Partition.seen { p with
        links := p.links.setIfInBounds link (.gateway { g with released := .empty })
        outbox := p.outbox.addCounts link now g.released.entries } i =
          if i = link then .gateway { g with released := .empty } else p.seen i :=
      seen_setView view i
    refine ⟨?_, fun part => ?_⟩
    · rw [seen]
      split <;> rfl
    · rw [seen]
      show (p.outbox.addCounts link now g.released.entries).reporting part i + _ = _
      rw [Outbox.reporting_addCounts]
      by_cases hi : i = link
      · subst hi
        rw [if_pos rfl, if_pos rfl, seen_of_view view]
        simp only [LinkView.credit, Table.get?_empty, Option.getD_none]
        omega
      · rw [if_neg hi, if_neg (Ne.symm hi), Nat.add_zero]
  | @other v view kind =>
    refine ⟨?_, fun _ => rfl⟩
    split
    · rename_i hi
      rw [hi, seen_of_view view]
      cases v with
      | gateway g => exact absurd rfl (kind g)
      | owned | proxy | remote => rfl
    · rfl

/-- What the gateways have counted goes into releases. -/
theorem seen_reported_along {links : List Nat} (h : Along (Reported now) links p q) (i : Nat) :
    (q.seen i).released = (if i ∈ links then .empty else (p.seen i).released) ∧
      ∀ part, q.outbox.reporting part i + (q.seen i).credit part =
        p.outbox.reporting part i + (p.seen i).credit part := by
  induction h with
  | nil => exact ⟨rfl, fun _ => rfl⟩
  | @cons link rest p r q first _ ih =>
    obtain ⟨hreleased, hcredit⟩ := seen_reported first i
    obtain ⟨ihreleased, ihcredit⟩ := ih
    refine ⟨?_, fun part => (ihcredit part).trans (hcredit part)⟩
    rw [ihreleased, hreleased]
    by_cases hi : i = link
    · simp [hi]
    · simp [hi]

/-! ## Sending -/

theorem proper_emptied {size : Nat} (h : Emptied now link p q) (hsize : p.links.size = size)
    (proper : p.outbox.Proper (AgentRecord.Known p.isVehicle) size) :
    q.outbox.Proper (AgentRecord.Known p.isVehicle) size := by
  cases h with
  | @proxy q x view sends =>
    obtain ⟨hlt, -⟩ := Array.getElem?_eq_some_iff.1 view
    have step : ∀ {ids : List Nat} {r s : Partition},
        Along (fun id p q => Ends (send x.toPart (some link) id now) p () q) ids r s →
        r.isVehicle = p.isVehicle → r.outbox.Proper (AgentRecord.Known p.isVehicle) size →
        s.outbox.Proper (AgentRecord.Known p.isVehicle) size := by
      intro ids r s h
      induction h with
      | nil => exact fun _ h => h
      | @cons id rest r s t first _ ih =>
        intro vehicles hr
        have kept : Kept Eq r s := kept_send first
        obtain ⟨record, records, -, rfl⟩ := send_ends first
        exact ih (kept.isVehicle.trans vehicles) (Outbox.proper_addAgent hr
          (vehicles ▸ records.known) fun l hl => Option.some.inj hl ▸ hsize ▸ hlt)
    exact step sends rfl proper
  | other view kind => exact proper

theorem reports_reported {most : Nat} (h : Reported now link p q)
    (reports : p.outbox.Reports most p.links.size) : q.outbox.Reports (most + 1) p.links.size := by
  cases h with
  | gateway view =>
    obtain ⟨hlt, -⟩ := Array.getElem?_eq_some_iff.1 view
    exact reports.addCounts hlt _
  | other view kind => exact fun target r hr => (reports target r hr).imp_left Nat.le_succ_of_le

theorem reports_reported_along {most : Nat} {links : List Nat} (h : Along (Reported now) links p q)
    (reports : p.outbox.Reports most p.links.size) :
    q.outbox.Reports (most + links.length) p.links.size := by
  induction h generalizing most with
  | nil => exact reports
  | @cons link rest p r q first _ ih =>
    have later := ih ((kept_reported first).size ▸ reports_reported first reports)
    rw [(kept_reported first).size, Nat.add_assoc, Nat.add_comm 1] at later
    exact later

/-- Nothing is left in the proxies. -/
theorem unsent_collected (listed : p.Listed) (h : Along (Emptied now) p.proxies p q) (i : Nat) :
    (q.seen i).outgoing = [] := by
  rw [(seen_collected h i).1]
  split
  · rfl
  · rename_i hi
    unfold Partition.seen
    cases hl : p.links[i]? with
    | none => rfl
    | some v =>
      cases v with
      | proxy x => exact absurd (listed.proxies i x hl) hi
      | owned | gateway | remote => rfl

/-- Nothing is left to be reported. -/
theorem unreported_reported (listed : p.Listed) (h : Along (Reported now) p.gateways p q) (i : Nat) :
    (q.seen i).released = .empty := by
  rw [(seen_reported_along h i).1]
  split
  · rfl
  · rename_i hi
    unfold Partition.seen
    cases hl : p.links[i]? with
    | none => rfl
    | some v =>
      cases v with
      | gateway g => exact absurd (listed.gateways i g hl) hi
      | owned | proxy | remote => rfl

theorem releases_emptied (h : Emptied now link p q) : q.outbox.releases = p.outbox.releases := by
  cases h with
  | @proxy q x view sends =>
    exact sends.keeps (P := fun r => r.outbox.releases = p.outbox.releases)
      (fun id _ r s h hr => by
        obtain ⟨record, -, -, rfl⟩ := send_ends h
        exact hr) rfl
  | other view kind => rfl

theorem transfers_reported (h : Reported now link p q) : q.outbox.transfers = p.outbox.transfers := by
  cases h with
  | gateway view => exact Outbox.transfers_addCounts ..
  | other view kind => rfl

/-- What a partition does to its accounts when it sends these transfers. -/
structure Collected (messages : Table Transfer) (p q : Partition) : Prop where
  proper : ∀ target t, messages.get? target = some t →
    t.Proper (AgentRecord.Known q.isVehicle) q.links.size
  entering : ∀ target t, messages.get? target = some t → ∀ i,
    t.entering i = p.outbox.entering target i + (p.seen i).bound target
  reports : q.outbox.Reports q.links.size q.links.size
  reporting : ∀ part i, q.outbox.reporting part i + (q.seen i).credit part = (p.seen i).credit part
  reserved : ∀ i, (q.seen i).reserved = (p.seen i).reserved
  unsent : ∀ i, (q.seen i).outgoing = []
  unreported : ∀ i, (q.seen i).released = .empty

theorem collected_mailed {messages : Table Transfer} (h : Mailed now messages p q) (listed : p.Listed)
    (releases : p.outbox.releases = .empty)
    (proper : p.outbox.Proper (AgentRecord.Known p.isVehicle) p.links.size) :
    Collected messages p q := by
  obtain @⟨r, s, emptied, reported, complete⟩ := h
  have collected : Kept (LinkView.Same _) p r := emptied.relates fun link _ p q h => kept_emptied h
  have counted : Kept (LinkView.Same _) r s := reported.relates fun link _ p q h => kept_reported h
  have alike : Kept LinkView.Alike p s :=
    (collected.mono LinkView.Same.alike).trans (counted.mono LinkView.Same.alike)
  have listedLater : r.Listed := listed.of_kept (collected.mono LinkView.Same.alike)
  have transfers : s.outbox.transfers = r.outbox.transfers :=
    reported.keeps (P := fun s => s.outbox.transfers = r.outbox.transfers)
      (fun link _ s t h hs => (transfers_reported h).trans hs) rfl
  have noReleases : r.outbox.releases = .empty :=
    emptied.keeps (P := fun r => r.outbox.releases = .empty)
      (fun link _ r s h hr => (releases_emptied h).trans hr) releases
  -- Every message is what is queued for its receiver.
  have queued : ∀ target t, messages.get? target = some t →
      t = (r.outbox.transfers.get? target).getD (.empty now s.outbox.rank target) := by
    intro target t ht
    rw [Outbox.get?_complete complete, transfers] at ht
    split at ht
    · exact (Option.some.inj ht).symm
    · cases ht
  have sealed : r.outbox.Proper (AgentRecord.Known p.isVehicle) p.links.size := by
    refine (emptied.keeps (P := fun r => r.isVehicle = p.isVehicle ∧ r.links.size = p.links.size ∧
      r.outbox.Proper (AgentRecord.Known p.isVehicle) p.links.size) (fun link _ r s h hr => ?_)
      ⟨rfl, rfl, proper⟩).2.2
    obtain ⟨vehicles, size, hr⟩ := hr
    have k := kept_emptied h
    exact ⟨k.isVehicle.trans vehicles, k.size.trans size, vehicles ▸ proper_emptied h size (vehicles ▸ hr)⟩
  refine ⟨fun target t ht => ?_, fun target t ht i => ?_, ?_, fun part i => ?_, fun i => ?_,
    fun i => ?_, fun i => unreported_reported listedLater reported i⟩
  · rw [queued target t ht]
    show Transfer.Proper (AgentRecord.Known s.isVehicle) s.links.size _
    rw [alike.isVehicle, alike.size]
    cases hq : r.outbox.transfers.get? target with
    | none => exact Transfer.proper_empty
    | some t => exact sealed target t hq
  · have hr := (seen_collected emptied i).2 target
    rw [LinkView.bound_of_outgoing (unsent_collected listed emptied i)] at hr
    rw [← hr, queued target t ht, Outbox.entering]
    cases r.outbox.transfers.get? target <;> rfl
  · have nobody : r.outbox.Reports 0 r.links.size := fun target r hr => by
      rw [noReleases] at hr
      cases hr
    have all := reports_reported_along reported nobody
    rw [Nat.zero_add, ← counted.size] at all
    intro target r hr
    exact (all target r hr).imp_left fun few => few.trans (counted.size ▸ listedLater.few)
  · have hs := (seen_reported_along reported i).2 part
    have nothing : r.outbox.reporting part i = 0 := by
      rw [Outbox.reporting, noReleases]
      rfl
    rw [nothing, Nat.zero_add] at hs
    exact hs.trans (congrFun (congrArg (·.1) (collected.seen i).same) part)
  · exact (congrArg (·.2) (counted.seen i).same).trans (congrArg (·.2.1) (collected.seen i).same)
  · exact (congrArg (·.1) (counted.seen i).same).trans (unsent_collected listed emptied i)

/-- What a partition does to its accounts in a second until it has sent these transfers. -/
structure Sent (messages : Table Transfer) (p q : Partition) : Prop where
  proper : ∀ target t, messages.get? target = some t →
    t.Proper (AgentRecord.Known q.isVehicle) q.links.size
  /-- For whoever enters a link of a neighbor, room has been reserved. -/
  entering : ∀ target t, messages.get? target = some t → ∀ i x, q.seen i = .proxy x →
    x.toPart = target → x.occupancy = (p.seen i).reserved + t.entering i
  /-- Whoever has left a gateway is in the releases. -/
  reporting : ∀ part i, q.outbox.reporting part i + (q.seen i).credit part = (p.seen i).credit part
  reports : q.outbox.Reports q.links.size q.links.size
  room : ∀ i, (p.seen i).reserved ≤ (p.seen i).room → (q.seen i).reserved ≤ (q.seen i).room
  unsent : ∀ i, (q.seen i).outgoing = []
  unreported : ∀ i, (q.seen i).released = .empty

/-- Links which are alike have the same room. -/
theorem room_of_alike {v w : LinkView} (h : LinkView.Alike v w) : w.room = v.room := by
  have cleared : ∀ v : LinkView, v.cleared.room = v.room := fun v => by cases v <;> rfl
  rw [← cleared w, ← cleared v, h]

/-- An agent which is to be sent to a link goes to the owner of the link. -/
theorem bound_of_alike {v : LinkView} {x : Proxy} (h : LinkView.Alike v (.proxy x)) :
    v.bound x.toPart = v.outgoing.length := by
  cases v with
  | proxy y =>
    have owner : x.toPart = y.toPart := congrArg (LinkView.owner 0) h
    rw [LinkView.bound, if_pos owner.symm]
    rfl
  | owned | gateway | remote => cases h

theorem sent_wrote {messages : Table Transfer} (h : Wrote now messages p q) (idle : p.outbox.Idle)
    (listed : p.Listed) (unsent : ∀ i, (p.seen i).outgoing = []) : Sent messages p q := by
  obtain ⟨w, hw, mailed⟩ := h
  obtain ⟨balanced, handed, known, outbox⟩ := worked_work hw
  have releases : w.outbox.releases = .empty := by
    rw [outbox]
    exact Outbox.addHanded_induct (P := fun o => o.releases = .empty) (fun _ _ _ h => h) idle.releases
  have proper : w.outbox.Proper (AgentRecord.Known w.isVehicle) w.links.size := by
    rw [outbox, balanced.isVehicle]
    exact Outbox.proper_addHanded (fun _ _ ht => by simp [idle.transfers] at ht) known
  have collected := collected_mailed mailed (listed.of_kept (balanced.mono LinkView.Balanced.alike))
    releases proper
  have alike : Kept LinkView.Alike w q := (kept_mailed mailed).mono LinkView.Same.alike
  refine ⟨collected.proper, fun target t ht i x hx owner => ?_, fun part i => ?_, collected.reports,
    fun i fits => ?_, collected.unsent, collected.unreported⟩
  · have entering := collected.entering target t ht i
    have nothing : w.outbox.entering target i = 0 := by
      rw [outbox, Outbox.entering_addHanded, Outbox.entering, idle.transfers]
      rfl
    have bound : (w.seen i).bound target = (w.seen i).outgoing.length :=
      owner ▸ bound_of_alike (hx ▸ alike.seen i)
    have same : x.occupancy = (w.seen i).reserved := by
      rw [← collected.reserved i, hx]
      rfl
    have taken := (balanced.seen i).unsent
    rw [unsent i, List.length_nil, Nat.add_zero] at taken
    omega
  · exact (collected.reporting part i).trans ((balanced.seen i).credit part)
  · rw [collected.reserved, room_of_alike (alike.seen i)]
    exact (balanced.seen i).room fits

/-! ## Receiving -/

/-- Whoever comes from a partition is counted for it on the link which it enters. -/
theorem credit_welcomed {id part : Nat} (h : Welcomed id link part now p q) (i other : Nat) :
    (q.seen i).credit other = (p.seen i).credit other + if link = i ∧ part = other then 1 else 0 := by
  have counted : ∀ {g g' : Gateway}, p.links[link]? = some (.gateway g) →
      (q.seen i = if i = link then .gateway g' else p.seen i) →
      (LinkView.gateway g').credit other =
        (LinkView.gateway g).credit other + (if part = other then 1 else 0) →
      (q.seen i).credit other =
        (p.seen i).credit other + if link = i ∧ part = other then 1 else 0 := by
    intro g g' view seen hg
    rw [seen]
    by_cases hi : i = link
    · subst hi
      rw [if_pos rfl, hg, seen_of_view view]
      simp
    · rw [if_neg hi, if_neg fun h => hi h.1.symm, Nat.add_zero]
  cases h with
  | @waits g view known =>
    refine counted view (seen_setView view i) ?_
    simp only [LinkView.credit, Gateway.pushInbound, List.countP_append, List.countP_singleton,
      decide_eq_true_eq]
    omega
  | @enters g a finish q view known empty room enters scheduled =>
    have links : q.links = p.links.setIfInBounds link (.gateway (g.append id part finish)) := by
      obtain ⟨due, rfl⟩ := scheduled_ends scheduled fun same => same
      rfl
    refine @counted g (g.append id part finish) view ?_ ?_
    · rw [← seen_setView view]
      unfold Partition.seen
      rw [links]
    · simp only [LinkView.credit, Gateway.append, List.countP_append, List.countP_singleton,
        decide_eq_true_eq, Option.some.injEq]
      omega

theorem credit_takenIn {record : AgentRecord} {l : Option Nat} {part : Nat}
    (h : TakenIn record l part now p q) (i other : Nat) :
    (q.seen i).credit other = (p.seen i).credit other + if l = some i ∧ part = other then 1 else 0 := by
  obtain ⟨b, a, boards, found, cursor, placed⟩ := h
  have boarded : Kept Eq p b := kept_boarded boards
  have moved : Kept Eq b
      { b with agents := b.agents.setIfInBounds record.id { a with cursor := record.cursor } } :=
    Kept.setAgent found rfl fun h => h
  have same := (boarded.trans moved).seen i
  cases l with
  | none =>
    have woken : Kept Eq _ q := kept_wake placed
    rw [← woken.seen i, ← same]
    simp
  | some link =>
    rw [credit_welcomed placed i other, ← same]
    simp only [Option.some.injEq]

/-- Whoever is in a transfer is counted for its sender. -/
theorem credit_absorbed {t : Transfer} (h : Absorbed now t p q) (i other : Nat) :
    (q.seen i).credit other =
      (p.seen i).credit other + if t.sender = other then t.entering i else 0 := by
  have group : ∀ {l : Option Nat} {part : Nat} {rs : List AgentRecord} {p q : Partition},
      Along (fun r p q => Nonempty (TakenIn r l part now p q)) rs p q →
      (q.seen i).credit other =
        (p.seen i).credit other + if l = some i ∧ part = other then rs.length else 0 := by
    intro l part rs p q h
    induction h with
    | nil => simp
    | cons first _ ih =>
      obtain ⟨taken⟩ := first
      rw [ih, credit_takenIn taken, List.length_cons]
      split <;> omega
  have groups : ∀ {part : Nat} {gs : List LinkRecord} {p q : Partition},
      Along (fun (g : LinkRecord) =>
        Along (fun r p q => Nonempty (TakenIn r g.link part now p q)) g.agents) gs p q →
      (q.seen i).credit other = (p.seen i).credit other + if part = other then
        (gs.map fun g => if g.link = some i then g.agents.length else 0).sum else 0 := by
    intro part gs p q h
    induction h with
    | nil => simp
    | @cons g rest p r q first _ ih =>
      rw [ih, group first, List.map_cons, List.sum_cons]
      by_cases hp : part = other
      · simp only [hp, and_true, if_true]
        omega
      · simp [hp]
  exact groups h

theorem credit_absorbed_along {ts : List Transfer} (h : Along (Absorbed now) ts p q) (i other : Nat) :
    (q.seen i).credit other = (p.seen i).credit other +
      (ts.map fun t => if t.sender = other then t.entering i else 0).sum := by
  induction h with
  | nil => simp
  | cons first _ ih => rw [ih, credit_absorbed first, List.map_cons, List.sum_cons, Nat.add_assoc]

/-- Applying a release gives back the room which it reports. -/
theorem reserved_credited {report : Release} (h : Credited report p q) (i : Nat) :
    (q.seen i).reserved + report.reporting i = (p.seen i).reserved := by
  obtain ⟨time, sender, target, counts⟩ := report
  have rows : ∀ {rows : List (Nat × Nat)} {p q : Partition},
      Along (fun (row : Nat × Nat) p q => Ends (applyCount sender row.1 row.2) p () q) rows p q →
      (q.seen i).reserved + (rows.map fun c => if c.1 = i then c.2 else 0).sum =
        (p.seen i).reserved := by
    intro rows p q h
    induction h with
    | nil => rfl
    | @cons row rest p r q first _ ih =>
      obtain ⟨x, y, view, -, release, rfl⟩ := applyCount_eq_ok.1 first
      obtain ⟨hle, rfl⟩ := Proxy.release_eq_ok release
      rw [seen_setView view] at ih
      rw [List.map_cons, List.sum_cons]
      by_cases hi : i = row.1
      · subst hi
        rw [if_pos rfl] at ih
        rw [if_pos rfl, seen_of_view view]
        have : (LinkView.proxy { x with occupancy := x.occupancy - row.2 }).reserved =
          x.occupancy - row.2 := rfl
        show _ = x.occupancy
        omega
      · rw [if_neg hi] at ih
        rw [if_neg (Ne.symm hi), Nat.zero_add, ih]
  exact rows h

theorem reserved_credited_along {reports : List Release} (h : Along Credited reports p q) (i : Nat) :
    (q.seen i).reserved + (reports.map (Release.reporting i)).sum = (p.seen i).reserved := by
  induction h with
  | nil => rfl
  | cons first _ ih =>
    have := reserved_credited first i
    rw [List.map_cons, List.sum_cons]
    omega

/-- What a partition does to its accounts when it takes in these transfers and answers with these
releases. -/
structure Answered (transfers : List Transfer) (messages : Table Release) (p q : Partition) : Prop where
  credit : ∀ i part, (q.seen i).credit part = (p.seen i).credit part +
    (transfers.map fun t => if t.sender = part then t.entering i else 0).sum
  reporting : ∀ target r, messages.get? target = some r → ∀ i,
    r.reporting i = p.outbox.reporting target i
  reports : ∀ most size, p.outbox.Reports most size → ∀ target r, messages.get? target = some r →
    r.counts.length ≤ most ∧ ∀ c ∈ r.counts, c.1 < size
  links : ∀ i, LinkView.Same (fun v => (v.outgoing, v.reserved, v.released)) (p.seen i) (q.seen i)

/-- The releases of a partition are what is queued for their receivers. -/
theorem releases_arrive {delivery : Delivery} {buffers : Buffers}
    (h : Ends (arrive now delivery) p buffers q) :
    ∃ messages : Table Release, buffers = messages.mapRows (fun _ r => r.encode) ∧
      ∀ target r, messages.get? target = some r →
        r = (p.outbox.releases.get? target).getD (.empty now p.outbox.rank target) := by
  obtain ⟨⟨⟩, r, hr, hs⟩ := bind_eq_ok.1 h
  obtain ⟨messages, complete, rfl, -⟩ := sendReleases_ends hs
  rw [outbox_receiveTransfers hr] at complete
  refine ⟨messages, rfl, fun target r hr => ?_⟩
  rw [Outbox.get?_complete complete] at hr
  split at hr
  · exact (Option.some.inj hr).symm
  · cases hr

theorem answered_arrive {delivery : Delivery} {buffers : Buffers} {transfers : List Transfer}
    (h : Ends (arrive now delivery) p buffers q)
    (read : Outbox.readTransfers p.rank now p.isVehicle delivery = .ok transfers) :
    ∃ messages, buffers = messages.mapRows (fun _ r => r.encode) ∧ Answered transfers messages p q := by
  have kept := kept_arrive h
  obtain ⟨messages, hb, queued⟩ := releases_arrive h
  obtain ⟨transfers', r, read', absorbed, rfl⟩ := arrive_ends h
  obtain rfl := Except.ok.inj (read.symm.trans read')
  have order : (transfers.mergeSort fun a b => a.sender ≤ b.sender).Perm transfers :=
    List.mergeSort_perm ..
  refine ⟨messages, hb, ⟨fun i part => ?_, fun target r hr i => ?_,
    fun most size reports target r hr => ?_, kept.seen⟩⟩
  · rw [← (order.map fun t => if t.sender = part then t.entering i else 0).sum_eq]
    exact credit_absorbed_along absorbed i part
  · rw [queued target r hr, Outbox.reporting]
    cases p.outbox.releases.get? target <;> rfl
  · have found := queued target r hr
    cases hq : p.outbox.releases.get? target with
    | none =>
      rw [hq, Option.getD_none] at found
      rw [found]
      exact ⟨Nat.zero_le _, fun c hc => by cases hc⟩
    | some r' =>
      rw [hq, Option.getD_some] at found
      exact found ▸ reports target r' hq

end Partition

end Mobility
