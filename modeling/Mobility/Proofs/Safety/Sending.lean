import Mobility.Proofs.Chronicle.Exchange
import Mobility.Proofs.Safety.Work

/-!
# Sending is safe

Proxies and gateways which a partition looks at exist, and it knows the agents which it sends, so sending
only fails if a plan leads to somebody who isn't a neighbor. Whoever is sent can go on where it comes to,
and counts are reported for gateways which agents of the receiver come through.
-/

set_option autoImplicit false

namespace Mobility

open Act

namespace Partition

variable {p q r : Partition} {id link now : Nat} {links : List Nat} {messages : Table Transfer}

/-! ## What is let go -/

/-- Agents may be gone, but nobody has come and nobody has gone on. -/
structure Sheds (p q : Partition) : Prop where
  kept : Kept LinkView.Alike p q
  agents : q.agents = p.agents
  finishers : q.log.finishers = p.log.finishers
  dueAgents : q.dueAgents = p.dueAgents
  platforms : q.platforms = p.platforms
  standing : q.standing ≤ p.standing
  heading : q.heading ≤ p.heading
  genuine : (∀ (i : Nat) v, p.links[i]? = some v → v.Genuine) →
    ∀ (i : Nat) v, q.links[i]? = some v → v.Genuine

instance : Std.Refl Sheds :=
  ⟨fun _ => ⟨Std.Refl.refl _, rfl, rfl, rfl, rfl, le_rfl, le_rfl, fun h => h⟩⟩

instance : IsTrans Partition Sheds where
  trans _ _ _ h k := ⟨h.kept.trans k.kept, k.agents.trans h.agents, k.finishers.trans h.finishers,
    k.dueAgents.trans h.dueAgents, k.platforms.trans h.platforms, k.standing.trans h.standing,
    k.heading.trans h.heading, fun genuine => k.genuine (h.genuine genuine)⟩

theorem Sheds.trans (h : Sheds p q) (k : Sheds q r) : Sheds p r := IsTrans.trans _ _ _ h k

theorem Sheds.roots (h : Sheds p q) : q.roots ≤ p.roots := by
  rw [Partition.roots, Partition.roots, h.finishers, h.dueAgents]
  exact add_le_add_right h.standing _

theorem sheds_setView {v w : LinkView} (view : p.links[link]? = some v) (alike : LinkView.Alike v w)
    (standing : w.standing ≤ v.standing) (heading : w.heading ≤ v.heading)
    (genuine : v.Genuine → w.Genuine) :
    Sheds p { p with links := p.links.setIfInBounds link w } := by
  refine ⟨Kept.setView view alike, rfl, rfl, rfl, rfl, ?_, heading_setView_le view heading,
    fun h => genuine_setView h (genuine (h link v view)) rfl⟩
  have stands := standing_setView (w := w) view
  exact le_of_add_le_add_right (a := v.standing) (stands.le.trans (add_le_add_right standing _))

theorem sheds_setOutbox {o : Outbox} (rank : o.rank = p.outbox.rank)
    (neighbors : o.neighbors = p.outbox.neighbors) : Sheds p { p with outbox := o } :=
  ⟨Kept.setOutbox rank neighbors, rfl, rfl, rfl, rfl, le_rfl, le_rfl, fun h => h⟩

theorem sheds_send {target : Nat} {l : Option Nat} (h : Ends (send target l id now) p () q) :
    Sheds p q := by
  obtain ⟨record, -, -, rfl⟩ := send_ends h
  exact sheds_setOutbox rfl rfl

/-- The proxy of a link without those who are sent. -/
theorem sheds_taken {x : Proxy} (view : p.links[link]? = some (.proxy x)) :
    Sheds p { p with links := p.links.setIfInBounds link (.proxy { x with outbox := [] }) } := by
  refine sheds_setView view rfl (Multiset.zero_le _) (Multiset.zero_le _) ?_
  rintro - g ⟨⟩

theorem sheds_emptied (h : Emptied now link p q) : Sheds p q := by
  cases h with
  | proxy view sends => exact (sheds_taken view).trans (sends.relates fun _ _ _ _ => sheds_send)
  | other => exact Std.Refl.refl p

theorem sheds_reported (h : Reported now link p q) : Sheds p q := by
  cases h with
  | @gateway g view =>
    have counted : Sheds p { p with
        links := p.links.setIfInBounds link (.gateway { g with released := .empty }) } := by
      refine sheds_setView view rfl le_rfl le_rfl fun genuine => ?_
      rintro _ ⟨⟩
      have before := genuine g rfl
      exact ⟨before.queue, before.inbound, fun part hpart => by cases hpart⟩
    exact counted.trans (sheds_setOutbox (Outbox.rank_addCounts ..) (Outbox.neighbors_addCounts ..))
  | other => exact Std.Refl.refl p

theorem sheds_mailed (h : Mailed now messages p q) : Sheds p q := by
  cases h with
  | intro emptied reported =>
    have collected : Sheds p _ := emptied.relates fun _ _ _ _ => sheds_emptied
    have counted : Sheds _ _ := reported.relates fun _ _ _ _ => sheds_reported
    exact (collected.trans counted).trans (sheds_setOutbox rfl rfl)

/-- Everybody who is still there can go on. -/
theorem Able.shed (able : p.Able 0) (sheds : Sheds p q) (queued : q.outbox.Every p.Fit) : q.Able 0 := by
  have crew : ∀ v, q.crew v = p.crew v := fun v => by rw [crew, sheds.agents, crew]
  exact able.lingers sheds.kept (.of_agents sheds.agents)
    (fun v hv => Multiset.mem_of_le (add_le_add_right sheds.roots 0) hv) crew sheds.platforms
    (fun y hy => Multiset.mem_of_le sheds.heading hy) (sheds.genuine able.genuine) queued

theorem Able.mailed (able : p.Able 0) (h : Mailed now messages p q) : q.Able 0 := by
  refine able.shed (sheds_mailed h) ?_
  cases h
  rintro target t ⟨⟩

/-- Whoever is sent is fit. -/
theorem Able.fit_mailed (able : p.Able 0) (h : Mailed now messages p q) (target : Nat) (t : Transfer)
    (ht : messages.get? target = some t) : t.Every (p.Fit target) := by
  refine (every_mailed able.queued (fun link x record view sent records => ?_) h).1 target t ht
  have heads : record.id ∈ p.heading := by
    have total := heading_setView (w := .remote 0 0) view
    rw [show (LinkView.remote 0 0).heading = 0 from rfl, add_zero] at total
    rw [← total]
    exact Multiset.mem_add.2 (.inr (Multiset.mem_coe.2 sent))
  have acting : record.id ∈ 0 + p.roots :=
    Multiset.mem_add.2 (.inr (Multiset.mem_add.2 (.inr (Multiset.mem_of_le p.heading_le_standing heads))))
  refine records.fit able.honest (able.riders record.id acting) fun l hl => ?_
  obtain rfl := Option.some.inj hl
  exact ⟨⟨x, view, rfl⟩, able.heading record.id heads⟩

/-! ## Safe sending -/

/-- Everything which is emptied or reported in each second exists. -/
structure Stocked (p : Partition) : Prop where
  proxies : ∀ link ∈ p.proxies, link < p.links.size
  gateways : ∀ link ∈ p.gateways, link < p.links.size

theorem Stocked.of_kept {R : LinkView → LinkView → Prop} (h : p.Stocked) (k : Kept R p q) : q.Stocked := by
  refine ⟨fun link hl => ?_, fun link hl => ?_⟩
  · exact k.size ▸ h.proxies link (k.proxies ▸ hl)
  · exact k.size ▸ h.gateways link (k.gateways ▸ hl)

/-- These agents and their passengers are known. -/
def Knows (p : Partition) (ids : Multiset Nat) : Prop :=
  ∀ x ∈ ids, (∃ a, p.agents[x]? = some a) ∧ ∀ y ∈ p.crew x, ∃ a, p.agents[y]? = some a

theorem Knows.of_agents {ids : Multiset Nat} (h : p.Knows ids) (same : q.agents = p.agents) :
    q.Knows ids := by
  intro x hx
  rw [crew, same]
  exact h x hx

theorem safe_emptyProxy (inside : link < p.links.size) (known : p.Knows p.heading) :
    Safe (emptyProxy now link) p := by
  have view := Array.getElem?_eq_getElem inside
  refine .after (ends_view view) ?_
  cases hv : p.links[link] with
  | proxy x =>
    rw [hv] at view
    refine .after (ends_setView p link _) ?_
    refine .forM (P := fun rest r => r.Knows rest) (fun x rest r known => ?_)
      (fun x rest r s known sends => ?_) (fun y hy => ?_)
    · obtain ⟨found, aboard⟩ := known x (Multiset.mem_coe.2 List.mem_cons_self)
      exact safe_send found aboard
    · refine Knows.of_agents (fun y hy => known y ?_) (sheds_send sends).agents
      exact Multiset.mem_coe.2 (List.mem_cons_of_mem _ (Multiset.mem_coe.1 hy))
    · have total := heading_setView (w := .remote 0 0) view
      rw [show (LinkView.remote 0 0).heading = 0 from rfl, add_zero] at total
      exact known y (total ▸ Multiset.mem_add.2 (.inr hy))
  | owned | gateway | remote => exact .pure ()

theorem safe_reportGateway (inside : link < p.links.size) : Safe (reportGateway now link) p := by
  refine .after (ends_view (Array.getElem?_eq_getElem inside)) ?_
  split
  · refine .after (ends_setView p link _) ?_
    exact .forM (P := fun _ _ => True) (fun _ _ _ _ => .modify _) (fun _ _ _ _ _ _ => trivial) trivial
  · exact .pure ()

/-- What can't be sent is for somebody who isn't a neighbor. -/
theorem safe_complete {α β : Type} {neighbors : Table Unit} {queued : Table α} {blank : Nat → α}
    {f : Table α → β} : Safe (communicate ((Outbox.complete neighbors queued blank).map f)) p := by
  unfold Outbox.complete
  split
  · exact .throw (.inl rfl)
  · exact .pure _

theorem safe_sendReleases : Safe (sendReleases now) p :=
  .after (ends_get p) (.after (ends_modify _ p) safe_complete)

theorem safe_sendTransfers (stocked : p.Stocked) (known : p.Knows p.heading) :
    Safe (sendTransfers now) p := by
  have collect : Safe (collectAgents now) p := by
    refine .after (ends_get p) (.forM
      (P := fun rest r => (∀ link ∈ rest, link < r.links.size) ∧ r.Knows r.heading)
      (fun link rest r h => safe_emptyProxy (h.1 link List.mem_cons_self) h.2)
      (fun link rest r s h ends => ?_) ⟨stocked.proxies, known⟩)
    have sheds := sheds_emptied (emptyProxy_ends ends)
    refine ⟨fun i hi => sheds.kept.size ▸ h.1 i (List.mem_cons_of_mem _ hi), ?_⟩
    exact Knows.of_agents (fun x hx => h.2 x (Multiset.mem_of_le sheds.heading hx)) sheds.agents
  refine .bind collect fun _ r collected => ?_
  have emptied : Sheds p r := (collectAgents_ends collected).relates fun _ _ _ _ => sheds_emptied
  have report : Safe (collectReleases now) r := by
    refine .after (ends_get r) (.forM (P := fun rest s => ∀ link ∈ rest, link < s.links.size)
      (fun link rest s h => safe_reportGateway (h link List.mem_cons_self))
      (fun link rest s t h ends => ?_) (stocked.of_kept emptied.kept).gateways)
    have sheds := sheds_reported (reportGateway_ends ends)
    exact fun i hi => sheds.kept.size ▸ h i (List.mem_cons_of_mem _ hi)
  exact .bind report fun _ s _ => .after (ends_get s) (.after (ends_modify _ s) safe_complete)

/-- What a partition does in a second up to its transfers only fails because of plans. -/
theorem Ready.safe_depart {stop : Nat} (h : Ready now 0 p) (stocked : p.Stocked) (last : now < Clock.last)
    (soon : p.dueAgents.next = now) (scheduled : p.Scheduled stop now []) : Safe (depart now) p := by
  refine .bind (h.safe_work last soon scheduled) fun _ q ends => ?_
  obtain ⟨ready, -⟩ := h.work ends
  refine safe_sendTransfers (stocked.of_kept (worked_work ends).kept) fun x hx => ?_
  have present : x ∈ 0 + q.roots :=
    Multiset.mem_add.2 (.inr (Multiset.mem_add.2 (.inr (Multiset.mem_of_le q.heading_le_standing hx))))
  exact ⟨ready.found present, ready.aboard present⟩

end Partition

namespace Outbox

variable {o : Outbox} {known : Nat → Nat → Prop}

/-- The counts which are queued for a partition are those of links which it knows. -/
def Refers (known : Nat → Nat → Prop) (o : Outbox) : Prop :=
  ∀ target r, o.releases.get? target = some r → ∀ c ∈ r.counts, known target c.1

theorem Refers.addCounts {counts : Table Nat} {link now : Nat} (h : o.Refers known)
    (parts : ∀ part ∈ counts.keys, known part link) :
    (o.addCounts link now counts.entries).Refers known := by
  intro target r hr
  rw [releases_addCounts] at hr
  cases hc : counts.get? target with
  | none =>
    rw [hc] at hr
    exact h target r hr
  | some count =>
    rw [hc] at hr
    obtain rfl := Option.some.inj hr
    have new : known target link := parts target (Table.mem_keys.2 ⟨count, hc⟩)
    cases ho : o.releases.get? target with
    | none =>
      rintro c hc
      obtain rfl := List.mem_singleton.1 hc
      exact new
    | some r =>
      rintro c hc
      rcases List.mem_append.1 hc with hc | hc
      · exact h target r ho c hc
      · exact List.mem_singleton.1 hc ▸ new

end Outbox

namespace Partition

variable {p q r : Partition} {link now : Nat} {messages : Table Transfer}

/-- Agents of partition `part` come through the gateway of the link. -/
def Admits (p : Partition) (part link : Nat) : Prop :=
  ∃ g, p.links[link]? = some (.gateway g) ∧ part ∈ g.fromParts

theorem fromParts_of_alike {g k : Gateway} (h : LinkView.Alike (.gateway g) (.gateway k)) :
    k.fromParts = g.fromParts := by
  have cleared : (LinkView.gateway k).cleared = (LinkView.gateway g).cleared := h
  injection cleared with same
  injection same

theorem Admits.of_kept {part : Nat} (h : p.Admits part link) (k : Kept LinkView.Alike p q) :
    q.Admits part link := by
  obtain ⟨g, view, known⟩ := h
  have alike := k.seen link
  rw [seen_of_view view] at alike
  cases hq : q.seen link with
  | gateway g' =>
    rw [hq] at alike
    exact ⟨g', view_of_seen hq (by simp), fromParts_of_alike alike ▸ known⟩
  | owned | proxy | remote =>
    rw [hq] at alike
    cases alike

/-- Counts are reported for gateways which agents of the receiver come through. -/
theorem refers_mailed (genuine : ∀ (i : Nat) v, p.links[i]? = some v → v.Genuine)
    (releases : p.outbox.releases = .empty) (h : Mailed now messages p q) :
    q.outbox.Refers q.Admits := by
  have kept := (sheds_mailed h).kept
  cases h with
  | @intro r s emptied reported =>
    have collected : r.outbox.releases = .empty :=
      emptied.keeps (P := fun r => r.outbox.releases = .empty)
        (fun link _ r s h hr => (releases_emptied h).trans hr) releases
    have sheds : Sheds p r := emptied.relates fun _ _ _ _ => sheds_emptied
    have start : r.outbox.Refers p.Admits := by
      intro target report hr
      rw [collected] at hr
      cases hr
    -- Nobody has left a gateway but those who have come through it.
    have all : Sheds p s ∧ s.outbox.Refers p.Admits := by
      refine reported.keeps (P := fun s => Sheds p s ∧ s.outbox.Refers p.Admits)
        (fun link _ s t h hs => ⟨hs.1.trans (sheds_reported h), ?_⟩) ⟨sheds, start⟩
      cases h with
      | other => exact hs.2
      | @gateway g view =>
        refine hs.2.addCounts fun part hpart => ?_
        obtain ⟨v, hv, alike⟩ := hs.1.kept.view view
        cases v with
        | gateway g' =>
          have known := (hs.1.genuine genuine link _ view g rfl).released part hpart
          exact ⟨g', hv, fromParts_of_alike alike ▸ known⟩
        | owned | proxy | remote => cases alike
    intro target report hr c hc
    exact (all.2 target report hr c hc).of_kept kept

end Partition

end Mobility
