import Mathlib.Algebra.BigOperators.Group.Finset.Basic
import Mobility.Proofs.Census.Turns

/-!
# The census in an exchange

Whoever is queued for a neighbor leaves the census with the transfer for this neighbor, and whoever is
in a transfer enters the census of its receiver. The rest of an exchange moves nobody.
-/

set_option autoImplicit false

namespace Mobility

open Act

/-- Entries which are worth nothing may be left out of a sum. -/
theorem sum_map_of_subset {M : Type} [AddCommMonoid M] {f : Nat → M} {xs ys : List Nat}
    (hxs : xs.Nodup) (hys : ys.Nodup) (hsub : ∀ x ∈ xs, x ∈ ys) (zero : ∀ y ∈ ys, y ∉ xs → f y = 0) :
    (xs.map f).sum = (ys.map f).sum := by
  rw [← List.sum_toFinset f hxs, ← List.sum_toFinset f hys]
  refine Finset.sum_subset (fun x hx => ?_) fun y hy hn => ?_
  · exact List.mem_toFinset.2 (hsub x (List.mem_toFinset.1 hx))
  · exact zero y (List.mem_toFinset.1 hy) fun h => hn (List.mem_toFinset.2 h)

namespace Outbox

/-- Everybody who is queued is in one of the messages. -/
theorem total_complete {neighbors : Table Unit} {queued messages : Table Transfer}
    {time rank : Nat} (h : complete neighbors queued (Transfer.empty time rank) = .ok messages) :
    messages.total Transfer.load = queued.total Transfer.load := by
  have get := get?_complete h
  obtain ⟨known, rfl⟩ := complete_eq_ok h
  rw [Table.total_eq_sum_keys, Table.total_eq_sum_keys, Table.keys_mapRows]
  have worth : ∀ k ∈ neighbors.keys, Table.worth Transfer.load
      ((neighbors.mapRows fun target _ =>
        (queued.get? target).getD (.empty time rank target)).get? k) =
      Table.worth Transfer.load (queued.get? k) := by
    intro k hk
    rw [get, if_pos (Table.contains_iff_mem_keys.2 hk)]
    cases queued.get? k <;> rfl
  rw [List.map_congr_left worth]
  refine (sum_map_of_subset queued.keys_nodup neighbors.keys_nodup
    (fun k hk => Table.contains_iff_mem_keys.1 (known k hk)) fun k _ hk => ?_).symm
  cases hq : queued.get? k with
  | none => rfl
  | some t => exact absurd (Table.mem_keys.2 ⟨t, hq⟩) hk

end Outbox

namespace Partition

variable {p q : Partition} {id now : Nat} {hand : Multiset Nat}

/-! ## Collecting and sending -/

/-- Whoever is to be sent to a link is queued. -/
theorem census_sent {target link : Nat} {ids : List Nat} (o : p.Orderly) (hlink : link < p.links.size)
    (h : Along (fun id p q => Ends (send target (some link) id now) p () q) ids p q) :
    q.census 0 = p.census ids ∧ q.Orderly := by
  induction h with
  | nil => exact ⟨rfl, o⟩
  | @cons id rest p r q first _ ih =>
    obtain ⟨placed, orderly⟩ := placed_send o (fun l hl => Option.some.inj hl ▸ hlink) first
    have kept : Kept Eq p r := kept_send first
    obtain ⟨hq, orderly⟩ := ih orderly (kept.size ▸ hlink)
    refine ⟨?_, orderly⟩
    rw [hq, placed.census, ← Multiset.cons_coe, census_cons]

theorem census_emptied {link : Nat} (o : p.Orderly) (h : Emptied now link p q) :
    q.census 0 = p.census 0 ∧ q.Orderly := by
  cases h with
  | @proxy q x view sends =>
    -- The agents are at hand for a moment.
    have hroots : (x.outbox : Multiset Nat) +
        roots { p with links := p.links.setIfInBounds link (.proxy { x with outbox := [] }) } =
        p.roots := by
      have hset := standing_setView (w := .proxy { x with outbox := [] }) view
      rw [show (LinkView.proxy { x with outbox := [] }).standing = 0 from rfl, add_zero] at hset
      rw [roots, roots, ← hset]
      show (x.outbox : Multiset Nat) + _ = _ + (_ + (x.outbox : Multiset Nat))
      abel
    have taken : census { p with links := p.links.setIfInBounds link (.proxy { x with outbox := [] }) }
        x.outbox = p.census 0 := by
      rw [census, hroots, census, zero_add]
      rfl
    have kept : Kept LinkView.Alike p
        { p with links := p.links.setIfInBounds link (.proxy { x with outbox := [] }) } :=
      Kept.setView view rfl
    obtain ⟨hlt, -⟩ := Array.getElem?_eq_some_iff.1 view
    obtain ⟨hq, orderly⟩ := census_sent (o.of_kept kept o.pedestrians o.riders o.waiting o.sealed)
      (kept.size ▸ hlt) sends
    exact ⟨hq.trans taken, orderly⟩
  | other view kind => exact ⟨rfl, o⟩

/-- Nobody is in a release. -/
theorem census_setOutbox {outbox : Outbox} (h : outbox.transfers = p.outbox.transfers) :
    census { p with outbox := outbox } hand = p.census hand := by
  show _ + outbox.queued = _ + p.outbox.queued
  rw [Outbox.queued, h]
  rfl

theorem Orderly.setOutbox {outbox : Outbox} (o : p.Orderly)
    (h : outbox.transfers = p.outbox.transfers) : ({ p with outbox := outbox } : Partition).Orderly :=
  ⟨o.pedestrians, o.riders, o.waiting, o.plans, fun target t ht => o.sealed target t (h ▸ ht)⟩

theorem census_reported {link : Nat} (o : p.Orderly) (h : Reported now link p q) :
    q.census 0 = p.census 0 ∧ q.Orderly := by
  cases h with
  | @gateway g view =>
    let r : Partition :=
      { p with links := p.links.setIfInBounds link (.gateway { g with released := .empty }) }
    have still : Still p r := still_setView view rfl
    have kept : Kept LinkView.Alike p r := Kept.setView view rfl
    have transfers : (p.outbox.addCounts link now g.released.entries).transfers = r.outbox.transfers :=
      Outbox.transfers_addCounts ..
    have counted : census { r with outbox := p.outbox.addCounts link now g.released.entries } 0 =
        r.census 0 := census_setOutbox transfers
    exact ⟨counted.trans (still.census 0), (still.orderly kept o).setOutbox transfers⟩
  | other view kind => exact ⟨rfl, o⟩

/-- Everybody who was counted before the transfers were sent is still counted or in one of them. -/
theorem census_wrote {messages : Table Transfer} (o : p.Orderly) (nodup : (p.census 0).Nodup)
    (h : Wrote now messages p q) :
    q.census 0 + messages.total Transfer.load = p.census 0 ∧ q.Orderly ∧
      ∀ target t, messages.get? target = some t →
        t.Proper (AgentRecord.Proper q.isVehicle) q.links.size := by
  obtain ⟨w, hw, @⟨r, s, emptied, reported, complete⟩⟩ := h
  obtain ⟨census, orderly⟩ := census_work o nodup hw
  obtain ⟨hs, orderly⟩ : s.census 0 = p.census 0 ∧ s.Orderly := by
    have collected := emptied.keeps (P := fun r => r.census 0 = p.census 0 ∧ r.Orderly)
      (fun link _ r s h hr => (census_emptied hr.2 h).imp_left fun h => h.trans hr.1)
      ⟨census, orderly⟩
    exact reported.keeps (P := fun r => r.census 0 = p.census 0 ∧ r.Orderly)
      (fun link _ r s h hr => (census_reported hr.2 h).imp_left fun h => h.trans hr.1) collected
  refine ⟨?_, ?_, fun target t ht => ?_⟩
  · rw [Outbox.total_complete complete, ← hs, census_eq, census_eq]
    show _ + 0 + s.outbox.queued = _
    rw [add_zero]
    rfl
  · exact ⟨orderly.pedestrians, orderly.riders, orderly.waiting, orderly.plans, fun _ _ ht => by cases ht⟩
  · rw [Outbox.get?_complete complete] at ht
    split at ht
    · obtain rfl := Option.some.inj ht
      cases hq : s.outbox.transfers.get? target with
      | none => exact Transfer.proper_empty
      | some t => exact orderly.sealed target t hq
    · cases ht

/-! ## Receiving -/

theorem still_updated {xs : List PassengerRecord} (h : Along Updated xs p q) : Still p q :=
  h.relates fun _ _ _ _ ⟨_, ha, _, hq⟩ => hq ▸ still_setAgent ha rfl

/-- After the passengers are taken over, exactly those of the record are aboard, and nobody has moved
otherwise. -/
theorem crew_boarded {r : AgentRecord} (o : p.Orderly) (known : r.Known p.isVehicle)
    (h : Boarded r p q) :
    (∀ x, q.crew x = if x = r.id then r.riders else p.crew x) ∧ q.roots = p.roots ∧
      q.platforms = p.platforms ∧ q.outbox = p.outbox := by
  cases h with
  | nobody unlisted =>
    refine ⟨fun x => ?_, rfl, rfl, rfl⟩
    split
    · rename_i hx
      rw [AgentRecord.Known, unlisted] at known
      rw [hx, o.pedestrians r.id known, AgentRecord.riders, unlisted]
    · rfl
  | @seated passengers s a seats listed updated found seated =>
    have still := still_updated updated
    refine ⟨fun x => ?_, still.roots, still.platforms, still.outbox⟩
    rw [crew_setIfInBounds found, still.crew]
    have aboard : seats.riders = r.riders := by
      rw [Seats.riders_replace seated, AgentRecord.riders, listed, List.map_map]
      rfl
    rw [aboard]

/-- Whoever comes to a gateway is a root. -/
theorem Still.put_welcomed {r : Partition} {link part : Nat} (h : Still p r)
    (k : Welcomed id link part now r q) : Put id p true q := by
  cases k with
  | @waits g view known =>
    have standing : (LinkView.gateway (g.pushInbound id part)).standing =
        (LinkView.gateway g).standing + {id} := by
      simp only [LinkView.standing, Gateway.pushInbound, List.map_append, ← Multiset.coe_add]
      exact (add_assoc ..).symm
    exact .root (h.roots ▸ roots_setView view standing) h.crew h.platforms h.outbox
  | @enters g a finish q view known empty room enters scheduled =>
    have standing : (LinkView.gateway (g.append id part finish)).standing =
        (LinkView.gateway g).standing + {id} := by
      simp only [LinkView.standing, Gateway.append, List.map_append, ← Multiset.coe_add]
      exact add_right_comm ..
    have onLink : Still { r with links := r.links.setIfInBounds link (.gateway (g.append id part finish)) }
        { r with
          agents := r.agents.setIfInBounds id (a.onLink now finish)
          links := r.links.setIfInBounds link (.gateway (g.append id part finish)) } :=
      still_setAgent (b := a.onLink now finish) enters.found rfl
    have still : Still { r with
        agents := r.agents.setIfInBounds id (a.onLink now finish)
        links := r.links.setIfInBounds link (.gateway (g.append id part finish)) } q :=
      relates_scheduled still_revisit scheduled fun same => same
    have all : Still _ q := IsTrans.trans _ _ _ onLink still
    exact .root (all.roots.trans (h.roots ▸ roots_setView view standing))
      (fun x => (all.crew x).trans (h.crew x)) (all.platforms.trans h.platforms) (all.outbox.trans h.outbox)

/-- So is whoever is taken in, once its passengers are aboard. -/
theorem TakenIn.put {record : AgentRecord} {link : Option Nat} {part : Nat}
    (h : TakenIn record link part now p q) : Put record.id h.boarded true q := by
  have moved : Still h.boarded { h.boarded with
      agents := h.boarded.agents.setIfInBounds record.id { h.before with cursor := record.cursor } } :=
    still_setAgent h.found rfl
  have placed := h.placed
  cases link with
  | none => exact moved.put_wake placed
  | some link => exact moved.put_welcomed placed

/-- Whoever is taken in is counted, with everybody aboard, if the partition didn't know of it. -/
theorem census_takenIn {r : AgentRecord} {link : Option Nat} {part : Nat} (o : p.Orderly)
    (proper : r.Proper p.isVehicle) (absent : r.id ∉ p.roots) (h : TakenIn r link part now p q) :
    q.census 0 = p.census 0 + r.load ∧ q.Orderly := by
  obtain ⟨crew, roots, platforms, outbox⟩ := crew_boarded o proper.known h.boards
  have keptBoarded : Kept Eq p h.boarded := kept_boarded h.boards
  have boardedOrderly : h.boarded.Orderly := by
    refine o.of_kept keptBoarded (fun x hx => ?_) (fun x y hy => ?_) (platforms ▸ o.waiting)
      (outbox ▸ o.sealed)
    · rw [crew]
      split
      · rename_i he
        have unlisted := proper.known
        rw [AgentRecord.Known, ← he, hx, Option.some.injEq, Eq.comm, Option.isSome_eq_false_iff,
          Option.isNone_iff_eq_none] at unlisted
        rw [AgentRecord.riders, unlisted]
      · exact o.pedestrians x hx
    · rw [crew] at hy
      split at hy
      · exact proper.riders y hy
      · exact o.riders x y hy
  -- Whom the partition counts isn't the agent which comes.
  have others : h.boarded.census 0 = p.census 0 := by
    have same : h.boarded.aboardOf p.roots = p.aboardOf p.roots :=
      aboardOf_congr fun x hx => by rw [crew, if_neg fun e : x = r.id => absent (e ▸ hx)]
    rw [Partition.census, Partition.census, zero_add, zero_add, roots, same, platforms, outbox]
  obtain ⟨placed, orderly⟩ := h.put.placed (kept_placed h) boardedOrderly
  refine ⟨?_, orderly⟩
  rw [placed.census, others, aboardOf_singleton, crew, if_pos rfl, AgentRecord.load]

/-- A group of agents is taken in, one after the other. -/
theorem census_takenIn_along {link : Option Nat} {part : Nat} {rs : List AgentRecord} (o : p.Orderly)
    (proper : ∀ r ∈ rs, r.Proper p.isVehicle)
    (nodup : (p.census 0 + (rs.map AgentRecord.load).sum).Nodup)
    (h : Along (fun r p q => Nonempty (TakenIn r link part now p q)) rs p q) :
    q.census 0 = p.census 0 + (rs.map AgentRecord.load).sum ∧ q.Orderly := by
  induction h with
  | nil => exact ⟨(add_zero _).symm, o⟩
  | @cons r rest p s q first _ ih =>
    obtain ⟨taken⟩ := first
    rw [List.map_cons, List.sum_cons, ← add_assoc] at nodup ⊢
    have absent : r.id ∉ p.roots := by
      intro here
      have counted : r.id ∈ p.census 0 := by
        rw [census, zero_add, aboardOf, add_assoc, add_assoc]
        exact Multiset.mem_add.2 (.inl here)
      have apart := (Multiset.nodup_add.1 (Multiset.nodup_of_le (Multiset.le_add_right _ _) nodup)).2.2
      exact Multiset.disjoint_left.1 apart counted (Multiset.mem_cons_self ..)
    obtain ⟨hs, orderly⟩ := census_takenIn o (proper r List.mem_cons_self) absent taken
    have kept := kept_takenIn taken
    obtain ⟨hq, orderly⟩ := ih orderly
      (fun x hx => kept.isVehicle ▸ proper x (List.mem_cons_of_mem _ hx)) (hs ▸ nodup)
    exact ⟨by rw [hq, hs], orderly⟩

/-- Groups are taken in, one after the other. -/
theorem census_groups {sender : Nat} {groups : List LinkRecord} (o : p.Orderly)
    (proper : ∀ g ∈ groups, ∀ r ∈ g.agents, r.Proper p.isVehicle)
    (nodup : (p.census 0 + (groups.map LinkRecord.load).sum).Nodup)
    (h : Along (fun (group : LinkRecord) =>
      Along (fun r p q => Nonempty (TakenIn r group.link sender now p q)) group.agents) groups p q) :
    q.census 0 = p.census 0 + (groups.map LinkRecord.load).sum ∧ q.Orderly := by
  induction h with
  | nil => exact ⟨(add_zero _).symm, o⟩
  | @cons g rest p s q first _ ih =>
    rw [List.map_cons, List.sum_cons, ← add_assoc] at nodup ⊢
    obtain ⟨hs, orderly⟩ := census_takenIn_along o (proper g List.mem_cons_self)
      (Multiset.nodup_of_le (Multiset.le_add_right _ _) nodup) first
    have load : (g.agents.map AgentRecord.load).sum = g.load := rfl
    rw [load] at hs
    have kept : Kept (LinkView.Same _) p s :=
      first.relates fun _ _ _ _ ⟨taken⟩ => kept_takenIn taken
    obtain ⟨hq, orderly⟩ := ih orderly
      (fun g hg r hr => kept.isVehicle ▸ proper g (List.mem_cons_of_mem _ hg) r hr) (hs ▸ nodup)
    exact ⟨by rw [hq, hs], orderly⟩

theorem census_absorbed {t : Transfer} {size : Nat} (o : p.Orderly)
    (proper : t.Proper (AgentRecord.Proper p.isVehicle) size)
    (nodup : (p.census 0 + t.load).Nodup) (h : Absorbed now t p q) :
    q.census 0 = p.census 0 + t.load ∧ q.Orderly :=
  census_groups o (fun g hg => (proper g hg).agents) nodup h

/-- Transfers are taken in, one after the other. -/
theorem census_absorbed_along {ts : List Transfer} {size : Nat} (o : p.Orderly)
    (proper : ∀ t ∈ ts, t.Proper (AgentRecord.Proper p.isVehicle) size)
    (nodup : (p.census 0 + (ts.map Transfer.load).sum).Nodup) (h : Along (Absorbed now) ts p q) :
    q.census 0 = p.census 0 + (ts.map Transfer.load).sum ∧ q.Orderly := by
  induction h with
  | nil => exact ⟨(add_zero _).symm, o⟩
  | @cons t rest p s q first _ ih =>
    rw [List.map_cons, List.sum_cons, ← add_assoc] at nodup ⊢
    obtain ⟨hs, orderly⟩ := census_absorbed o (proper t List.mem_cons_self)
      (Multiset.nodup_of_le (Multiset.le_add_right _ _) nodup) first
    obtain ⟨hq, orderly⟩ := ih orderly
      (fun t ht => (kept_absorbed first).isVehicle ▸ proper t (List.mem_cons_of_mem _ ht)) (hs ▸ nodup)
    exact ⟨by rw [hq, hs], orderly⟩

/-- Everybody in the transfers is counted afterwards. -/
theorem census_arrive {delivery : Delivery} {buffers : Buffers} {transfers : List Transfer} {size : Nat}
    (o : p.Orderly) (read : Outbox.readTransfers p.rank now p.isVehicle delivery = .ok transfers)
    (proper : ∀ t ∈ transfers, t.Proper (AgentRecord.Proper p.isVehicle) size)
    (nodup : (p.census 0 + (transfers.map Transfer.load).sum).Nodup)
    (h : Ends (arrive now delivery) p buffers q) :
    q.census 0 = p.census 0 + (transfers.map Transfer.load).sum ∧ q.Orderly := by
  obtain ⟨transfers', r, read', absorbed, rfl⟩ := arrive_ends h
  obtain rfl := Except.ok.inj (read.symm.trans read')
  have order : (transfers.mergeSort fun a b => a.sender ≤ b.sender).Perm transfers :=
    List.mergeSort_perm ..
  have loads := (order.map Transfer.load).sum_eq
  obtain ⟨hr, orderly⟩ := census_absorbed_along o (fun t ht => proper t (order.mem_iff.1 ht))
    (loads ▸ nodup) absorbed
  have transfers : ({ r.outbox with releases := .empty } : Outbox).transfers = r.outbox.transfers := rfl
  have counted : census { r with outbox := { r.outbox with releases := .empty } } 0 = r.census 0 :=
    census_setOutbox transfers
  exact ⟨by rw [counted, hr, loads], orderly.setOutbox transfers⟩

/-- Releases move nobody. -/
theorem still_receiveReleases {delivery : Delivery} (h : Ends (receiveReleases now delivery) p () q) :
    Still p q := by
  obtain ⟨releases, -, credited⟩ := receiveReleases_eq_ok.1 h
  refine credited.relates fun r _ p q h => h.relates fun row _ p q h => ?_
  obtain ⟨x, y, view, -, release, rfl⟩ := applyCount_eq_ok.1 h
  obtain ⟨-, rfl⟩ := Proxy.release_eq_ok release
  exact still_setView view rfl

end Partition

end Mobility
