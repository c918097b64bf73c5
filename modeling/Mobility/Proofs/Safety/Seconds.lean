import Mathlib.Algebra.Order.BigOperators.Group.List
import Mobility.Proofs.Chronicle.Seconds
import Mobility.Proofs.Safety.Start
import Mobility.Proofs.Timetable

/-!
# Seconds which only fail because of plans

Between two seconds everybody can go on (`Scenario.Sane`). So a partition which works only fails because of
plans, and what it sends can be taken in by its neighbors: agents come to gateways which know where they come
from, nobody knows of later instructions which they have consumed, and nobody comes who is there already.
-/

set_option autoImplicit false

namespace Mobility

open Act Second Mobility.Partition

/-! ## Records on their way -/

namespace Partition

variable {p q : Partition} {r : AgentRecord}

theorem Heads.arrival (h : p.Heads r) (small : ∀ row ∈ r.cursors, row.1 < Wire.base ∧ row.2 < Wire.base) :
    p.Heads r.arrival := by
  obtain ⟨id, cursor⟩ := small (r.id, r.cursor) List.mem_cons_self
  obtain ⟨a, ha, traversed⟩ := h
  refine ⟨a, ?_, ?_⟩
  · rw [AgentRecord.arrival, Nat.mod_eq_of_lt id]
    exact ha
  · rw [AgentRecord.arrival, Nat.mod_eq_of_lt cursor]
    exact traversed

theorem Carries.arrival (h : p.Carries r)
    (small : ∀ row ∈ r.cursors, row.1 < Wire.base ∧ row.2 < Wire.base) : p.Carries r.arrival := by
  intro xs hxs
  obtain ⟨passengers, listed, rfl⟩ := Option.map_eq_some_iff.1 hxs
  obtain ⟨⟨a, ha, few⟩, each⟩ := h passengers listed
  have own := (small (r.id, r.cursor) List.mem_cons_self).1
  refine ⟨⟨a, ?_, by rw [List.length_map]; exact few⟩, fun x hx => ?_⟩
  · rw [AgentRecord.arrival, Nat.mod_eq_of_lt own]
    exact ha
  · obtain ⟨y, hy, rfl⟩ := List.mem_map.1 hx
    have row : (y.id, y.cursor) ∈ r.cursors := by
      rw [AgentRecord.cursors, listed]
      exact List.mem_cons_of_mem _ (List.mem_map_of_mem hy)
    obtain ⟨id, cursor⟩ := small _ row
    obtain ⟨b, hb, left⟩ := each y hy
    refine ⟨b, ?_, ?_⟩
    · rw [PassengerRecord.arrival, Nat.mod_eq_of_lt id]
      exact hb
    · rw [PassengerRecord.arrival, Nat.mod_eq_of_lt cursor]
      exact left

end Partition

/-- The loads of the agents which transfers bring are those of the transfers. -/
theorem load_flatMap_entrants (ts : List Transfer) :
    ((ts.flatMap Transfer.entrants).map fun x => x.2.2.load).sum = (ts.map Transfer.load).sum := by
  induction ts with
  | nil => rfl
  | cons t rest ih =>
    rw [List.flatMap_cons, List.map_append, List.sum_append, ih, t.load_entrants, List.map_cons,
      List.sum_cons]

/-- Items which have an answer each have answers. -/
theorem exists_forall₂ {α β : Type} {R : α → β → Prop} {xs : List α} (h : ∀ x ∈ xs, ∃ y, R x y) :
    ∃ ys, List.Forall₂ R xs ys := by
  induction xs with
  | nil => exact ⟨[], .nil⟩
  | cons x rest ih =>
    obtain ⟨y, hy⟩ := h x List.mem_cons_self
    obtain ⟨ys, hys⟩ := ih fun x hx => h x (List.mem_cons_of_mem _ hx)
    exact ⟨y :: ys, .cons hy hys⟩

namespace Scenario

variable {s : Scenario} {timing : Timing} {now i j : Nat} {ps qs : List Partition} {b b' : Buffers}
  {p q w w' : Partition} {messages : Table Transfer} {d : Delivery}

/-- Whoever stays in a partition or crosses into it is counted once. -/
theorem Counted.once (h : s.Counted ps) (rest : s.Rested timing ps) (hs : s.Accepted) (fits : s.Fits)
    (c : Company timing s.neighborsOf ps) (hw : Second.departed now ps i = some (b, w)) :
    (w.census 0 + ((s.neighborsOf i).map fun j => crossing s.isVehicle now ps j i).sum).Nodup := by
  have net := hs.network fits.parts
  let total (k : Nat) : Multiset Nat := (ps[k]?).elim 0 fun p => p.census 0
  have stays : w.census 0 ≤ total i := by
    obtain ⟨-, ⟨p, hp, census⟩, -⟩ := h.departed rest hs fits c hw
    show _ ≤ (ps[i]?).elim 0 _
    rw [hp]
    exact (Multiset.le_add_right _ _).trans census.le
  have crosses : ∀ k ∈ s.neighborsOf i, crossing s.isVehicle now ps k i ≤ total k := by
    intro k hk
    cases hd : Second.departed now ps k with
    | none =>
      rw [crossing, hd]
      exact Multiset.zero_le _
    | some r =>
      obtain ⟨-, ⟨p, hp, census⟩, -⟩ := h.departed rest hs fits c hd
      show _ ≤ (ps[k]?).elim 0 _
      rw [hp]
      have part := le_sum_map (f := crossing s.isVehicle now ps k) (net.symmetric hk)
      exact part.trans ((Multiset.le_add_left _ _).trans census.le)
  have distinct : (i :: s.neighborsOf i).Nodup := List.nodup_cons.2 ⟨hs.not_neighbor, Table.keys_nodup _⟩
  have most := h.among distinct fun k hk => by
    rcases List.mem_cons.1 hk with rfl | hk
    · obtain ⟨p, hp, -⟩ := departed_eq_some.1 hw
      exact (List.getElem?_eq_some_iff.1 hp).1
    · rw [h.cast]
      exact net.below hk
  rw [List.map_cons, List.sum_cons] at most
  refine Multiset.nodup_of_le (le_trans ?_ most) (Multiset.nodup_range _)
  exact add_le_add stays (List.sum_le_sum crosses)

/-! ## Everybody can go on -/

/-- The partitions between the second before `now` and second `now`, everybody able to go on. -/
structure Sane (s : Scenario) (timing : Timing) (now : Nat) (ps : List Partition) : Prop where
  company : Company timing s.neighborsOf ps
  rest : s.Rested timing ps
  counted : s.Counted ps
  informed : s.Informed ps
  timely : ∀ (i : Nat) p, ps[i]? = some p → s.Timely timing now i p
  able : ∀ (i : Nat) p, ps[i]? = some p → p.Able 0
  soon : ∀ (i : Nat) p, ps[i]? = some p → p.dueAgents.next = now

/-- Partition `i` has worked and sent these transfers. -/
structure Leaves (s : Scenario) (timing : Timing) (now i : Nat) (messages : Table Transfer)
    (p w : Partition) : Prop where
  setting : Kept LinkView.Alike (Partition.initial s timing i) w
  told : Told now (p.census 0) p w
  able : w.Able 0
  fit : ∀ j t, messages.get? j = some t → t.Every (w.Fit j)
  refers : w.outbox.Refers w.Admits
  agents : w.dueAgents.next = now + 1
  links : w.dueLinks.next = now + 1

namespace Sane

theorem ready (h : s.Sane timing now ps) (hp : ps[i]? = some p) : Ready now 0 p := by
  refine ⟨h.able i p hp, h.counted.orderly i p hp, ?_, fun x hx => ?_, ?_, ?_⟩
  · exact Multiset.nodup_of_le (h.counted.le_everybody hp) (Multiset.nodup_range _)
  · have known := Multiset.mem_range.1 (Multiset.mem_of_le (h.counted.le_everybody hp) hx)
    obtain ⟨a, ha, -⟩ := (h.rest.setting i p hp).copy (Array.getElem?_eq_getElem known)
    exact ⟨a, ha⟩
  · rw [h.soon i p hp]
    exact Nat.le_succ now
  · rw [(h.timely i p hp).scheduled.next]
    exact Nat.le_succ now

/-- Working and sending only fails because of plans. -/
theorem safe_depart (h : s.Sane timing now ps) (hs : s.Accepted) (last : now < Clock.last)
    (hp : ps[i]? = some p) : Safe (depart now) p :=
  (h.ready hp).safe_depart ((hs.stocked_initial timing i).of_kept (h.rest.setting i p hp)) last
    (h.soon i p hp) (h.timely i p hp).scheduled

theorem leaves (h : s.Sane timing now ps) (hs : s.Accepted) (hp : ps[i]? = some p)
    (wrote : Wrote now messages p w) : s.Leaves timing now i messages p w := by
  have told := (h.counted.told h.rest hs h.company hp wrote).1
  obtain ⟨v, work, mailed⟩ := wrote
  obtain ⟨ready, soon⟩ := (h.ready hp).work work
  have worked := worked_work work
  have sheds := sheds_mailed mailed
  have releases : v.outbox.releases = .empty := by
    obtain ⟨handed, -, outbox⟩ := worked.handed
    rw [outbox]
    exact Outbox.addHanded_induct (P := fun o => o.releases = .empty) (fun _ _ _ h => h)
      (h.company.idle i p hp).releases
  refine ⟨(h.rest.setting i p hp).trans ((worked.kept.mono LinkView.Balanced.alike).trans sheds.kept), told,
    ready.able.mailed mailed, fun j t ht g hg r hr => ?_, refers_mailed ready.able.genuine releases mailed,
    sheds.dueAgents ▸ soon, (((h.timely i p hp).scheduled.work work).mailed mailed).next⟩
  exact (ready.able.fit_mailed mailed j t ht g hg r hr).of_kept sheds.kept

/-- Whoever crosses into a partition isn't known there to have come further than it has. -/
theorem behind (h : s.Sane timing now ps) (hs : s.Accepted) (hp : ps[i]? = some p) (hq : ps[j]? = some q)
    (apart : i ≠ j) (told : Told now (p.census 0) p w) (told' : Told now (q.census 0) q w') {x : Nat}
    (hx : x ∈ q.census 0) : w.cursorOf x ≤ w'.cursorOf x := by
  have known := Multiset.mem_range.1 (Multiset.mem_of_le (h.counted.le_everybody hq) hx)
  have hspec := Array.getElem?_eq_getElem known
  have id_eq := hs.denseAgents x _ hspec
  obtain ⟨a, ha, blank⟩ := (h.rest.setting j q hq).copy hspec
  obtain ⟨stamps, progress⟩ := told'.progress (id_eq.symm ▸ ha) blank
  have quiet := told.quiet x (.inl fun here => apart (h.counted.unique hp hq here hx))
  calc w.cursorOf x = p.cursorOf x := quiet.cursorOf
    _ ≤ q.cursorOf x := h.informed.latest j i q p hq hp x hx
    _ ≤ w'.cursorOf x := id_eq ▸ progress.grows

/-- What a neighbor has sent can be read and taken in. -/
theorem expects (h : s.Sane timing now ps) (hs : s.Accepted) (fits : s.Fits)
    (hw : Second.departed now ps i = some (b, w)) (hw' : Second.departed now ps j = some (b', w'))
    (neighbor : j ∈ s.neighborsOf i) {data : List UInt8} (hdata : b'.get? i = some data) :
    ∃ t, Transfer.decode data i s.isVehicle = .ok t ∧ t.time = now % Wire.base ∧
      t.load = crossing s.isVehicle now ps j i ∧ ∀ x ∈ t.entrants, w.Expects x.1 x.2.1 x.2.2 := by
  have net := hs.network fits.parts
  obtain ⟨p, messages, hp, wrote, -⟩ := h.counted.letters h.rest hs fits h.company hw
  obtain ⟨p', messages', hp', wrote', rfl, -, read⟩ := h.counted.letters h.rest hs fits h.company hw'
  have here := h.leaves hs hp wrote
  have there := h.leaves hs hp' wrote'
  obtain ⟨-, ⟨p'', hp'', census⟩, sends⟩ := h.counted.departed h.rest hs fits h.company hw'
  obtain rfl := Option.some.inj (hp'.symm.trans hp'')
  obtain ⟨t, decoded, load, proper⟩ := sends i data hdata
  obtain ⟨time, sender⟩ := Transfer.decode_headed ((h.company.departed hw').addressed.headed i data hdata)
    decoded
  refine ⟨t, decoded, time, load, fun x hx => ?_⟩
  rw [Nat.mod_eq_of_lt (Nat.lt_of_lt_of_le (net.below neighbor) net.small)] at sender
  rw [Table.get?_mapRows, Option.map_eq_some_iff] at hdata
  obtain ⟨t₀, ht₀, rfl⟩ := hdata
  obtain rfl := Except.ok.inj (decoded.symm.trans (read i t₀ ht₀).1)
  obtain ⟨g', hg', hx⟩ := List.mem_flatMap.1 hx
  obtain ⟨g, hg, rfl⟩ := List.mem_map.1 hg'
  obtain ⟨r', hr', rfl⟩ := List.mem_map.1 hx
  obtain ⟨r, hr, rfl⟩ := List.mem_map.1 hr'
  have apart : i ≠ j := fun own => hs.not_neighbor (own ▸ neighbor)
  have vehicles := (knows_of_kept here.setting).1
  have same : ∀ id : Nat, w.agents[id]?.map Agent.blank = w'.agents[id]?.map Agent.blank := fun id =>
    (here.setting.agents id).trans (there.setting.agents id).symm
  have tells := h.counted.tells h.informed h.rest hs h.company hp' wrote' ht₀
  have rows : ∀ row ∈ r.cursors, row ∈ t₀.cursors := fun row hrow =>
    Transfer.mem_cursors.2 ⟨g, hg, r, hr, hrow⟩
  have small : ∀ row ∈ r.cursors, row.1 < Wire.base ∧ row.2 < Wire.base := fun row hrow =>
    have row_tells := tells row (rows row hrow)
    ⟨row_tells.2.1.trans fits.agents, row_tells.2.2⟩
  have fit := there.fit i t₀ ht₀ g hg r hr
  refine ⟨vehicles ▸ (proper _ hg').agents _ hr', fun row hrow => ?_, fun l hl => ⟨?_, ?_⟩,
    (fit.passengers.of_blank same).arrival small⟩
  · rw [AgentRecord.cursors_arrival small] at hrow
    obtain ⟨cursor, known, -⟩ := tells row (rows row hrow)
    obtain ⟨a, ha, -⟩ := here.setting.copy (Array.getElem?_eq_getElem known)
    refine ⟨a, ha, ?_⟩
    have crosses : row.1 ∈ p'.census 0 := by
      rw [← census]
      refine Multiset.mem_add.2 (.inr (mem_sum_map.2 ⟨i, net.symmetric neighbor, ?_⟩))
      rw [← load, (read i t₀ ht₀).2.1, ← Transfer.coe_cursors]
      exact Multiset.mem_coe.2 (List.mem_map_of_mem (rows row hrow))
    rw [cursor, ← cursorOf_eq ha]
    exact h.behind hs hp hp' apart here.told there.told crosses
  · obtain ⟨leads, -⟩ := fit.entering l hl
    have crossing := hs.crossing_of_leads there.setting leads
    show w.Admits (t₀.arrival i).sender l
    rw [sender]
    exact hs.admits_at crossing here.setting
  · exact ((fit.entering l hl).2.of_blank same).arrival small

/-- A partition which has worked can take in what its neighbors have sent, in whatever order it comes. -/
theorem hosts (h : s.Sane timing now ps) (hs : s.Accepted) (fits : s.Fits) (inTime : now < Wire.base)
    (hw : Second.departed now ps i = some (b, w)) (senders : (d.map Prod.fst).Perm (s.neighborsOf i))
    (said : ∀ buffer ∈ d, ∃ b' w', Second.departed now ps buffer.1 = some (b', w') ∧
      b'.get? i = some buffer.2) :
    ∃ transfers, Outbox.readTransfers w.rank now w.isVehicle d = .ok transfers ∧
      Hosts now (transfers.flatMap Transfer.entrants) w := by
  obtain ⟨p, messages, hp, wrote, -⟩ := h.counted.letters h.rest hs fits h.company hw
  have here := h.leaves hs hp wrote
  obtain ⟨orderly, -, -⟩ := h.counted.departed h.rest hs fits h.company hw
  rw [(h.company.departed hw).rank, (knows_of_kept here.setting).1]
  obtain ⟨transfers, each⟩ := exists_forall₂ fun buffer (hb : buffer ∈ d) => by
    obtain ⟨b', w', hw', hdata⟩ := said buffer hb
    have neighbor := senders.mem_iff.1 (List.mem_map_of_mem hb)
    exact h.expects hs fits hw hw' neighbor hdata
  have read := each.imp fun buffer t ht => And.intro ht.1 (ht.2.1.trans (Nat.mod_eq_of_lt inTime))
  refine ⟨transfers, Outbox.readTransfers_eq_ok.2 read,
    ⟨here.able, orderly, ?_, fun x hx => ?_, here.agents, here.links⟩⟩
  · obtain ⟨loads, -⟩ := map_eq_of_forall₂ (P := fun _ => True) (each.imp fun _ t ht => ⟨ht.2.2.1, trivial⟩)
    have crosses := (senders.map fun j => crossing s.isVehicle now ps j i).sum_eq
    rw [List.map_map] at crosses
    rw [load_flatMap_entrants, loads]
    exact crosses ▸ h.counted.once h.rest hs fits h.company hw
  · obtain ⟨t, ht, hx⟩ := List.mem_flatMap.1 hx
    obtain ⟨buffer, -, -, -, -, expects⟩ := exists_of_forall₂ each ht
    exact expects x hx

theorem setting_arrived (h : s.Sane timing now ps) (hs : s.Accepted)
    (ha : Second.arrived now ps i = some (b, w)) : Kept LinkView.Alike (Partition.initial s timing i) w := by
  obtain ⟨_, _, _, hd, -, arrive⟩ := arrived_eq_some.1 ha
  obtain ⟨-, -, -, -, -, -, setting⟩ := h.rest.departed hs h.company hd
  exact setting.trans ((kept_arrive arrive).mono LinkView.Same.alike)

/-- What a neighbor reports can be read, and it is about links which lead to the neighbor. -/
theorem reports (h : s.Sane timing now ps) (hs : s.Accepted) (fits : s.Fits)
    (setting : Kept LinkView.Alike (Partition.initial s timing i) q) (neighbor : j ∈ s.neighborsOf i)
    (ha : Second.arrived now ps j = some (b, w)) {data : List UInt8} (hdata : b.get? i = some data) :
    ∃ r, Release.decode data i = .ok r ∧ r.time = now % Wire.base ∧
      ∀ c ∈ r.counts, q.Leads r.sender c.1 := by
  have net := hs.network fits.parts
  have headed := (h.company.arrived ha).addressed.headed i data hdata
  obtain ⟨b₀, w₀, d, hd, -, arrive⟩ := arrived_eq_some.1 ha
  obtain ⟨p, transfers, hp, wrote, -, sent, there⟩ := h.rest.departed hs h.company hd
  have leaves := h.leaves hs hp wrote
  obtain ⟨messages, rfl, queued⟩ := releases_arrive arrive
  rw [Table.get?_mapRows, Option.map_eq_some_iff] at hdata
  obtain ⟨r, hr, rfl⟩ := hdata
  obtain ⟨most, about⟩ : r.counts.length ≤ w₀.links.size ∧
      ∀ c ∈ r.counts, c.1 < w₀.links.size ∧ w₀.Admits i c.1 := by
    cases hq : w₀.outbox.releases.get? i with
    | none =>
      have empty := queued i r hr
      rw [hq, Option.getD_none] at empty
      rw [empty]
      exact ⟨Nat.zero_le _, by rintro c ⟨⟩⟩
    | some report =>
      have same := queued i r hr
      rw [hq, Option.getD_some] at same
      obtain ⟨most, links⟩ := sent.reports i report hq
      rw [same]
      exact ⟨most, fun c hc => ⟨links c hc, leaves.refers i report hq c hc⟩⟩
  have small : w₀.links.size < Wire.base := (knows_of_kept there).2 ▸ fits.links
  have decoded : Release.decode r.encode i = .ok (r.arrival i) :=
    Release.decode_encode (Nat.lt_of_le_of_lt most small)
  obtain ⟨time, sender⟩ := Release.decode_headed headed decoded
  rw [Nat.mod_eq_of_lt (Nat.lt_of_lt_of_le (net.below neighbor) net.small)] at sender
  refine ⟨_, decoded, time, fun c hc => ?_⟩
  obtain ⟨c', hc', rfl⟩ := List.mem_map.1 hc
  obtain ⟨known, admits⟩ := about c' hc'
  rw [sender]
  show q.Leads j (c'.1 % Wire.base)
  rw [Nat.mod_eq_of_lt (known.trans small)]
  exact hs.leads_at (hs.crossing_of_admits there admits) setting

/-- What the neighbors report can be received, in whatever order it comes. -/
theorem safe_settle (h : s.Sane timing now ps) (hs : s.Accepted) (fits : s.Fits) (inTime : now < Wire.base)
    (ha : Second.arrived now ps i = some (b, w)) (senders : (d.map Prod.fst).Perm (s.neighborsOf i))
    (said : ∀ buffer ∈ d, ∃ b' w', Second.arrived now ps buffer.1 = some (b', w') ∧
      b'.get? i = some buffer.2) :
    Safe (receiveReleases now d) w := by
  obtain ⟨releases, each⟩ := exists_forall₂ fun buffer (hb : buffer ∈ d) => by
    obtain ⟨b', w', ha', hdata⟩ := said buffer hb
    have neighbor := senders.mem_iff.1 (List.mem_map_of_mem hb)
    exact h.reports hs fits (h.setting_arrived hs ha) neighbor ha' hdata
  have read := each.imp fun buffer r hr => And.intro hr.1 (hr.2.1.trans (Nat.mod_eq_of_lt inTime))
  rw [← (h.company.arrived ha).rank] at read
  refine safe_receiveReleases (Outbox.readReleases_eq_ok.2 read) fun r hr c hc => ?_
  obtain ⟨buffer, -, -, -, leads⟩ := exists_of_forall₂ each hr
  exact leads c hc

/-- After the second everybody can go on again. -/
theorem next (h : s.Sane timing now ps) (hs : s.Accepted) (fits : s.Fits) (inTime : now < Wire.base)
    (hn : Second.next now ps = some qs) : s.Sane timing (now + 1) qs := by
  have settled : ∀ (i : Nat) q, qs[i]? = some q → q.Able 0 ∧ q.dueAgents.next = now + 1 := by
    intro i q hq
    obtain ⟨b, u, d, ha, hd, settle⟩ := settled_eq_some.1 ((next_eq_some.1 hn).2 i q hq)
    obtain ⟨b₀, w, d₀, hw, hd₀, arrive⟩ := arrived_eq_some.1 ha
    rw [(h.company.departed hw).partners] at hd₀
    have senders : (d₀.map Prod.fst).Perm (s.neighborsOf i) := by rw [senders_mail hd₀]
    obtain ⟨transfers, read, hosts⟩ := h.hosts hs fits inTime hw senders (mem_mail hd₀)
    have done := hosts.arrived read arrive
    refine ⟨done.able.settled settle, ?_⟩
    rw [receiveReleases_links settle]
    exact done.agents
  refine ⟨h.company.next hn, h.rest.next hs h.company hn, h.counted.next h.rest hs fits h.company hn,
    h.informed.next h.counted h.rest hs fits h.company hn, fun i q hq => ?_,
    fun i q hq => (settled i q hq).1, fun i q hq => (settled i q hq).2⟩
  obtain ⟨p, b, r, d, b', u, d', hp, depart, arrive, settle⟩ :=
    acts_of_settled ((next_eq_some.1 hn).2 i q hq)
  exact (h.timely i p hp).second depart arrive settle

end Sane

/-- Before the first second of a fresh scenario everybody can go on. -/
theorem Fresh.sane (fresh : s.Fresh) {raw : Scenario} {method : Method}
    (hs : raw.partition method = .ok s) (timing : Timing) :
    s.Sane timing timing.start ((List.range s.numParts).map (Partition.initial s timing)) := by
  refine ⟨company_initial s timing, rested_initial s timing, fresh.counted (accepted_of_partition hs) timing,
    fresh.informed timing, fun i p hp => ?_, fun i p hp => ?_, fun i p hp => ?_⟩
  · rw [getElem?_cast hp]
    exact ⟨Std.Refl.refl _, s.scheduled_initial timing i⟩
  · rw [getElem?_cast hp]
    exact fresh.able_initial hs timing i
  · rw [getElem?_cast hp]
    show (Agenda.starting ..).next = timing.start
    rw [Agenda.starting]
    split <;> rfl

/-- In every second of a run everybody can go on. -/
theorem Fresh.sane_run {raw : Scenario} {method : Method} {count : Nat} (fresh : s.Fresh)
    (hs : raw.partition method = .ok s) (fits : s.Fits) (inTime : timing.start + count ≤ Wire.base)
    (hrun : Second.run count timing.start
      ((List.range s.numParts).map (Partition.initial s timing)) = some ps) :
    s.Sane timing (timing.start + count) ps := by
  induction count generalizing ps with
  | zero =>
    obtain rfl := Option.some.inj hrun
    exact fresh.sane hs timing
  | succ count ih =>
    rw [run_succ] at hrun
    obtain ⟨qs, hqs, hn⟩ := Option.bind_eq_some_iff.1 hrun
    exact (ih (by omega) hqs).next (accepted_of_partition hs) fits (by omega) hn

end Scenario

end Mobility
