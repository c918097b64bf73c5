import Mobility.Proofs.Safety.Sending

/-!
# Receiving is safe

A partition can take in an agent if nobody there knows of later instructions which the agent has consumed,
if the agent comes to a gateway for which it has consumed a traversal, and if it has no more passengers than
seats (`Partition.Expects`). Taking in one agent takes nothing of this from the others, so all of them can
be taken in one after the other, and afterwards everybody can go on (`Partition.Hosts.safe_arrive`,
`Partition.Hosts.arrived`). Releases are applied if they are about links which agents are sent to
(`Partition.safe_receiveReleases`).
-/

set_option autoImplicit false

namespace Mobility

open Act

namespace Partition

variable {p q r s : Partition} {id link part now : Nat} {record : AgentRecord} {entry : Option Nat} {F : Failure → Prop}

theorem safe_enterGateway (admits : p.Admits part link) (traversed : p.Traversed id)
    (soon : p.dueLinks.next ≤ now + 1) : Fails F (enterGateway id link part now) p := by
  obtain ⟨velocity, requested⟩ := ends_requestedVelocity traversed
  obtain ⟨g, view, known⟩ := admits
  refine .after requested (.after (ends_get p) ?_)
  have listed : (!g.fromParts.contains part) = false := by simpa using known
  simp only [view, listed, Bool.false_eq_true, if_false]
  split
  · exact .modify _
  · refine .bind (fails_letIn traversed) fun k r ends => ?_
    obtain ⟨a, finish, found, -, -, rfl⟩ := letIn_ends ends
    refine .after (ends_setView _ link _) ?_
    split
    · refine .after (ends_agent (a := a.onLink now finish) ?_) (safe_revisit ?_)
      · exact Array.getElem?_setIfInBounds_self_of_lt (Array.getElem?_eq_some_iff.1 found).1
      · exact soon.trans (Nat.le_max_right ..)
    · exact .pure ()

/-- The agents of the rows are known, and nobody knows of later instructions which they have consumed. -/
def Behind (p : Partition) (cursors : List (Nat × Nat)) : Prop :=
  ∀ row ∈ cursors, ∃ a, p.agents[row.1]? = some a ∧ a.cursor ≤ row.2

/-- What is brought to others leaves agents where they were. -/
theorem Behind.brought {xs ys : List (Nat × Nat)} (h : p.Behind ys) (brought : Brought xs p q)
    (apart : ∀ row ∈ ys, row.1 ∉ xs.map Prod.fst) : q.Behind ys := fun row hrow => by
  rw [brought.others row.1 (apart row hrow)]
  exact h row hrow

theorem safe_receivePassenger {x : PassengerRecord} (h : p.Behind [(x.id, x.cursor)]) :
    Fails F (receivePassenger x) p := by
  obtain ⟨a, found, behind⟩ := h _ List.mem_cons_self
  have moved : a.moveCursor x.cursor = .ok { a with cursor := x.cursor } := if_pos behind
  refine .after (ends_get p) ?_
  simp only [found]
  exact .after (attempt_eq_ok.2 ⟨moved, rfl⟩) (.after (ends_setAgent p x.id _) (.pure _))

theorem safe_receivePassengers {xs : List PassengerRecord} (behind : p.Behind (xs.map fun x => (x.id, x.cursor)))
    (once : (xs.map (·.id)).Nodup) : Fails F (xs.mapM receivePassenger) p := by
  refine .mapM (P := fun rest s => s.Behind (rest.map fun x => (x.id, x.cursor)) ∧ (rest.map (·.id)).Nodup)
    (fun x rest s h => safe_receivePassenger fun row hrow => ?_) (fun x rest s seat t h ends => ?_)
    ⟨behind, once⟩
  · obtain rfl := List.mem_singleton.1 hrow
    exact h.1 _ List.mem_cons_self
  · obtain ⟨a, found, grows, -, rfl⟩ := receivePassenger_ends ends
    obtain ⟨absent, later⟩ := List.nodup_cons.1 h.2
    refine ⟨Behind.brought (fun row hrow => h.1 row (List.mem_cons_of_mem _ hrow))
      (brought_updated ⟨a, found, grows, rfl⟩) fun row hrow own => absent ?_, later⟩
    obtain ⟨y, hy, rfl⟩ := List.mem_map.1 hrow
    exact List.mem_map.2 ⟨y, hy, List.mem_singleton.1 own⟩

/-- The partition can take in an agent which comes from partition `part`. -/
structure Expects (p : Partition) (part : Nat) (entry : Option Nat) (record : AgentRecord) : Prop where
  proper : record.Proper p.isVehicle
  behind : p.Behind record.cursors
  entering : ∀ l, entry = some l → p.Admits part l ∧ p.Heads record
  passengers : p.Carries record

theorem paced_updated {x : PassengerRecord} (h : Updated x p q) : Paced p q := by
  obtain ⟨_, -, -, rfl⟩ := h
  exact ⟨rfl, rfl⟩

/-- An agent can be taken in if nobody of the record is further on, if there is a seat for each passenger, and if
the agent can come to its place. -/
theorem fails_receiveAgent (behind : p.Behind record.cursors) (once : (record.cursors.map Prod.fst).Nodup)
    (room : ∀ xs, record.passengers = some xs → ∃ a, p.agents[record.id]? = some a ∧ xs.length ≤ a.seats.capacity)
    (placed : ∀ s, Kept LinkView.Alike p s → Paced p s →
      (∃ a, s.agents[record.id]? = some a ∧ a.cursor = record.cursor) →
      Fails F (match entry with
        | none => wake record.id (now + 1)
        | some l => enterGateway record.id l part now) s) :
    Fails F (receiveAgent record entry part now) p := by
  -- Once the passengers are aboard, the agent itself is brought to its place.
  have later : ∀ {s : Partition}, Kept LinkView.Alike p s → Paced p s → s.Behind [(record.id, record.cursor)] →
      Fails F (do
        setAgent record.id (← attempt ((← agent record.id).moveCursor record.cursor))
        match entry with
        | none => wake record.id (now + 1)
        | some l => enterGateway record.id l part now) s := by
    intro s kept paced behind
    obtain ⟨a, found, grows⟩ := behind _ List.mem_cons_self
    have moved : a.moveCursor record.cursor = .ok { a with cursor := record.cursor } := if_pos grows
    have there : Kept LinkView.Alike s { s with
        agents := s.agents.setIfInBounds record.id { a with cursor := record.cursor } } :=
      Kept.setAgent found rfl fun h => h
    refine .after (ends_agent found) (.after (attempt_eq_ok.2 ⟨moved, rfl⟩)
      (.after (ends_setAgent s record.id _) (placed _ (kept.trans there) ⟨paced.agents, paced.links⟩ ?_)))
    exact ⟨_, Array.getElem?_setIfInBounds_self_of_lt (Array.getElem?_eq_some_iff.1 found).1, rfl⟩
  have own : p.Behind [(record.id, record.cursor)] := fun row hrow =>
    behind row (List.mem_singleton.1 hrow ▸ List.mem_cons_self)
  unfold receiveAgent
  cases listed : record.passengers with
  | none => exact later (Std.Refl.refl p) (Std.Refl.refl p) own
  | some passengers =>
    have rows : record.cursors = (record.id, record.cursor) :: passengers.map fun x => (x.id, x.cursor) := by
      rw [AgentRecord.cursors, listed, Option.getD_some]
    rw [rows, List.map_cons, List.map_map] at once
    obtain ⟨absent, apart⟩ := List.nodup_cons.1 once
    rw [rows] at behind
    refine .bind (safe_receivePassengers (fun row hrow => behind row (List.mem_cons_of_mem _ hrow)) apart)
      fun seated s ends => ?_
    obtain ⟨updated, rfl⟩ := mapM_receivePassenger_ends ends
    have kept : Kept LinkView.Alike p s := updated.relates fun _ _ _ _ => kept_updated
    have paced : Paced p s := updated.relates fun _ _ _ _ => paced_updated
    have same : s.agents[record.id]? = p.agents[record.id]? :=
      updated.keeps (P := fun t => t.agents[record.id]? = p.agents[record.id]?)
        (fun x hx t u ht same => ((brought_updated ht).others _ fun own =>
          absent (List.mem_map.2 ⟨x, hx, (List.mem_singleton.1 own).symm⟩)).trans same) rfl
    obtain ⟨a, found, grows⟩ := own _ List.mem_cons_self
    obtain ⟨a', found', few⟩ := room passengers listed
    obtain rfl := Option.some.inj (found.symm.trans found')
    have vehicle := same.trans found
    have free : (passengers.map fun x => (x.index, x.id)).length ≤ a.seats.capacity := by
      rw [List.length_map]
      exact few
    obtain ⟨seats, replaced⟩ : ∃ seats, a.seats.replace (passengers.map fun x => (x.index, x.id)) = some seats :=
      ⟨_, if_pos free⟩
    have replaces : a.replacePassengers (passengers.map fun x => (x.index, x.id)) =
        .ok { a with seats := seats } := by
      rw [Agent.replacePassengers, replaced]
    have seated : Kept LinkView.Alike s { s with
        agents := s.agents.setIfInBounds record.id { a with seats := seats } } :=
      Kept.setAgent vehicle (Agent.blank_withSeats (Seats.capacity_replace replaced))
        fun _ => Seats.honest_replace replaced
    refine .after (ends_agent vehicle) (.after (attempt_eq_ok.2 ⟨replaces, rfl⟩)
      (.after (ends_setAgent s record.id _) (later (kept.trans seated) ⟨paced.agents, paced.links⟩ ?_)))
    intro row hrow
    obtain rfl := List.mem_singleton.1 hrow
    exact ⟨_, Array.getElem?_setIfInBounds_self_of_lt (Array.getElem?_eq_some_iff.1 vehicle).1, grows⟩

theorem Expects.safe (h : p.Expects part entry record) (once : record.load.Nodup)
    (agents : p.dueAgents.next ≤ now + 1) (links : p.dueLinks.next ≤ now + 1) :
    Fails F (receiveAgent record entry part now) p := by
  refine fails_receiveAgent h.behind (Multiset.coe_nodup.1 (record.coe_cursors ▸ once))
    (fun xs listed => (h.passengers xs listed).1) fun s kept paced there => ?_
  cases entry with
  | none => exact safe_wake (paced.agents ▸ agents)
  | some l =>
    obtain ⟨admits, heads⟩ := h.entering l rfl
    refine safe_enterGateway (admits.of_kept kept) ?_ (paced.links ▸ links)
    obtain ⟨b, hb, traversed⟩ := heads.of_blank kept.agents
    obtain ⟨a, ha, cursor⟩ := there
    obtain rfl := Option.some.inj (ha.symm.trans hb)
    exact ⟨a, ha, cursor ▸ traversed⟩

/-! ## Everybody can go on after others have come -/

theorem Welcomed.heading (h : Welcomed id link part now p q) {y : Nat} (hy : y ∈ q.heading) :
    y ∈ p.heading ∨ y = id := by
  cases h with
  | @waits g view known =>
    have heads := heading_setView (w := .gateway (g.pushInbound id part)) view
    have inbound : (LinkView.gateway (g.pushInbound id part)).heading =
        {id} + (LinkView.gateway g).heading := by
      simp only [LinkView.heading, Gateway.pushInbound, List.map_append, ← Multiset.coe_add]
      exact add_comm ..
    rw [inbound, ← add_assoc] at heads
    rw [add_right_cancel heads] at hy
    exact (Multiset.mem_add.1 hy).imp_right Multiset.mem_singleton.1
  | @enters g a finish q view known empty room enters scheduled =>
    have heads := heading_setView (w := .gateway (g.append id part finish)) view
    have links : q.links = p.links.setIfInBounds link (.gateway (g.append id part finish)) := by
      obtain ⟨due, rfl⟩ := scheduled_ends scheduled fun same => same
      rfl
    have same : q.heading = p.heading :=
      (heading_of_links (p := { p with links := p.links.setIfInBounds link _ }) links).trans
        (add_right_cancel heads)
    exact .inl (same ▸ hy)

theorem Welcomed.genuine (h : Welcomed id link part now p q)
    (genuine : ∀ (i : Nat) v, p.links[i]? = some v → v.Genuine) :
    ∀ (i : Nat) v, q.links[i]? = some v → v.Genuine := by
  cases h with
  | @waits g view known =>
    have before := genuine link _ view g rfl
    refine genuine_setView genuine ?_ rfl
    rintro _ ⟨⟩
    refine ⟨before.queue, fun row hrow => ?_, before.released⟩
    rcases List.mem_append.1 hrow with hrow | hrow
    · exact before.inbound row hrow
    · exact List.mem_singleton.1 hrow ▸ known
  | @enters g a finish q view known empty room enters scheduled =>
    have links : q.links = p.links.setIfInBounds link (.gateway (g.append id part finish)) := by
      obtain ⟨due, rfl⟩ := scheduled_ends scheduled fun same => same
      rfl
    refine genuine_setView genuine ?_ links
    rintro _ ⟨⟩
    exact (genuine link _ view g rfl).append known

/-- Only whoever comes to a link is about to enter one afterwards, and those who were before. -/
theorem TakenIn.heading (h : TakenIn record entry part now p q) {y : Nat} (hy : y ∈ q.heading) :
    y ∈ p.heading ∨ y = record.id ∧ ∃ l, entry = some l := by
  obtain ⟨b, a, boards, found, grows, placed⟩ := h
  rw [← heading_of_links (offRoad_boarded boards).links]
  cases entry with
  | none =>
    obtain ⟨due, -, rfl⟩ := wake_eq_ok.1 placed
    exact .inl hy
  | some l =>
    have placed : Welcomed record.id l part now _ q := placed
    exact (placed.heading hy).imp_right fun own => ⟨own, l, rfl⟩

theorem TakenIn.genuine (h : TakenIn record entry part now p q)
    (genuine : ∀ (i : Nat) v, p.links[i]? = some v → v.Genuine) :
    ∀ (i : Nat) v, q.links[i]? = some v → v.Genuine := by
  obtain ⟨b, a, boards, found, grows, placed⟩ := h
  rw [← (offRoad_boarded boards).links] at genuine
  cases entry with
  | none =>
    obtain ⟨due, -, rfl⟩ := wake_eq_ok.1 placed
    exact genuine
  | some l =>
    have placed : Welcomed record.id l part now _ q := placed
    exact placed.genuine genuine

/-- Whoever is taken in and its passengers can go on, and so can everybody else. -/
theorem Able.takenIn (able : p.Able 0) (o : p.Orderly) (nodup : (p.census 0 + record.load).Nodup)
    (h : p.Expects part entry record) (taken : TakenIn record entry part now p q) : q.Able 0 := by
  have kept : Kept LinkView.Alike p q := (kept_takenIn taken).mono LinkView.Same.alike
  obtain ⟨-, once, apart⟩ := Multiset.nodup_add.1 nodup
  have brought : Brought record.cursors p q :=
    brought_takenIn (Multiset.coe_nodup.1 (record.coe_cursors ▸ once)) taken
  obtain ⟨crew, roots, platforms, -⟩ := crew_boarded o h.proper.known taken.boards
  have put := taken.put
  -- Nobody who has been there before is brought anywhere.
  have others : ∀ x ∈ p.census 0, q.agents[x]? = p.agents[x]? := fun x hx =>
    brought.others x fun hm => Multiset.disjoint_left.1 apart hx (record.coe_cursors ▸ Multiset.mem_coe.2 hm)
  have acting : ∀ v ∈ 0 + p.roots, v ∈ p.census 0 := fun v hv => by
    rw [census, aboardOf, add_assoc, add_assoc]
    exact Multiset.mem_add.2 (.inl hv)
  refine ⟨able.grounded.of_kept kept, able.named.of_kept kept, kept.honest able.honest, fun v hv y hy => ?_,
    fun y hy => ?_, fun y hy => ?_, taken.genuine able.genuine, ?_⟩
  · rw [put.crew, crew] at hy
    split at hy
    · cases listed : record.passengers with
      | none =>
        rw [AgentRecord.riders, listed] at hy
        exact absurd hy (Multiset.notMem_zero y)
      | some passengers =>
        rw [AgentRecord.riders, listed] at hy
        obtain ⟨x, hx, rfl⟩ := List.mem_map.1 (Multiset.mem_coe.1 hy)
        have row : (x.id, x.cursor) ∈ record.cursors := by
          rw [AgentRecord.cursors, listed]
          exact List.mem_cons_of_mem _ (List.mem_map_of_mem hx)
        obtain ⟨b, hb, left⟩ := (h.passengers passengers listed).2 x hx
        obtain ⟨-, c, hc, blank, cursor⟩ := brought.brings x.id x.cursor row b hb
        exact ⟨c, hc, by rw [cursor, Agent.plan_of_blank blank]; exact left⟩
    · rename_i other
      have before : v ∈ 0 + p.roots := by
        rw [zero_add] at hv ⊢
        exact roots ▸ (put.roots v hv).resolve_right other
      refine (able.riders v before y hy).of_same (others y ?_)
      rw [census, aboardOf, add_assoc, add_assoc]
      exact Multiset.mem_add.2 (.inr (Multiset.mem_add.2 (.inl (Multiset.mem_bind.2 ⟨v, before, hy⟩))))
  · rcases put.waiting y hy with waits | remains
    · rw [platforms] at waits
      refine (able.waiting y waits).of_same (others y ?_)
      exact Multiset.mem_add.2 (.inl (Multiset.mem_add.2 (.inr waits)))
    · exact remains
  · rcases taken.heading hy with before | ⟨rfl, l, hl⟩
    · refine (able.heading y before).of_same (others y (acting y ?_))
      exact Multiset.mem_add.2 (.inr (Multiset.mem_add.2 (.inr (Multiset.mem_of_le p.heading_le_standing before))))
    · obtain ⟨a, ha, traversed⟩ := (h.entering l hl).2
      obtain ⟨-, b, hb, blank, cursor⟩ := brought.brings record.id record.cursor List.mem_cons_self a ha
      exact ⟨b, hb, by rw [cursor, Agent.plan_of_blank blank]; exact traversed⟩
  · rw [outbox_takenIn taken]
    exact able.queued.mono fun _ _ _ fit => fit.of_kept kept

theorem paced_welcomed (h : Welcomed id link part now p q) : Paced p q := by
  cases h with
  | waits => exact ⟨rfl, rfl⟩
  | enters view known empty room enters scheduled =>
    have paced := relates_scheduled paced_revisit scheduled fun same => same
    exact ⟨paced.agents, paced.links⟩

theorem paced_takenIn (h : TakenIn record entry part now p q) : Paced p q := by
  obtain ⟨b, a, boards, found, grows, placed⟩ := h
  have boarded : Paced p b := by
    cases boards with
    | nobody => exact Std.Refl.refl p
    | seated listed updated =>
      have paced : Paced p _ := updated.relates fun _ _ _ _ => paced_updated
      exact ⟨paced.agents, paced.links⟩
  cases entry with
  | none =>
    have paced := paced_wake placed
    exact boarded.trans ⟨paced.agents, paced.links⟩
  | some l =>
    have placed : Welcomed record.id l part now _ q := placed
    have paced := paced_welcomed placed
    exact boarded.trans ⟨paced.agents, paced.links⟩

end Partition

/-- An agent on its way: the partition which it comes from, the link which it enters, and its record. -/
abbrev Entrant := Nat × Option Nat × AgentRecord

/-- The agents which a transfer brings. -/
def Transfer.entrants (t : Transfer) : List Entrant :=
  t.records.flatMap fun g => g.agents.map fun r => (t.sender, g.link, r)

theorem Transfer.load_entrants (t : Transfer) : (t.entrants.map fun x => x.2.2.load).sum = t.load := by
  have groups : ∀ gs : List LinkRecord,
      ((gs.flatMap fun g => g.agents.map fun r => (t.sender, g.link, r)).map fun x => x.2.2.load).sum =
        (gs.map LinkRecord.load).sum := by
    intro gs
    induction gs with
    | nil => rfl
    | cons g rest ih =>
      rw [List.flatMap_cons, List.map_append, List.sum_append, ih, List.map_cons, List.sum_cons,
        List.map_map]
      rfl
  exact groups t.records

namespace Partition

variable {p q : Partition} {now : Nat} {entrants rest : List Entrant} {transfers : List Transfer}
  {d : Delivery} {b : Buffers}

/-- One agent after the other is taken in. -/
theorem receiveTransfer_eq (t : Transfer) (now : Nat) :
    receiveTransfer t now = t.entrants.forM fun x => receiveAgent x.2.2 x.2.1 x.1 now := by
  unfold Transfer.entrants receiveTransfer
  rw [forM_flatMap]
  simp only [List.forM_eq_forM, List.forM_map]

theorem arrive_forM (h : Ends (arrive now d) p b q) :
    ∃ transfers r, Outbox.readTransfers p.rank now p.isVehicle d = .ok transfers ∧
      Ends (((transfers.mergeSort fun a b => a.sender ≤ b.sender).flatMap Transfer.entrants).forM
        fun x => receiveAgent x.2.2 x.2.1 x.1 now) p () r ∧
      q = { r with outbox := { r.outbox with releases := .empty } } := by
  obtain ⟨⟨⟩, r, received, sent⟩ := bind_eq_ok.1 h
  simp only [receiveTransfers, bind_eq_ok, get_eq_ok, communicate_eq_ok, receiveTransfer_eq] at received
  obtain ⟨_, _, ⟨rfl, rfl⟩, transfers, _, ⟨read, rfl⟩, received⟩ := received
  rw [← forM_flatMap] at received
  obtain ⟨messages, -, -, emptied⟩ := sendReleases_ends sent
  exact ⟨transfers, r, read, received, emptied⟩

/-- The partition can take in all of these, each of them once. -/
structure Hosts (now : Nat) (entrants : List Entrant) (p : Partition) : Prop where
  able : p.Able 0
  orderly : p.Orderly
  once : (p.census 0 + (entrants.map fun x => x.2.2.load).sum).Nodup
  expects : ∀ x ∈ entrants, p.Expects x.1 x.2.1 x.2.2
  agents : p.dueAgents.next = now + 1
  links : p.dueLinks.next = now + 1

theorem Expects.takenIn {part part' : Nat} {entry entry' : Option Nat} {record record' : AgentRecord}
    (h : p.Expects part entry record) (taken : TakenIn record' entry' part' now p q)
    (once : (record'.load + record.load).Nodup) : q.Expects part entry record := by
  have kept : Kept LinkView.Alike p q := (kept_takenIn taken).mono LinkView.Same.alike
  obtain ⟨own, -, apart⟩ := Multiset.nodup_add.1 once
  have brought := brought_takenIn (Multiset.coe_nodup.1 (record'.coe_cursors ▸ own)) taken
  refine ⟨kept.isVehicle ▸ h.proper, h.behind.brought brought fun row hrow hm => ?_, fun l hl => ?_,
    h.passengers.of_blank kept.agents⟩
  · refine Multiset.disjoint_left.1 apart (record'.coe_cursors ▸ Multiset.mem_coe.2 hm) ?_
    exact AgentRecord.mem_load.2 ⟨row.2, hrow⟩
  · obtain ⟨admits, heads⟩ := h.entering l hl
    exact ⟨admits.of_kept kept, heads.of_blank kept.agents⟩

namespace Hosts

theorem perm (h : Hosts now entrants p) (same : entrants.Perm rest) : Hosts now rest p :=
  ⟨h.able, h.orderly, (same.map fun x => x.2.2.load).sum_eq ▸ h.once,
    fun x hx => h.expects x (same.mem_iff.2 hx), h.agents, h.links⟩

variable {first : Entrant}

/-- Whoever is taken in next isn't here yet. -/
theorem apart (h : Hosts now (first :: rest) p) :
    (p.census 0 + first.2.2.load + (rest.map fun x => x.2.2.load).sum).Nodup := by
  have once := h.once
  rwa [List.map_cons, List.sum_cons, ← add_assoc] at once

theorem absent (h : Hosts now (first :: rest) p) : first.2.2.id ∉ p.roots := fun stands => by
  have counted : first.2.2.id ∈ p.census 0 := by
    rw [census, zero_add, aboardOf, add_assoc, add_assoc]
    exact Multiset.mem_add.2 (.inl stands)
  exact Multiset.disjoint_left.1 (Multiset.nodup_add.1 (Multiset.nodup_add.1 h.apart).1).2.2 counted
    (Multiset.mem_cons_self ..)

theorem safe {F : Failure → Prop} (h : Hosts now (first :: rest) p) :
    Fails F (receiveAgent first.2.2 first.2.1 first.1 now) p :=
  (h.expects first List.mem_cons_self).safe (Multiset.nodup_add.1 (Multiset.nodup_add.1 h.apart).1).2.1
    h.agents.le h.links.le

theorem takenIn (h : Hosts now (first :: rest) p)
    (taken : TakenIn first.2.2 first.2.1 first.1 now p q) : Hosts now rest q := by
  have expects := h.expects first List.mem_cons_self
  have paced := paced_takenIn taken
  have once := h.apart
  obtain ⟨census, orderly⟩ := census_takenIn h.orderly expects.proper h.absent taken
  refine ⟨h.able.takenIn h.orderly (Multiset.nodup_add.1 once).1 expects taken, orderly, census ▸ once,
    fun x hx => ?_, paced.agents.trans h.agents, paced.links.trans h.links⟩
  refine (h.expects x (List.mem_cons_of_mem _ hx)).takenIn taken ?_
  rw [add_assoc] at once
  refine Multiset.nodup_of_le ?_ (Multiset.nodup_add.1 once).2.1
  exact add_le_add_right (le_sum_map (f := fun x : Entrant => x.2.2.load) hx) _

theorem received (h : Hosts now entrants p)
    (ends : Ends (entrants.forM fun x => receiveAgent x.2.2 x.2.1 x.1 now) p () q) : Hosts now [] q :=
  forM_rest (P := Hosts now) (fun first rest p q hosts ends => by
    obtain ⟨taken⟩ := receiveAgent_ends ends
    exact hosts.takenIn taken) h ends

theorem safe_all (h : Hosts now entrants p) :
    Safe (entrants.forM fun x => receiveAgent x.2.2 x.2.1 x.1 now) p :=
  .forM (P := Hosts now) (fun first rest p hosts => hosts.safe) (fun first rest p q hosts ends => by
    obtain ⟨taken⟩ := receiveAgent_ends ends
    exact hosts.takenIn taken) h

/-- Transfers are taken in agent by agent, by the rank of their senders. -/
theorem sorted (h : Hosts now (transfers.flatMap Transfer.entrants) p) :
    Hosts now ((transfers.mergeSort fun a b => a.sender ≤ b.sender).flatMap Transfer.entrants) p :=
  h.perm ((List.mergeSort_perm transfers _).flatMap_right _).symm

/-- What is received from the neighbors is taken in, and reports are made for them. -/
theorem safe_arrive (h : Hosts now (transfers.flatMap Transfer.entrants) p)
    (read : Outbox.readTransfers p.rank now p.isVehicle d = .ok transfers) : Safe (arrive now d) p := by
  refine .bind (.after (ends_get p) (.after (communicate_eq_ok.2 ⟨read, rfl⟩) ?_)) fun _ _ _ => safe_sendReleases
  simp only [receiveTransfer_eq]
  rw [← forM_flatMap]
  exact h.sorted.safe_all

theorem arrived (h : Hosts now (transfers.flatMap Transfer.entrants) p)
    (read : Outbox.readTransfers p.rank now p.isVehicle d = .ok transfers)
    (ends : Ends (arrive now d) p b q) : Hosts now [] q := by
  obtain ⟨transfers', r, read', receives, rfl⟩ := arrive_forM ends
  obtain rfl := Except.ok.inj (read.symm.trans read')
  have received := h.sorted.received receives
  have transfers : ({ r.outbox with releases := .empty } : Outbox).transfers = r.outbox.transfers := rfl
  have able := received.able.shed (sheds_setOutbox (o := { r.outbox with releases := .empty }) rfl rfl)
    fun target t ht => received.able.queued target t ht
  exact ⟨able, received.orderly.setOutbox transfers, census_setOutbox transfers ▸ received.once,
    fun x hx => absurd hx List.not_mem_nil, received.agents, received.links⟩

end Hosts

/-! ## Releases -/

theorem safe_applyCount {part link count : Nat} (h : p.Leads part link) :
    Safe (applyCount part link count) p := by
  obtain ⟨x, view, owner⟩ := h
  refine .after (ends_get p) ?_
  simp only [view, owner, ne_eq, not_true_eq_false, if_false]
  refine .bind ?_ fun _ _ _ => .modify _
  unfold Proxy.release
  split
  · exact .pure _
  · -- Too much is reported only if the partitions disagree.
    intro f q hf
    cases hf
    exact .inr rfl

theorem sheds_applyCount {part link count : Nat} (h : Ends (applyCount part link count) p () q) :
    Sheds p q := by
  obtain ⟨x, y, view, -, release, rfl⟩ := applyCount_eq_ok.1 h
  obtain ⟨-, rfl⟩ := Proxy.release_eq_ok release
  refine sheds_setView view rfl le_rfl le_rfl ?_
  rintro - g ⟨⟩

theorem safe_receiveReleases {releases : List Release}
    (read : Outbox.readReleases p.rank now d = .ok releases)
    (leads : ∀ r ∈ releases, ∀ c ∈ r.counts, p.Leads r.sender c.1) : Safe (receiveReleases now d) p := by
  refine .after (ends_get p) (.after (communicate_eq_ok.2 ⟨read, rfl⟩) ?_)
  have counts : ∀ {r : Release} {s t : Partition} {rows : List (Nat × Nat)},
      Ends (rows.forM fun c => applyCount r.sender c.1 c.2) s () t → Sheds s t := fun ends =>
    (along_of_forM (fun _ _ _ ends => ends) ends).relates fun _ _ _ _ => sheds_applyCount
  refine .forM (P := fun rest s => ∀ r ∈ rest, ∀ c ∈ r.counts, s.Leads r.sender c.1)
    (fun r rest s h => ?_) (fun r rest s t h ends x hx c hc => ?_) leads
  · refine .forM (P := fun rows t => ∀ c ∈ rows, t.Leads r.sender c.1)
      (fun c rows t h => safe_applyCount (h c List.mem_cons_self))
      (fun c rows t u h ends x hx => ?_) (h r List.mem_cons_self)
    exact (h x (List.mem_cons_of_mem _ hx)).of_kept (sheds_applyCount ends).kept
  · exact (h x (List.mem_cons_of_mem _ hx) c hc).of_kept (counts ends).kept

theorem Able.settled (able : p.Able 0) (h : Ends (receiveReleases now d) p () q) : q.Able 0 := by
  have outbox : q.outbox = p.outbox := by rw [receiveReleases_links h]
  obtain ⟨releases, -, credited⟩ := receiveReleases_eq_ok.1 h
  have sheds : Sheds p q := credited.relates fun _ _ _ _ counts =>
    counts.relates fun _ _ _ _ => sheds_applyCount
  exact able.shed sheds (outbox ▸ able.queued)

end Partition

end Mobility
