import Mobility.Proofs.Partition.Steps

/-!
# What the exchange of a second does

The counterpart of `Mobility.Proofs.Partition.Steps` for the acts in which a partition meets its
neighbors: emptying the proxies, reporting what left the gateways, making the messages, and taking
in the ones which came.
-/

set_option autoImplicit false

namespace Mobility

open Act

namespace Outbox

/-- The outbox with the counts of a link, by the partition the agents came from. -/
def addCounts (link now : Nat) (o : Outbox) (counts : List (Nat × Nat)) : Outbox :=
  counts.foldl (fun o row => o.addCount row.1 link row.2 now) o

@[simp] theorem rank_addCounts (link now : Nat) (o : Outbox) (counts : List (Nat × Nat)) :
    (o.addCounts link now counts).rank = o.rank := by
  induction counts generalizing o with
  | nil => rfl
  | cons row rest ih => exact ih _

@[simp] theorem neighbors_addCounts (link now : Nat) (o : Outbox) (counts : List (Nat × Nat)) :
    (o.addCounts link now counts).neighbors = o.neighbors := by
  induction counts generalizing o with
  | nil => rfl
  | cons row rest ih => exact ih _

@[simp] theorem transfers_addCounts (link now : Nat) (o : Outbox) (counts : List (Nat × Nat)) :
    (o.addCounts link now counts).transfers = o.transfers := by
  induction counts generalizing o with
  | nil => rfl
  | cons row rest ih => exact ih _

/-- Messages are complete if nothing is queued for somebody who isn't a neighbor. -/
theorem complete_eq_ok {α : Type} {neighbors : Table Unit} {queued messages : Table α}
    {blank : Nat → α} (h : complete neighbors queued blank = .ok messages) :
    (∀ target ∈ queued.keys, neighbors.contains target = true) ∧
      messages = neighbors.mapRows fun target _ => (queued.get? target).getD (blank target) := by
  unfold complete at h
  split at h
  · cases h
  · rename_i hf
    cases h
    refine ⟨fun target ht => ?_, rfl⟩
    simpa using List.find?_eq_none.1 hf target ht

end Outbox

namespace Partition

variable {p q : Partition}

/-! ## Collecting and sending -/

/-- How the agents for the link of a proxy are put into the outbox. -/
inductive Emptied (now link : Nat) : Partition → Partition → Prop where
  | proxy {p q : Partition} {x : Proxy} (view : p.links[link]? = some (.proxy x))
      (sends : Along (fun id p q => Ends (send x.toPart (some link) id now) p () q) x.outbox
        { p with links := p.links.setIfInBounds link (.proxy { x with outbox := [] }) } q) :
      Emptied now link p q
  | other {p : Partition} {v : LinkView} (view : p.links[link]? = some v)
      (kind : ∀ x, v ≠ .proxy x) : Emptied now link p p

/-- How the agents which left a gateway are put into the outbox. -/
inductive Reported (now link : Nat) : Partition → Partition → Prop where
  | gateway {p : Partition} {g : Gateway} (view : p.links[link]? = some (.gateway g)) :
      Reported now link p { p with
        links := p.links.setIfInBounds link (.gateway { g with released := .empty })
        outbox := p.outbox.addCounts link now g.released.entries }
  | other {p : Partition} {v : LinkView} (view : p.links[link]? = some v)
      (kind : ∀ g, v ≠ .gateway g) : Reported now link p p

theorem emptyProxy_ends {now link : Nat} (h : Ends (emptyProxy now link) p () q) :
    Emptied now link p q := by
  simp only [emptyProxy, bind_eq_ok, view_eq_ok] at h
  obtain ⟨v, _, ⟨hv, rfl⟩, h⟩ := h
  cases v with
  | proxy x =>
    simp only [Proxy.takeAgents, bind_eq_ok, setView_eq_ok] at h
    obtain ⟨⟨⟩, _, rfl, h⟩ := h
    exact .proxy hv (along_of_forM (fun id p q h => h) h)
  | owned l => exact (pure_eq_ok.1 h).2 ▸ .other hv (by simp)
  | gateway g => exact (pure_eq_ok.1 h).2 ▸ .other hv (by simp)
  | remote i owner => exact (pure_eq_ok.1 h).2 ▸ .other hv (by simp)

theorem collectAgents_ends {now : Nat} (h : Ends (collectAgents now) p () q) :
    Along (Emptied now) p.proxies p q := by
  simp only [collectAgents, bind_eq_ok, get_eq_ok] at h
  obtain ⟨_, _, ⟨rfl, rfl⟩, h⟩ := h
  exact along_of_forM (f := emptyProxy now) (fun link p q h => emptyProxy_ends h) h

theorem reportGateway_ends {now link : Nat} (h : Ends (reportGateway now link) p () q) :
    Reported now link p q := by
  simp only [reportGateway, bind_eq_ok, view_eq_ok] at h
  obtain ⟨v, _, ⟨hv, rfl⟩, h⟩ := h
  cases v with
  | gateway g =>
    simp only [Gateway.takeReleased, bind_eq_ok, setView_eq_ok] at h
    obtain ⟨⟨⟩, _, rfl, h⟩ := h
    have fold : ∀ (rows : List (Nat × Nat)) (r : Partition),
        rows.foldl (fun r row => { r with outbox := r.outbox.addCount row.1 link row.2 now }) r =
          { r with outbox := r.outbox.addCounts link now rows } := by
      intro rows
      induction rows with
      | nil => intro r; rfl
      | cons row rest ih => intro r; exact ih _
    have h := forM_modify.1 h
    rw [fold] at h
    exact h ▸ .gateway hv
  | owned l => exact (pure_eq_ok.1 h).2 ▸ .other hv (by simp)
  | proxy x => exact (pure_eq_ok.1 h).2 ▸ .other hv (by simp)
  | remote i owner => exact (pure_eq_ok.1 h).2 ▸ .other hv (by simp)

theorem collectReleases_ends {now : Nat} (h : Ends (collectReleases now) p () q) :
    Along (Reported now) p.gateways p q := by
  simp only [collectReleases, bind_eq_ok, get_eq_ok] at h
  obtain ⟨_, _, ⟨rfl, rfl⟩, h⟩ := h
  exact along_of_forM (f := reportGateway now) (fun link p q h => reportGateway_ends h) h

/-- How a partition comes to these transfers: they are what is queued after collecting, and the outbox
is left without them. -/
inductive Mailed (now : Nat) (messages : Table Transfer) (p : Partition) : Partition → Prop where
  | intro {r s : Partition} (emptied : Along (Emptied now) p.proxies p r)
      (reported : Along (Reported now) r.gateways r s)
      (complete : Outbox.complete s.outbox.neighbors s.outbox.transfers
        (Transfer.empty now s.outbox.rank) = .ok messages) :
      Mailed now messages p { s with outbox := { s.outbox with transfers := .empty } }

theorem sendTransfers_ends {now : Nat} {buffers : Buffers}
    (h : Ends (sendTransfers now) p buffers q) :
    ∃ messages, Mailed now messages p q ∧ buffers = messages.mapRows fun _ t => t.encode := by
  simp only [sendTransfers, bind_eq_ok, get_eq_ok, Outbox.takeTransfers, modify_eq_ok,
    communicate_eq_ok] at h
  obtain ⟨⟨⟩, r, hr, ⟨⟩, s, hs, _, _, ⟨rfl, rfl⟩, ⟨⟩, _, rfl, hb, rfl⟩ := h
  cases hm : Outbox.complete s.outbox.neighbors s.outbox.transfers
      (Transfer.empty now s.outbox.rank) with
  | error e => rw [hm] at hb; cases hb
  | ok messages =>
    rw [hm] at hb
    cases hb
    exact ⟨messages, .intro (collectAgents_ends hr) (collectReleases_ends hs) hm, rfl⟩

/-- How a partition comes to the transfers of a second: it works before. -/
def Wrote (now : Nat) (messages : Table Transfer) (p q : Partition) : Prop :=
  ∃ w, Ends (work now) p () w ∧ Mailed now messages w q

theorem depart_ends {now : Nat} {buffers : Buffers} (h : Ends (depart now) p buffers q) :
    ∃ messages, Wrote now messages p q ∧ buffers = messages.mapRows fun _ t => t.encode := by
  obtain ⟨⟨⟩, w, hw, hs⟩ := bind_eq_ok.1 h
  obtain ⟨messages, mailed, hb⟩ := sendTransfers_ends hs
  exact ⟨messages, ⟨w, hw, mailed⟩, hb⟩

/-- The releases are what is queued, and the outbox is left without them. -/
theorem sendReleases_ends {now : Nat} {buffers : Buffers}
    (h : Ends (sendReleases now) p buffers q) :
    ∃ messages, Outbox.complete p.outbox.neighbors p.outbox.releases
        (Release.empty now p.outbox.rank) = .ok messages ∧
      (buffers = messages.mapRows fun _ r => r.encode) ∧
      q = { p with outbox := { p.outbox with releases := .empty } } := by
  simp only [sendReleases, bind_eq_ok, get_eq_ok, Outbox.takeReleases, modify_eq_ok,
    communicate_eq_ok] at h
  obtain ⟨_, _, ⟨rfl, rfl⟩, ⟨⟩, _, rfl, hb, rfl⟩ := h
  cases hm : Outbox.complete p.outbox.neighbors p.outbox.releases
      (Release.empty now p.outbox.rank) with
  | error e => rw [hm] at hb; cases hb
  | ok messages =>
    rw [hm] at hb
    cases hb
    exact ⟨messages, rfl, rfl, rfl⟩

/-! ## Receiving -/

/-- How an agent from partition `part` gets onto the link of a gateway or in front of it. -/
inductive Welcomed (id link part now : Nat) (p : Partition) : Partition → Prop where
  | waits {g : Gateway} (view : p.links[link]? = some (.gateway g)) (known : part ∈ g.fromParts)
      (closed : g.inbound ≠ [] ∨ g.link.isFull = true) :
      Welcomed id link part now p
        { p with links := p.links.setIfInBounds link (.gateway (g.pushInbound id part)) }
  | enters {g : Gateway} {a : Agent} {finish : Nat} {q : Partition}
      (view : p.links[link]? = some (.gateway g)) (known : part ∈ g.fromParts)
      (empty : g.inbound = []) (room : g.link.isFull = false)
      (enters : p.Enters g.link id now finish a)
      (scheduled : if g.link.queue = [] then
          Ends (revisit link (max finish (now + 1)))
            { p with
              agents := p.agents.setIfInBounds id (a.onLink now finish)
              links := p.links.setIfInBounds link (.gateway (g.append id part finish)) } () q
        else
          q = { p with
            agents := p.agents.setIfInBounds id (a.onLink now finish)
            links := p.links.setIfInBounds link (.gateway (g.append id part finish)) }) :
      Welcomed id link part now p q

theorem enterGateway_ends {id link part now : Nat}
    (h : Ends (enterGateway id link part now) p () q) : Welcomed id link part now p q := by
  simp only [enterGateway, bind_eq_ok, get_eq_ok] at h
  obtain ⟨velocity, _, hv, _, _, ⟨rfl, rfl⟩, h⟩ := h
  obtain ⟨rfl, a, event, ref, ha, hp⟩ := requestedVelocity_ends hv
  split at h
  · rename_i g hg
    split at h
    · simp at h
    · rename_i hk
      have known : part ∈ g.fromParts := by simpa using hk
      split at h
      · rename_i hclosed
        simp only [setView_eq_ok] at h
        have closed : g.inbound ≠ [] ∨ g.link.isFull = true := by simpa using hclosed
        exact h ▸ .waits hg known closed
      · rename_i hopen
        simp only [Bool.or_eq_true, Bool.not_eq_true', not_or, Bool.not_eq_false,
          Bool.not_eq_true] at hopen
        simp only [bind_eq_ok, setView_eq_ok] at h
        obtain ⟨k, _, hk, ⟨⟩, _, rfl, h⟩ := h
        obtain ⟨a', finish, ha', hfin, rfl, rfl⟩ := letIn_ends hk
        obtain rfl : a' = a := Option.some.inj (ha'.symm.trans ha)
        have enters : p.Enters g.link id now finish a' := ⟨ha, event, ref, velocity, hp, hfin⟩
        split at h
        · rename_i he
          simp only [bind_eq_ok, agent_eq_ok] at h
          obtain ⟨b, _, ⟨hb, rfl⟩, h⟩ := h
          obtain ⟨hlt, -⟩ := Array.getElem?_eq_some_iff.1 ha
          rw [Array.getElem?_setIfInBounds_self_of_lt hlt] at hb
          obtain rfl := Option.some.inj hb
          refine .enters hg known (List.isEmpty_iff.1 hopen.1) hopen.2 enters ?_
          rw [if_pos (List.isEmpty_iff.1 he)]
          exact h
        · rename_i he
          refine .enters hg known (List.isEmpty_iff.1 hopen.1) hopen.2 enters ?_
          rw [if_neg (fun e => he (by simp [e]))]
          exact (pure_eq_ok.1 h).2.symm
  · simp at h

theorem receivePassenger_ends {x : PassengerRecord} {seat : Nat × Nat}
    (h : Ends (receivePassenger x) p seat q) :
    ∃ a, p.agents[x.id]? = some a ∧ a.cursor ≤ x.cursor ∧ seat = (x.index, x.id) ∧
      q = { p with agents := p.agents.setIfInBounds x.id { a with cursor := x.cursor } } := by
  simp only [receivePassenger, bind_eq_ok, get_eq_ok] at h
  obtain ⟨_, _, ⟨rfl, rfl⟩, h⟩ := h
  split at h
  · exact absurd h throw_ne_ok
  · rename_i a ha
    simp only [bind_eq_ok, attempt_eq_ok, setAgent_eq_ok, pure_eq_ok] at h
    obtain ⟨b, _, ⟨hb, rfl⟩, ⟨⟩, _, rfl, rfl, rfl⟩ := h
    obtain ⟨hle, rfl⟩ := Agent.moveCursor_eq_ok hb
    exact ⟨a, ha, hle, rfl, rfl⟩

/-- How passengers are brought up to date. -/
def Updated (x : PassengerRecord) (p q : Partition) : Prop :=
  ∃ a, p.agents[x.id]? = some a ∧ a.cursor ≤ x.cursor ∧
    q = { p with agents := p.agents.setIfInBounds x.id { a with cursor := x.cursor } }

theorem mapM_receivePassenger_ends {xs : List PassengerRecord} {seats : List (Nat × Nat)}
    (h : Ends (xs.mapM receivePassenger) p seats q) :
    Along Updated xs p q ∧ seats = xs.map fun x => (x.index, x.id) := by
  induction xs generalizing p seats with
  | nil =>
    simp only [List.mapM_nil, pure_eq_ok] at h
    exact ⟨h.2 ▸ .nil, h.1.symm⟩
  | cons x rest ih =>
    simp only [List.mapM_cons, bind_eq_ok, pure_eq_ok] at h
    obtain ⟨seat, r, hx, later, s, hrest, rfl, rfl⟩ := h
    obtain ⟨a, ha, hle, rfl, rfl⟩ := receivePassenger_ends hx
    obtain ⟨hall, rfl⟩ := ih hrest
    exact ⟨.cons ⟨a, ha, hle, rfl⟩ hall, rfl⟩

/-- How the passengers of an agent are taken over: nobody is, unless the record lists them. -/
inductive Boarded (r : AgentRecord) (p : Partition) : Partition → Prop where
  | nobody (unlisted : r.passengers = none) : Boarded r p p
  | seated {passengers : List PassengerRecord} {s : Partition} {a : Agent} {seats : Seats}
      (listed : r.passengers = some passengers) (updated : Along Updated passengers p s)
      (found : s.agents[r.id]? = some a)
      (seated : a.seats.replace (passengers.map fun x => (x.index, x.id)) = some seats) :
      Boarded r p { s with agents := s.agents.setIfInBounds r.id { a with seats := seats } }

/-- How an agent from partition `part` is taken in. -/
structure TakenIn (r : AgentRecord) (link : Option Nat) (part now : Nat) (p q : Partition) where
  boarded : Partition
  before : Agent
  boards : Boarded r p boarded
  found : boarded.agents[r.id]? = some before
  cursor : before.cursor ≤ r.cursor
  placed :
    match link with
    | none =>
      Ends (wake r.id (now + 1))
        { boarded with agents := boarded.agents.setIfInBounds r.id { before with cursor := r.cursor } }
        () q
    | some link =>
      Welcomed r.id link part now
        { boarded with agents := boarded.agents.setIfInBounds r.id { before with cursor := r.cursor } }
        q

theorem receiveAgent_ends {r : AgentRecord} {link : Option Nat} {part now : Nat}
    (h : Ends (receiveAgent r link part now) p () q) : Nonempty (TakenIn r link part now p q) := by
  have later : ∀ {s : Partition}, Boarded r p s →
      Ends (do
        setAgent r.id (← attempt ((← agent r.id).moveCursor r.cursor))
        match link with
        | none => wake r.id (now + 1)
        | some link => enterGateway r.id link part now) s () q →
      Nonempty (TakenIn r link part now p q) := by
    intro s hs h
    simp only [bind_eq_ok, agent_eq_ok, attempt_eq_ok, setAgent_eq_ok] at h
    obtain ⟨a, _, ⟨ha, rfl⟩, b, _, ⟨hb, rfl⟩, ⟨⟩, _, rfl, h⟩ := h
    obtain ⟨hle, rfl⟩ := Agent.moveCursor_eq_ok hb
    refine ⟨⟨s, a, hs, ha, hle, ?_⟩⟩
    cases link with
    | none => exact h
    | some link => exact enterGateway_ends h
  unfold receiveAgent at h
  cases hp : r.passengers with
  | none =>
    rw [hp] at h
    exact later (.nobody hp) h
  | some passengers =>
    rw [hp] at h
    obtain ⟨seated, s, hm, h⟩ := bind_eq_ok.1 h
    obtain ⟨a, _, hagent, h⟩ := bind_eq_ok.1 h
    obtain ⟨ha, rfl⟩ := agent_eq_ok.1 hagent
    obtain ⟨b, _, hreplace, h⟩ := bind_eq_ok.1 h
    obtain ⟨hb, rfl⟩ := attempt_eq_ok.1 hreplace
    obtain ⟨⟨⟩, _, hset, h⟩ := bind_eq_ok.1 h
    obtain rfl := setAgent_eq_ok.1 hset
    obtain ⟨hup, rfl⟩ := mapM_receivePassenger_ends hm
    obtain ⟨seats, hs, rfl⟩ := Agent.replacePassengers_eq_ok hb
    exact later (.seated hp hup ha hs) h

/-- How the agents of a transfer are taken in: group by group, one after the other. -/
def Absorbed (now : Nat) (t : Transfer) : Partition → Partition → Prop :=
  Along (fun (group : LinkRecord) =>
    Along (fun r p q => Nonempty (TakenIn r group.link t.sender now p q)) group.agents) t.records

theorem receiveTransfer_ends {t : Transfer} {now : Nat} (h : Ends (receiveTransfer t now) p () q) :
    Absorbed now t p q := by
  unfold receiveTransfer at h
  refine along_of_forM (fun group p q hg => ?_) h
  refine along_of_forM (fun r p q hr => ?_) hg
  exact receiveAgent_ends hr

/-- The transfers are read and then taken in by the rank of their sender. -/
theorem receiveTransfers_ends {now : Nat} {delivery : Delivery}
    (h : Ends (receiveTransfers now delivery) p () q) :
    ∃ transfers, Outbox.readTransfers p.rank now p.isVehicle delivery = .ok transfers ∧
      Along (Absorbed now) (transfers.mergeSort fun a b => a.sender ≤ b.sender) p q := by
  simp only [receiveTransfers, bind_eq_ok, get_eq_ok, communicate_eq_ok] at h
  obtain ⟨_, _, ⟨rfl, rfl⟩, transfers, _, ⟨ht, rfl⟩, h⟩ := h
  refine ⟨transfers, ht, along_of_forM (fun t p q h => ?_) h⟩
  exact receiveTransfer_ends h

/-- After that only the releases are taken out of the outbox. -/
theorem arrive_ends {now : Nat} {delivery : Delivery} {buffers : Buffers}
    (h : Ends (arrive now delivery) p buffers q) :
    ∃ transfers r, Outbox.readTransfers p.rank now p.isVehicle delivery = .ok transfers ∧
      Along (Absorbed now) (transfers.mergeSort fun a b => a.sender ≤ b.sender) p r ∧
      q = { r with outbox := { r.outbox with releases := .empty } } := by
  obtain ⟨⟨⟩, r, received, sent⟩ := bind_eq_ok.1 h
  obtain ⟨transfers, read, absorbed⟩ := receiveTransfers_ends received
  obtain ⟨messages, -, -, emptied⟩ := sendReleases_ends sent
  exact ⟨transfers, r, read, absorbed, emptied⟩

@[simp] theorem applyCount_eq_ok {part link count : Nat} :
    Ends (applyCount part link count) p () q ↔
      ∃ x y, p.links[link]? = some (.proxy x) ∧ x.toPart = part ∧ x.release count = .ok y ∧
        q = { p with links := p.links.setIfInBounds link (.proxy y) } := by
  simp only [applyCount, bind_eq_ok, get_eq_ok]
  constructor
  · rintro ⟨_, _, ⟨rfl, rfl⟩, h⟩
    split at h
    · rename_i x hx
      split at h
      · simp at h
      · rename_i hpart
        simp only [bind_eq_ok, attempt_eq_ok, setView_eq_ok] at h
        obtain ⟨y, _, ⟨hy, rfl⟩, rfl⟩ := h
        exact ⟨x, y, hx, by simpa using hpart, hy, rfl⟩
    · simp at h
  · rintro ⟨x, y, hx, rfl, hy, rfl⟩
    refine ⟨p, p, ⟨rfl, rfl⟩, ?_⟩
    simp [hx, hy]

/-- How the room is released which a release reports: link by link. -/
def Credited (r : Release) : Partition → Partition → Prop :=
  Along (fun (row : Nat × Nat) p q => Ends (applyCount r.sender row.1 row.2) p () q) r.counts

theorem receiveReleases_eq_ok {now : Nat} {delivery : Delivery} :
    Ends (receiveReleases now delivery) p () q ↔
      ∃ releases, Outbox.readReleases p.rank now delivery = .ok releases ∧
        Along Credited releases p q := by
  have body : ∀ (r : Release) (p q : Partition),
      Ends (r.counts.forM fun row => applyCount r.sender row.1 row.2) p () q ↔ Credited r p q :=
    fun r p q => forM_iff_along fun _ _ _ => Iff.rfl
  simp only [receiveReleases, bind_eq_ok, get_eq_ok, communicate_eq_ok]
  constructor
  · rintro ⟨_, _, ⟨rfl, rfl⟩, releases, _, ⟨hr, rfl⟩, h⟩
    exact ⟨releases, hr, (forM_iff_along body).1 h⟩
  · rintro ⟨releases, hr, h⟩
    exact ⟨p, p, ⟨rfl, rfl⟩, releases, p, ⟨hr, rfl⟩, (forM_iff_along body).2 h⟩

end Partition

end Mobility
