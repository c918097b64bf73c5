import Mobility.Proofs.FreeFlow.Stands

/-!
# Room for everybody

In free flow nobody finds a link without room, whether it is a link of the own partition or one of a neighbor
(`Scenario.FreeFlow.roomy`, `Scenario.FreeFlow.welcoming`): as many agents as a link has room for would have to be
on it, or on their way there, and there are not so many. Whoever is still counted for a link at a neighbor is none
of those who are to be sent there (`Scenario.FreeFlow.apart`).
-/

set_option autoImplicit false

namespace Mobility

open Act Second Mobility.Partition

namespace LinkView

variable {v : LinkView} {id finish : Nat}

/-- Whoever isn't let onto a link finds no room, or others wait already. -/
theorem push_eq_none (h : v.push id finish = .ok none) :
    (∃ l, v.link? = some l ∧ (l.isFull = true ∨ v.inFront ≠ [])) ∨
      ∃ y, v = .proxy y ∧ y.capacity ≤ y.occupancy := by
  have closed := push_eq_none_iff.1 h
  cases v with
  | owned l => exact .inl ⟨l, rfl, .inl (decide_eq_true closed)⟩
  | gateway g =>
    refine .inl ⟨g.link, rfl, closed.symm.imp decide_eq_true fun waiting nobody => waiting ?_⟩
    exact List.map_eq_nil_iff.1 nobody
  | proxy y => exact .inr ⟨y, rfl, closed⟩
  | remote => exact closed.elim

/-- Whoever is on an owned link stands there. -/
theorem agents_le_standing {l : Link} (h : v.link? = some l) :
    ((l.queue.map (·.agent) : List Nat) : Multiset Nat) ≤ v.standing := by
  cases v with
  | owned => exact Option.some.inj h ▸ le_rfl
  | gateway g =>
    obtain rfl := Option.some.inj h
    exact Multiset.le_add_right _ _
  | proxy | remote => cases h

end LinkView

namespace Scenario

variable {raw s : Scenario} {method : Method} {timing : Timing} {x k l link link' now front finish i j r r' : Nat}
  {hand : Multiset Nat} {ps : List Partition} {p q : Partition} {v : LinkView} {c : Scope}

theorem Rests.not_inbound : ¬ s.Rests timing now x ⟨r, .inbound link, k⟩ := by
  rintro ⟨a, -, -, stays⟩
  cases stays

theorem Flows.not_inbound : ¬ s.Flows timing now front x ⟨r, .inbound link, k⟩ := by
  rintro ⟨a, -, -, stays | goes⟩
  · cases stays
  · cases goes

/-- In free flow nobody waits in front of a link. -/
theorem inFront_eq_nil {rule : Rule} (none : ∀ x r link k, ¬ rule x ⟨r, .inbound link, k⟩) (held : p.Held rule c)
    (known : ∀ x ∈ p.census hand, ∃ a, p.agents[x]? = some a) (link : Nat) : (p.seen link).inFront = [] := by
  refine List.eq_nil_iff_forall_not_mem.2 fun x waits => ?_
  have stands : x ∈ p.standing := mem_standing_of_seen (LinkView.mem_standing_of_inFront waits)
  obtain ⟨a, found⟩ := known x (Multiset.mem_of_le all_standing_le_census stands)
  exact none _ _ _ _ (held.spots (.inbound link) x a waits found)

/-- Whoever is counted in a partition is one of the agents. -/
theorem lt_size_of_counted (setting : p.Setting s timing i) (known : ∀ x ∈ p.census hand, ∃ a, p.agents[x]? = some a)
    (counted : x ∈ p.census hand) : x < s.agents.size := by
  obtain ⟨a, ha⟩ := known x counted
  obtain ⟨b, hb, -⟩ := setting.agent ha
  exact (Array.getElem?_eq_some_iff.1 hb).1

/-- As many agents as are counted for a link of a neighbor are on it. -/
theorem Reconciled.reserved_le_length (reconciled : s.Reconciled ps) (accepted : s.Accepted)
    (sane : s.Sane timing now ps) (obeys : Obeys (s.Rests timing now) ps) (hp : ps[i]? = some p) (feeds : s.Feeds i link) :
    ∃ o g, ps[s.linkPart link]? = some o ∧ o.links[link]? = some (.gateway g) ∧
      (p.seen link).reserved ≤ g.link.queue.length := by
  obtain ⟨spec, found, feeder⟩ := feeds
  have part := linkPart_eq found
  have crossing : (⟨link, i, spec.part⟩ : Crossing) ∈ s.crossings := accepted.mem_crossings.2 ⟨spec, found, rfl, feeder⟩
  have inside : spec.part < ps.length := by
    rw [sane.counted.cast]
    exact accepted.parts spec (Array.mem_toList_iff.2 (Array.mem_of_getElem? found))
  have ho := List.getElem?_eq_getElem inside
  obtain ⟨g, seen⟩ := accepted.gateway_at crossing (sane.rest.setting _ _ ho)
  have view : ps[spec.part].links[link]? = some (.gateway g) := view_of_seen seen nofun
  refine ⟨ps[spec.part], g, by rw [part]; exact ho, view, ?_⟩
  have ready := sane.ready ho
  have nobody : g.inbound = [] := by
    have none := inFront_eq_nil (fun _ _ _ _ => Rests.not_inbound) (obeys _ _ ho) ready.known link
    rw [seen] at none
    exact List.map_eq_nil_iff.1 none
  have reported : g.released = .empty := by
    have none := sane.rest.unreported _ _ ho link
    rw [seen] at none
    exact none
  have agreed := reconciled.agreed _ crossing p _ hp ho
  dsimp only at agreed
  rw [agreed, seen]
  show _ + g.inbound.countP _ + (g.released.get? i).getD 0 ≤ _
  rw [nobody, reported]
  exact List.countP_le_length

namespace FreeFlow

variable (free : s.FreeFlow timing)

include free

/-- An owned link isn't full. -/
theorem isFull_eq_false {l : Link} (setting : p.Setting s timing i) (once : (p.census hand).Nodup)
    (known : ∀ x ∈ p.census hand, ∃ a, p.agents[x]? = some a) (view : p.links[link]? = some v)
    (owned : v.link? = some l) : l.isFull = false := by
  obtain ⟨spec, found, -, capacity, -⟩ := setting.owned view owned
  have stand : _ ≤ p.census hand := (LinkView.agents_le_standing owned).trans (standing_le_census view)
  have few : (l.queue.map (·.agent)).length ≤ s.agents.size := by
    refine length_le_of_nodup (Multiset.coe_nodup.1 (Multiset.nodup_of_le stand once)) fun x hx => ?_
    exact lt_size_of_counted setting known (Multiset.mem_of_le stand (Multiset.mem_coe.2 hx))
  have spacious := free.spacious spec (Array.mem_toList_iff.2 (Array.mem_of_getElem? found))
  rw [List.length_map] at few
  unfold Link.isFull
  rw [decide_eq_false_iff_not, capacity]
  omega

variable (hs : raw.partition method = .ok s)

include hs

/-- Whoever is on a link at the start of a second isn't sent there in this second from elsewhere. -/
theorem apart (last : now < Clock.last) (rests : s.Rests timing now x ⟨r, .queued link finish, k⟩)
    (flows : s.Flows timing now front x ⟨r', .outbound link', l⟩) : r = r' := by
  obtain ⟨a, found, past, stays⟩ := rests
  obtain ⟨b, there, -, stays' | goes⟩ := flows
  · cases stays'
  obtain rfl := Option.some.inj (found.symm.trans there)
  cases stays with
  | @queued _ _ k _ i _ _ get action onto later here =>
    cases goes with
    | @outbound _ l _ i' _ _ get' action' onto' consumed here' =>
      rcases Nat.lt_trichotomy l (k + 1) with before | rfl | after
      · exact absurd (past l before now consumed) (Nat.lt_irrefl now)
      · exact congrArg Leg.rank (here.symm.trans here')
      · -- What comes after the next instruction is consumed after this second.
        have inside := lt_length_of_get? get'
        obtain ⟨i, get⟩ := exists_get? (k := k + 1) hs found (by omega)
        have next : s.consumedAt timing a (k + 1) = some _ := consumedAt_of_get? get
        have ready : now ≤ (s.leg timing a (k + 1)).ready := by
          rw [here]
          exact later
        exact absurd (free.lt_consumedAt hs found next consumed after (ready.trans Leg.ready_le_consumed) last)
          (Nat.lt_irrefl now)

/-- In the work of a second more agents can be sent to a link of a neighbor. Those on the link and those who are to be
sent there are different agents. -/
theorem occupancy_lt (sane : s.Sane timing now ps) (reconciled : s.Reconciled ps) (obeys : Obeys (s.Rests timing now) ps)
    (last : now < Clock.last) (hp : ps[i]? = some p) (kept : Kept LinkView.Balanced p q) (ready : Ready now hand q)
    (held : q.Held (s.Flows timing now front) c) {y : Proxy} (view : q.links[link]? = some (.proxy y)) :
    y.occupancy < y.capacity := by
  have setting : q.Setting s timing i := (sane.rest.setting i p hp).trans (kept.mono LinkView.Balanced.alike)
  obtain ⟨spec, found, -, feeds, capacity⟩ := setting.proxy (accepted_of_partition hs) view
  obtain ⟨o, g, ho, owner, reserved⟩ :=
    reconciled.reserved_le_length (accepted_of_partition hs) sane obeys hp feeds
  have ready' := sane.ready ho
  have setting' : o.Setting s timing (s.linkPart link) := sane.rest.setting _ o ho
  have unsent := (kept.seen link).unsent
  rw [sane.rest.unsent i p hp link, seen_of_view view] at unsent
  have occupied : y.occupancy + 0 = (p.seen link).reserved + y.outbox.length := unsent
  have sent : (y.outbox : Multiset Nat) ≤ q.census hand := standing_le_census view
  have there : _ ≤ o.census 0 := (LinkView.agents_le_standing (v := .gateway g) rfl).trans (standing_le_census owner)
  have apart : (g.link.queue.map (·.agent)).Disjoint y.outbox := by
    intro x onLink goes
    obtain ⟨e, he, rfl⟩ := List.mem_map.1 onLink
    obtain ⟨a, ha⟩ := ready'.known e.agent (Multiset.mem_of_le there (Multiset.mem_coe.2 onLink))
    obtain ⟨b, hb⟩ := ready.known e.agent (Multiset.mem_of_le sent (Multiset.mem_coe.2 goes))
    have rests := (obeys _ o ho).spots (.queued link e.finish) e.agent a ⟨e.fromPart, by
      rw [if_neg (by simp), seen_of_view owner]
      exact he⟩ ha
    have flows := held.spots (.outbound link) e.agent b (show _ ∈ (q.seen link).outgoing by
      rw [seen_of_view view]
      exact goes) hb
    have same : o.rank = q.rank := free.apart hs last rests flows
    exact ne_linkPart_of_feeds feeds (setting'.rank.symm.trans (same.trans setting.rank))
  have few : (g.link.queue.map (·.agent) ++ y.outbox).length ≤ s.agents.size := by
    refine length_le_of_nodup (List.Nodup.append ?_ ?_ apart) fun x hx => ?_
    · exact Multiset.coe_nodup.1 (Multiset.nodup_of_le there ready'.once)
    · exact Multiset.coe_nodup.1 (Multiset.nodup_of_le sent ready.once)
    · rcases List.mem_append.1 hx with hx | hx
      · exact lt_size_of_counted setting' ready'.known (Multiset.mem_of_le there (Multiset.mem_coe.2 hx))
      · exact lt_size_of_counted setting ready.known (Multiset.mem_of_le sent (Multiset.mem_coe.2 hx))
  have spacious := free.spacious spec (Array.mem_toList_iff.2 (Array.mem_of_getElem? found))
  rw [List.length_append, List.length_map] at few
  omega

/-- Nobody finds a link full in the work of a second. -/
theorem roomy (sane : s.Sane timing now ps) (reconciled : s.Reconciled ps) (obeys : Obeys (s.Rests timing now) ps)
    (last : now < Clock.last) (hp : ps[i]? = some p) : p.Roomy (s.Flows timing now now) now False := by
  intro c hand q id link v finish kept ready held view refused
  obtain ⟨l, owned, full | waiting⟩ | ⟨y, rfl, full⟩ := LinkView.push_eq_none refused
  · have setting : q.Setting s timing i := (sane.rest.setting i p hp).trans (kept.mono LinkView.Balanced.alike)
    rw [free.isFull_eq_false setting ready.once ready.known view owned] at full
    cases full
  · refine waiting ?_
    rw [← seen_of_view view]
    exact inFront_eq_nil (fun _ _ _ _ => Flows.not_inbound) held ready.known link
  · have room := free.occupancy_lt hs sane reconciled obeys last hp kept ready held view
    omega

omit hs in
/-- Nobody finds a link full in the exchange of a second. -/
theorem welcoming (now front i : Nat) : Welcoming s timing (s.Flows timing now front) now i False := by
  intro entrants p link g greets view crowd
  have once : (p.census 0).Nodup := (Multiset.nodup_add.1 greets.hosts.once).1
  rcases crowd with waiting | full
  · have none := inFront_eq_nil (fun _ _ _ _ => Flows.not_inbound) greets.held greets.known link
    rw [seen_of_view view] at none
    exact waiting (List.map_eq_nil_iff.1 none)
  · rw [free.isFull_eq_false greets.setting once greets.known view rfl] at full
    cases full

end FreeFlow

end Scenario

end Mobility
