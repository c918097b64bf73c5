import Mobility.Proofs.Safety.Work
import Mobility.Proofs.Whereabouts.Acts

/-!
# The only partition of a scenario

The only partition of a scenario owns all links, so nobody is handed over and nobody comes from elsewhere. Its
agents needn't be fresh: a state which was saved may have somebody in two places, or aboard without being an
agent at all. Whoever is asked to act is known or was aboard at the start (`Partition.Alone`), so a turn only
fails because of a plan or because of such a passenger (`Scenario.Excuses`).
-/

set_option autoImplicit false

namespace Mobility

open Act

namespace Scenario

variable {s : Scenario} {spec : LinkSpec} {link : Nat} {v : LinkView}

/-- An agent of the scenario, or somebody who is aboard one at the start. -/
def Mentions (s : Scenario) (x : Nat) : Prop :=
  x < s.agents.size ∨ ∃ a ∈ s.agents, x ∈ a.seats.riders

/-- What the only partition of a scenario may fail with: somebody executes a step which only a vehicle executes,
waits without saying where it leaves, or leaves or boards with nothing left of its plan, or a passenger isn't an
agent of the scenario. -/
def Excuses (s : Scenario) : Failure → Prop
  | .fault (.notAboard ..) | .fault (.noEgress ..) | .fault (.planConsumed ..) => True
  | .fault (.noSuchEntry size id) => size = s.agents.size ∧ size ≤ id ∧ ∃ a ∈ s.agents, id ∈ a.seats.riders
  | _ => False

theorem excuses_of_isMisplanned {f : Failure} (h : f.isMisplanned = true) : s.Excuses f := by
  unfold Failure.isMisplanned at h
  split at h
  · trivial
  · trivial
  · cases h

/-- Partitions don't disagree if there is only one. -/
theorem Excuses.isDiscord {f : Failure} (h : s.Excuses f) : f.isDiscord = false := by
  cases f with
  | exchange => exact h.elim
  | fault f => cases f <;> first | rfl | exact h.elim

/-! ## One partition -/

namespace Accepted

theorem feeders_of_single (hs : s.Accepted) (single : s.numParts = 1) (found : s.links[link]? = some spec) :
    s.feeders spec = ∅ := by
  have mine : ∀ other ∈ s.links.toList, other.part = 0 := fun other h => by
    have := hs.parts other h
    omega
  refine Finset.eq_empty_of_forall_notMem fun rank feeds => ?_
  obtain ⟨apart, other, listed, -, rfl⟩ := mem_feeders.1 feeds
  exact apart ((mine other listed).trans (mine spec (Array.mem_toList_iff.2 (Array.mem_of_getElem? found))).symm)

/-- The only partition owns all links. -/
theorem owned_of_single (hs : s.Accepted) (single : s.numParts = 1) (h : (s.views 0)[link]? = some v) :
    ∃ l, v = .owned l := by
  obtain ⟨spec, found, -⟩ := firstView h
  have mine : spec.part = 0 := by
    have := hs.parts spec (Array.mem_toList_iff.2 (Array.mem_of_getElem? found))
    omega
  have view := hs.views_owner found
  rw [mine, h, if_pos (hs.feeders_of_single single found)] at view
  exact ⟨_, Option.some.inj view⟩

/-- The seats of an agent were counted when the scenario was checked. -/
theorem honest (hs : s.Accepted) {a : Agent} (h : a ∈ s.agents) : a.seats.Honest := by
  have checked := hs.agents a (Array.mem_toList_iff.2 h)
  unfold Agent.check at checked
  split at checked
  · cases checked
  · split at checked
    · cases checked
    · rename_i room
      split at checked
      · cases checked
      · rename_i counted
        exact ⟨(not_not.1 counted).trans a.seats.card_riders.symm, Nat.le_of_not_lt room⟩

theorem neighborsOf_of_single (hs : s.Accepted) (single : s.numParts = 1) : s.neighborsOf 0 = [] := by
  refine List.eq_nil_iff_forall_not_mem.2 fun j hj => ?_
  have lt := hs.neighborsOf_lt hj
  obtain rfl : j = 0 := by omega
  exact hs.not_neighbor hj

end Accepted

end Scenario

namespace Partition

variable {raw s : Scenario} {method : Method} {timing : Timing} {p q r : Partition} {hand : Multiset Nat}
  {id link now x : Nat} {v : LinkView}

theorem Kept.agents_size {R : LinkView → LinkView → Prop} (k : Kept R p q) :
    q.agents.size = p.agents.size := by
  have hp := k.agents p.agents.size
  have hq := k.agents q.agents.size
  rw [Array.getElem?_size] at hp hq
  have le := Array.getElem?_eq_none_iff.1 (Option.map_eq_none_iff.1 hp)
  have ge := Array.getElem?_eq_none_iff.1 (Option.map_eq_none_iff.1 hq.symm)
  exact le_antisymm le ge

namespace Setting

theorem owned_of_single (h : p.Setting s timing 0) (hs : s.Accepted) (single : s.numParts = 1)
    (view : p.links[link]? = some v) : ∃ l, v = .owned l := by
  obtain ⟨spec, w, -, first, alike⟩ := h.first view
  obtain ⟨l, rfl⟩ := hs.owned_of_single single first
  cases v with
  | owned l => exact ⟨l, rfl⟩
  | gateway | proxy | remote => cases alike

theorem proxies_of_single (h : p.Setting s timing 0) (hs : s.Accepted) (single : s.numParts = 1) :
    p.proxies = [] := by
  refine h.proxies.trans (List.filterMap_eq_nil_iff.2 fun v hv => ?_)
  obtain ⟨link, found⟩ := Array.mem_iff_getElem?.1 (Array.mem_toList_iff.1 hv)
  obtain ⟨l, rfl⟩ := hs.owned_of_single single found
  rfl

theorem gateways_of_single (h : p.Setting s timing 0) (hs : s.Accepted) (single : s.numParts = 1) :
    p.gateways = [] := by
  refine h.gateways.trans (List.filterMap_eq_nil_iff.2 fun v hv => ?_)
  obtain ⟨link, found⟩ := Array.mem_iff_getElem?.1 (Array.mem_toList_iff.1 hv)
  obtain ⟨l, rfl⟩ := hs.owned_of_single single found
  rfl

/-- Nothing is up to another partition. -/
theorem not_isUpTo {target : Nat} {action : Action} (h : p.Setting s timing 0) (hs : s.Accepted)
    (single : s.numParts = 1) : ¬ p.IsUpTo target action := by
  intro up
  obtain ⟨starts, apart, -⟩ := h.startOf_of_isUpTo hs up
  have rank : p.rank = 0 := h.rank
  have place : s.placeOf action = some target := by
    cases action with
    | traverse | wait | stopArrive => exact starts
    | sleepFor | sleepUntil | access | egress | stopDelay | stopDepart => cases starts
  have lt := hs.placeOf_lt place
  omega

end Setting

/-! ## Consuming instructions -/

/-- Whoever is mentioned only fails to consume an instruction if there is none left, or if it isn't an agent. -/
theorem fails_consume {how : Consumption} (setting : p.Setting s timing 0) (hs : raw.partition method = .ok s)
    (h : s.Mentions x) : Fails s.Excuses (consume x how now) p := by
  have size : p.agents.size = s.agents.size := setting.agents_size
  have grounded := (Scenario.grounded_initial hs timing 0).of_kept setting
  cases found : p.agents[x]? with
  | none =>
    have missing := Array.getElem?_eq_none_iff.1 found
    refine .bind ?_ fun a q ends => ?_
    · unfold agent entry
      refine .after (ends_get p) ?_
      rw [found]
      exact .throw ⟨size, missing, h.resolve_left (by omega)⟩
    · rw [(agent_eq_ok.1 ends).1] at found
      cases found
  | some a =>
    obtain ⟨current, get, -⟩ := grounded x a a.cursor found
    cases current with
    | some i => exact fails_consume_current found get
    | none =>
      have ended : a.consume how = .error (.planConsumed a.id a.plan.length) := by
        unfold Agent.consume
        rw [Agent.current, get]
        rfl
      refine .after (ends_agent found) (.bind ?_ fun _ q ends => ?_)
      · rw [ended]
        exact .throw trivial
      · rw [ended] at ends
        cases (attempt_eq_ok.1 ends).1

/-- Agents who are asked to act one after the other. -/
structure Called (s : Scenario) (timing : Timing) (now : Nat) (ids : List Nat) (p : Partition) : Prop where
  setting : p.Setting s timing 0
  mentioned : ∀ x ∈ ids, s.Mentions x
  soon : p.dueAgents.next ≤ now + 1

theorem Called.files (hs : raw.partition method = .ok s) : Files s.Excuses now (Called s timing now) where
  soon h := h.soon
  fails h := fails_consume h.setting hs (h.mentioned _ List.mem_cons_self)
  consumed h ends :=
    ⟨h.setting.trans (kept_consume ends), fun x hx => h.mentioned x (List.mem_cons_of_mem _ hx),
      (paced_consume ends).agents ▸ h.soon⟩
  woken h ends := ⟨h.setting.trans (kept_wake ends), h.mentioned, (paced_wake ends).agents ▸ h.soon⟩

/-- Whoever has left a vehicle is an agent. -/
theorem known_of_leaves {vehicle : Nat} {leaving : List Nat} (leaves : Along (LeftAt vehicle now) leaving p q) :
    ∀ x ∈ leaving, x < p.agents.size := by
  induction leaves with
  | nil => exact fun x hx => absurd hx List.not_mem_nil
  | @cons passenger rest p r q first _ ih =>
    obtain ⟨u, consumes, wakes⟩ := first
    have kept : Kept LinkView.Alike p r := (kept_consume consumes).trans (kept_wake wakes)
    intro x hx
    rcases List.mem_cons.1 hx with rfl | hx
    · obtain ⟨a, i, found, -⟩ := consume_ends consumes
      exact (Array.getElem?_eq_some_iff.1 found).1
    · exact kept.agents_size ▸ ih x hx

/-! ## What the only partition goes through -/

/-- The only partition of a scenario in second `now`. Whoever acts there is an agent, and so is whoever waits. -/
structure Alone (s : Scenario) (timing : Timing) (now : Nat) (hand : Multiset Nat) (p : Partition) : Prop where
  setting : p.Setting s timing 0
  present : ∀ x ∈ hand + p.roots, x < s.agents.size
  waiting : ∀ x ∈ p.platforms.everybody, x < s.agents.size
  aboard : ∀ v, ∀ x ∈ p.crew v, s.Mentions x
  silent : p.outbox = .empty 0 []
  agents : p.dueAgents.next ≤ now + 1
  links : p.dueLinks.next ≤ now + 1

namespace Alone

variable {rest : Multiset Nat}

/-- Acts which leave everybody where it is don't matter. -/
theorem still (h : Alone s timing now hand p) (still : Still p q) (kept : Kept LinkView.Alike p q)
    (paced : Paced p q) : Alone s timing now hand q where
  setting := h.setting.trans kept
  present x hx := h.present x (still.roots ▸ hx)
  waiting x hx := h.waiting x (still.platforms ▸ hx)
  aboard v x hx := h.aboard v x (still.crew v ▸ hx)
  silent := still.outbox.trans h.silent
  agents := paced.agents ▸ h.agents
  links := paced.links ▸ h.links

theorem found (h : Alone s timing now hand p) (known : id < s.agents.size) : ∃ a, p.agents[id]? = some a := by
  obtain ⟨a, found, -⟩ := h.setting.copy (Array.getElem?_eq_getElem known)
  exact ⟨a, found⟩

theorem woken {time : Nat} (h : Alone s timing now hand p) (known : id < s.agents.size)
    (wakes : Ends (wake id time) p () q) : Alone s timing now hand q := by
  have roots := roots_wake wakes
  have paced := paced_wake wakes
  have kept : Kept LinkView.Alike p q := kept_wake wakes
  obtain ⟨due, -, rfl⟩ := wake_eq_ok.1 wakes
  refine ⟨h.setting.trans kept, fun x hx => ?_, h.waiting, h.aboard, h.silent, paced.agents ▸ h.agents,
    paced.links ▸ h.links⟩
  rw [roots, ← add_assoc] at hx
  rcases Multiset.mem_add.1 hx with hx | hx
  · exact h.present x hx
  · exact Multiset.mem_singleton.1 hx ▸ known

/-! ### Turns -/

/-- Whoever leaves or boards is mentioned. -/
theorem fails_exchange {stop : StopRef} (h : Alone s timing now hand p) (hs : raw.partition method = .ok s)
    (known : id < s.agents.size) : Fails s.Excuses (exchangePassengers id stop now) p := by
  have honest : (Partition.initial s timing 0).Honest := by
    intro x a found
    have listed : a ∈ s.agents := Array.mem_of_getElem? found
    exact (Scenario.accepted_of_partition hs).honest listed
  have files : Files s.Excuses now (Called s timing now) := Called.files hs
  refine files.fails_exchange (h.setting.honest honest) (h.found known)
    (fails_consume h.setting hs (.inl known)) (fun vacated => ?_) fun seating => ?_
  · exact ⟨h.setting.trans vacated.kept, fun x hx => h.aboard id x (Multiset.mem_of_le vacated.aboard hx),
      vacated.paced.agents ▸ h.agents⟩
  · exact ⟨h.setting.trans seating.kept, fun x hx => .inl (h.waiting x (Multiset.mem_of_le seating.waited hx)),
      seating.paced.agents ▸ h.agents⟩

theorem fails_dispatch (h : Alone s timing now hand p) (hs : raw.partition method = .ok s)
    (single : s.numParts = 1) (last : now < Clock.last) (known : id < s.agents.size) :
    Fails s.Excuses (dispatch id now) p := by
  have accepted := Scenario.accepted_of_partition hs
  have prepared : Prepared s.Excuses now id p :=
    ⟨(Scenario.grounded_initial hs timing 0).of_kept h.setting, h.agents, h.links,
      fun _ _ up => absurd up (h.setting.not_isUpTo accepted single), fun _ => Scenario.excuses_of_isMisplanned⟩
  exact prepared.fails_dispatch last (h.found known) fun _ _ => h.fails_exchange hs known

/-- Wherever an agent is after its turn, and whoever has left or boarded: they are known. -/
theorem dispatched {b : Bool} (h : Alone s timing now hand p) (hs : s.Accepted) (single : s.numParts = 1)
    (known : id < s.agents.size) (turn : Dispatched id now p b q) : Alone s timing now hand q := by
  have setting := h.setting.trans ((worked_dispatched turn).kept.mono LinkView.Balanced.alike)
  have paced := paced_dispatched turn
  have agents : q.dueAgents.next ≤ now + 1 := paced.agents ▸ h.agents
  have links : q.dueLinks.next ≤ now + 1 := paced.links ▸ h.links
  rcases put_dispatched turn with put | ⟨-, stop, ⟨exchange⟩⟩
  · refine ⟨setting, fun x hx => ?_, fun x hx => ?_, fun v x hx => h.aboard v x (put.crew v ▸ hx), ?_,
      agents, links⟩
    · rcases Multiset.mem_add.1 hx with hx | hx
      · exact h.present x (Multiset.mem_add.2 (.inl hx))
      · rcases put.roots x hx with hx | rfl
        · exact h.present x (Multiset.mem_add.2 (.inr hx))
        · exact known
    · cases put with
      | root roots crew platforms => exact h.waiting x (platforms ▸ hx)
      | sent => exact h.waiting x hx
      | waits roots crew platforms =>
        rw [platforms, Platforms.everybody_add] at hx
        rcases Multiset.mem_add.1 hx with hx | hx
        · exact h.waiting x hx
        · exact Multiset.mem_singleton.1 hx ▸ known
      | stays still => exact h.waiting x (still.platforms ▸ hx)
    · cases put with
      | root roots crew platforms outbox => exact outbox.trans h.silent
      | sent records own owner => exact absurd owner (h.setting.not_isUpTo hs single)
      | waits roots crew platforms outbox => exact outbox.trans h.silent
      | stays still => exact still.outbox.trans h.silent
  · obtain ⟨seated, reseated⟩ := reseated_exchanged exchange
    have vacated := Vacated.intro exchange.consumes exchange.vehicle exchange.egress
    have size := (h.setting.trans vacated.kept).agents_size
    have waits : ∀ x ∈ q.platforms.everybody + (exchange.boarded.map Prod.snd : List Nat),
        x < s.agents.size := fun x hx => h.waiting x (reseated.platforms ▸ hx)
    refine ⟨setting, fun x hx => ?_, fun x hx => waits x (Multiset.mem_add.2 (.inl hx)), fun v x hx => ?_,
      reseated.outbox.trans h.silent, agents, links⟩
    · rw [reseated.roots, ← add_assoc] at hx
      rcases Multiset.mem_add.1 hx with hx | hx
      · exact h.present x hx
      · exact size ▸ known_of_leaves exchange.leaves x (Multiset.mem_coe.1 hx)
    · rw [reseated.crew] at hx
      split at hx
      · have came : x ∈ seated + (exchange.leaving : Multiset Nat) := Multiset.mem_add.2 (.inl hx)
        rw [reseated.exchange] at came
        rcases Multiset.mem_add.1 came with rode | boards
        · exact h.aboard id x rode
        · exact .inl (waits x (Multiset.mem_add.2 (.inr boards)))
      · exact h.aboard v x hx

/-- Whoever leaves a link leaves the others there. -/
theorem popped {w w' : LinkView} {entry : Entry} (h : Alone s timing now hand p) (view : p.links[link]? = some w)
    (pops : w.pop = .ok (entry, w')) :
    Alone s timing now hand { p with links := p.links.setIfInBounds link w' } := by
  have popped : Kept LinkView.Alike p { p with links := p.links.setIfInBounds link w' } :=
    Kept.setView view (LinkView.balanced_pop pops).alike
  refine ⟨h.setting.trans popped, fun x hx => h.present x ?_, h.waiting, h.aboard, h.silent, h.agents, h.links⟩
  have roots : p.roots = roots { p with links := p.links.setIfInBounds link w' } + {entry.agent} := by
    have hset := standing_setView (w := w') view
    rw [(LinkView.standing_pop pops).1, ← add_assoc, add_right_comm] at hset
    rw [Partition.roots, ← add_right_cancel hset, ← add_assoc]
    rfl
  rw [roots, ← add_assoc]
  exact Multiset.mem_add.2 (.inl hx)

/-- All of this is there before every turn. -/
theorem sustains (hs : raw.partition method = .ok s) (single : s.numParts = 1) (last : now < Clock.last) :
    Sustains s.Excuses now (Alone s timing now) := by
  have accepted := Scenario.accepted_of_partition hs
  -- Nobody waits in front of a link, as there are no gateways.
  have owned : ∀ {hand : Multiset Nat} {p : Partition} {link : Nat} {v : LinkView}, Alone s timing now hand p →
      p.links[link]? = some v → ∃ l, v = .owned l := fun h view => h.setting.owned_of_single accepted single view
  have front : ∀ {link : Nat} {v : LinkView} {head : Entry} {p : Partition}, Alone s timing now 0 p →
      p.links[link]? = some v → v.front? = some head → head.agent < s.agents.size := fun h view front =>
    h.present _ (Multiset.mem_add.2 (.inr (front_mem_roots view front)))
  exact {
    soonAgents h := h.agents
    soonLinks h := h.links
    called {p ids due} h visit := by
      obtain ⟨-, -, next, -⟩ := Agenda.visit_eq_ok visit
      refine ⟨h.setting.trans (Kept.aside ..), fun x hx => h.present x ?_, h.waiting, h.aboard, h.silent,
        next.le, h.links⟩
      rw [zero_add, ← roots_visit visit]
      exact hx
    looked {p links due} h visit := by
      obtain ⟨-, -, next, -⟩ := Agenda.visit_eq_ok visit
      exact ⟨h.setting.trans (Kept.aside ..), h.present, h.waiting, h.aboard, h.silent, h.agents, next.le⟩
    acts {id hand p} h :=
      h.fails_dispatch hs single last (h.present id (Multiset.mem_add.2 (.inl (Multiset.mem_cons_self id hand))))
    acted {id hand p q} h acts := by
      have known := h.present id (Multiset.mem_add.2 (.inl (Multiset.mem_cons_self id hand)))
      have fewer : Alone s timing now hand p := ⟨h.setting, fun x hx => h.present x (by
        rw [Multiset.cons_add]
        exact Multiset.mem_cons_of_mem hx), h.waiting, h.aboard, h.silent, h.agents, h.links⟩
      rcases acts with turn | ⟨r, turn, wakes⟩
      · exact fewer.dispatched accepted single known turn
      · exact (fewer.dispatched accepted single known turn).woken known wakes
    leaves h view first due := h.fails_dispatch hs single last (front h view first)
    blocked h view first due turn := h.dispatched accepted single (front h view first) turn
    popped h view first due turn after pops :=
      (h.dispatched accepted single (front h view first) turn).popped after pops
    drains {link v p} h view := by
      obtain ⟨l, rfl⟩ := owned h view
      exact .after (ends_view view) (.pure ())
    drained {link p q} h ends := by
      obtain ⟨v, view, ⟨g, k, r, rfl, -, -⟩ | ⟨-, rfl⟩⟩ := drainInbound_ends ends
      · obtain ⟨l, other⟩ := owned h view
        cases other
      · exact h
    revisited h ends := h.still (still_revisit ends) (kept_revisit ends) (paced_revisit ends) }

end Alone

end Partition

end Mobility
