import Mobility.Proofs.Safety.Able
import Mobility.Proofs.Safety.Rules

/-!
# Turns fail as documented

An agent whose turn it is in a partition where everybody can go on fails only in a documented way
(`Partition.safe_dispatch`), and after its turn everybody can go on (`Partition.Able.dispatched`).
-/

set_option autoImplicit false

namespace Mobility

open Act

namespace Partition

variable {p q r : Partition} {id now time x n : Nat} {hand : Multiset Nat}

/-! ## Everybody can go on after a turn -/

theorem genuine_setView {link : Nat} {w : LinkView}
    (h : ∀ (i : Nat) v, p.links[i]? = some v → v.Genuine) (genuine : w.Genuine)
    (links : q.links = p.links.setIfInBounds link w) (i : Nat) (v : LinkView)
    (hv : q.links[i]? = some v) : v.Genuine := by
  rw [links] at hv
  by_cases hi : link = i
  · subst hi
    rw [Array.getElem?_setIfInBounds_self] at hv
    split at hv
    · exact Option.some.inj hv ▸ genuine
    · cases hv
  · exact h i v (Array.getElem?_setIfInBounds_ne hi ▸ hv)

theorem heading_of_links (h : q.links = p.links) : q.heading = p.heading := by
  rw [heading, h]
  rfl

theorem heading_setView_le {link : Nat} {v w : LinkView} (view : p.links[link]? = some v)
    (fewer : w.heading ≤ v.heading) :
    heading { p with links := p.links.setIfInBounds link w } ≤ p.heading := by
  have heads := heading_setView (w := w) view
  exact le_of_add_le_add_right (a := v.heading) (heads.le.trans (add_le_add_right fewer _))

/-- Only an agent which has consumed a traversal is about to enter a link after its turn. -/
theorem Moved.heading (m : Moved id now p q) {y : Nat} (hy : y ∈ q.heading) :
    y ∈ p.heading ∨ q.Traversed y := by
  cases m with
  | nowhere stays => exact .inl (heading_of_links stays.links ▸ hy)
  | @outbound link a b view pushed links dueLinks traversed =>
    have heads := heading_setView (w := .proxy b) view
    obtain ⟨-, rfl⟩ := Proxy.push_eq_some pushed
    have outbox : (LinkView.proxy { a with occupancy := a.occupancy + 1, outbox := a.outbox ++ [id] }).heading =
        {id} + (LinkView.proxy a).heading := by
      show ((a.outbox ++ [id] : List Nat) : Multiset Nat) = {id} + (a.outbox : List Nat)
      rw [← Multiset.coe_add, Multiset.coe_singleton, add_comm]
    rw [outbox, ← add_assoc] at heads
    have total : q.heading = p.heading + {id} :=
      (heading_of_links (p := { p with links := p.links.setIfInBounds link _ }) links).trans
        (add_right_cancel heads)
    rw [total] at hy
    rcases Multiset.mem_add.1 hy with hy | hy
    · exact .inl hy
    · exact .inr (Multiset.mem_singleton.1 hy ▸ traversed)
  | @entered link velocity finish v w l view owned time pushed links dueLinks =>
    have heads := heading_setView (w := w) view
    rw [LinkView.heading_push pushed owned] at heads
    have total : q.heading = p.heading :=
      (heading_of_links (p := { p with links := p.links.setIfInBounds link w }) links).trans
        (add_right_cancel heads)
    exact .inl (total ▸ hy)

theorem Moved.genuine (m : Moved id now p q) (h : ∀ (i : Nat) v, p.links[i]? = some v → v.Genuine) :
    ∀ (i : Nat) v, q.links[i]? = some v → v.Genuine := by
  cases m with
  | nowhere stays => rwa [stays.links]
  | outbound view pushed links =>
    refine genuine_setView h ?_ links
    rintro g ⟨⟩
  | entered view owned time pushed links =>
    exact genuine_setView h (LinkView.genuine_push (h _ _ view) pushed) links

theorem Put.roots {b : Bool} (h : Put id p b q) : ∀ v ∈ q.roots, v ∈ p.roots ∨ v = id := by
  intro v hv
  cases h with
  | root roots =>
    rw [roots] at hv
    exact (Multiset.mem_add.1 hv).imp_right Multiset.mem_singleton.1
  | sent => exact .inl hv
  | waits roots => exact .inl (roots ▸ hv)
  | stays still => exact .inl (still.roots ▸ hv)

theorem Put.crew {b : Bool} (h : Put id p b q) : ∀ v, q.crew v = p.crew v := by
  cases h with
  | root roots crew => exact crew
  | sent => exact fun _ => rfl
  | waits roots crew => exact crew
  | stays still => exact still.crew

theorem Put.waiting {b : Bool} (h : Put id p b q) :
    ∀ y ∈ q.platforms.everybody, y ∈ p.platforms.everybody ∨ q.Remains 2 y := by
  intro y hy
  cases h with
  | root roots crew platforms => exact .inl (platforms ▸ hy)
  | sent => exact .inl hy
  | waits roots crew platforms outbox walks remains =>
    rw [platforms, Platforms.everybody_add] at hy
    refine (Multiset.mem_add.1 hy).imp_right fun hy => ?_
    rw [Multiset.mem_singleton.1 hy]
    exact remains
  | stays still => exact .inl (still.platforms ▸ hy)

/-- Whoever is handed over is fit. -/
theorem Put.queued {b : Bool} (h : Put id p b q) (able : p.Able hand) (present : id ∈ hand + p.roots) :
    q.outbox.Every p.Fit := by
  cases h with
  | root roots crew platforms outbox => exact outbox ▸ able.queued
  | @sent target second record action records own =>
    subst own
    exact Outbox.every_addAgent able.queued
      (records.fit able.honest (able.riders record.id present) (by simp))
  | waits roots crew platforms outbox => exact outbox ▸ able.queued
  | stays still => exact still.outbox ▸ able.queued

/-- Nobody else does anything while passengers leave. -/
theorem same_left {vehicle : Nat} {leaving : List Nat} (h : Along (LeftAt vehicle now) leaving p q)
    (stays : x ∉ leaving) : q.agents[x]? = p.agents[x]? :=
  h.keeps (P := fun s => s.agents[x]? = p.agents[x]?) (fun passenger leaves s t left same => by
    obtain ⟨u, consumes, wakes⟩ := left
    obtain ⟨due, -, rfl⟩ := wake_eq_ok.1 wakes
    have other : x ≠ passenger := fun own => stays (own ▸ leaves)
    exact (same_consume consumes other : u.agents[x]? = s.agents[x]?).trans same) rfl

/-- Passengers who leave or board, one after the other, need no more than what is left of their plans. -/
theorem remains_boards {how : Consumption} {rows : List (Nat × Nat)}
    (h : Along (fun row p q => Ends (consume row.2 how now) p () q) rows p q) :
    ((rows.map Prod.snd).Nodup → ∀ y ∈ rows.map Prod.snd, p.Remains (n + 1) y → q.Remains n y) ∧
      ∀ y, y ∉ rows.map Prod.snd → q.agents[y]? = p.agents[y]? := by
  induction h with
  | nil => exact ⟨fun _ y hy => absurd hy List.not_mem_nil, fun _ _ => rfl⟩
  | @cons row rest p r q first _ ih =>
    obtain ⟨inside, outside⟩ := ih
    refine ⟨fun nodup y hy remains => ?_, fun y hy => ?_⟩
    · rw [List.map_cons, List.nodup_cons] at nodup
      by_cases own : y = row.2
      · exact (remains.consume first).of_same (outside y (own ▸ nodup.1))
      · have later : y ∈ rest.map Prod.snd := (List.mem_cons.1 hy).resolve_left own
        exact inside nodup.2 y later (remains.of_same (same_consume first own))
    · rw [List.map_cons, List.mem_cons, not_or] at hy
      exact (outside y hy.2).trans (same_consume first hy.1)

/-- The vehicle itself has only consumed its instruction and got other passengers. -/
theorem Exchanged.vehicle_after {stop : StopRef} {a : Agent} (e : Exchanged id stop now p q)
    (found : p.agents[id]? = some a) (stays : id ∉ e.leaving) (rides : id ∉ e.boarded.map Prod.snd) :
    q.agents[id]? = some { a with cursor := a.cursor + 1, seats := e.seats } := by
  have vehicle := same_left e.leaves stays
  rw [e.vehicleLeft, Array.getElem?_setIfInBounds_self_of_lt (Array.getElem?_eq_some_iff.1 e.vehicle).1,
    e.before_eq found] at vehicle
  rw [(remains_boards (n := 0) e.boards).2 id rides, Option.some.inj vehicle]
  exact Array.getElem?_setIfInBounds_self_of_lt (Array.getElem?_eq_some_iff.1 e.vehicleLeft).1

/-- Passengers are aboard of one vehicle each, and neither wait nor act. -/
theorem aboard_of_nodup (nodup : (p.census hand).Nodup) :
    p.platforms.everybody.Nodup ∧ (∀ y ∈ hand + p.roots, y ∉ p.platforms.everybody) ∧
    ∀ v ∈ hand + p.roots, (p.crew v).Nodup ∧
      ∀ y ∈ p.crew v, y ∉ hand + p.roots ∧ y ∉ p.platforms.everybody ∧
        ∀ w ∈ hand + p.roots, w ≠ v → y ∉ p.crew w := by
  rw [census, aboardOf, add_assoc, add_assoc, Multiset.nodup_add] at nodup
  obtain ⟨once, later, acting⟩ := nodup
  have parts := Multiset.nodup_add.1 later
  have waiting := Multiset.nodup_add.1 parts.2.1
  refine ⟨waiting.1, fun y hy hwait => ?_, fun v hv => ?_⟩
  · exact Multiset.disjoint_left.1 acting hy (Multiset.mem_add.2 (.inr (Multiset.mem_add.2 (.inl hwait))))
  have aboard : p.crew v ≤ (hand + p.roots).bind p.crew := Multiset.le_bind _ hv
  refine ⟨Multiset.nodup_of_le aboard parts.1, fun y hy => ?_⟩
  have there : y ∈ (hand + p.roots).bind p.crew := Multiset.mem_of_le aboard hy
  refine ⟨fun hact => ?_, fun hwait => ?_, fun w hw hne hother => ?_⟩
  · exact Multiset.disjoint_left.1 acting hact (Multiset.mem_add.2 (.inl there))
  · exact Multiset.disjoint_left.1 parts.2.2 there (Multiset.mem_add.2 (.inl hwait))
  · -- Whoever is aboard of two would be counted twice.
    obtain ⟨others, hothers⟩ := Multiset.exists_cons_of_mem hv
    have hw : w ∈ others := by
      rw [hothers] at hw
      exact (Multiset.mem_cons.1 hw).resolve_left hne
    have twice := parts.1
    rw [hothers, Multiset.cons_bind, Multiset.nodup_add] at twice
    exact Multiset.disjoint_left.1 twice.2.2 hy (Multiset.mem_bind.2 ⟨w, hw, hother⟩)

/-- Whoever boards has consumed one instruction more afterwards, and nobody else but the vehicle and those
who leave has consumed anything. -/
theorem Exchanged.boarded_remain {stop : StopRef} (h : Exchanged id stop now p q)
    (nodup : (h.boarded.map Prod.snd).Nodup) {y : Nat} (hy : y ∈ h.boarded.map Prod.snd)
    (vehicle : y ≠ id) (stays : y ∉ h.leaving) (remains : p.Remains (n + 1) y) : q.Remains n y := by
  have consumed : h.consumed.Remains (n + 1) y := remains.of_same (same_consume h.consumes vehicle)
  have vacated : Remains { h.consumed with
      agents := h.consumed.agents.setIfInBounds id { h.before with seats := h.seatsLeft } } (n + 1) y :=
    consumed.of_same (Array.getElem?_setIfInBounds_ne (Ne.symm vehicle))
  have left : h.left.Remains (n + 1) y := vacated.of_same (same_left h.leaves stays)
  have seated : Remains { h.left with
      agents := h.left.agents.setIfInBounds id { h.after with seats := h.seats }
      platforms := h.platforms } (n + 1) y :=
    left.of_same (Array.getElem?_setIfInBounds_ne (Ne.symm vehicle))
  exact (remains_boards h.boards).1 nodup y hy seated

/-- Nobody but the vehicle and those who leave or board does anything. -/
theorem Exchanged.others {stop : StopRef} (h : Exchanged id stop now p q) (named : p.Named) {y : Nat}
    (other : y ≠ id) (stays : y ∉ h.leaving) (waits : y ∉ h.boarded.map Prod.snd) :
    q.agents[y]? = p.agents[y]? := by
  refine (((deeds_exchanged h named).2 y).1 fun acts => ?_).agents
  rcases Multiset.mem_cons.1 acts with own | acts
  · exact other own
  · exact (Multiset.mem_add.1 acts).elim (fun leaves => stays (Multiset.mem_coe.1 leaves))
      fun boards => waits (Multiset.mem_coe.1 boards)

namespace Reseated

variable {leaving boarded seated : Multiset Nat} (h : Reseated id p q leaving boarded seated)
include h

/-- Whoever boards has waited. -/
theorem waited {y : Nat} (hy : y ∈ boarded) : y ∈ p.platforms.everybody :=
  h.platforms ▸ Multiset.mem_add.2 (.inr hy)

/-- If nobody waits twice, nobody boards twice, and whoever boards doesn't wait any more. -/
theorem boards_once (once : p.platforms.everybody.Nodup) :
    boarded.Nodup ∧ Disjoint q.platforms.everybody boarded := by
  rw [← h.platforms, Multiset.nodup_add] at once
  exact once.2

/-- If nobody is aboard twice, and nobody who is aboard waits, then whoever leaves isn't aboard any more. -/
theorem leaves_once (once : p.platforms.everybody.Nodup) (crew : (p.crew id).Nodup)
    (apart : ∀ y ∈ p.crew id, y ∉ p.platforms.everybody) : Disjoint seated leaving := by
  have all : (seated + leaving).Nodup := by
    rw [h.exchange]
    refine Multiset.nodup_add.2 ⟨crew, (h.boards_once once).1, Multiset.disjoint_left.2 fun hx hb => ?_⟩
    exact apart _ hx (h.waited hb)
  exact (Multiset.nodup_add.1 all).2.2

end Reseated

namespace Able

/-- After passengers have left and boarded, those who are in the vehicle can go on: they have been aboard
before, or have boarded. -/
theorem seated {stop : StopRef} {seated : Multiset Nat} (able : p.Able hand) (nodup : (p.census hand).Nodup)
    (free : Free hand id p) (present : id ∈ hand + p.roots) (h : Exchanged id stop now p q)
    (reseated : Reseated id p q h.leaving (h.boarded.map Prod.snd : List Nat) seated) {y : Nat}
    (hy : y ∈ seated) : q.Remains 1 y := by
  obtain ⟨waitOnce, -, aboard⟩ := aboard_of_nodup nodup
  obtain ⟨crewOnce, riders⟩ := aboard id present
  have leaves : ∀ y ∈ h.leaving, y ∈ p.crew id := fun y hy =>
    Multiset.mem_of_le reseated.aboard (Multiset.mem_coe.2 hy)
  by_cases boards : y ∈ h.boarded.map Prod.snd
  · have waits := reseated.waited (Multiset.mem_coe.2 boards)
    refine h.boarded_remain (Multiset.coe_nodup.1 (reseated.boards_once waitOnce).1) boards ?_
      (fun hl => (riders y (leaves y hl)).2.1 waits) (able.waiting y waits)
    rintro rfl
    exact free.waiting waits
  · have total : y ∈ p.crew id + ((h.boarded.map Prod.snd : List Nat) : Multiset Nat) :=
      reseated.exchange ▸ Multiset.mem_add.2 (.inl hy)
    have rides := (Multiset.mem_add.1 total).resolve_right (mt Multiset.mem_coe.1 boards)
    refine (able.riders id present y rides).of_same (h.others able.named ?_ (fun hl => ?_) boards)
    · rintro rfl
      exact free.riders y present rides
    · have apart := reseated.leaves_once waitOnce crewOnce fun x hx => (riders x hx).2.1
      exact Multiset.disjoint_left.1 apart hy (Multiset.mem_coe.2 hl)

/-- After passengers have left and boarded, everybody can go on. -/
theorem exchanged {stop : StopRef} (able : p.Able hand) (o : p.Orderly) (nodup : (p.census hand).Nodup)
    (free : Free hand id p) (present : id ∈ hand + p.roots) (kept : Kept LinkView.Alike p q)
    (h : Exchanged id stop now p q) : q.Able hand := by
  obtain ⟨_, reseated⟩ := reseated_exchanged h
  obtain ⟨waitOnce, acting, aboard⟩ := aboard_of_nodup nodup
  have riders := (aboard id present).2
  have leaves : ∀ y ∈ h.leaving, y ∈ p.crew id := fun y hy =>
    Multiset.mem_of_le reseated.aboard (Multiset.mem_coe.2 hy)
  have boards : ∀ y ∈ h.boarded.map Prod.snd, y ∈ p.platforms.everybody := fun y hy =>
    reseated.waited (Multiset.mem_coe.2 hy)
  have off : OffRoad p q := offRoad_exchanged h
  refine ⟨able.grounded.of_kept kept, able.named.of_kept kept, kept.honest able.honest, fun v hv y hy => ?_, fun y hy => ?_,
    fun y hy => ?_, ?_, ?_⟩
  · rw [reseated.roots, ← add_assoc] at hv
    rw [reseated.crew] at hy
    split at hy
    · exact able.seated nodup free present h reseated hy
    · rename_i other
      rcases Multiset.mem_add.1 hv with acts | leaves'
      · have rides := (aboard v acts).2 y hy
        refine (able.riders v acts y hy).of_same
          (h.others able.named ?_ (fun hl => ?_) fun hb => rides.2.1 (boards y hb))
        · rintro rfl
          exact free.riders v acts hy
        · exact rides.2.2 id present (Ne.symm other) (leaves y hl)
      · -- Whoever has left has no passengers.
        rw [o.pedestrians v (o.riders id v (leaves v (Multiset.mem_coe.1 leaves')))] at hy
        exact absurd hy (Multiset.notMem_zero y)
  · have waits : y ∈ p.platforms.everybody := reseated.platforms ▸ Multiset.mem_add.2 (.inl hy)
    refine (able.waiting y waits).of_same
      (h.others able.named ?_ (fun hl => (riders y (leaves y hl)).2.1 waits) fun hb => ?_)
    · rintro rfl
      exact free.waiting waits
    · exact Multiset.disjoint_left.1 (reseated.boards_once waitOnce).2 hy (Multiset.mem_coe.2 hb)
  · rw [heading_of_links off.links] at hy
    have root : y ∈ hand + p.roots := Multiset.mem_add.2 (.inr (Multiset.mem_add.2
      (.inr (Multiset.mem_of_le p.heading_le_standing hy))))
    refine (able.heading y hy).of_same
      (h.others able.named ?_ (fun hl => (riders y (leaves y hl)).1 root) fun hb => acting y root (boards y hb))
    rintro rfl
    exact free.heading hy
  · rw [off.links]
    exact able.genuine
  · rw [reseated.outbox]
    exact able.queued.mono fun _ _ _ fit => fit.of_kept kept

/-- After any turn of an agent everybody can go on. -/
theorem dispatched {b : Bool} (able : p.Able hand) (o : p.Orderly) (nodup : (p.census hand).Nodup)
    (free : Free hand id p) (present : id ∈ hand + p.roots) (turn : Dispatched id now p b q) :
    q.Able hand := by
  have kept := (worked_dispatched turn).kept.mono LinkView.Balanced.alike
  have alone : (∀ x, x ≠ id → q.agents[x]? = p.agents[x]?) → Put id p b q → q.Able hand := fun others put =>
    able.turn kept free present others put.roots put.crew put.waiting (fun _ => turn.moved.heading)
      (turn.moved.genuine able.genuine) (put.queued able present)
  rcases put_dispatched turn with put | ⟨-, stop, ⟨exchange⟩⟩
  · rcases deeds_dispatched turn with deeds | finishes | ⟨stop, ⟨exchange⟩⟩
    · refine alone (fun x hx => ?_) put
      exact (((deeds able.named).2 x).1 fun own => hx (Multiset.mem_singleton.1 own)).agents
    · exact alone (fun x hx => (finishes.quiet hx).agents) put
    · exact able.exchanged o nodup free present kept exchange
  · exact able.exchanged o nodup free present kept exchange

end Able

/-! ## Between turns -/

/-- Nobody has gone on in its plan. -/
def Lingers (p q : Partition) : Prop :=
  ∀ (x : Nat) a, p.agents[x]? = some a → ∃ b, q.agents[x]? = some b ∧ b.plan = a.plan ∧ b.cursor = a.cursor

namespace Lingers

theorem of_agents (h : q.agents = p.agents) : Lingers p q := fun _ a ha => ⟨a, h ▸ ha, rfl, rfl⟩

theorem trans (h : Lingers p q) (k : Lingers q r) : Lingers p r := by
  intro x a ha
  obtain ⟨b, hb, plan, cursor⟩ := h x a ha
  obtain ⟨c, hc, plan', cursor'⟩ := k x b hb
  exact ⟨c, hc, plan'.trans plan, cursor'.trans cursor⟩

theorem setAgent {a b : Agent} (h : p.agents[id]? = some a) (plan : b.plan = a.plan)
    (cursor : b.cursor = a.cursor) : Lingers p { p with agents := p.agents.setIfInBounds id b } := by
  obtain ⟨hlt, -⟩ := Array.getElem?_eq_some_iff.1 h
  intro x c hc
  by_cases hx : id = x
  · subst hx
    obtain rfl := Option.some.inj (h.symm.trans hc)
    exact ⟨b, Array.getElem?_setIfInBounds_self_of_lt hlt, plan, cursor⟩
  · exact ⟨c, (Array.getElem?_setIfInBounds_ne hx).trans hc, rfl, rfl⟩

theorem remains (h : Lingers p q) (hx : p.Remains n x) : q.Remains n x := by
  obtain ⟨a, ha, left⟩ := hx
  obtain ⟨b, hb, plan, cursor⟩ := h x a ha
  exact ⟨b, hb, by rw [plan, cursor]; exact left⟩

theorem traversed (h : Lingers p q) (hx : p.Traversed x) : q.Traversed x := by
  obtain ⟨a, ha, traversed⟩ := hx
  obtain ⟨b, hb, plan, cursor⟩ := h x a ha
  exact ⟨b, hb, by rw [plan, cursor]; exact traversed⟩

end Lingers

/-- Whatever lets nobody go on, come or board leaves everybody able to go on. -/
theorem Able.lingers (able : p.Able hand) (kept : Kept LinkView.Alike p q) (lingers : Lingers p q)
    {rest : Multiset Nat} (acting : ∀ v ∈ rest + q.roots, v ∈ hand + p.roots)
    (crew : ∀ v, q.crew v = p.crew v) (platforms : q.platforms = p.platforms)
    (heading : ∀ y ∈ q.heading, y ∈ p.heading)
    (genuine : ∀ (i : Nat) v, q.links[i]? = some v → v.Genuine) (queued : q.outbox.Every p.Fit) :
    q.Able rest where
  grounded := able.grounded.of_kept kept
  named := able.named.of_kept kept
  honest := kept.honest able.honest
  riders v hv y hy := lingers.remains (able.riders v (acting v hv) y (crew v ▸ hy))
  waiting y hy := lingers.remains (able.waiting y (platforms ▸ hy))
  heading y hy := lingers.traversed (able.heading y (heading y hy))
  genuine := genuine
  queued := queued.mono fun _ _ _ fit => fit.of_kept kept

/-- Agents who wait in front of a gateway and are let in have come from where agents may come from, and
whoever still waits has waited before. -/
theorem admitted_genuine {g k : Gateway} {waiting : List (Nat × Nat)} (h : Admitted now g waiting p k q)
    (genuine : g.Genuine) (sub : ∀ row ∈ waiting, row.2 ∈ g.fromParts) :
    k.Genuine ∧ Lingers p q ∧ k.inbound <:+ waiting := by
  induction h with
  | nobody => exact ⟨⟨genuine.queue, by simp, genuine.released⟩, .of_agents rfl, List.nil_suffix⟩
  | full => exact ⟨⟨genuine.queue, sub, genuine.released⟩, .of_agents rfl, List.suffix_rfl⟩
  | @entered g k p q id part finish rest a room enters _ ih =>
    have known := sub (id, part) List.mem_cons_self
    obtain ⟨genuine, lingers, inbound⟩ :=
      ih (genuine.append known) fun row hrow => sub row (List.mem_cons_of_mem _ hrow)
    have onLink : Lingers p _ := .setAgent (b := a.onLink now finish) enters.found rfl rfl
    exact ⟨genuine, onLink.trans lingers, inbound.trans (List.suffix_cons ..)⟩

namespace Able

theorem drained {link : Nat} (able : p.Able hand) (h : Ends (drainInbound link now) p () q) :
    q.Able hand := by
  have still := still_drained h
  have kept : Kept LinkView.Alike p q := (worked_drained h : Worked now p q).kept.mono LinkView.Balanced.alike
  have acting : ∀ v ∈ hand + q.roots, v ∈ hand + p.roots := fun v hv => still.roots ▸ hv
  obtain ⟨v, view, ⟨g, k, r, rfl, admitted, rfl⟩ | ⟨-, rfl⟩⟩ := drainInbound_ends h
  · have before := able.genuine link _ view g rfl
    obtain ⟨genuine, lingers, inbound⟩ := admitted_genuine admitted before before.inbound
    have links := (still_admitted admitted).2.1
    have fewer : (LinkView.gateway k).heading ≤ (LinkView.gateway g).heading :=
      Multiset.coe_le.2 (inbound.sublist.map _).subperm
    refine able.lingers kept (lingers.trans (.of_agents rfl)) acting still.crew still.platforms
      (fun y hy => ?_) ?_ (still.outbox ▸ able.queued)
    · have inside := Multiset.mem_of_le (heading_setView_le (links ▸ view) fewer) hy
      rwa [heading_of_links links] at inside
    · refine genuine_setView (p := r) (w := .gateway k) (links ▸ able.genuine) ?_
        (rfl : _ = r.links.setIfInBounds link _)
      rintro _ ⟨⟩
      exact genuine
  · exact able

/-- Taking the first agent from a link leaves everybody able to go on. -/
theorem popped {link : Nat} {v w : LinkView} {entry : Entry} (able : p.Able hand)
    (view : p.links[link]? = some v) (pops : v.pop = .ok (entry, w)) :
    Able hand { p with links := p.links.setIfInBounds link w } := by
  have kept : Kept LinkView.Alike p { p with links := p.links.setIfInBounds link w } :=
    Kept.setView view (LinkView.balanced_pop pops).alike
  refine able.lingers kept (.of_agents rfl) (fun x hx => ?_) (fun _ => rfl) rfl (fun y hy => ?_)
    (genuine_setView able.genuine (LinkView.genuine_pop (able.genuine link v view) pops) rfl) able.queued
  · -- Nobody stands where nobody has stood before.
    have stands := standing_setView (w := w) view
    have fewer : standing { p with links := p.links.setIfInBounds link w } ≤ p.standing := by
      refine le_of_add_le_add_right (a := v.standing) (stands.le.trans (add_le_add_right ?_ _))
      rw [(LinkView.standing_pop pops).1]
      exact Multiset.le_add_right _ _
    refine Multiset.mem_of_le (add_le_add_right ?_ _) hx
    exact add_le_add_right fewer _
  · exact Multiset.mem_of_le (heading_setView_le view (LinkView.heading_pop pops).le) hy

theorem wake (able : p.Able (id ::ₘ hand)) (h : Ends (wake id time) p () q) : q.Able hand := by
  have roots := roots_wake h
  have kept : Kept LinkView.Alike p q := kept_wake h
  obtain ⟨due, -, rfl⟩ := wake_eq_ok.1 h
  refine able.lingers kept (.of_agents rfl) (fun x hx => ?_) (fun _ => rfl) rfl (fun _ h => h) able.genuine
    able.queued
  rw [roots, ← add_assoc, add_comm, Multiset.singleton_add, ← Multiset.cons_add] at hx
  exact hx

theorem revisit {link : Nat} (able : p.Able hand) (h : Ends (revisit link time) p () q) : q.Able hand := by
  have kept : Kept LinkView.Alike p q := kept_revisit h
  obtain ⟨due, -, rfl⟩ := revisit_eq_ok.1 h
  exact able.lingers kept (.of_agents rfl) (fun _ h => h) (fun _ => rfl) rfl (fun _ h => h) able.genuine
    able.queued

end Able

end Partition

end Mobility
