import Mobility.Proofs.Aftermath
import Mobility.Proofs.Partition.Timetable
import Mobility.Proofs.Queue.History
import Mobility.Proofs.Safety.Rules

/-!
# What a partition does to its links

Four kinds of acts touch a link: an agent of the partition is pushed onto it in its turn, an agent from a neighbor
reaches it, its head leaves it, and those who wait in front of it are let in. What such an act does is seen from the
state in which it begins: whom it is about, and what the link answers. `Partition.entering`, `Partition.reaching`,
`Partition.popping` and `Partition.draining` write it down as operations, without looking at the link after the act.
However the act ends, these operations turn the view of the link before it into the one which it leaves
(`Partition.Handles`).
-/

set_option autoImplicit false

namespace Mobility

/-! ## What becomes of a view -/

namespace LinkView

variable {now : Nat} {v w x : LinkView} {xs ys : List Operation}

/-- The operations, all of them in second `now`, turn the first view of a link into the second one. -/
def Becomes (now : Nat) (ops : List Operation) (v w : LinkView) : Prop := Follows v (History.at now ops) w

namespace Becomes

theorem refl : Becomes now [] v v := .nil

theorem one {o : Operation} (h : Operated now o v w) : Becomes now [o] v w := .snoc .nil h

theorem trans (h : Becomes now xs v w) (k : Becomes now ys w x) : Becomes now (xs ++ ys) v x := by
  unfold Becomes
  rw [History.at_append]
  exact Follows.trans h k

theorem isOwned (h : Becomes now xs v w) (owned : v.isOwned = true) : w.isOwned = true := Follows.isOwned h owned

end Becomes

end LinkView

namespace Act

variable {α β : Type} {act : Act α} {next : α → Act β} {p : Partition}

/-- What is written down about the state and the result which the act ends with, and nothing if it fails. -/
def yields (act : Act α) (f : α → Partition → List Operation) (p : Partition) : List Operation :=
  match act.run p with
  | .ok a q => f a q
  | .error _ _ => []

theorem yields_of_ends {f : α → Partition → List Operation} {a : α} {q : Partition} (ends : Ends act p a q) :
    act.yields f p = f a q := by rw [yields, ends]

theorem yields_ite {c : Prop} [Decidable c] {f : α → Partition → List Operation} :
    act.yields (fun a q => if c then f a q else []) p = if c then act.yields f p else [] := by
  unfold yields
  cases act.run p with
  | ok a q => rfl
  | error f q => exact (ite_self []).symm

end Act

open Act

/-! ## Operations of acts -/

/-- What it does to a link that an agent of the owner is pushed onto it. -/
def LinkView.pushing (v : LinkView) (id now velocity delay : Nat) : List Operation :=
  match v.link? with
  | none => []
  | some queue =>
    let finish := Clock.after now (queue.travelTime velocity delay)
    match v.push id finish with
    | .ok (some _) => [.push ⟨id, finish, none⟩]
    | .ok none | .error _ => []

namespace Partition

/-- What the turn of an agent does to a link: the agent is pushed onto it, if this is what its instruction says. -/
def entering (p : Partition) (id link now : Nat) : List Operation :=
  match p.agents[id]?.map Agent.current, p.links[link]? with
  | some (.ok (some ⟨_, .traverse ref velocity⟩)), some v =>
    if ref.val = link then v.pushing id now velocity.val p.timing.delay else []
  | _, _ => []

/-- What trying the first agent of link `from` does to a link: if the agent may leave by now, it takes its turn. -/
def trying (p : Partition) («from» link now : Nat) : List Operation :=
  match p.links[«from»]?.bind LinkView.front? with
  | none => []
  | some head => if now < head.finish then [] else p.entering head.agent link now

/-- What it does to a link that its head leaves. -/
def popping (p : Partition) (link : Nat) : List Operation :=
  match p.links[link]?.map LinkView.pop with
  | some (.ok (entry, _)) => [.pop entry]
  | _ => []

/-- What it does to a link that those who wait in front of it are let in: they are put behind those who are on it. -/
def draining (p : Partition) (link now : Nat) : List Operation :=
  match p.links[link]? with
  | some (.gateway g) =>
    (admitWaiting g now g.inbound).yields
      (fun k _ => (k.link.queue.drop g.link.queue.length).map .letIn) p
  | _ => []

/-- What it does to a link that an agent reaches it from partition `part`: the agent enters, or it waits in front of the
link if others do or if there is no room. -/
def reaching (p : Partition) (id link part now : Nat) : List Operation :=
  (requestedVelocity id).yields (fun velocity q =>
    match q.links[link]? with
    | some (.gateway g) =>
      if !g.fromParts.contains part then []
      else if !g.inbound.isEmpty || g.link.isFull then [.wait id]
      else [.come ⟨id, Clock.after now (g.link.travelTime velocity.val q.timing.delay), some part⟩]
    | _ => []) p

/-- Brings an agent and its passengers up to date. -/
def bring (r : AgentRecord) : Act Unit := do
  match r.passengers with
  | none => pure ()
  | some passengers =>
    let seated ← passengers.mapM receivePassenger
    setAgent r.id (← attempt ((← agent r.id).replacePassengers seated))
  setAgent r.id (← attempt ((← agent r.id).moveCursor r.cursor))

/-- What it does to a link that an agent is taken in: the agent reaches it, if it has been sent to it. -/
def arriving (p : Partition) (e : Entrant) (link now : Nat) : List Operation :=
  match e.2.1 with
  | none => []
  | some l =>
    if l = link then (bring e.2.2).yields (fun _ q => q.reaching e.2.2.id l e.1 now) p else []

/-- What it does to a link that the departures are reported. -/
def reporting (p : Partition) (link : Nat) : List Operation :=
  match p.links[link]? with
  | some (.gateway _) => [.report]
  | _ => []

theorem bring_off {r : AgentRecord} : OffLinks (bring r) := by
  have moves : OffLinks (do setAgent r.id (← attempt ((← agent r.id).moveCursor r.cursor))) :=
    agent_off.bind fun _ => (attempt_off _).bind fun _ => setAgent_off
  unfold bring
  cases r.passengers with
  | none => exact moves
  | some passengers =>
    exact (OffLinks.mapM fun _ _ => receivePassenger_off).bind fun _ => agent_off.bind fun _ =>
      (attempt_off _).bind fun _ => setAgent_off.bind fun _ => moves

theorem receiveAgent_eq (r : AgentRecord) (way : Option Nat) (part now : Nat) : receiveAgent r way part now = (do
    bring r
    match way with
    | none => wake r.id (now + 1)
    | some link => enterGateway r.id link part now) := by
  unfold receiveAgent bring
  cases r.passengers with
  | none => cases way <;> simp only [bind_assoc]
  | some passengers => cases way <;> simp only [bind_assoc]

variable {α β : Type} {act : Act α} {next : α → Act β} {id link l now : Nat} {p q r : Partition} {v w : LinkView}
  {xs ys ops : List Operation}

/-! ## What becomes of a link -/

/-- These operations in second `now` turn the view of the link in the first state, if it is owned, into the one in the
second state. -/
def Handles (now link : Nat) (ops : List Operation) (p q : Partition) : Prop :=
  ∀ v, p.links[link]? = some v → v.isOwned = true →
    ∃ w, q.links[link]? = some w ∧ v.Becomes now ops w

namespace Handles

theorem of_links (links : q.links = p.links) : Handles now link [] p q := fun v view _ =>
  ⟨v, by rw [links, view], .refl⟩

theorem trans (h : Handles now link xs p q) (k : Handles now link ys q r) : Handles now link (xs ++ ys) p r := by
  intro v view owned
  obtain ⟨w, there, becomes⟩ := h v view owned
  obtain ⟨x, after, goesOn⟩ := k w there (becomes.isOwned owned)
  exact ⟨x, after, becomes.trans goesOn⟩

theorem still (h : Handles now link ops p q) (links : r.links = q.links) : Handles now link ops p r := by
  have k := h.trans (of_links links : Handles now link [] q r)
  rwa [List.append_nil] at k

/-- One link is replaced by what becomes of it. -/
theorem of_set (view : p.links[l]? = some v) (links : q.links = p.links.setIfInBounds l w)
    (becomes : v.isOwned = true → v.Becomes now ops w) :
    Handles now link (if l = link then ops else []) p q := by
  -- Either it is the link that we look at, or it isn't, and then nothing has been done to ours.
  intro u seen owned
  by_cases own : l = link
  · subst own
    obtain rfl := Option.some.inj (view.symm.trans seen)
    obtain ⟨inside, -⟩ := Array.getElem?_eq_some_iff.1 view
    exact ⟨w, by rw [links, Array.getElem?_setIfInBounds_self_of_lt inside], by rw [if_pos rfl]; exact becomes owned⟩
  · exact ⟨u, by rw [links, Array.getElem?_setIfInBounds_ne own, seen], by rw [if_neg own]; exact .refl⟩

end Handles

instance : Std.Refl (Handles now link []) := ⟨fun _ => .of_links rfl⟩

instance : IsTrans Partition (Handles now link []) := ⟨fun _ _ _ h k => h.trans k⟩

theorem handles_off (off : OffLinks act) : Leaves (Handles now link []) act p := .of_links (off p)

/-- Links are left alone after the first act. -/
theorem handles_then (h : Leaves (Handles now link ops) act p) (later : ∀ a, OffLinks (next a)) :
    Leaves (Handles now link ops) (act >>= next) p :=
  .seq (S := fun q r => r.links = q.links) (fun _ handled => handled) (fun _ _ => Handles.still) h
    fun a q _ => later a q

/-- Links are left alone by the first act, and what the second one does is seen from how the first one ends. -/
theorem handles_yields {f : α → Partition → List Operation} (off : OffLinks act)
    (later : ∀ a q, Ends act p a q → Leaves (Handles now link (f a q)) (next a) q) :
    Leaves (Handles now link (act.yields f p)) (act >>= next) p := by
  have links := off p
  unfold Leaves left at later ⊢
  unfold left at links
  rw [EStateM.run_bind, yields]
  cases run : act.run p with
  | error e q =>
    rw [run] at links
    exact .of_links links
  | ok a q =>
    rw [run] at links
    intro v view owned
    exact later a q run v (by rw [← view, ← links]) owned

/-- The first act doesn't get through. -/
theorem handles_never (looks : act.Looks) (never : ∀ a q, ¬ Ends act p a q) (handles : Handles now link ops p p) :
    Leaves (Handles now link ops) (act >>= next) p := by
  have same := looks p
  unfold Leaves left at *
  rw [EStateM.run_bind]
  cases run : act.run p with
  | ok a q => exact absurd run (never a q)
  | error f q =>
    rw [run] at same
    exact same ▸ handles

/-- Who looks at a link which isn't known does nothing else. -/
theorem handles_unknown {look : LinkView → Act β} (absent : p.links[l]? = none) :
    Leaves (Handles now link []) (view l >>= look) p :=
  handles_never (looks_view l) (fun _ _ ends => nomatch absent.symm.trans (view_eq_ok.1 ends).1) (.of_links rfl)

/-- The first act gets through and leaves the links alone. -/
theorem handles_after {a : α} (ends : Ends act p a q) (links : q.links = p.links)
    (later : Leaves (Handles now link ops) (next a) q) : Leaves (Handles now link ops) (act >>= next) p := by
  unfold Leaves left at *
  rw [EStateM.run_bind, ends]
  exact fun v view owned => later v (links ▸ view) owned

/-- The view of a link of another partition is replaced. -/
theorem handles_foreign (view : p.links[l]? = some v) (foreign : v.isOwned ≠ true) :
    Leaves (Handles now link []) (setView l w) p := by
  have same : Handles now link (if l = link then [] else []) p { p with links := p.links.setIfInBounds l w } :=
    .of_set view rfl fun owned => absurd owned foreign
  rw [ite_self] at same
  exact .modify same

/-! ### Entering a link -/

theorem handles_enter {velocity : Velocity} {queue : Link} (last : now < Clock.last) (view : p.links[l]? = some v)
    (mine : v.link? = some queue) :
    Leaves (Handles now link (if l = link then v.pushing id now velocity.val p.timing.delay else []))
      (enter id l velocity now v queue) p := by
  have owned : v.isOwned = true := by rw [LinkView.isOwned, mine]; rfl
  refine .after (ends_get p) ?_
  simp only [LinkView.pushing, mine]
  generalize takes : Clock.after now (queue.travelTime velocity.val p.timing.delay) = finish
  cases pushed : v.push id finish with
  | error f =>
    simp only [ite_self]
    exact handles_never (.fail _) (fun _ _ => throw_ne_ok) (.of_links rfl)
  | ok answer =>
    refine .after (a := answer) (attempt_eq_ok.2 ⟨rfl, rfl⟩) ?_
    cases answer with
    | none =>
      simp only [ite_self]
      exact handles_off (.pure false)
    | some w =>
      have later : now < finish := takes ▸ Clock.lt_after last (queue.travelTime_pos velocity.val p.timing.delay)
      have sets : Leaves (Handles now link (if l = link then [.push ⟨id, finish, none⟩] else [])) (setView l w) p :=
        .modify (.of_set view rfl fun _ => .one (.push owned later pushed))
      refine handles_then sets fun _ => agent_off.bind fun _ => setAgent_off.bind fun _ => consume_off.bind fun _ => ?_
      split
      · exact revisit_off.bind fun _ => .pure _
      · exact .pure _

theorem entering_traverse {a : Agent} {event : EventId} {ref : LinkRef} {velocity : Velocity}
    (found : p.agents[id]? = some a) (current : a.current = .ok (some ⟨event, .traverse ref velocity⟩))
    (view : p.links[ref.val]? = some v) :
    p.entering id link now = if ref.val = link then v.pushing id now velocity.val p.timing.delay else [] := by
  unfold entering
  rw [found, Option.map_some, current]
  by_cases own : ref.val = link
  · subst own
    simp only [view, if_true]
  · cases p.links[link]? <;> simp only [own, if_false]

theorem handles_traverse {a : Agent} {event : EventId} {ref : LinkRef} {velocity : Velocity}
    (last : now < Clock.last) (found : p.agents[id]? = some a)
    (current : a.current = .ok (some ⟨event, .traverse ref velocity⟩)) :
    Leaves (Handles now link (p.entering id link now)) (traverse id ref.val velocity now) p := by
  cases view : p.links[ref.val]? with
  | none =>
    refine handles_never (looks_view ref.val) (fun v q ends => ?_) fun u seen _ => ?_
    · cases view.symm.trans (view_eq_ok.1 ends).1
    · have other : ref.val ≠ link := fun own => by cases view.symm.trans (own ▸ seen)
      exact ⟨u, seen, by simp only [entering, found, Option.map_some, current, seen, other, if_false]; exact .refl⟩
  | some v =>
    refine .after (ends_view view) ?_
    rw [entering_traverse found current view]
    cases v with
    | remote i owner =>
      simp only [LinkView.pushing, LinkView.link?, ite_self]
      exact handles_off (send_off.bind fun _ => .pure _)
    | proxy x =>
      simp only [LinkView.pushing, LinkView.link?, ite_self]
      cases x.push id with
      | none => exact handles_off (.pure false)
      | some y =>
        exact handles_then (handles_foreign view Bool.false_ne_true) fun _ =>
          agent_off.bind fun _ => setAgent_off.bind fun _ => consume_off.bind fun _ => .pure _
    | owned l => exact handles_enter last view rfl
    | gateway g => exact handles_enter last view rfl

/-- Whoever takes its turn is pushed onto the link which its instruction says, if at all. -/
theorem handles_dispatch (last : now < Clock.last) :
    Leaves (Handles now link (p.entering id link now)) (dispatch id now) p := by
  cases found : p.agents[id]? with
  | none =>
    have idle : p.entering id link now = [] := by simp only [entering, found, Option.map_none]
    rw [idle]
    refine handles_never (looks_agent id) (fun a q ends => ?_) (.of_links rfl)
    cases found.symm.trans (agent_eq_ok.1 ends).1
  | some a =>
    refine .after (ends_agent found) ?_
    cases current : a.current with
    | error f =>
      have idle : p.entering id link now = [] := by simp only [entering, found, Option.map_some, current]
      rw [idle]
      exact handles_never (.fail _) (fun _ _ => throw_ne_ok) (.of_links rfl)
    | ok ahead =>
      refine .after (a := ahead) (attempt_eq_ok.2 ⟨rfl, rfl⟩) ?_
      cases ahead with
      | none =>
        have idle : p.entering id link now = [] := by simp only [entering, found, Option.map_some, current]
        rw [idle]
        exact handles_off (OffLinks.bind (agent_off.bind fun _ =>
          (OffLinks.modify _ (by intro p; rfl)).bind fun _ => .modify _ (by intro p; rfl)) fun _ => .pure _)
      | some instruction =>
        obtain ⟨event, action⟩ := instruction
        have idle : (∀ ref velocity, action ≠ .traverse ref velocity) → p.entering id link now = [] := by
          intro other
          unfold entering
          rw [found, Option.map_some, current]
          cases action with
          | traverse ref velocity => exact absurd rfl (other ref velocity)
          | _ => rfl
        cases action with
        | traverse ref velocity => exact handles_traverse last found current
        | sleepFor duration | sleepUntil time =>
          rw [idle nofun]
          exact handles_off ((consume_off.bind fun _ => wake_off).bind fun _ => .pure _)
        | wait route stop => rw [idle nofun]; exact handles_off wait_off
        | stopArrive stop => rw [idle nofun]; exact handles_off stopArrive_off
        | stopDelay stop => rw [idle nofun]; exact handles_off (exchangePassengers_off.bind fun _ => .pure _)
        | stopDepart stop => rw [idle nofun]; exact handles_off (consume_off.bind fun _ => .pure _)
        | access stop | egress stop => rw [idle nofun]; exact handles_off (.fail _)

/-! ### Leaving a link -/

theorem front_of_pop {v w : LinkView} {head popped : Entry} (front : v.front? = some head)
    (h : v.pop = .ok (popped, w)) : popped = head := by
  rcases LinkView.pop_eq_ok h with ⟨l, m, rfl, rfl, hl⟩ | ⟨g, k, rfl, rfl, hg⟩
  · obtain ⟨hq, -⟩ := Link.pop_eq_ok hl
    simpa [LinkView.front?, LinkView.link?, hq] using front
  · obtain ⟨hq, -⟩ := Gateway.pop_eq_ok hg
    simpa [LinkView.front?, LinkView.link?, hq] using front

theorem handles_tryHead (last : now < Clock.last) :
    Leaves (Handles now link (p.trying l link now)) (tryHead l now) p := by
  cases view : p.links[l]? with
  | none =>
    have idle : p.trying l link now = [] := by simp only [trying, view, Option.bind_none]
    rw [idle]
    exact handles_unknown view
  | some v =>
    refine .after (ends_view view) ?_
    unfold trying
    rw [view, Option.bind_some]
    cases v.front? with
    | none => exact handles_off (.pure false)
    | some head =>
      dsimp only
      split
      · exact handles_off (revisit_off.bind fun _ => .pure _)
      · refine handles_then (handles_dispatch last) fun gone => ?_
        split
        · exact .pure _
        · exact revisit_off.bind fun _ => .pure _

/-- The head of a link leaves it when it is due. -/
def popHead (link : Nat) : Act Unit := do
  let (_, v) ← attempt (← view link).pop
  setView link v

theorem handles_popHead {head : Entry} (view : p.links[l]? = some v) (front : v.front? = some head)
    (due : head.finish ≤ now) : Leaves (Handles now link (if l = link then p.popping l else [])) (popHead l) p := by
  refine .after (ends_view view) ?_
  unfold popping
  rw [view, Option.map_some]
  cases pops : v.pop with
  | error f =>
    rw [ite_self]
    exact handles_never (.fail _) (fun _ _ => throw_ne_ok) (.of_links rfl)
  | ok popped =>
    obtain ⟨entry, w⟩ := popped
    obtain rfl := front_of_pop front pops
    exact .after (a := (entry, w)) (attempt_eq_ok.2 ⟨rfl, rfl⟩)
      (.modify (.of_set view rfl fun _ => .one (.pop due pops)))

/-- Those who wait in front of a gateway enter it in the order in which they wait. -/
theorem becomes_admitted {g k : Gateway} {waiting : List (Nat × Nat)} (last : now < Clock.last)
    (h : Admitted now g waiting p k q) : ∃ entries, k.link.queue = g.link.queue ++ entries ∧
      (LinkView.gateway { g with inbound := waiting }).Becomes now (entries.map .letIn) (.gateway k) := by
  induction h with
  | nobody | full => exact ⟨[], (List.append_nil _).symm, .refl⟩
  | @entered g h p q id part finish rest a room enters later ih =>
    obtain ⟨entries, queue, becomes⟩ := ih
    obtain ⟨event, link, velocity, -, time⟩ := enters.time
    have first : Operated now (.letIn ⟨id, finish, some part⟩)
        (.gateway { g with inbound := (id, part) :: rest })
        (.gateway (Gateway.append { g with inbound := rest } id part finish)) :=
      .letIn rfl room (time ▸ Clock.lt_after last (Link.travelTime_pos ..))
    refine ⟨⟨id, finish, some part⟩ :: entries, by rw [queue, Gateway.append, List.append_assoc]; rfl, ?_⟩
    exact LinkView.Becomes.trans (.one first) becomes

theorem handles_drainInbound (last : now < Clock.last) :
    Leaves (Handles now link (if l = link then p.draining l now else [])) (drainInbound l now) p := by
  cases view : p.links[l]? with
  | none =>
    have idle : p.draining l now = [] := by simp only [draining, view]
    rw [idle, ite_self]
    exact handles_unknown view
  | some v =>
    refine .after (ends_view view) ?_
    unfold draining
    rw [view]
    cases v with
    | gateway g =>
      rw [← yields_ite]
      refine handles_yields (admitWaiting_off g) fun k q admits => .modify ?_
      obtain ⟨entries, queue, becomes⟩ := becomes_admitted last (admitWaiting_ends admits)
      rw [queue, List.drop_left]
      exact .of_set (by rw [(admitWaiting_off g).links admits, view]) rfl fun _ => becomes
    | owned | proxy | remote =>
      dsimp only
      rw [ite_self]
      exact handles_off (.pure ())

/-! ### Reaching a link -/

theorem ends_letIn {a : Agent} (g : Gateway) (part now : Nat) (velocity : Velocity) (found : p.agents[id]? = some a) :
    ∃ q, Ends (letIn g id part now velocity) p
      (g.append id part (Clock.after now (g.link.travelTime velocity.val p.timing.delay))) q := by
  simp only [letIn, bind_eq_ok, get_eq_ok, agent_eq_ok, setAgent_eq_ok, pure_eq_ok]
  exact ⟨_, p, p, ⟨rfl, rfl⟩, a, p, ⟨found, rfl⟩, (), _, rfl, rfl, rfl⟩

/-- An agent from a neighbor goes behind everybody who is there: onto the link if nobody waits and there is room, or
else in front of it. -/
theorem handles_enterGateway {part : Nat} (last : now < Clock.last) :
    Leaves (Handles now link (if l = link then p.reaching id l part now else [])) (enterGateway id l part now) p := by
  unfold reaching
  rw [← yields_ite]
  refine handles_yields requestedVelocity_off fun velocity q asked => .after (ends_get q) ?_
  obtain ⟨rfl, a, -, -, found, -⟩ := requestedVelocity_ends asked
  cases view : p.links[l]? with
  | none =>
    rw [ite_self]
    exact handles_off (.fail _)
  | some v =>
    cases v with
    | owned | proxy | remote =>
      dsimp only
      rw [ite_self]
      exact handles_off (.fail _)
    | gateway g =>
      dsimp only
      by_cases unknown : (!g.fromParts.contains part) = true
      · simp only [unknown, if_true, ite_self]
        exact handles_never (.fail _) (fun _ _ => throw_ne_ok) (.of_links rfl)
      simp only [unknown]
      by_cases closed : (!g.inbound.isEmpty || g.link.isFull) = true
      · simp only [closed, if_true]
        exact .modify (.of_set view rfl fun _ => .one (.wait (by simpa [List.isEmpty_iff] using closed)))
      · simp only [closed]
        obtain ⟨nobody, room⟩ : g.inbound = [] ∧ g.link.isFull = false := by
          simpa [List.isEmpty_iff] using closed
        obtain ⟨r, enters⟩ := ends_letIn g part now velocity found
        have later := Clock.lt_after last (g.link.travelTime_pos velocity.val p.timing.delay)
        refine handles_after enters (letIn_off.links enters) ?_
        have there : r.links[l]? = some (.gateway g) := by rw [letIn_off.links enters, view]
        refine handles_then (.modify (.of_set there rfl fun _ => .one (.come nobody room later))) fun _ => ?_
        split
        · exact agent_off.bind fun _ => revisit_off
        · exact .pure ()

/-- Whoever is taken in reaches the link to which it has been sent. -/
theorem handles_receiveAgent {e : Entrant} (last : now < Clock.last) :
    Leaves (Handles now link (p.arriving e link now)) (receiveAgent e.2.2 e.2.1 e.1 now) p := by
  rw [receiveAgent_eq]
  unfold arriving
  cases e.2.1 with
  | none => exact handles_off (bring_off.bind fun _ => wake_off)
  | some l =>
    dsimp only
    rw [← yields_ite]
    exact handles_yields bring_off fun _ q _ => handles_enterGateway last

/-! ### Who comes to a link -/

/-- The agent is about to traverse the link. -/
def Approaches (p : Partition) (id link : Nat) : Prop :=
  ∃ a event ref velocity, p.agents[id]? = some a ∧ a.current = .ok (some ⟨event, .traverse ref velocity⟩) ∧
    ref.val = link

theorem ends_traverse {a : Agent} {event : EventId} {ref : LinkRef} {velocity : Velocity} {gone : Bool}
    (found : p.agents[id]? = some a) (current : a.current = .ok (some ⟨event, .traverse ref velocity⟩))
    (ends : Ends (dispatch id now) p gone q) : Ends (traverse id ref.val velocity now) p gone q := by
  simp only [dispatch, bind_eq_ok, agent_eq_ok, attempt_eq_ok] at ends
  obtain ⟨b, _, ⟨found', rfl⟩, ahead, _, ⟨current', rfl⟩, ends⟩ := ends
  obtain rfl := Option.some.inj (found.symm.trans found')
  obtain rfl := Except.ok.inj (current.symm.trans current')
  exact ends

/-- Whoever is about to traverse an owned link comes to it if its turn succeeds, and nobody else comes to a link in a
turn. -/
theorem arrivals_entering {gone : Bool} (ends : Ends (dispatch id now) p gone q) (view : p.links[link]? = some v)
    (owned : v.isOwned = true) :
    (p.Approaches id link → (History.at now (p.entering id link now)).arrivals = if gone then [id] else []) ∧
      (¬ p.Approaches id link → p.entering id link now = []) := by
  constructor
  · rintro ⟨a, event, ref, velocity, found, current, rfl⟩
    -- Links with and without neighbors in front of them are entered in the same way.
    have enters : ∀ queue, v.link? = some queue → Ends (enter id ref.val velocity now v queue) p gone q →
        (History.at now (p.entering id ref.val now)).arrivals = if gone then [id] else [] := by
      intro queue mine ends
      rw [entering_traverse found current view, if_pos rfl, LinkView.pushing, mine, History.arrivals_at]
      rcases enter_ends ends with ⟨rfl, -, full⟩ | ⟨rfl, w, -, -, pushed, -⟩
      · simp only [full]
        rfl
      · simp only [pushed]
        rfl
    have traverses := ends_traverse found current ends
    simp only [traverse, bind_eq_ok, view_eq_ok] at traverses
    obtain ⟨w, _, ⟨view', rfl⟩, ends⟩ := traverses
    obtain rfl := Option.some.inj (view.symm.trans view')
    cases v with
    | remote | proxy => cases owned
    | owned l => exact enters l rfl ends
    | gateway g => exact enters g.link rfl ends
  · intro elsewhere
    unfold entering
    split
    · rename_i event ref velocity v' ahead view'
      obtain ⟨a, found, current⟩ := Option.map_eq_some_iff.1 ahead
      exact if_neg fun own => elsewhere ⟨a, event, ref, velocity, found, current, own⟩
    · rfl

/-- Whoever reaches a link from a neighbor comes to it. -/
theorem arrivals_reaching {part : Nat} (ends : Ends (enterGateway id link part now) p () q) :
    (History.at now (p.reaching id link part now)).arrivals = [id] := by
  obtain ⟨velocity, r, asked, -⟩ := bind_eq_ok.1 ends
  obtain ⟨rfl, -⟩ := requestedVelocity_ends asked
  rw [reaching, yields_of_ends asked, History.arrivals_at]
  cases enterGateway_ends ends with
  | @waits g view known closed =>
    have closed : (!g.inbound.isEmpty || g.link.isFull) = true := by simpa [List.isEmpty_iff] using closed
    simp [view, known, closed, Operation.arrival?]
  | enters view known empty room => simp [view, known, empty, room, Operation.arrival?]

/-- Whoever is taken in comes to the link to which it has been sent. -/
theorem arrivals_arriving {e : Entrant} (ends : Ends (receiveAgent e.2.2 e.2.1 e.1 now) p () q) :
    (History.at now (p.arriving e link now)).arrivals = if e.2.1 = some link then [e.2.2.id] else [] := by
  rw [receiveAgent_eq] at ends
  obtain ⟨⟨⟩, r, brings, ends⟩ := bind_eq_ok.1 ends
  unfold arriving
  split at ends
  · rename_i sent
    simp only [sent]
    rfl
  · rename_i l sent
    rw [sent]
    by_cases own : l = link
    · subst own
      rw [if_pos rfl, if_pos rfl, yields_of_ends brings]
      exact arrivals_reaching ends
    · simp only [own, if_false, Option.some.injEq]
      rfl

/-- Whoever is taken from a link leaves it. -/
theorem popping_of_ends (ends : Ends (popHead link) p () q) :
    ∃ v entry w, p.links[link]? = some v ∧ v.pop = .ok (entry, w) ∧ p.popping link = [.pop entry] := by
  simp only [popHead, bind_eq_ok, view_eq_ok, attempt_eq_ok] at ends
  obtain ⟨v, _, ⟨view, rfl⟩, ⟨entry, w⟩, _, ⟨pops, rfl⟩, -⟩ := ends
  exact ⟨v, entry, w, view, pops, by rw [popping, view, Option.map_some, pops]⟩

/-- What is written down about a link in a state is what acts come to: who comes to the link in its turn or from a
neighbor, and who is taken from it. -/
structure Registers (p : Partition) (now link : Nat) : Prop where
  turns : ∀ {id gone q}, Ends (dispatch id now) p gone q →
    (p.Approaches id link → (History.at now (p.entering id link now)).arrivals = if gone then [id] else []) ∧
      (¬ p.Approaches id link → p.entering id link now = [])
  receipts : ∀ {e : Entrant} {q}, Ends (receiveAgent e.2.2 e.2.1 e.1 now) p () q →
    (History.at now (p.arriving e link now)).arrivals = if e.2.1 = some link then [e.2.2.id] else []
  departures : ∀ {q}, Ends (popHead link) p () q →
    ∃ v entry w, p.links[link]? = some v ∧ v.pop = .ok (entry, w) ∧ p.popping link = [.pop entry]

theorem registers (view : p.links[link]? = some v) (owned : v.isOwned = true) : p.Registers now link where
  turns ends := arrivals_entering ends view owned
  receipts := arrivals_arriving
  departures := popping_of_ends

/-! ### The exchange -/

theorem handles_emptyProxy : Leaves (Handles now link []) (emptyProxy now l) p := by
  refine .look (looks_view l) fun v seen => ?_
  obtain ⟨view, -⟩ := view_eq_ok.1 seen
  cases v with
  | proxy x => exact handles_then (handles_foreign view Bool.false_ne_true) fun _ => .forM fun _ _ => send_off
  | owned | gateway | remote => exact .pure () p

theorem handles_reportGateway :
    Leaves (Handles now link (if l = link then p.reporting l else [])) (reportGateway now l) p := by
  cases view : p.links[l]? with
  | none =>
    have idle : p.reporting l = [] := by simp only [reporting, view]
    rw [idle, ite_self]
    exact handles_unknown view
  | some v =>
    refine .after (ends_view view) ?_
    unfold reporting
    rw [view]
    cases v with
    | gateway g =>
      refine handles_then (.modify (.of_set view rfl fun _ => .one .report)) fun _ => .forM fun row _ => ?_
      exact .modify _ (by intro p; rfl)
    | owned | proxy | remote =>
      dsimp only
      rw [ite_self]
      exact handles_off (.pure ())

theorem handles_applyCount {part count : Nat} : Leaves (Handles now link []) (applyCount part l count) p := by
  refine .look .get fun _ seen => ?_
  obtain ⟨rfl, -⟩ := get_eq_ok.1 seen
  split
  · rename_i x view
    dsimp only
    split
    · exact .look (.fail _) fun _ ends => absurd ends throw_ne_ok
    · exact .look (looks_attempt _) fun _ _ => handles_foreign view Bool.false_ne_true
  · exact .throw _ p

/-- The counts of departed agents don't concern links which the partition owns. -/
theorem handles_receiveReleases {delivery : Delivery} :
    Leaves (Handles now link []) (receiveReleases now delivery) p :=
  .look .get fun _ _ => .look (looks_communicate _) fun _ _ =>
    .forM fun _ _ _ => .forM fun _ _ _ => handles_applyCount

end Partition

end Mobility
