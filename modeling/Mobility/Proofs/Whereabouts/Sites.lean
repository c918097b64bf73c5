import Mobility.Proofs.Safety.Seconds
import Mobility.Proofs.Scenario.Views
import Mobility.Proofs.Whereabouts.Rows

/-!
# Where agents are

An agent is in one partition, there at one `Site`, and it has consumed some of its plan: this is its
`Stand`. The relation `Moves` lists how an agent comes from one stand to the next in a second, whatever
the others do. It asks for the plan of the agent and for the owners of links and stops, and for nothing
else, except that a passenger leaves and boards where its vehicle is.

A `Rule` says at which stands an agent may be. `Partition.Held` says that everybody in a partition obeys
a rule, and `Rule.Closed` that no move breaks it. The modules below follow every act of a second and show
that a closed rule stays obeyed.
-/

set_option autoImplicit false

namespace Mobility

/-! ## Stands -/

/-- Where an agent is in its partition. -/
inductive Site where
  /-- It is about to take its turn, or amid its turn. -/
  | acting
  /-- It is due at a later second. -/
  | due (time : Nat)
  /-- It is due after the end of the horizon. -/
  | beyond
  /-- It stands on an owned link. -/
  | queued (link finish : Nat)
  /-- It waits in front of a gateway. -/
  | inbound (link : Nat)
  /-- It is to be sent to a link of a neighbor. -/
  | outbound (link : Nat)
  /-- It waits at a stop for a route and is going to leave at an index. -/
  | stop (stop route index : Nat)
  /-- It sits in a vehicle and is going to leave at an index. -/
  | aboard (vehicle index : Nat)
  /-- It is in the message to a neighbor, where it enters a link or none. -/
  | mailed (target : Nat) (link : Option Nat)
  /-- It has come to the end of its plan. -/
  | gone (time : Nat)

/-- A partition, where an agent is there, and how many instructions the agent has consumed. -/
structure Stand where
  rank : Nat
  site : Site
  cursor : Nat

/-- At which stands an agent may be. -/
abbrev Rule := Nat → Stand → Prop

namespace Scenario

/-- Instruction `k` of agent `x` is `i`. -/
def Instructs (s : Scenario) (x k : Nat) (i : Instruction) : Prop :=
  ∃ a, s.agents[x]? = some a ∧ a.plan.get? k = .ok (some i)

/-- The plan of agent `x` has no more than `k` instructions. -/
def Completes (s : Scenario) (x k : Nat) : Prop := ∃ a, s.agents[x]? = some a ∧ a.plan.length ≤ k

/-- The partition owns a link which leads to the link, but not the link itself. -/
def Feeds (s : Scenario) (rank link : Nat) : Prop :=
  ∃ spec, s.links[link]? = some spec ∧ rank ∈ s.feeders spec

/-- The seconds a traversal of a link takes. -/
def travelTime (s : Scenario) (link velocity delay : Nat) : Nat :=
  (s.links[link]?).elim 0 fun spec =>
    (Link.vacant spec.id spec.length spec.velocity spec.capacity).travelTime velocity delay

/-- A turn of an agent which has consumed `k` instructions then isn't over, because there is no room for it
or because it has just consumed an instruction after which vehicles go on in the next second. -/
def Stalls (s : Scenario) (crowd : Prop) (x k : Nat) : Prop :=
  crowd ∨ ∃ j i stop, k = j + 1 ∧ s.Instructs x j i ∧
    (i.action = .stopDelay stop ∨ i.action = .stopDepart stop)

end Scenario

/-- How agent `x` moves on in second `now`. If there is room for everybody, `crowd` is false. What is known
of vehicles is that they obey the rule. -/
inductive Moves (s : Scenario) (timing : Timing) (now : Nat) (crowd : Prop) (rule : Rule) (x : Nat) :
    Stand → Stand → Prop where
  /-- Its second has come. -/
  | called {r k : Nat} : Moves s timing now crowd rule x ⟨r, .due now, k⟩ ⟨r, .acting, k⟩
  /-- It stands first on a link and may leave it. -/
  | leads {r k link finish : Nat} (ripe : finish ≤ now) :
      Moves s timing now crowd rule x ⟨r, .queued link finish, k⟩ ⟨r, .acting, k⟩
  | finishes {r k : Nat} (ended : s.Completes x k) :
      Moves s timing now crowd rule x ⟨r, .acting, k⟩ ⟨r, .gone now, k⟩
  /-- It has to do its instruction elsewhere, and agents aren't sent there on a link. -/
  | handedOver {r k target : Nat} {i : Instruction} (next : s.Instructs x k i)
      (place : s.startOf i.action = some target) (elsewhere : target ≠ r)
      (unfed : ∀ link velocity, i.action = .traverse link velocity → ¬ s.Feeds r link.val) :
      Moves s timing now crowd rule x ⟨r, .acting, k⟩ ⟨r, .mailed target none, k⟩
  | outbound {r k : Nat} {i : Instruction} {link : LinkRef} {velocity : Velocity}
      (next : s.Instructs x k i) (action : i.action = .traverse link velocity) (feeds : s.Feeds r link.val) :
      Moves s timing now crowd rule x ⟨r, .acting, k⟩ ⟨r, .outbound link.val, k + 1⟩
  | entered {r k : Nat} {i : Instruction} {link : LinkRef} {velocity : Velocity}
      (next : s.Instructs x k i) (action : i.action = .traverse link velocity)
      (mine : s.linkPart link.val = r) :
      Moves s timing now crowd rule x ⟨r, .acting, k⟩
        ⟨r, .queued link.val (Clock.after now (s.travelTime link.val velocity.val timing.delay)), k + 1⟩
  | paused {r k time : Nat} {i : Instruction} (next : s.Instructs x k i)
      (wakes : i.action.wakeTime now = some time) (here : ∀ place, s.placeOf i.action = some place → place = r) :
      Moves s timing now crowd rule x ⟨r, .acting, k⟩ ⟨r, .due time, k + 1⟩
  | waits {r k : Nat} {i : Instruction} {route : RouteId} {stop : StopId} {event : EventId}
      {leaving : StopRef} (next : s.Instructs x k i) (action : i.action = .wait route stop)
      (here : s.stopPart stop.val = r) (egress : s.Instructs x (k + 2) ⟨event, .egress leaving⟩) :
      Moves s timing now crowd rule x ⟨r, .acting, k⟩ ⟨r, .stop stop.val route.val leaving.index.val, k + 1⟩
  /-- Passengers have left and boarded, or the vehicle departs. -/
  | serves {r k : Nat} {i : Instruction} {stop : StopRef} (next : s.Instructs x k i)
      (action : i.action = .stopDelay stop ∨ i.action = .stopDepart stop) :
      Moves s timing now crowd rule x ⟨r, .acting, k⟩ ⟨r, .acting, k + 1⟩
  | alights {r k v l : Nat} {i j : Instruction} {stop : StopRef} (vehicle : rule v ⟨r, .acting, l⟩)
      (stops : s.Instructs v l i) (action : i.action = .stopDelay stop) (next : s.Instructs x k j) :
      Moves s timing now crowd rule x ⟨r, .aboard v stop.index.val, k⟩ ⟨r, .due (now + 1), k + 1⟩
  | boards {r k v l index : Nat} {i : Instruction} {stop : StopRef} (vehicle : rule v ⟨r, .acting, l⟩)
      (stops : s.Instructs v l i) (action : i.action = .stopDelay stop) (ahead : stop.index.val ≤ index) :
      Moves s timing now crowd rule x ⟨r, .stop stop.stop.val stop.route.val index, k⟩ ⟨r, .aboard v index, k + 1⟩
  /-- Its turn isn't over, and it was due. -/
  | retries {r k : Nat} (stalls : s.Stalls crowd x k) :
      Moves s timing now crowd rule x ⟨r, .acting, k⟩ ⟨r, .due (now + 1), k⟩
  /-- Its turn isn't over, and it is on a link. -/
  | stays {r k link finish : Nat} (ripe : finish ≤ now) (stalls : s.Stalls crowd x k) :
      Moves s timing now crowd rule x ⟨r, .acting, k⟩ ⟨r, .queued link finish, k⟩
  | late {r k time : Nat} (after : timing.stop < time) :
      Moves s timing now crowd rule x ⟨r, .due time, k⟩ ⟨r, .beyond, k⟩
  | admitted {r k link : Nat} {event : EventId} {requested : LinkRef} {velocity : Velocity}
      (last : s.Instructs x k ⟨event, .traverse requested velocity⟩) :
      Moves s timing now crowd rule x ⟨r, .inbound link, k + 1⟩
        ⟨r, .queued link (Clock.after now (s.travelTime link velocity.val timing.delay)), k + 1⟩
  | posted {r k link : Nat} :
      Moves s timing now crowd rule x ⟨r, .outbound link, k⟩ ⟨r, .mailed (s.linkPart link) (some link), k⟩
  | received {r k target : Nat} :
      Moves s timing now crowd rule x ⟨r, .mailed target none, k⟩ ⟨target, .due (now + 1), k⟩
  /-- There is no room on the link, or others wait already. -/
  | linesUp {r k target link : Nat} (jam : crowd) :
      Moves s timing now crowd rule x ⟨r, .mailed target (some link), k⟩ ⟨target, .inbound link, k⟩
  | arrives {r k target link : Nat} {event : EventId} {requested : LinkRef} {velocity : Velocity}
      (last : s.Instructs x k ⟨event, .traverse requested velocity⟩) :
      Moves s timing now crowd rule x ⟨r, .mailed target (some link), k + 1⟩
        ⟨target, .queued link (Clock.after now (s.travelTime link velocity.val timing.delay)), k + 1⟩
  /-- The vehicle goes on, or is sent somewhere. -/
  | rides {r r' k v index : Nat} :
      Moves s timing now crowd rule x ⟨r, .aboard v index, k⟩ ⟨r', .aboard v index, k⟩

/-- Whoever obeys the rule still does so after a move. -/
def Rule.Closed (rule : Rule) (s : Scenario) (timing : Timing) (now : Nat) (crowd : Prop) : Prop :=
  ∀ x a b, Moves s timing now crowd rule x a b → rule x a → rule x b

/-- The records of agents and their passengers obey the rule. -/
def Rule.Sends (rule : Rule) (rank target : Nat) (link : Option Nat) (record : AgentRecord) : Prop :=
  rule record.id ⟨rank, .mailed target link, record.cursor⟩ ∧
    ∀ row ∈ record.passengers.getD [], rule row.id ⟨rank, .aboard record.id row.index, row.cursor⟩

/-! ## Places in a partition -/

namespace LinkView

/-- The agents on the link. -/
def entries (v : LinkView) : List Entry := (v.link?).elim [] (·.queue)

/-- The agents in front of the link. -/
def inFront : LinkView → List Nat
  | gateway g => g.inbound.map (·.1)
  | owned _ | proxy _ | remote .. => []

end LinkView

/-- Who is looked for, and where: `hand` are agents whose turns are still to come, the first agent on the
link `skip` isn't looked for, as it is amid its turn, and `cars` are those whose passengers count. -/
structure Scope where
  hand : Multiset Nat
  skip : Option Nat
  cars : Multiset Nat

namespace Partition

/-- Who sits in a vehicle and leaves at an index, as far as the partition knows. -/
def rowOf (p : Partition) (vehicle index : Nat) : List Nat :=
  (p.agents[vehicle]?).elim [] (·.seats.passengers.row index)

/-- Who is at a site of a partition. -/
def Spot (c : Scope) (p : Partition) : Site → Nat → Prop
  | .acting, x => x ∈ c.hand
  | .due time, x => x ∈ p.dueAgents.due.row time
  | .beyond, x => x ∈ p.dueAgents.beyond
  | .queued link finish, x =>
    ∃ fromPart, (⟨x, finish, fromPart⟩ : Entry) ∈
      if c.skip = some link then (p.seen link).entries.tail else (p.seen link).entries
  | .inbound link, x => x ∈ (p.seen link).inFront
  | .outbound link, x => x ∈ (p.seen link).outgoing
  | .stop stop route index, x => x ∈ p.platforms.row stop route index
  | .aboard vehicle index, x => vehicle ∈ c.cars ∧ x ∈ p.rowOf vehicle index
  | .mailed .., _ => False
  | .gone time, x => ∃ stamp ∈ p.log.of x, stamp.what.kind = .finish ∧ stamp.time = time

/-- Everybody in the partition and everybody who is queued for a neighbor obeys the rule. -/
structure Held (rule : Rule) (c : Scope) (p : Partition) : Prop where
  spots : ∀ site x a, p.Spot c site x → p.agents[x]? = some a → rule x ⟨p.rank, site, a.cursor⟩
  mail : p.outbox.Every (rule.Sends p.rank)
  horizon : p.dueAgents.stop = p.timing.stop

end Partition

end Mobility
