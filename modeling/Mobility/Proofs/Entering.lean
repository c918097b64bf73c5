import Mobility.Proofs.Ensemble.Completion
import Mobility.Proofs.Ensemble.Obeying
import Mobility.Proofs.Entering.Acts
import Mobility.Proofs.Stopping

/-!
# Entering links in runs

In the run of a fresh scenario whoever enters an owned link has just consumed the instruction to traverse it, and takes
as long as the scenario says (`Ensemble.traversals_agree`), whether it comes from the own partition or from a neighbor,
and however long it has waited in front of the link: as long as it waits, it stays where it is in its plan.
-/

set_option autoImplicit false

namespace Mobility

open Act

/-! ## Who heads for a link -/

/-- Whoever waits in front of a link, or is on its way there, has just consumed the instruction to traverse it. -/
def Scenario.Heading (s : Scenario) : Rule
  | x, ⟨_, .inbound link, k⟩ | x, ⟨_, .outbound link, k⟩ | x, ⟨_, .mailed _ (some link), k⟩ => s.HeadsFor x k link
  | _, ⟨_, .stop _ _ index, _⟩ | _, ⟨_, .aboard _ index, _⟩ => index < 0x100
  | _, _ => True

namespace Scenario

variable {s : Scenario} {timing : Timing} {now i : Nat} {ps : List Partition}

/-- It stays so when it moves. -/
theorem closed_heading (s : Scenario) (timing : Timing) (now : Nat) : Rule.Closed s.Heading s timing now True := by
  intro x a b moves obeys
  cases moves with
  | @outbound r k i link velocity next action feeds =>
    obtain ⟨event, action'⟩ := i
    obtain rfl : action' = .traverse link velocity := action
    exact ⟨k, event, link, velocity, rfl, next, rfl⟩
  | @waits r k i route stop event leaving => exact leaving.index.isLt
  | posted | linesUp | boards | rides => exact obeys
  | handedOver | called | leads | finishes | entered | paused | serves | alights | retries | stays | late | admitted |
    received | arrives => trivial

theorem governs_heading (s : Scenario) (timing : Timing) (now : Nat) (ps : List Partition) :
    s.Governs timing now True s.Heading ps where
  closed := s.closed_heading timing now
  indices _ _ _ _ _ obeys := obeys
  room _ _ _ _ _ _ _ _ _ _ _ _ _ _ _ := trivial
  welcoming _ _ _ _ _ _ _ _ := trivial

end Scenario

namespace Partition

variable {s : Scenario} {timing : Timing} {now i x : Nat} {p p₀ q r : Partition} {m : Moment} {hand : Multiset Nat}
  {c : Scope}

theorem Held.bound (h : p.Held s.Heading c) (setting : p.Setting s timing i)
    (known : ∀ x ∈ p.census hand, ∃ a, p.agents[x]? = some a) : p.Bound := by
  intro link x waits
  obtain ⟨a, found⟩ := known x (Multiset.mem_of_le
    (p.heading_le_standing.trans all_standing_le_census) (mem_heading_of_inFront waits))
  obtain ⟨velocity, consumed⟩ := setting.traverses found (h.spots (.inbound link) x a waits found)
  exact ⟨a, velocity, found, consumed⟩

/-! ## Moments -/

/-- Whoever leaves a link makes room for those who wait in front of it. -/
theorem ushers_takeHead {link : Nat} {v : LinkView} {head : Entry} {F : Failure → Prop}
    (sustains : Sustains F now (Amid s.Heading now p₀)) (start : p₀.Setting s timing i) (last : now < Clock.last)
    (amid : Amid s.Heading now p₀ 0 p) (view : p.links[link]? = some v) (front : v.front? = some head)
    (due : head.finish ≤ now) (turn : Dispatched head.agent now p true q) :
    Leaves (Ushers s timing now) (takeHead link now) q := by
  obtain ⟨w, after, stays⟩ := front_dispatched turn view front
  refine .look (looks_view link) fun w' seen => .look (looks_attempt _) fun ⟨popped, u⟩ pops => ?_
  obtain rfl := Option.some.inj (after.symm.trans (view_eq_ok.1 seen).1)
  obtain ⟨pops, -⟩ := attempt_eq_ok.1 pops
  obtain rfl := front_of_pop stays pops
  have leaves : Leaves (Ushers s timing now) (setView link u) q :=
    ushers_setView after fun _ => .one (.pop due pops) nofun
  refine leaves.bind fun _ r sets => ?_
  obtain rfl := setView_eq_ok.1 sets
  have amid := sustains.popped amid view front due turn after pops
  have setting := amid.setting start
  have there := Array.getElem?_setIfInBounds_self_of_lt (a := u) (Array.getElem?_eq_some_iff.1 after).1
  exact ushers_drainInbound there last setting (amid.held.bound setting amid.ready.known)

/-- Whatever a partition does next, and even if it fails, everybody is let in as its plan says. -/
theorem letsIn_perform {F : Failure → Prop} (sustains : Sustains F now (Amid s.Heading now p₀))
    (start : p₀.Setting s timing i) (last : now < Clock.last) (follows : Follows (Amid s.Heading now p₀) m p) :
    Leaves (LetsIn s timing now) (m.perform now) p := by
  obtain ⟨w, amid, -, same⟩ := follows
  refine leaves_perform attends_ushers Ushers.letsIn LetsIn.ushered (fun v turn => ?_) ?_
  · obtain rfl := same (by cases turn <;> rfl)
    exact letsIn_dispatch amid.ready (turn.free amid.ready.once).1 last (amid.setting start)
  · rintro link budget rest v head q rfl view front due turn
    obtain rfl := same rfl
    exact ushers_takeHead sustains start last amid view front due turn

/-- Whoever is taken in enters the link for which it heads, at once or later. -/
theorem letsIn_receiveAgent {first : Entrant} {rest : List Entrant}
    (greets : Greets s timing s.Heading now i (first :: rest) p) (last : now < Clock.last) :
    Leaves (LetsIn s timing now) (receiveAgent first.2.2 first.2.1 first.1 now) p := by
  obtain ⟨⟨⟩, q, ends⟩ := ends_of_never greets.hosts.safe
  obtain ⟨taken⟩ := receiveAgent_ends ends
  refine .of_ends ends (letsIn_takenIn taken last greets.setting fun l entry => ?_)
  have sent := (greets.sent first List.mem_cons_self).1
  rw [entry] at sent
  exact sent

/-- Agents and links are the same. -/
structure Idle (p q : Partition) : Prop where
  agents : q.agents = p.agents
  links : q.links = p.links

instance : Std.Refl Idle := ⟨fun _ => ⟨rfl, rfl⟩⟩

instance : IsTrans Partition Idle := ⟨fun _ _ _ h k => ⟨k.agents.trans h.agents, k.links.trans h.links⟩⟩

theorem idle_sendReleases : Leaves Idle (sendReleases now) p :=
  .look .get fun _ _ => Leaves.bind (.modify ⟨rfl, rfl⟩) fun _ _ _ => (looks_communicate _).leaves

end Partition

open Mobility.Partition

/-! ## What a process does -/

namespace Process

/-- In second `now` the process does one thing after the other to its partition in its next step. -/
inductive Does (x : Process) (now : Nat) : Partition → Partition → Prop where
  | works {m : Moment} {p : Partition} (stage : x.stage = .working now) (reaches : Reaches now x.partition m p) :
      Does x now p ((m.perform now).left p)
  | receives {d : Delivery} {first : Entrant} {rest : List Entrant} {p : Partition}
      (stage : x.stage = .receiving .transfers now [] d) (receives : Receives now d x.partition (first :: rest) p) :
      Does x now p ((receiveAgent first.2.2 first.2.1 first.1 now).left p)
  | settles {d : Delivery} (stage : x.stage = .receiving .releases now [] d) :
      Does x now x.partition ((receiveReleases now d).left x.partition)

/-- What the process does leads to these agents and links. -/
def Leads (x : Process) (p : Partition) : Prop :=
  ∃ now q, Relation.ReflTransGen (x.Does now) x.partition q ∧ Idle q p

variable {x : Process} {now : Nat} {p : Partition} {m : Moment} {d : Delivery} {entrants : List Entrant}

theorem does_of_reaches (stage : x.stage = .working now) (reaches : Reaches now x.partition m p) :
    Relation.ReflTransGen (x.Does now) x.partition p := by
  induction reaches with
  | begins => exact .refl
  | goes before performs ih => exact ih.tail (left_of_ends performs ▸ .works stage before)

theorem does_of_receives (stage : x.stage = .receiving .transfers now [] d)
    (receives : Receives now d x.partition entrants p) :
    Leaves (Relation.ReflTransGen (x.Does now)) (entrants.forM fun e => receiveAgent e.2.2 e.2.1 e.1 now) p := by
  induction entrants generalizing p with
  | nil => exact .refl
  | cons first rest ih =>
    have does : Leaves (x.Does now) (receiveAgent first.2.2 first.2.1 first.1 now) p := .receives stage receives
    exact .seq (fun _ does => .single does) (fun _ _ does later => .head does later) does fun _ _ ends =>
      ih (receives.goes ends)

/-- Nothing else comes of the partition of a process in a step. -/
theorem leads_of_acts (acts : Ensemble.Acts x p) : x.Leads p := by
  cases acts with
  | rests => exact ⟨0, x.partition, .refl, Std.Refl.refl _⟩
  | @works now stage =>
    cases run : (depart now).run x.partition with
    | ok b q =>
      obtain ⟨r, outbox, reaches, rfl⟩ := reaches_of_depart run
      exact ⟨now, r, does_of_reaches stage reaches, left_of_ends run ▸ ⟨rfl, rfl⟩⟩
    | error f q =>
      rw [left_of_fails run]
      cases stops_of_depart run with
      | @amid m r reaches fails =>
        have does : x.Does now r q := left_of_fails fails ▸ .works stage reaches
        exact ⟨now, q, (does_of_reaches stage reaches).tail does, Std.Refl.refl q⟩
      | @posting r outbox reaches left => exact ⟨now, r, does_of_reaches stage reaches, left ▸ ⟨rfl, rfl⟩⟩
  | @receives now d stage =>
    have received : Leaves (Relation.ReflTransGen (x.Does now)) (receiveTransfers now d) x.partition := by
      refine .look .get fun p seen => .look (looks_communicate _) fun transfers read => ?_
      obtain ⟨rfl, -⟩ := get_eq_ok.1 seen
      simp only [receiveTransfer_eq]
      rw [← forM_flatMap]
      exact does_of_receives stage (.begins (communicate_eq_ok.1 read).1)
    exact Leaves.seq (R := Relation.ReflTransGen (x.Does now)) (S := Idle)
      (T := fun p q => ∃ now r, Relation.ReflTransGen (x.Does now) p r ∧ Idle r q)
      (fun q does => ⟨now, q, does, Std.Refl.refl q⟩) (fun q r does idle => ⟨now, q, does, idle⟩) received
      fun _ _ _ => idle_sendReleases
  | @settles now d stage => exact ⟨now, _, .single (.settles stage), Std.Refl.refl _⟩

end Process

namespace Ensemble

variable {raw s : Scenario} {method : Method} {timing : Timing} {c₀ c d : Ensemble} {schedule : List Turn} {turn : Turn}
  {rank now : Nat} {x y : Process} {p q : Partition}

/-- A step changes nothing but what its process does. -/
theorem leads_of_step (hs : c.step turn = some d) (hx : c.processes[rank]? = some x)
    (hy : d.processes[rank]? = some y) : x.Leads y.partition := by
  obtain ⟨z, r, stage, hz, processes, acts⟩ := step_acts hs
  rw [processes, getElem?_set_of hz] at hy
  split at hy
  · rename_i own
    subst own
    obtain rfl := Option.some.inj (hz.symm.trans hx)
    obtain rfl := Option.some.inj hy
    exact Process.leads_of_acts acts
  · obtain rfl := Option.some.inj (hx.symm.trans hy)
    exact ⟨0, x.partition, .refl, Std.Refl.refl _⟩

/-! ## In a run -/

section Run

variable (hs : raw.partition method = .ok s) (fresh : s.Fresh) (fits : s.Fits) (last : timing.stop < Clock.last)
  (hm : make s timing = .ok c₀) (hp : play schedule c₀ = some c) (hx : x ∈ c.processes)

include hs fresh fits last hm hp hx

/-- In whatever a process does next, everybody is let in as its plan says, and whoever waits stays where it is. -/
theorem letsIn_of_play (does : x.Does now p q) :
    p.LetsIn s timing now q ∧ ∀ link, ∀ id ∈ (p.seen link).inFront, p.Stays id q := by
  have early := Clock.lt_base_of_lt_last last
  have home : ∀ (id : Nat) a, s.agents[id]? = some a → s.Heading id ⟨s.homeOf a, .due timing.start, 0⟩ :=
    fun _ _ _ => trivial
  have governs := s.governs_heading timing
  cases does with
  | works stage reaches =>
    obtain ⟨i, inTime, setting, follows⟩ := amid_of_play hs fresh fits early hm hp hx home governs stage reaches
    have sustains := Amid.sustains (s.closed_heading timing now) (Scenario.accepted_of_partition hs) setting
      fun _ _ _ _ _ _ _ _ _ _ _ _ => trivial
    refine ⟨letsIn_perform sustains setting (Nat.lt_of_le_of_lt inTime last) follows, fun link id waits => ?_⟩
    obtain ⟨w, amid, -, same⟩ := follows
    exact stays_perform (fun works => same works ▸ amid.ready) (mem_heading_of_inFront waits)
  | receives stage receives =>
    obtain ⟨i, inTime, greets⟩ := greets_of_play hs fresh fits early hm hp hx home governs stage receives
    refine ⟨letsIn_receiveAgent greets (Nat.lt_of_le_of_lt inTime last), fun link id waits => ?_⟩
    exact stays_receiveAgent greets.hosts (Multiset.mem_of_le
      (p.heading_le_standing.trans all_standing_le_census) (mem_heading_of_inFront waits))
  | settles stage =>
    exact ⟨ushers_receiveReleases.letsIn, fun _ _ _ => unmoved_receiveReleases.stays⟩

/-- Nobody fails in such a way as reading the velocity with which an agent enters a link can fail. -/
theorem velocity_of_play {f : Failure} {id : Nat} (failed : x.stage = .failed f)
    (fails : (requestedVelocity id).run p = .error f q) : False := by
  obtain ⟨r, stage⟩ := x
  obtain rfl : stage = .failed f := failed
  have quiet := requestedVelocity_quiet p f q fails
  rcases failure_of_play hs fresh fits (Clock.lt_base_of_lt_last last) hm hp hx with documented | discord | ⟨same, -⟩
  · rw [Failure.isNotable_of_isDocumented documented] at quiet
    cases quiet
  · rw [Failure.isNotable_of_isDiscord discord] at quiet
    cases quiet
  · exact absurd same last.ne

end Run

/-- However the turns go in the run of a fresh scenario and whoever fails: whenever an agent enters an owned link in
second `now`, the last instruction which it has consumed is to traverse this link, with some velocity; it may leave
the link after the seconds which a traversal with this velocity takes, and both times are noted on the agent. Whoever
waits in front of a link stays where it is in its plan, whatever is done next. Nobody fails because it can't be seen
with which velocity an agent enters a link. And nothing else is done to agents and links. -/
theorem traversals_agree (hs : raw.partition method = .ok s) (fresh : s.Fresh) (fits : s.Fits)
    (ordered : timing.start ≤ timing.stop) (last : timing.stop < Clock.last) :
    ∃ c₀, make s timing = .ok c₀ ∧ ∀ schedule c, play schedule c₀ = some c →
      (∀ x ∈ c.processes,
        (∀ now p q, x.Does now p q →
          p.LetsIn s timing now q ∧ ∀ link, ∀ id ∈ (p.seen link).inFront, p.Stays id q) ∧
        ∀ f, x.stage = .failed f → ∀ id p q, (requestedVelocity id).run p ≠ .error f q) ∧
      ∀ turn d, c.step turn = some d → ∀ (rank : Nat) x y, c.processes[rank]? = some x → d.processes[rank]? = some y →
        x.Leads y.partition := by
  obtain ⟨c₀, hm⟩ := exists_make s ordered
  refine ⟨c₀, hm, fun schedule c hp => ⟨fun x hx => ⟨fun now p q does => ?_, fun f failed id p q fails => ?_⟩,
    fun turn d hs rank x y hx hy => ?_⟩⟩
  · exact letsIn_of_play hs fresh fits last hm hp hx does
  · exact velocity_of_play hs fresh fits last hm hp hx failed fails
  · exact leads_of_step hs hx hy

end Ensemble

/-- The ring, and an agent which comes to the second link in second 1, before the agent of the ring. -/
def Scenario.tailback : Scenario :=
  { ring with agents := ring.agents ++ #[.fresh 1
      ⟨#[Action.word (.sleepFor (low32 1)), Action.wordOnto 1], by decide⟩ 0 (low16 0)] }

namespace Ensemble

/-- In second 2 the link has room for the agent of the ring, which has waited in front of it since second 1. It may
leave after one second more, which is noted. -/
theorem traversals_agree_tailback : ∃ s c₀ c x p q a, Scenario.tailback.partition .modulo = .ok s ∧
    make s ⟨0, 9, 0, 0⟩ = .ok c₀ ∧ play (List.replicate 2 Turn.inTurns).flatten c₀ = some c ∧ x ∈ c.processes ∧
    x.Does 2 p q ∧ (p.seen 1).inFront = [0] ∧ (q.seen 1).queue = [⟨0, 3, some 0⟩] ∧ p.Stays 0 q ∧
    q.agents[0]? = some a ∧ a.Entered s ⟨0, 9, 0, 0⟩ 2 1 3 := by
  have runs : (trial .tailback .modulo ⟨0, 9, 0, 0⟩ (List.replicate 2 Turn.inTurns).flatten).any (fun r =>
      r.1.agents = Scenario.tailback.agents ∧ r.1.numParts = 2 ∧ r.1.links.size = 2 ∧
        r.2.processes.any fun x => x.stage = .working 2 ∧
          ((do (← (← Moment.calling.perform 2).perform 2).perform 2 : Act Moment).outcome x.partition).any fun y =>
            y.1 = .serving 1 1 [] ∧ (y.2.seen 1).inFront = [0] ∧
            (y.2.links[1]?.any fun v => v.isOwned ∧ v.queue = [⟨1, 2, none⟩]) ∧
            ((y.1.perform 2).left y.2).links[1]?.any fun w => w.queue = [⟨0, 3, some 0⟩]) = true := by
    decide +kernel
  obtain ⟨s, c₀, c, hs, hm, hp, hc⟩ := exists_of_trial runs
  simp only [decide_eq_true_eq, List.any_eq_true] at hc
  obtain ⟨agents, parts, links, x, hx, stage, moments⟩ := hc
  obtain ⟨⟨m, p⟩, reached, there⟩ := (Option.any_eq_true _ _).1 moments
  obtain ⟨serving, waits, seen, left⟩ := of_decide_eq_true there
  obtain rfl : m = .serving 1 1 [] := serving
  obtain ⟨v, view, before⟩ := (Option.any_eq_true _ _).1 seen
  obtain ⟨owned, before⟩ := of_decide_eq_true before
  obtain ⟨w, view', after⟩ := (Option.any_eq_true _ _).1 left
  have after := of_decide_eq_true after
  obtain ⟨m, r, calls, later⟩ := bind_eq_ok.1 (Act.outcome_eq_some.1 reached)
  obtain ⟨m', r', visits, serves⟩ := bind_eq_ok.1 later
  have does : x.Does 2 p (((Moment.serving 1 1 []).perform 2).left p) :=
    .works stage (((Reaches.begins.goes calls).goes visits).goes serves)
  have fits : s.Fits := ⟨by rw [parts]; decide, by rw [links]; decide, by rw [agents]; decide⟩
  have fresh : Scenario.tailback.Fresh := Scenario.fresh_of_isFresh (by decide +kernel)
  have ordered : (⟨0, 9, 0, 0⟩ : Timing).start ≤ (⟨0, 9, 0, 0⟩ : Timing).stop := Nat.zero_le 9
  obtain ⟨c₁, hm₁, agree⟩ := traversals_agree hs (fresh.of_agents agents) fits ordered (by decide)
  obtain rfl := Except.ok.inj (hm.symm.trans hm₁)
  obtain ⟨letsIn, stays⟩ := ((agree _ c hp).1 x hx).1 2 p _ does
  obtain ⟨u, view'', h, within, follows, entered⟩ := letsIn 1 v view owned
  obtain rfl := Option.some.inj (view'.symm.trans view'')
  -- Only the agent of the ring is on the link, and it wasn't before.
  have queue := follows.queue
  rw [before, after] at queue
  have comes : (⟨0, 3, some 0⟩ : Entry) ∈ h.entries := by
    have there : (⟨0, 3, some 0⟩ : Entry) ∈ [⟨1, 2, none⟩] ++ h.entries :=
      queue ▸ List.mem_append_right _ List.mem_cons_self
    exact (List.mem_append.1 there).resolve_left (by decide)
  obtain ⟨a, found, agrees⟩ := entered _ comes
  refine ⟨s, c₀, c, x, p, _, a, hs, hm, hp, hx, does, waits, ?_, stays 1 0 (waits ▸ List.mem_cons_self), found, agrees⟩
  rw [seen_of_view view']
  exact after

end Ensemble

end Mobility
