import Mobility.Proofs.Whereabouts.Sites

/-!
# Routes

The partitions which a plan leads through are known before a run, and those which follow each other are
neighbors (`Scenario.Accepted.neighbor_of_next`). Agents follow their routes if a plan is right about where
its agent is when it does something that is possible everywhere (`Scenario.Direct`): vehicles let passengers
leave and board only where they have come to, and passengers leave where their plans go on. Then no move leads
off the routes (`Scenario.closed_plotted`).
-/

set_option autoImplicit false

namespace Mobility.Scenario

variable {s : Scenario} {a : Agent} {x y k l r target rank link : Nat} {i j : Instruction}

/-! ## Ways -/

theorem linked_connectAlong_next {way rest : List Nat} {t : Table (Table Unit)} {here next : Nat}
    (other : way.getLastD here ≠ next) :
    Linked (connectAlong t here (way ++ next :: rest)) (way.getLastD here) next := by
  induction way generalizing t here with
  | nil =>
    show Linked (connectAlong (connect t here next) next rest) here next
    exact linked_connectAlong (linked_connect.2 (.inr ⟨other, .inl ⟨rfl, rfl⟩⟩))
  | cons first way ih =>
    rw [List.getLastD_cons] at other ⊢
    exact ih other

/-- The partitions which the first `k` instructions of a plan lead through. -/
def trail (s : Scenario) (a : Agent) (k : Nat) : List Nat :=
  (a.plan.words.toList.take k).filterMap fun w => (Instruction.decode w).toOption.bind fun i => s.placeOf i.action

/-- Where agent `x` is after `k` instructions if it follows its plan. -/
def standsAt (s : Scenario) (x k : Nat) : Nat :=
  (s.agents[x]?).elim 0 fun a => (s.trail a k).getLastD (s.homeOf a)

theorem standsAt_zero (h : s.agents[x]? = some a) : s.standsAt x 0 = s.homeOf a := by
  rw [standsAt, h]
  rfl

theorem word_of_get? {plan : Plan} (h : plan.get? k = .ok (some i)) :
    ∃ w, plan.words.toList[k]? = some w ∧ (Instruction.decode w).toOption = some i := by
  unfold Plan.get? at h
  split at h
  · cases h
  · rename_i w hw
    refine ⟨w, by rw [Array.getElem?_toList]; exact hw, ?_⟩
    split at h
    · rename_i i' decoded
      rw [decoded]
      exact Except.ok.inj h
    · cases h

theorem trail_succ (h : a.plan.get? k = .ok (some i)) :
    s.trail a (k + 1) = s.trail a k ++ (s.placeOf i.action).toList := by
  obtain ⟨w, hw, decoded⟩ := word_of_get? h
  unfold trail
  rw [List.take_add_one, hw, Option.toList_some, List.filterMap_append]
  congr 1
  cases place : s.placeOf i.action with
  | none => simp [decoded, place]
  | some part => simp [decoded, place]

/-- After an instruction which is bound to a place an agent is there. -/
theorem standsAt_succ (h : s.Instructs x k i) :
    s.standsAt x (k + 1) = (s.placeOf i.action).getD (s.standsAt x k) := by
  obtain ⟨a, ha, next⟩ := h
  unfold standsAt
  rw [ha]
  show (s.trail a (k + 1)).getLastD _ = _
  rw [trail_succ next]
  cases place : s.placeOf i.action with
  | none => rw [Option.toList_none, List.append_nil]; rfl
  | some part => rw [Option.toList_some, List.getLastD_concat]; rfl

theorem Instructs.unique (h : s.Instructs x k i) (h' : s.Instructs x k j) : i = j := by
  obtain ⟨a, ha, next⟩ := h
  obtain ⟨a', ha', next'⟩ := h'
  obtain rfl := Option.some.inj (ha.symm.trans ha')
  exact Option.some.inj (Except.ok.inj (next.symm.trans next'))

theorem placeOf_of_startOf {action : Action} (h : s.startOf action = some target) :
    s.placeOf action = some target := by
  unfold startOf at h
  split at h
  · exact h
  · exact h
  · exact h
  · cases h

namespace Accepted

/-- The way of an agent connects the partitions on it. -/
theorem linked_route (h : s.Accepted) (ha : s.agents[x]? = some a) {b c : Nat}
    (hl : ∀ t, Linked (connectAlong t (s.homeOf a) (s.route a)) b c) : Linked s.findNeighbors b c := by
  have listed : (a, s.homeOf a) ∈ s.agents.toList.zip s.homes.toList := by
    rw [h.homes, Array.toList_map]
    have known : s.agents.toList[x]? = some a := by rw [Array.getElem?_toList]; exact ha
    refine List.mem_of_getElem? (i := x) ?_
    rw [List.getElem?_zip_eq_some]
    exact ⟨known, by rw [List.getElem?_map, known]; rfl⟩
  unfold findNeighbors
  obtain ⟨before, after, split⟩ := List.append_of_mem listed
  rw [split, List.foldl_append, List.foldl_cons]
  exact List.foldlRecOn (motive := fun t => Linked t b c) _ _ (hl _) fun t ht row _ => linked_connectAlong ht

/-- The next place of a plan is a neighbor, or it is where the agent is already. -/
theorem neighbor_of_next (h : s.Accepted) (next : s.Instructs x k i) (place : s.placeOf i.action = some target)
    (other : s.standsAt x k ≠ target) : target ∈ s.neighborsOf (s.standsAt x k) := by
  obtain ⟨a, ha, hnext⟩ := next
  have route : s.route a = s.trail a k ++ target :: (a.plan.words.toList.drop (k + 1)).filterMap fun w =>
      (Instruction.decode w).toOption.bind fun i => s.placeOf i.action := by
    obtain ⟨w, hw, decoded⟩ := word_of_get? hnext
    unfold route Plan.decoded trail
    rw [List.filterMap_filterMap]
    conv_lhs => rw [← List.take_append_drop k a.plan.words.toList]
    rw [List.filterMap_append, List.drop_eq_getElem?_toList_append, hw]
    simp [decoded, place]
  have stands : s.standsAt x k = (s.trail a k).getLastD (s.homeOf a) := by rw [standsAt, ha]; rfl
  rw [stands] at other ⊢
  refine h.mem_neighborsOf.2 (h.linked_route ha fun t => ?_)
  rw [route]
  exact linked_connectAlong_next other

/-- Whoever feeds a link is a neighbor of its owner. -/
theorem neighbor_of_feeds (h : s.Accepted) (feeds : s.Feeds rank link) :
    s.linkPart link ∈ s.neighborsOf rank := by
  obtain ⟨spec, hspec, feeds⟩ := feeds
  have crossing : (⟨link, rank, spec.part⟩ : Crossing) ∈ s.crossings := h.mem_crossings.2 ⟨spec, hspec, rfl, feeds⟩
  have part : s.linkPart link = spec.part := by rw [linkPart, hspec]
  rw [part]
  exact h.crossing_neighbors crossing

end Accepted

/-! ## Plans which are right about places -/

/-- After `k` instructions agent `x` waits at a stop for a route, and it is going to leave at `leaving`. -/
def Awaits (s : Scenario) (x k stop route : Nat) (leaving : StopRef) : Prop :=
  ∃ j i ref at_ event, k = j + 1 ∧ s.Instructs x j i ∧ i.action = .wait ref at_ ∧ at_.val = stop ∧
    ref.val = route ∧ s.Instructs x (j + 2) ⟨event, .egress leaving⟩

/-- Vehicle `v` lets passengers leave and board at a stop after `l` instructions. -/
def Serves (s : Scenario) (v l : Nat) (stop : StopRef) : Prop :=
  ∃ i, s.Instructs v l i ∧ i.action = .stopDelay stop

/-- Plans are right about where their agents are. -/
structure Direct (s : Scenario) : Prop where
  /-- Vehicles let passengers leave and board, and depart, at a stop of the partition they have come to. -/
  serves : ∀ v l i stop, s.Instructs v l i → i.action = .stopDelay stop ∨ i.action = .stopDepart stop →
    s.stopPart stop.stop.val = s.standsAt v l
  /-- Where a vehicle on which a passenger can be lets it leave, there the plan of the passenger goes on. -/
  leaves : ∀ x k v l l' boarding leaving stop, s.Awaits x k boarding.stop.val boarding.route.val leaving →
    s.Serves v l boarding → s.Serves v l' stop → stop.index = leaving.index →
      s.stopPart stop.stop.val = s.stopPart leaving.stop.val

/-- All instructions with their agents and positions. -/
def steps (s : Scenario) : List (Nat × Nat × Instruction) :=
  s.agents.toList.zipIdx.flatMap fun agent => agent.1.plan.words.toList.zipIdx.filterMap fun word =>
    (Instruction.decode word.1).toOption.map fun i => (agent.2, word.2, i)

theorem Instructs.mem_steps (h : s.Instructs x k i) : (x, k, i) ∈ s.steps := by
  obtain ⟨a, ha, next⟩ := h
  obtain ⟨w, hw, decoded⟩ := word_of_get? next
  refine List.mem_flatMap.2 ⟨(a, x), ?_, List.mem_filterMap.2 ⟨(w, k), List.mem_zipIdx_iff_getElem?.2 hw, ?_⟩⟩
  · exact List.mem_zipIdx_iff_getElem?.2 (by rw [Array.getElem?_toList]; exact ha)
  · rw [decoded]
    rfl

/-- Whether plans are right about where their agents are. -/
def isDirect (s : Scenario) : Bool :=
  s.steps.all (fun (v, l, i) =>
    match i.action with
    | .stopDelay stop | .stopDepart stop => s.stopPart stop.stop.val = s.standsAt v l
    | _ => true) &&
  s.steps.all fun (x, j, waits) => s.steps.all fun (y, k, leaves) =>
    match waits.action, leaves.action with
    | .wait route stop, .egress leaving =>
      !(y = x && k = j + 2) || s.steps.all fun (v, _, boards) => s.steps.all fun (w, _, i) =>
        match boards.action, i.action with
        | .stopDelay boarding, .stopDelay there =>
          !(w = v && boarding.stop = stop && boarding.route = route && there.index = leaving.index) ||
            s.stopPart there.stop.val = s.stopPart leaving.stop.val
        | _, _ => true
    | _, _ => true

theorem direct_of_isDirect (h : s.isDirect = true) : s.Direct := by
  obtain ⟨serves, leaves⟩ := Bool.and_eq_true_iff.1 h
  refine ⟨fun v l i stop next action => ?_, fun x k v l l' boarding leaving stop awaits boards stops index => ?_⟩
  · have here := List.all_eq_true.1 serves _ next.mem_steps
    dsimp only at here
    rcases action with action | action <;> rw [action] at here <;> exact of_decide_eq_true here
  · obtain ⟨j, waits, route, place, event, rfl, waiting, wait, samePlace, sameRoute, egress⟩ := awaits
    obtain ⟨b, boards, board⟩ := boards
    obtain ⟨d, stops, delay⟩ := stops
    have passenger := List.all_eq_true.1 (List.all_eq_true.1 leaves _ waiting.mem_steps) _ egress.mem_steps
    dsimp only at passenger
    rw [wait] at passenger
    simp only [decide_true, Bool.and_self, Bool.not_true, Bool.false_or] at passenger
    have vehicle := List.all_eq_true.1 (List.all_eq_true.1 passenger _ boards.mem_steps) _ stops.mem_steps
    dsimp only at vehicle
    rw [board, delay, Fin.ext samePlace, Fin.ext sameRoute] at vehicle
    simpa [index] using vehicle

/-! ## The rule -/

/-- The agent is where it follows its plan after `k` instructions, or where it does the next one. -/
def Near (s : Scenario) (x k r : Nat) : Prop :=
  s.standsAt x k = r ∨ ∃ i, s.Instructs x k i ∧ s.placeOf i.action = some r

/-- Agents follow their routes. Whoever is sent to another partition is sent to a neighbor. -/
def Plotted (s : Scenario) : Rule
  | x, ⟨r, .outbound link, k⟩ => s.standsAt x k = s.linkPart link ∧ s.Feeds r link
  | x, ⟨r, .mailed target none, k⟩ =>
    s.standsAt x k = r ∧ target ≠ r ∧ ∃ i, s.Instructs x k i ∧ s.placeOf i.action = some target
  | x, ⟨r, .mailed target (some link), k⟩ =>
    s.standsAt x k = target ∧ target = s.linkPart link ∧ s.Feeds r link
  | x, ⟨_, .stop stop route index, k⟩ => ∃ leaving, s.Awaits x k stop route leaving ∧ leaving.index.val = index
  | x, ⟨_, .aboard v index, k⟩ => ∃ j l boarding leaving, k = j + 1 ∧
    s.Awaits x j boarding.stop.val boarding.route.val leaving ∧ s.Serves v l boarding ∧ leaving.index.val = index
  | x, ⟨r, .acting, k⟩ | x, ⟨r, .due _, k⟩ | x, ⟨r, .beyond, k⟩ | x, ⟨r, .queued .., k⟩ | x, ⟨r, .inbound _, k⟩
  | x, ⟨r, .gone _, k⟩ => s.Near x k r

theorem Near.eq_of_place (h : s.Near x k r) (next : s.Instructs x k i)
    (place : s.placeOf i.action = some (s.standsAt x k)) : s.standsAt x k = r := by
  rcases h with here | ⟨i', next', place'⟩
  · exact here
  · obtain rfl := next.unique next'
    exact Option.some.inj (place.symm.trans place')

/-- A vehicle which serves a stop is where the stop is. -/
theorem Direct.here (h : s.Direct) (near : s.Near x k r) (next : s.Instructs x k i) {stop : StopRef}
    (action : i.action = .stopDelay stop ∨ i.action = .stopDepart stop) :
    s.placeOf i.action = some r ∧ s.stopPart stop.stop.val = r := by
  have serves := h.serves x k i stop next action
  have place : s.placeOf i.action = some (s.stopPart stop.stop.val) := by
    rcases action with action | action <;> rw [action] <;> rfl
  rw [serves] at place ⊢
  have here := near.eq_of_place next place
  exact ⟨here ▸ place, here⟩

theorem Near.after (next : s.Instructs x k i) (place : s.placeOf i.action = some r) : s.Near x (k + 1) r := by
  refine .inl ?_
  rw [standsAt_succ next, place]
  rfl

/-- No move leads off the routes. -/
theorem closed_plotted (h : s.Direct) (timing : Timing) (now : Nat) :
    Rule.Closed s.Plotted s timing now True := by
  intro x a b moves obeys
  cases moves with
  | called | leads | finishes | retries | stays | late | linesUp => first | exact obeys | exact .inl obeys.1
  | handedOver next place elsewhere unfed =>
    have place := placeOf_of_startOf place
    refine ⟨?_, elsewhere, _, next, place⟩
    rcases obeys with here | ⟨i', next', place'⟩
    · exact here
    · obtain rfl := next.unique next'
      exact absurd (Option.some.inj (place.symm.trans place')) elsewhere
  | outbound next action feeds =>
    refine ⟨?_, feeds⟩
    rw [standsAt_succ next, action]
    rfl
  | entered next action mine => exact .after next (by rw [action]; exact congrArg some mine)
  | @paused r k time i next wakes here =>
    cases place : s.placeOf i.action with
    | some part => exact .after next (by rw [place, here part place])
    | none =>
      refine .inl ?_
      rw [standsAt_succ next, place]
      rcases obeys with stands | ⟨i', next', place'⟩
      · exact stands
      · obtain rfl := next.unique next'
        cases place.symm.trans place'
  | waits next action here egress =>
    exact ⟨_, ⟨_, _, _, _, _, rfl, next, action, rfl, rfl, egress⟩, rfl⟩
  | serves next action => exact .after next (h.here obeys next action).1
  | @alights r k v l i j stop vehicle stops action next =>
    obtain ⟨k, l', boarding, leaving, rfl, awaits, serves, index⟩ := obeys
    have here := (h.here vehicle stops (.inl action)).2
    have place := h.leaves x k v l' l boarding leaving stop awaits serves ⟨i, stops, action⟩
      (Fin.ext index.symm)
    obtain ⟨k, _, _, _, event, rfl, -, -, -, -, egress⟩ := awaits
    refine .after egress ?_
    show some (s.stopPart leaving.stop.val) = _
    rw [← place, here]
  | boards vehicle stops action ahead =>
    obtain ⟨leaving, awaits, index⟩ := obeys
    exact ⟨_, _, _, leaving, rfl, awaits, ⟨_, stops, action⟩, index⟩
  | admitted | rides => exact obeys
  | posted => exact ⟨obeys.1, rfl, obeys.2⟩
  | received =>
    obtain ⟨-, -, i, next, place⟩ := obeys
    exact .inr ⟨i, next, place⟩
  | arrives => exact .inl obeys.1

/-- Whoever is sent on its route is sent to a neighbor. -/
theorem Accepted.neighbor_of_sends (h : s.Accepted) {entry : Option Nat} {record : AgentRecord}
    (sends : Rule.Sends s.Plotted r target entry record) : target ∈ s.neighborsOf r := by
  obtain ⟨mailed, -⟩ := sends
  cases entry with
  | none =>
    obtain ⟨rfl, other, i, next, place⟩ := mailed
    exact h.neighbor_of_next next place (Ne.symm other)
  | some link =>
    obtain ⟨-, rfl, feeds⟩ := mailed
    exact h.neighbor_of_feeds feeds

end Mobility.Scenario
