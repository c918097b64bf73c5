import Mobility.Proofs.FreeFlow.Room

/-!
# Queues in free flow

It takes everybody the same time to traverse a link, so whoever enters it may not leave it before those who
are there (`Scenario.FreeFlow.le_after`). Whatever a partition does, it puts agents behind the others
(`Partition.Grown`) or takes the first one away, and so agents on a link stand in the order in which they may
leave it (`Partition.InLine`).
-/

set_option autoImplicit false

namespace Mobility

open Act

theorem Clock.after_le_after {t u duration : Nat} (h : t ≤ u) : after t duration ≤ after u duration := by
  unfold after
  omega

/-- Somebody has come to the end of a queue, or nobody. It may leave after second `now`, and not before the
others. -/
inductive Lengthened (now : Nat) (es : List Entry) : List Entry → Prop where
  | same : Lengthened now es es
  | behind {e : Entry} (later : now < e.finish) (last : ∀ f ∈ es, f.finish ≤ e.finish) :
      Lengthened now es (es ++ [e])

namespace Lengthened

variable {now : Nat} {es fs : List Entry}

theorem pairwise (h : Lengthened now es fs) (line : es.Pairwise fun e f => e.finish ≤ f.finish) :
    fs.Pairwise fun e f => e.finish ≤ f.finish := by
  cases h with
  | same => exact line
  | behind _ last =>
    refine List.pairwise_append.2 ⟨line, List.pairwise_singleton .., fun f hf e he => ?_⟩
    obtain rfl := List.mem_singleton.1 he
    exact last f hf

theorem later (h : Lengthened now es fs) (prompt : ∀ e ∈ es, now < e.finish) : ∀ e ∈ fs, now < e.finish := by
  intro e he
  cases h with
  | same => exact prompt e he
  | behind later =>
    rcases List.mem_append.1 he with old | new
    · exact prompt e old
    · obtain rfl := List.mem_singleton.1 new
      exact later

end Lengthened

namespace Partition

variable {s : Scenario} {timing : Timing} {now i id link part : Nat} {p q : Partition} {v w : LinkView}

/-- On every link agents stand in the order in which they may leave it. -/
def InLine (p : Partition) : Prop := ∀ link, (p.seen link).entries.Pairwise fun e f => e.finish ≤ f.finish

/-- Nobody on the link may leave it in second `now` or before. -/
def Prompt (now link : Nat) (p : Partition) : Prop := ∀ e ∈ (p.seen link).entries, now < e.finish

/-- On every link the same agents stand, and maybe somebody behind them. -/
def Grown (now : Nat) (p q : Partition) : Prop :=
  ∀ link, Lengthened now (p.seen link).entries (q.seen link).entries

/-- On every link the same agents stand. -/
def SameLines (p q : Partition) : Prop := ∀ link, (q.seen link).entries = (p.seen link).entries

instance : Std.Refl SameLines := ⟨fun _ _ => rfl⟩

instance : IsTrans Partition SameLines := ⟨fun _ _ _ h k link => (k link).trans (h link)⟩

theorem SameLines.grown (h : SameLines p q) : Grown now p q := fun link => by
  rw [h link]
  exact .same

theorem sameLines_of_links (h : q.links = p.links) : SameLines p q := fun link => by rw [seen_of_links h]

theorem InLine.grown (h : p.InLine) (g : Grown now p q) : q.InLine := fun link => (g link).pairwise (h link)

theorem InLine.same (h : p.InLine) (g : SameLines p q) : q.InLine := fun link => g link ▸ h link

theorem Prompt.same (h : Prompt now link p) (g : SameLines p q) : Prompt now link q := fun e he =>
  h e (g link ▸ he)

theorem Prompt.grown (h : Prompt now link p) (g : Grown now p q) : Prompt now link q := fun e he =>
  (g link).later h e he

/-- If the first agent on a link may not leave yet, nobody there may. -/
theorem InLine.prompt_of_front (h : p.InLine) (later : ∀ head, (p.seen link).front? = some head → now < head.finish) :
    Prompt now link p := by
  intro e he
  have line := h link
  unfold LinkView.front? at later
  unfold LinkView.entries at he line
  cases owned : (p.seen link).link? with
  | none =>
    rw [owned] at he
    cases he
  | some l =>
    rw [owned] at he line later
    have there : e ∈ l.queue := he
    have line : l.queue.Pairwise fun e f => e.finish ≤ f.finish := line
    cases queue : l.queue with
    | nil =>
      rw [queue] at there
      cases there
    | cons head rest =>
      rw [queue] at there line
      have later : now < head.finish := later head (by rw [Option.bind_some, queue, List.head?_cons])
      rcases List.mem_cons.1 there with rfl | behind
      · exact later
      · exact later.trans_le (List.rel_of_pairwise_cons line behind)

/-! ## Entering a link -/

theorem grown_setView (view : p.links[link]? = some v) (links : q.links = p.links.setIfInBounds link w)
    (h : Lengthened now v.entries w.entries) : Grown now p q := by
  intro l
  have seen : q.seen l = if l = link then w else p.seen l :=
    (seen_of_links (p := { p with links := p.links.setIfInBounds link w }) links l).trans (seen_setView view l)
  rw [seen]
  split
  · rename_i same
    rw [same, seen_of_view view]
    exact h
  · exact .same

/-- Who enters a link in this second may not leave it before those who are there. -/
def EntersLast (s : Scenario) (timing : Timing) (now x : Nat) (p : Partition) : Prop :=
  ∀ (k : Nat) i (link : LinkRef) (velocity : Velocity), s.Instructs x k i → i.action = .traverse link velocity →
    ∀ e ∈ (p.seen link.val).entries, e.finish ≤ Clock.after now (s.travelTime link.val velocity.val timing.delay)

theorem grown_dispatched {b : Bool} (setting : p.Setting s timing i) (last : now < Clock.last)
    (behind : p.EntersLast s timing now id) (turn : Dispatched id now p b q) : Grown now p q := by
  cases turn with
  | finished | refused => exact (sameLines_of_links rfl).grown
  | handedOver found current sent => exact (sameLines_of_links (offRoad_send sent).links).grown
  | outbound found current action view pushed consumes =>
    exact grown_setView view (offRoad_consume consumes).links .same
  | @entered a j link velocity v w l finish r q found current action view owned time pushed consumes scheduled =>
    have links : q.links = p.links.setIfInBounds link.val w := by
      refine Eq.trans ?_ (offRoad_consume consumes).links
      obtain ⟨due, rfl⟩ := scheduled_ends scheduled Eq.symm
      rfl
    refine grown_setView view links ?_
    obtain ⟨-, -, -, -, travel⟩ := setting.owned view owned
    have timed : p.timing = timing := setting.timing
    rw [(LinkView.entries_push pushed owned).1]
    refine .behind (time ▸ Clock.lt_after last (Link.travelTime_pos ..)) fun f hf => ?_
    rw [time, travel, timed]
    exact behind _ j link velocity (setting.instructs found current) action f (by rwa [seen_of_view view])
  | paused found current action consumes wakes =>
    exact (sameLines_of_links ((offRoad_consume consumes).trans (offRoad_wake wakes)).links).grown
  | queued found current action consumes => exact (sameLines_of_links (offRoad_consume consumes).links).grown
  | exchanged found current action exchange => exact (sameLines_of_links (offRoad_exchanged exchange).links).grown
  | departed found current action consumes => exact (sameLines_of_links (offRoad_consume consumes).links).grown

/-- Whoever comes to a gateway stands behind the others, if it may not leave before them. -/
theorem grown_welcomed (last : now < Clock.last)
    (behind : ∀ (g : Gateway) finish a, p.links[link]? = some (.gateway g) → p.Enters g.link id now finish a →
      ∀ e ∈ (p.seen link).entries, e.finish ≤ finish)
    (h : Welcomed id link part now p q) : Grown now p q := by
  cases h with
  | waits view => exact grown_setView view rfl .same
  | @enters g a finish q view known empty room enters scheduled =>
    obtain ⟨event, requested, velocity, -, time⟩ := enters.time
    have links : q.links = p.links.setIfInBounds link (.gateway (g.append id part finish)) := by
      obtain ⟨due, rfl⟩ := scheduled_ends scheduled fun same => same
      rfl
    refine grown_setView view links (.behind (time ▸ Clock.lt_after last (Link.travelTime_pos ..)) fun f hf => ?_)
    exact behind g finish a view enters f (by rwa [seen_of_view view])

/-! ## Leaving a link -/

/-- The first agent leaves a link, and everybody else stays. -/
theorem entries_popped {entry : Entry} (view : p.links[link]? = some v) (pops : v.pop = .ok (entry, w)) :
    (p.seen link).entries = entry :: (seen { p with links := p.links.setIfInBounds link w } link).entries ∧
      ∀ l, l ≠ link → (seen { p with links := p.links.setIfInBounds link w } l).entries = (p.seen l).entries := by
  refine ⟨?_, fun l other => ?_⟩
  · rw [seen_setView view, if_pos rfl, seen_of_view view]
    exact (LinkView.entries_pop pops).1
  · rw [seen_setView view, if_neg other]

theorem InLine.popped {entry : Entry} (h : p.InLine) (view : p.links[link]? = some v)
    (pops : v.pop = .ok (entry, w)) : InLine { p with links := p.links.setIfInBounds link w } := by
  intro l
  obtain ⟨own, others⟩ := entries_popped view pops
  by_cases same : l = link
  · subst same
    have line := h l
    rw [own] at line
    exact line.of_cons
  · rw [others l same]
    exact h l

/-- If nobody waits in front of a link, nobody enters it. -/
theorem sameLines_drained (nobody : (p.seen link).inFront = []) (drained : Ends (drainInbound link now) p () q) :
    SameLines p q := by
  obtain ⟨v, view, ⟨g, k, r, rfl, admitted, rfl⟩ | ⟨-, rfl⟩⟩ := drainInbound_ends drained
  · rw [seen_of_view view] at nobody
    rw [List.map_eq_nil_iff.1 nobody] at admitted
    cases admitted
    intro l
    rw [seen_setView view]
    split
    · rename_i same
      rw [same, seen_of_view view]
      rfl
    · rfl
  · exact Std.Refl.refl p

/-! ## The exchange -/

theorem sameLines_setView (view : p.links[link]? = some v) (links : q.links = p.links.setIfInBounds link w)
    (same : w.entries = v.entries) : SameLines p q := by
  intro l
  rw [(seen_of_links (p := { p with links := p.links.setIfInBounds link w }) links l).trans (seen_setView view l)]
  split
  · rename_i own
    rw [own, seen_of_view view, same]
  · rfl

theorem sameLines_mailed {messages : Table Transfer} (mailed : Mailed now messages p q) : SameLines p q := by
  cases mailed with
  | @intro r t emptied reported =>
    have collected : SameLines p r := emptied.relates fun link _ p q h => by
      cases h with
      | other => exact Std.Refl.refl p
      | @proxy q y view sends =>
        have sent : OffRoad { p with links := p.links.setIfInBounds link (.proxy { y with outbox := [] }) } q :=
          sends.relates fun _ _ _ _ hs => offRoad_send hs
        exact sameLines_setView view sent.links rfl
    have counted : SameLines r t := reported.relates fun link _ p q h => by
      cases h with
      | other => exact Std.Refl.refl p
      | gateway view => exact sameLines_setView view rfl rfl
    intro link
    exact (counted link).trans (collected link)

theorem sameLines_settled {d : Delivery} (settle : Ends (receiveReleases now d) p () q) : SameLines p q := by
  obtain ⟨releases, -, credited⟩ := receiveReleases_eq_ok.1 settle
  refine credited.relates fun _ _ _ _ rows => rows.relates fun _ _ _ _ applied => ?_
  obtain ⟨x, y, view, -, -, rfl⟩ := applyCount_eq_ok.1 applied
  exact sameLines_setView view rfl rfl

end Partition

namespace Scenario.FreeFlow

variable {s : Scenario} {timing : Timing} {now front x y k l r finish i : Nat} {p : Partition} {c : Scope}
  {hand : Multiset Nat}

/-- Who enters a link may not leave it before those who are there. -/
theorem le_after {j : Instruction} {link : LinkRef} {velocity : Velocity} (free : s.FreeFlow timing)
    (flows : s.Flows timing now front x ⟨r, .queued link.val finish, k⟩) (next : s.Instructs y l j)
    (action : j.action = .traverse link velocity) :
    finish ≤ Clock.after now (s.travelTime link.val velocity.val timing.delay) := by
  obtain ⟨a, found, past, stays | goes⟩ := flows
  · cases stays with
    | @queued _ _ k _ i link' velocity' get action' onto later here =>
      obtain rfl : link' = link := Fin.ext onto
      have consumed : s.consumedAt timing a k = some _ := consumedAt_of_get? get
      have before := past k (Nat.lt_succ_self k) _ consumed
      rw [leg_succ_of_traverse get action' consumed] at here
      obtain ⟨rfl, -⟩ := Leg.mk.inj here
      rw [free.even x k i y l j link' velocity' velocity ⟨a, found, get⟩ next action' action]
      exact Clock.after_le_after (Nat.le_of_lt_succ before)
  · cases goes

/-- Everybody who is on a link is there as the rule says. -/
theorem flows_of_entry (held : p.Held (s.Flows timing now front) c) (skip : c.skip = none)
    (known : ∀ x ∈ p.census hand, ∃ a, p.agents[x]? = some a) {link : Nat} {e : Entry}
    (he : e ∈ (p.seen link).entries) : ∃ r k, s.Flows timing now front e.agent ⟨r, .queued link e.finish, k⟩ := by
  have stands : e.agent ∈ p.standing := Partition.mem_standing_of_seen (LinkView.mem_standing_of_entry he)
  obtain ⟨a, found⟩ := known e.agent (Multiset.mem_of_le Partition.all_standing_le_census stands)
  refine ⟨_, _, held.spots (.queued link e.finish) e.agent a ⟨e.fromPart, ?_⟩ found⟩
  rw [if_neg (by rw [skip]; simp)]
  exact he

theorem entersLast (free : s.FreeFlow timing) (held : p.Held (s.Flows timing now front) c) (skip : c.skip = none)
    (known : ∀ x ∈ p.census hand, ∃ a, p.agents[x]? = some a) (x : Nat) : p.EntersLast s timing now x := by
  intro k i link velocity next action e he
  obtain ⟨r, l, flows⟩ := flows_of_entry held skip known he
  exact free.le_after flows next action

end Scenario.FreeFlow

end Mobility
