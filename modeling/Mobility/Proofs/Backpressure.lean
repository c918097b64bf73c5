import Mobility.Proofs.Moments
import Mobility.Proofs.Serving

/-!
# A closed link holds agents back

Whoever is to enter a link is refused if the link is closed (`LinkView.Closed`), and only then. A refusal leaves
everything as it is, so all that happens is that the agent, or the link on which it stays the first one, is looked
at again in the next second (`Partition.refused_iff_closed`).
-/

set_option autoImplicit false

namespace Mobility

open Act

namespace Partition

variable {p q r : Partition} {m m' : Moment} {id link now : Nat} {head : Entry} {v : LinkView} {a : Agent}
  {i : Instruction} {rest : List Nat}

/-! ## Refusals -/

/-- The turn of an agent which is to enter a link. -/
theorem ends_dispatch_traverse {ref : LinkRef} {velocity : Velocity} {b : Bool} (found : p.agents[id]? = some a)
    (current : a.current = .ok (some i)) (action : i.action = .traverse ref velocity) :
    Ends (dispatch id now) p b q ↔ Ends (traverse id ref.val velocity now) p b q := by
  have turn : (dispatch id now).run p = (traverse id ref.val velocity now).run p := by
    have there : (agent id).run p = .ok a p := ends_agent found
    have reads : (attempt a.current).run p = .ok (some i) p := attempt_eq_ok.2 ⟨current, rfl⟩
    rw [dispatch, EStateM.run_bind, there]
    dsimp only
    rw [EStateM.run_bind, reads]
    dsimp only
    rw [action]
  unfold Ends
  rw [turn]

/-- Whoever finds a link closed is refused, and nothing changes. -/
theorem traverse_of_closed {velocity : Velocity} (view : p.links[link]? = some v) (closed : v.Closed) :
    Ends (traverse id link velocity now) p false p := by
  have refuses : ∀ finish, v.push id finish = .ok none := fun _ => LinkView.push_eq_none_iff.2 closed
  have refused : ∀ l, Ends (enter id link velocity now v l) p false p := fun l => by
    simp only [enter, bind_eq_ok, get_eq_ok, attempt_eq_ok]
    exact ⟨p, p, ⟨rfl, rfl⟩, none, p, ⟨refuses _, rfl⟩, pure_eq_ok.2 ⟨rfl, rfl⟩⟩
  simp only [traverse, bind_eq_ok, view_eq_ok]
  refine ⟨v, p, ⟨view, rfl⟩, ?_⟩
  cases v with
  | remote => exact closed.elim
  | proxy x =>
    have full : x.push id = none := Option.map_eq_none_iff.1 (Except.ok.inj (refuses now))
    simp only [full]
    exact pure_eq_ok.2 ⟨rfl, rfl⟩
  | owned l => exact refused l
  | gateway g => exact refused g.link

theorem closed_of_refused {ref : LinkRef} {velocity : Velocity} (found : p.agents[id]? = some a)
    (current : a.current = .ok (some i)) (action : i.action = .traverse ref velocity)
    (turn : Dispatched id now p false q) : ∃ v, p.links[ref.val]? = some v ∧ v.Closed := by
  -- the agent has this instruction and no other
  have same : ∀ {b : Agent} {j : Instruction}, p.agents[id]? = some b → b.current = .ok (some j) → j = i :=
    fun found' current' => by
      obtain rfl := Option.some.inj (found.symm.trans found')
      exact (Option.some.inj (Except.ok.inj (current.symm.trans current'))).symm
  cases turn with
  | refused found' current' action' view full =>
    obtain rfl := same found' current'
    obtain ⟨rfl, -⟩ := Action.traverse.inj (action.symm.trans action')
    exact ⟨_, view, LinkView.push_eq_none_iff.1 full⟩
  | exchanged found' current' action' =>
    obtain rfl := same found' current'
    cases action.symm.trans action'
  | departed found' current' action' =>
    obtain rfl := same found' current'
    cases action.symm.trans action'

/-- Whoever finds a link open gets on. -/
theorem dispatch_of_open {ref : LinkRef} {velocity : Velocity} (found : p.agents[id]? = some a)
    (current : a.current = .ok (some i)) (action : i.action = .traverse ref velocity)
    (view : p.links[ref.val]? = some v) (opened : ¬v.Closed) (soon : p.dueLinks.next ≤ now + 1)
    (aboard : ∀ seat ∈ a.seats.carried, seat.2 < p.agents.size) : ∃ q, Ends (dispatch id now) p true q := by
  have known : ∀ y ∈ p.crew id, ∃ b, p.agents[y]? = some b := by
    intro y hy
    rw [crew, found] at hy
    have rides : y ∈ a.seats.riders := hy
    rw [← Seats.coe_carried] at rides
    obtain ⟨seat, hseat, rfl⟩ := List.mem_map.1 (Multiset.mem_coe.1 rides)
    exact ⟨_, Array.getElem?_eq_getElem (aboard seat hseat)⟩
  have never : Fails (fun _ => False) (traverse id ref.val velocity now) p :=
    fails_traverse found current view (fun _ _ _ => .bind (safe_record ⟨a, found⟩ known) fun _ _ _ => .modify _) soon
  obtain ⟨b, q, ends⟩ := ends_of_never never
  have ends := (ends_dispatch_traverse found current action).2 ends
  cases b with
  | true => exact ⟨q, ends⟩
  | false =>
    obtain ⟨w, view', closed⟩ := closed_of_refused found current action (dispatch_ends ends)
    obtain rfl := Option.some.inj (view.symm.trans view')
    exact absurd closed opened

/-! ## What is known at each moment -/

/-- The agenda which is used next is open for the next second, and a link is served as often as agents stand on it
who may leave. -/
def Timed (now : Nat) : Moment → Partition → Prop
  | .calling, _ | .collecting _, _ | .reporting _, _ | .posting, _ => True
  | .acting _, p => p.dueAgents.next = now + 1
  | .visiting _, p => now < Clock.last ∧ p.dueLinks.next = now + 1
  | .serving link budget _, p => now < Clock.last ∧ p.dueLinks.next = now + 1 ∧
    ∃ queue, queue.length ≤ budget ∧ Ahead link now queue p

/-- A round in which nobody leaves changes neither agenda otherwise than by dates. -/
theorem Tried.paced {b : Bool} (h : Tried link now p b q) : Paced p q := by
  cases h with
  | nobody => exact Std.Refl.refl _
  | later view front late scheduled => exact paced_revisit scheduled
  | blocked view front due turn scheduled => exact (paced_dispatched turn).trans (paced_revisit scheduled)
  | gone view front due turn => exact paced_dispatched turn

theorem Timed.served {budget : Nat} (h : Timed now (.serving link (budget + 1) rest) p)
    (ends : Ends ((Moment.serving link (budget + 1) rest).perform now) p m q) : Timed now m q := by
  obtain ⟨last, next, queue, few, ahead⟩ := h
  rw [perform_serving, bind_eq_ok] at ends
  obtain ⟨gone, r, tries, ends⟩ := ends
  have tried := tryHead_ends tries
  have next : r.dueLinks.next = now + 1 := tried.paced.links.trans next
  cases gone with
  | false =>
    obtain ⟨rfl, rfl⟩ := pure_eq_ok.1 ends
    exact ⟨last, next⟩
  | true =>
    obtain ⟨takes, rfl⟩ := ends_return.1 ends
    cases tried with
    | gone view front due turn =>
      obtain ⟨others, rfl⟩ := ahead.front view front due
      obtain ⟨ahead, same⟩ := (ahead.moved last turn.moved).taken last takes
      exact ⟨last, same ▸ next, others, Nat.le_of_succ_le_succ few, ahead⟩

/-- Whatever is done next, it is known of the moment after. -/
theorem Timed.performed (h : Timed now m p) (ends : Ends (m.perform now) p m' q) : Timed now m' q := by
  cases m with
  | calling =>
    simp only [Moment.perform, bind_eq_ok, get_eq_ok, attempt_eq_ok, modify_eq_ok, pure_eq_ok] at ends
    obtain ⟨_, _, ⟨rfl, rfl⟩, _, _, ⟨visit, rfl⟩, ⟨⟩, _, rfl, rfl, rfl⟩ := ends
    exact (Agenda.visit_eq_ok visit).2.2.1
  | acting ids =>
    cases ids with
    | nil =>
      simp only [Moment.perform, bind_eq_ok, get_eq_ok, attempt_eq_ok, modify_eq_ok, pure_eq_ok] at ends
      obtain ⟨_, _, ⟨rfl, rfl⟩, _, _, ⟨visit, rfl⟩, ⟨⟩, _, rfl, rfl, rfl⟩ := ends
      obtain ⟨-, last, next, -⟩ := Agenda.visit_eq_ok visit
      exact ⟨last, next⟩
    | cons id rest =>
      obtain ⟨acts, rfl⟩ := ends_return.1 ends
      exact (paced_acted (actOrRetry_ends acts)).agents.trans h
  | visiting links =>
    cases links with
    | nil =>
      simp only [Moment.perform, bind_eq_ok, get_eq_ok, pure_eq_ok] at ends
      obtain ⟨_, _, -, rfl, -⟩ := ends
      trivial
    | cons link rest =>
      simp only [Moment.perform, bind_eq_ok, view_eq_ok] at ends
      obtain ⟨v, _, ⟨view, rfl⟩, ends⟩ := ends
      cases owned : v.link? with
      | none =>
        simp only [owned, pure_eq_ok] at ends
        obtain ⟨rfl, rfl⟩ := ends
        exact h
      | some l =>
        simp only [owned, pure_eq_ok] at ends
        obtain ⟨rfl, rfl⟩ := ends
        exact ⟨h.1, h.2, l.queue, Nat.le_refl _, .refl view owned⟩
  | serving link budget rest =>
    cases budget with
    | zero =>
      obtain ⟨revisits, rfl⟩ := ends_return.1 ends
      obtain ⟨last, next, -⟩ := h
      simp only [revisitHead, bind_eq_ok, view_eq_ok] at revisits
      obtain ⟨v, _, ⟨-, rfl⟩, revisits⟩ := revisits
      split at revisits
      · obtain ⟨-, rfl⟩ := pure_eq_ok.1 revisits
        exact ⟨last, next⟩
      · exact ⟨last, (paced_revisit revisits).links.trans next⟩
    | succ budget => exact h.served ends
  | collecting links =>
    cases links with
    | nil =>
      simp only [Moment.perform, bind_eq_ok, get_eq_ok, pure_eq_ok] at ends
      obtain ⟨_, _, -, rfl, -⟩ := ends
      trivial
    | cons link rest =>
      obtain ⟨-, rfl⟩ := ends_return.1 ends
      trivial
  | reporting links =>
    cases links with
    | nil =>
      obtain ⟨rfl, -⟩ := pure_eq_ok.1 ends
      trivial
    | cons link rest =>
      obtain ⟨-, rfl⟩ := ends_return.1 ends
      trivial
  | posting =>
    obtain ⟨rfl, -⟩ := pure_eq_ok.1 ends
    trivial

theorem Reaches.timed (h : Reaches now p m q) : Timed now m q := by
  induction h with
  | begins => trivial
  | goes _ performs ih => exact ih.performed performs

/-! ## Trying again -/

/-- An agent which can't get on acts again in the next second. -/
theorem retry_agent (h : Timed now (.acting (id :: rest)) p) (refused : Ends (dispatch id now) p false p) :
    ∃ due, p.dueAgents.add id (now + 1) = .ok due ∧
      Ends ((Moment.acting (id :: rest)).perform now) p (.acting rest) { p with dueAgents := due } := by
  obtain ⟨due, added⟩ := add_of_le (x := id) (show p.dueAgents.next ≤ now + 1 from Nat.le_of_eq h)
  refine ⟨due, added, ends_return.2 ⟨?_, rfl⟩⟩
  rw [actOrRetry, bind_eq_ok]
  exact ⟨false, p, refused, wake_eq_ok.2 ⟨due, added, rfl⟩⟩

/-- A link whose first agent can't get on is looked at again in the next second, with the same agent on it. -/
theorem retry_link {budget : Nat} (h : Timed now (.serving link budget rest) p) (view : p.links[link]? = some v)
    (front : v.front? = some head) (due : head.finish ≤ now) (refused : Ends (dispatch head.agent now) p false p) :
    ∃ agenda, p.dueLinks.add link (now + 1) = .ok agenda ∧
      Ends ((Moment.serving link budget rest).perform now) p (.visiting rest) { p with dueLinks := agenda } := by
  obtain ⟨last, next, queue, few, ahead⟩ := h
  -- whoever may leave is one of those for whom there is a turn
  obtain ⟨others, rfl⟩ := ahead.front view front due
  have turns : 1 ≤ budget := Nat.le_trans (Nat.succ_le_succ (Nat.zero_le others.length)) few
  obtain ⟨budget, rfl⟩ : ∃ n, budget = n + 1 := Nat.exists_eq_add_of_le' turns
  obtain ⟨agenda, added⟩ := add_of_le (x := link) (Nat.le_of_eq next)
  refine ⟨agenda, added, ?_⟩
  rw [perform_serving, bind_eq_ok]
  refine ⟨false, { p with dueLinks := agenda }, ?_, pure_eq_ok.2 ⟨rfl, rfl⟩⟩
  simp only [tryHead, bind_eq_ok, view_eq_ok]
  refine ⟨v, p, ⟨view, rfl⟩, ?_⟩
  simp only [front, if_neg (Nat.not_lt.2 due)]
  exact bind_eq_ok.2 ⟨false, p, refused, ends_return.2 ⟨revisit_eq_ok.2 ⟨agenda, added, rfl⟩, rfl⟩⟩

/-- At whatever moment of a second an agent is to enter a link: its turn ends with a refusal just if the link is
closed, that is, if it is an owned link which is full or in front of which others wait, or a link of a neighbor to
which as many agents were sent as it has room for. Then the turn changes nothing at all. If it was the turn of an
agent which is due, this agent is due again in the next second, and if it was the turn of the first agent on a link,
this link is looked at again in the next second; and this is all that has changed. On the other hand, an agent which
finds the link open gets on, if the agenda accepts the next second and everybody aboard is known. -/
theorem refused_iff_closed {ref : LinkRef} {velocity : Velocity} (reaches : Reaches now p m q)
    (found : q.agents[id]? = some a) (current : a.current = .ok (some i)) (action : i.action = .traverse ref velocity) :
    ((∃ r, Ends (dispatch id now) q false r) ↔ ∃ v, q.links[ref.val]? = some v ∧ v.Closed) ∧
    ∀ v, q.links[ref.val]? = some v →
      (v.Closed →
        Ends (dispatch id now) q false q ∧
        (∀ rest, m = .acting (id :: rest) → ∃ due, q.dueAgents.add id (now + 1) = .ok due ∧
          Ends (m.perform now) q (.acting rest) { q with dueAgents := due }) ∧
        ∀ link budget rest w head, m = .serving link budget rest → q.links[link]? = some w → w.front? = some head →
          head.agent = id → head.finish ≤ now → ∃ due, q.dueLinks.add link (now + 1) = .ok due ∧
            Ends (m.perform now) q (.visiting rest) { q with dueLinks := due }) ∧
      (¬v.Closed → q.dueLinks.next ≤ now + 1 → (∀ seat ∈ a.seats.carried, seat.2 < q.agents.size) →
        ∃ r, Ends (dispatch id now) q true r) := by
  have refuses : ∀ v, q.links[ref.val]? = some v → v.Closed → Ends (dispatch id now) q false q :=
    fun v view closed => (ends_dispatch_traverse found current action).2 (traverse_of_closed view closed)
  refine ⟨⟨fun ⟨r, ends⟩ => closed_of_refused found current action (dispatch_ends ends),
    fun ⟨v, view, closed⟩ => ⟨q, refuses v view closed⟩⟩, fun v view => ⟨fun closed => ?_, fun opened soon aboard => ?_⟩⟩
  · have refused := refuses v view closed
    refine ⟨refused, ?_, ?_⟩
    · rintro rest rfl
      exact retry_agent reaches.timed refused
    · rintro link budget rest w head rfl there front rfl due
      exact retry_link reaches.timed there front due refused
  · exact dispatch_of_open found current action view opened soon aboard

/-- Of two agents which are to enter a link with room for one, the second one tries again in second 1. -/
theorem refused_iff_closed_pair :
    let rider (id : Nat) := Agent.fresh id ⟨#[Action.wordOnto 0], by decide⟩ 0 (low16 0)
    let pair : Scenario := { Scenario.ring with numParts := 1, agents := #[rider 0, rider 1], homes := #[0, 0] }
    ∃ q due, Reaches 0 (initial pair ⟨0, 9, 0, 0⟩ 0) (.acting [1]) q ∧ Ends (dispatch 1 0) q false q ∧
      q.dueAgents.add 1 1 = .ok due ∧
      Ends ((Moment.acting [1]).perform 0) q (.acting []) { q with dueAgents := due } := by
  intro rider pair
  have runs : (match (do (← Moment.calling.perform 0).perform 0 : Act Moment).run (initial pair ⟨0, 9, 0, 0⟩ 0) with
      | .ok m q => decide (m = .acting [1]) &&
          (q.links[0]?.any fun v => v.link?.any fun l => v = .owned l ∧ l.capacity ≤ l.queue.length) &&
          q.agents[1]?.any fun a => a.current.toOption = some (some ⟨low16 0, .traverse (low24 0) (low8 0)⟩)
      | .error .. => false) = true := by decide +kernel
  cases ran : (do (← Moment.calling.perform 0).perform 0 : Act Moment).run (initial pair ⟨0, 9, 0, 0⟩ 0) with
  | error f q =>
    rw [ran] at runs
    cases runs
  | ok m q =>
    simp only [ran, Bool.and_eq_true, decide_eq_true_eq, Option.any_eq_true] at runs
    obtain ⟨⟨rfl, v, view, l, -, rfl, full⟩, a, found, current⟩ := runs
    obtain ⟨m, r, calls, acts⟩ := bind_eq_ok.1 ran
    have reaches := (Reaches.begins.goes calls).goes acts
    obtain ⟨-, there⟩ := refused_iff_closed reaches found (eq_ok_of_toOption current) rfl
    obtain ⟨refused, again, -⟩ := (there _ view).1 full
    obtain ⟨due, added, performs⟩ := again [] rfl
    exact ⟨q, due, reaches, refused, added, performs⟩

end Partition

end Mobility
