import Mobility.Proofs.Safety.Receiving

/-!
# Within a second

A partition does in a second one thing after the other: it lets an agent act, lets an agent leave a link, empties
a proxy, takes in an agent. A `Moment` is a point between two of these in which it has something of its own to do;
`Moment.perform` does the next thing. The moments which `Partition.Reaches` leads through are those of
`Partition.depart` (`Partition.reaches_of_depart`), and the agents which `Partition.Receives` takes in one by one
are those which `Partition.arrive` takes in (`Partition.receives_of_arrive`).
-/

set_option autoImplicit false

namespace Mobility

open Act

/-- What a partition does next in a second, up to its transfers. -/
inductive Moment where
  /-- It sees which agents are due. -/
  | calling
  /-- It lets the first of these agents act. -/
  | acting (ids : List Nat)
  /-- It looks at the first of these links. -/
  | visiting (links : List Nat)
  /-- It lets the first agent leave a link. At most `budget` agents do so before it looks at the other links. -/
  | serving (link budget : Nat) (links : List Nat)
  /-- It empties the proxy of the first of these links. -/
  | collecting (links : List Nat)
  /-- It reports who has left the first of these links. -/
  | reporting (links : List Nat)
  /-- It takes the transfers out of the outbox. -/
  | posting
deriving DecidableEq

namespace Moment

/-- Does the next thing. -/
def perform (now : Nat) : Moment → Act Moment
  | calling => do
    let (ids, due) ← Partition.attempt ((← get).dueAgents.visit now)
    modify fun p => { p with dueAgents := due }
    return acting ids
  | acting [] => do
    let (links, due) ← Partition.attempt ((← get).dueLinks.visit now)
    modify fun p => { p with dueLinks := due }
    return visiting links
  | acting (id :: rest) => do
    Partition.actOrRetry id now
    return acting rest
  | visiting [] => return collecting (← get).proxies
  | visiting (link :: rest) => do
    match (← Partition.view link).link? with
    | none => return visiting rest
    | some queue => return serving link queue.queue.length rest
  | serving link 0 rest => do
    Partition.revisitHead link
    return visiting rest
  | serving link (budget + 1) rest => do
    match (← Partition.view link).front? with
    | none => return visiting rest
    | some head =>
      if now < head.finish then
        Partition.revisit link head.finish
        return visiting rest
      else if ← Partition.dispatch head.agent now then
        let (_, v) ← Partition.attempt (← Partition.view link).pop
        Partition.setView link v
        Partition.drainInbound link now
        return serving link budget rest
      else
        Partition.revisit link (now + 1)
        return visiting rest
  | collecting [] => return reporting (← get).gateways
  | collecting (link :: rest) => do
    Partition.emptyProxy now link
    return collecting rest
  | reporting [] => return posting
  | reporting (link :: rest) => do
    Partition.reportGateway now link
    return reporting rest
  | posting => return posting

/-- The agents whose turns are still to come because they are due. -/
def hand : Moment → Multiset Nat
  | acting ids => ids
  | calling | visiting _ | serving .. | collecting _ | reporting _ | posting => 0

/-- The partition works; it doesn't collect yet what it has for others. -/
def isWorking : Moment → Bool
  | calling | acting _ | visiting _ | serving .. => true
  | collecting _ | reporting _ | posting => false

end Moment

namespace Partition

variable {p q r : Partition} {m m' : Moment} {now link budget : Nat} {ids links rest : List Nat} {d : Delivery}
  {b : Buffers}

/-- A partition which begins second `now` in state `p` comes to this moment, in this state. -/
inductive Reaches (now : Nat) (p : Partition) : Moment → Partition → Prop where
  | begins : Reaches now p .calling p
  | goes {m m' : Moment} {q r : Partition} (before : Reaches now p m q)
      (performs : Ends (m.perform now) q m' r) : Reaches now p m' r

/-- A partition which takes in a delivery in state `p` has taken in all but these agents, and is in this state. -/
inductive Receives (now : Nat) (d : Delivery) (p : Partition) : List Entrant → Partition → Prop where
  | begins {transfers : List Transfer} (read : Outbox.readTransfers p.rank now p.isVehicle d = .ok transfers) :
      Receives now d p ((transfers.mergeSort fun a b => a.sender ≤ b.sender).flatMap Transfer.entrants) p
  | goes {first : Entrant} {rest : List Entrant} {q r : Partition} (before : Receives now d p (first :: rest) q)
      (receives : Ends (receiveAgent first.2.2 first.2.1 first.1 now) q () r) : Receives now d p rest r

/-! ## What is done -/

/-- What doing the next thing does. -/
inductive Performed (now : Nat) : Moment → Partition → Moment → Partition → Prop where
  /-- The partition only sees what to do next. -/
  | looked {m m' : Moment} {p : Partition} (hand : m.hand = 0) (hand' : m'.hand = 0)
      (onward : m'.isWorking = true → m.isWorking = true) : Performed now m p m' p
  | called {p : Partition} {ids : List Nat} {due : Agenda Nat} (visit : p.dueAgents.visit now = .ok (ids, due)) :
      Performed now .calling p (.acting ids) { p with dueAgents := due }
  | acted {p q : Partition} {id : Nat} {rest : List Nat} (acts : Acted id now p q) :
      Performed now (.acting (id :: rest)) p (.acting rest) q
  | turned {p : Partition} {links : List Nat} {due : Agenda Nat} (visit : p.dueLinks.visit now = .ok (links, due)) :
      Performed now (.acting []) p (.visiting links) { p with dueLinks := due }
  | revisited {p q : Partition} {link budget time : Nat} {rest : List Nat} (revisits : Ends (revisit link time) p () q) :
      Performed now (.serving link budget rest) p (.visiting rest) q
  /-- The first agent can't get on. -/
  | blocked {p r q : Partition} {link budget : Nat} {rest : List Nat} {v : LinkView} {head : Entry}
      (view : p.links[link]? = some v) (front : v.front? = some head) (due : head.finish ≤ now)
      (turn : Dispatched head.agent now p false r) (scheduled : Ends (revisit link (now + 1)) r () q) :
      Performed now (.serving link budget rest) p (.visiting rest) q
  /-- The first agent leaves the link. -/
  | left {p r q : Partition} {link budget : Nat} {rest : List Nat} {v w w' : LinkView} {head popped : Entry}
      (view : p.links[link]? = some v) (front : v.front? = some head) (due : head.finish ≤ now)
      (turn : Dispatched head.agent now p true r) (after : r.links[link]? = some w) (pops : w.pop = .ok (popped, w'))
      (drained : Ends (drainInbound link now) { r with links := r.links.setIfInBounds link w' } () q) :
      Performed now (.serving link (budget + 1) rest) p (.serving link budget rest) q
  | emptied {p q : Partition} {link : Nat} {rest : List Nat} (empties : Emptied now link p q) :
      Performed now (.collecting (link :: rest)) p (.collecting rest) q
  | reported {p q : Partition} {link : Nat} {rest : List Nat} (reports : Reported now link p q) :
      Performed now (.reporting (link :: rest)) p (.reporting rest) q

theorem ends_return {α : Type} {act : Act Unit} {a b : α} :
    Ends (do act; return a) p b q ↔ Ends act p () q ∧ a = b := by
  simp only [bind_eq_ok, pure_eq_ok]
  constructor
  · rintro ⟨⟨⟩, r, ends, same, rfl⟩
    exact ⟨ends, same⟩
  · rintro ⟨ends, same⟩
    exact ⟨(), q, ends, same, rfl⟩

/-- Serving a link moment by moment is the loop round by round. -/
theorem perform_serving (link budget now : Nat) (rest : List Nat) :
    (Moment.serving link (budget + 1) rest).perform now = (do
      if ← tryHead link now then
        takeHead link now
        return .serving link budget rest
      else return .visiting rest) := by
  simp only [Moment.perform, tryHead, takeHead, bind_assoc]
  congr
  funext v
  cases v.front? with
  | none => rfl
  | some head =>
    dsimp only
    split
    · simp only [bind_assoc, pure_bind]
      rfl
    · simp only [bind_assoc]
      congr
      funext gone
      cases gone with
      | false =>
        simp only [Bool.false_eq_true, if_false, bind_assoc, pure_bind]
      | true => simp only [if_true, pure_bind]

/-- What the first agent of a link does. -/
theorem performed_serving (ends : Ends ((Moment.serving link (budget + 1) rest).perform now) p m q) :
    Performed now (.serving link (budget + 1) rest) p m q := by
  rw [perform_serving, bind_eq_ok] at ends
  obtain ⟨gone, r, tries, ends⟩ := ends
  cases tryHead_ends tries with
  | nobody =>
    obtain ⟨rfl, rfl⟩ := pure_eq_ok.1 ends
    exact .looked rfl rfl fun _ => rfl
  | later view front late scheduled =>
    obtain ⟨rfl, rfl⟩ := pure_eq_ok.1 ends
    exact .revisited scheduled
  | blocked view front due turn scheduled =>
    obtain ⟨rfl, rfl⟩ := pure_eq_ok.1 ends
    exact .blocked view front due turn scheduled
  | gone view front due turn =>
    obtain ⟨takes, rfl⟩ := ends_return.1 ends
    obtain ⟨w, popped, w', after, pops, drained⟩ := takeHead_ends takes
    exact .left view front due turn after pops drained

/-- Doing the next thing does no more than one of the things listed. -/
theorem performed_of_ends (ends : Ends (m.perform now) p m' q) : Performed now m p m' q := by
  cases m with
  | calling =>
    simp only [Moment.perform, bind_eq_ok, get_eq_ok, attempt_eq_ok, modify_eq_ok, pure_eq_ok] at ends
    obtain ⟨_, _, ⟨rfl, rfl⟩, ⟨ids, due⟩, _, ⟨visit, rfl⟩, ⟨⟩, _, rfl, rfl, rfl⟩ := ends
    exact .called visit
  | acting ids =>
    cases ids with
    | nil =>
      simp only [Moment.perform, bind_eq_ok, get_eq_ok, attempt_eq_ok, modify_eq_ok, pure_eq_ok] at ends
      obtain ⟨_, _, ⟨rfl, rfl⟩, ⟨links, due⟩, _, ⟨visit, rfl⟩, ⟨⟩, _, rfl, rfl, rfl⟩ := ends
      exact .turned visit
    | cons id rest =>
      obtain ⟨acts, rfl⟩ := ends_return.1 ends
      exact .acted (actOrRetry_ends acts)
  | visiting links =>
    cases links with
    | nil =>
      simp only [Moment.perform, bind_eq_ok, get_eq_ok, pure_eq_ok] at ends
      obtain ⟨_, _, ⟨rfl, rfl⟩, rfl, rfl⟩ := ends
      exact .looked rfl rfl fun _ => rfl
    | cons link rest =>
      simp only [Moment.perform, bind_eq_ok, view_eq_ok] at ends
      obtain ⟨v, _, ⟨-, rfl⟩, ends⟩ := ends
      split at ends <;> obtain ⟨rfl, rfl⟩ := pure_eq_ok.1 ends <;> exact .looked rfl rfl fun _ => rfl
  | serving link budget rest =>
    cases budget with
    | zero =>
      obtain ⟨revisits, rfl⟩ := ends_return.1 ends
      simp only [revisitHead, bind_eq_ok, view_eq_ok] at revisits
      obtain ⟨v, _, ⟨-, rfl⟩, revisits⟩ := revisits
      split at revisits
      · obtain ⟨-, rfl⟩ := pure_eq_ok.1 revisits
        exact .looked rfl rfl fun _ => rfl
      · exact .revisited revisits
    | succ budget => exact performed_serving ends
  | collecting links =>
    cases links with
    | nil =>
      simp only [Moment.perform, bind_eq_ok, get_eq_ok, pure_eq_ok] at ends
      obtain ⟨_, _, ⟨rfl, rfl⟩, rfl, rfl⟩ := ends
      exact .looked rfl rfl id
    | cons link rest =>
      obtain ⟨empties, rfl⟩ := ends_return.1 ends
      exact .emptied (emptyProxy_ends empties)
  | reporting links =>
    cases links with
    | nil =>
      obtain ⟨rfl, rfl⟩ := pure_eq_ok.1 ends
      exact .looked rfl rfl id
    | cons link rest =>
      obtain ⟨reports, rfl⟩ := ends_return.1 ends
      exact .reported (reportGateway_ends reports)
  | posting =>
    obtain ⟨rfl, rfl⟩ := pure_eq_ok.1 ends
    exact .looked rfl rfl id

/-- What the work of a second sustains holds at all its moments. -/
theorem Sustains.performed {F : Failure → Prop} {I : Multiset Nat → Partition → Prop} (sustains : Sustains F now I)
    (h : I m.hand p) (performed : Performed now m p m' q) (works : m'.isWorking = true) : I m'.hand q := by
  cases performed with
  | looked hand hand' =>
    rw [hand] at h
    rw [hand']
    exact h
  | called visit => exact sustains.called h visit
  | acted acts => exact sustains.acted h acts
  | turned visit => exact sustains.looked h visit
  | revisited revisits => exact sustains.revisited h revisits
  | blocked view front due turn scheduled => exact sustains.revisited (sustains.blocked h view front due turn) scheduled
  | left view front due turn after pops drained =>
    exact sustains.drained (sustains.popped h view front due turn after pops) drained
  | emptied | reported => cases works

/-! ## Nothing else is done -/

namespace Reaches

theorem acts (h : Reaches now p (.acting ids) q) (ends : Ends (ids.forM fun id => actOrRetry id now) q () r) :
    Reaches now p (.acting []) r :=
  forM_rest (P := fun ids q => Reaches now p (.acting ids) q)
    (fun _ _ _ _ before first => before.goes (ends_return.2 ⟨first, rfl⟩)) h ends

/-- Agents leave a link one after the other. -/
theorem serves (h : Reaches now p (.serving link budget rest) q) (ends : Ends (serve link now budget) q () r) :
    Reaches now p (.visiting rest) r := by
  induction budget generalizing q with
  | zero => exact h.goes (ends_return.2 ⟨ends, rfl⟩)
  | succ budget ih =>
    rw [serve_succ, bind_eq_ok] at ends
    obtain ⟨gone, s, tries, ends⟩ := ends
    cases gone with
    | false =>
      obtain ⟨-, rfl⟩ := pure_eq_ok.1 ends
      refine h.goes ?_
      rw [perform_serving]
      exact bind_eq_ok.2 ⟨false, s, tries, pure_eq_ok.2 ⟨rfl, rfl⟩⟩
    | true =>
      obtain ⟨⟨⟩, t, takes, ends⟩ := bind_eq_ok.1 ends
      refine ih (h.goes ?_) ends
      rw [perform_serving]
      exact bind_eq_ok.2 ⟨true, s, tries, ends_return.2 ⟨takes, rfl⟩⟩

theorem visits (h : Reaches now p (.visiting links) q)
    (ends : Ends (links.forM fun link => serveLink link now) q () r) : Reaches now p (.visiting []) r := by
  refine forM_rest (P := fun links q => Reaches now p (.visiting links) q) (fun link rest q r before first => ?_) h ends
  simp only [serveLink, bind_eq_ok, view_eq_ok] at first
  obtain ⟨v, _, ⟨view, rfl⟩, first⟩ := first
  cases owned : v.link? with
  | none =>
    simp only [owned, pure_eq_ok, true_and] at first
    refine before.goes (bind_eq_ok.2 ⟨v, q, view_eq_ok.2 ⟨view, rfl⟩, ?_⟩)
    simp only [owned]
    exact pure_eq_ok.2 ⟨rfl, first⟩
  | some queue =>
    simp only [owned] at first
    have looks : Reaches now p (.serving link queue.queue.length rest) q := by
      refine before.goes (bind_eq_ok.2 ⟨v, q, view_eq_ok.2 ⟨view, rfl⟩, ?_⟩)
      simp only [owned]
      exact pure_eq_ok.2 ⟨rfl, rfl⟩
    exact looks.serves first

theorem works (ends : Ends (work now) p () r) : Reaches now p (.visiting []) r := by
  simp only [work, serveAgents, serveLinks, bind_eq_ok, get_eq_ok, attempt_eq_ok, modify_eq_ok] at ends
  obtain ⟨⟨⟩, s, ⟨_, _, ⟨rfl, rfl⟩, ⟨ids, due⟩, _, ⟨visit, rfl⟩, ⟨⟩, _, rfl, acts⟩, _, _, ⟨rfl, rfl⟩,
    ⟨links, due'⟩, _, ⟨visit', rfl⟩, ⟨⟩, _, rfl, visits⟩ := ends
  have called : Reaches now p (.acting ids) { p with dueAgents := due } := by
    refine Reaches.begins.goes ?_
    simp only [Moment.perform, bind_eq_ok, get_eq_ok, attempt_eq_ok, modify_eq_ok, pure_eq_ok]
    exact ⟨p, p, ⟨rfl, rfl⟩, (ids, due), p, ⟨visit, rfl⟩, (), _, rfl, rfl, rfl⟩
  have looked : Reaches now p (.visiting links) { s with dueLinks := due' } := by
    refine (called.acts acts).goes ?_
    simp only [Moment.perform, bind_eq_ok, get_eq_ok, attempt_eq_ok, modify_eq_ok, pure_eq_ok]
    exact ⟨s, s, ⟨rfl, rfl⟩, (links, due'), s, ⟨visit', rfl⟩, (), _, rfl, rfl, rfl⟩
  exact looked.visits visits

end Reaches

/-- A partition which has departed has come to all moments before. -/
theorem reaches_of_depart (ends : Ends (depart now) p b q) :
    ∃ r outbox, Reaches now p .posting r ∧ q = { r with outbox := outbox } := by
  simp only [depart, sendTransfers, collectAgents, collectReleases, bind_eq_ok, get_eq_ok, modify_eq_ok,
    communicate_eq_ok] at ends
  obtain ⟨⟨⟩, w, works, ⟨⟩, s, ⟨_, _, ⟨rfl, rfl⟩, empties⟩, ⟨⟩, t, ⟨_, _, ⟨rfl, rfl⟩, reports⟩, _, _, ⟨rfl, rfl⟩,
    ⟨⟩, _, rfl, -, rfl⟩ := ends
  have collecting : Reaches now p (.collecting w.proxies) w :=
    (Reaches.works works).goes (bind_eq_ok.2 ⟨w, w, get_eq_ok.2 ⟨rfl, rfl⟩, pure_eq_ok.2 ⟨rfl, rfl⟩⟩)
  have collected := forM_rest (P := fun links q => Reaches now p (.collecting links) q)
    (fun _ _ _ _ before first => before.goes (ends_return.2 ⟨first, rfl⟩)) collecting empties
  have reporting : Reaches now p (.reporting s.gateways) s :=
    collected.goes (bind_eq_ok.2 ⟨s, s, get_eq_ok.2 ⟨rfl, rfl⟩, pure_eq_ok.2 ⟨rfl, rfl⟩⟩)
  have reported := forM_rest (P := fun links q => Reaches now p (.reporting links) q)
    (fun _ _ _ _ before first => before.goes (ends_return.2 ⟨first, rfl⟩)) reporting reports
  exact ⟨t, _, reported.goes (pure_eq_ok.2 ⟨rfl, rfl⟩), rfl⟩

/-- A partition has taken in everybody before it makes its releases. -/
theorem receives_of_arrive (ends : Ends (arrive now d) p b q) :
    ∃ r outbox, Receives now d p [] r ∧ q = { r with outbox := outbox } := by
  obtain ⟨transfers, r, read, receives, rfl⟩ := arrive_forM ends
  exact ⟨r, _, forM_rest (P := Receives now d p) (fun _ _ _ _ before first => before.goes first) (.begins read)
    receives, rfl⟩

end Partition

end Mobility
