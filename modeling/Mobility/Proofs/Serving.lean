import Mobility.Proofs.Ensemble.Schedules
import Mobility.Proofs.Safety.Work

/-!
# A link is served until its first agent stays

Serving a link is a loop: as long as the first agent may leave and gets on, it is taken from the link, and agents
who wait in front of the link may enter (`Partition.Loops`). Agents also enter by getting on, even those who have
just left. But whoever enters stays for a second at least and stands behind all the others, so no more agents leave
than stood there at first, and a bound on the rounds doesn't change what the loop does. It leaves the link empty, or
puts it into the agenda once (`Partition.serveLink_loops`).
-/

set_option autoImplicit false

namespace Mobility

open Act

namespace Partition

variable {p q r : Partition} {id link now count : Nat} {queue rest : List Entry} {head : Entry}

/-! ## The loop -/

/-- How the loop ends when it begins in a state, and how many agents got on until then. -/
inductive Loops (link now : Nat) : Nat → Partition → EStateM.Result Failure Partition Unit → Prop where
  | stops {p q : Partition} (tried : Ends (tryHead link now) p false q) : Loops link now 0 p (.ok () q)
  | stuck {p q : Partition} {f : Failure} (tried : (tryHead link now).run p = .error f q) :
      Loops link now 0 p (.error f q)
  | torn {p q r : Partition} {f : Failure} (tried : Ends (tryHead link now) p true q)
      (taken : (takeHead link now).run q = .error f r) : Loops link now 1 p (.error f r)
  | goesOn {p q r : Partition} {count : Nat} {result : EStateM.Result Failure Partition Unit}
      (tried : Ends (tryHead link now) p true q) (taken : Ends (takeHead link now) q () r)
      (rest : Loops link now count r result) : Loops link now (count + 1) p result

/-- The first `count` agents have left the link, one after the other. -/
inductive Rounds (link now : Nat) : Nat → Partition → Partition → Prop where
  | none {p : Partition} : Rounds link now 0 p p
  | more {p q r s : Partition} {count : Nat} (tried : Ends (tryHead link now) p true q)
      (taken : Ends (takeHead link now) q () r) (rest : Rounds link now count r s) :
      Rounds link now (count + 1) p s

/-- A loop which isn't bounded ends in one way only. -/
theorem Loops.unique {k j : Nat} {result result' : EStateM.Result Failure Partition Unit}
    (h : Loops link now k p result) (h' : Loops link now j p result') : j = k ∧ result' = result := by
  induction h generalizing j result' with
  | stops tried =>
    cases h' with
    | stops tried' => cases tried.symm.trans tried'; exact ⟨rfl, rfl⟩
    | stuck tried' | torn tried' _ | goesOn tried' _ _ => cases tried.symm.trans tried'
  | stuck tried =>
    cases h' with
    | stuck tried' => cases tried.symm.trans tried'; exact ⟨rfl, rfl⟩
    | stops tried' | torn tried' _ | goesOn tried' _ _ => cases tried.symm.trans tried'
  | torn tried taken =>
    cases h' with
    | torn tried' taken' =>
      cases tried.symm.trans tried'
      cases taken.symm.trans taken'
      exact ⟨rfl, rfl⟩
    | goesOn tried' taken' =>
      cases tried.symm.trans tried'
      cases taken.symm.trans taken'
    | stops tried' | stuck tried' => cases tried.symm.trans tried'
  | goesOn tried taken _ ih =>
    cases h' with
    | goesOn tried' taken' rest' =>
      cases tried.symm.trans tried'
      cases taken.symm.trans taken'
      obtain ⟨rfl, rfl⟩ := ih rest'
      exact ⟨rfl, rfl⟩
    | torn tried' taken' =>
      cases tried.symm.trans tried'
      cases taken.symm.trans taken'
    | stops tried' | stuck tried' => cases tried.symm.trans tried'

/-- A turn of an agent doesn't schedule a link on which somebody stands. -/
theorem dates_moved {v : LinkView} (view : p.links[link]? = some v) (front : v.front? = some head)
    (turn : Moved id now p q) :
    q.dueLinks.stop = p.dueLinks.stop ∧ (q.dueLinks.dates link).Perm (p.dueLinks.dates link) := by
  cases turn with
  | nowhere stays => rw [stays.dueLinks]; exact ⟨rfl, .refl _⟩
  | outbound _ _ _ dueLinks => rw [dueLinks]; exact ⟨rfl, .refl _⟩
  | @entered i velocity finish u w l viewed owned time pushed links dueLinks =>
    split at dueLinks
    · rename_i empty
      obtain ⟨-, -, stop, dates⟩ := Agenda.add_eq_ok dueLinks
      have other : i ≠ link := by
        rintro rfl
        obtain rfl := Option.some.inj (viewed.symm.trans view)
        rw [LinkView.front_eq owned, empty] at front
        cases front
      have perm := dates link
      rw [if_neg other] at perm
      exact ⟨stop, perm⟩
    · rw [dueLinks]
      exact ⟨rfl, .refl _⟩

/-! ## How the loop ends -/

/-- On the link stand the agents of `queue` and behind them agents who may not leave yet, and it has a date more than
before: the second at which the first one of them may leave, and no date more if nobody is on it. -/
def Rescheduled (link now : Nat) (queue : List Entry) (p q : Partition) : Prop :=
  ∃ v l behind, q.links[link]? = some v ∧ v.link? = some l ∧ l.queue = queue ++ behind ∧
    (∀ e ∈ behind, now < e.finish) ∧
    (q.dueLinks.dates link).Perm ((l.queue.head?.map fun head =>
      Agenda.slot p.dueLinks.stop (max head.finish (now + 1))).toList ++ p.dueLinks.dates link)

/-- Where nobody may leave yet, the first one isn't tried. -/
theorem tryHead_of_late (h : Ahead link now [] p) :
    (tryHead link now).run p = (do revisitHead link; return false : Act Bool).run p := by
  obtain ⟨v, l, behind, viewed, owned, stands, late⟩ := h
  have found : (view link).run p = .ok v p := ends_view viewed
  simp only [tryHead, revisitHead, EStateM.run_bind, found]
  cases front : v.front? with
  | none => rfl
  | some head =>
    have first := (LinkView.front_eq owned).symm.trans front
    rw [stands, List.nil_append] at first
    dsimp only
    rw [if_pos (late head (List.mem_of_mem_head? first)), EStateM.run_bind]

/-- A bounded loop does what the loop does, if the bound is the number of those who stand ahead. -/
theorem loops_serve (h : Ahead link now queue p) (last : now < Clock.last) :
    ∃ count, Loops link now count p ((serve link now queue.length).run p) := by
  induction queue generalizing p with
  | nil =>
    have tries := tryHead_of_late h
    rw [EStateM.run_bind] at tries
    refine ⟨0, ?_⟩
    show Loops link now 0 p ((revisitHead link).run p)
    cases scheduled : (revisitHead link).run p with
    | ok u q =>
      rw [scheduled] at tries
      exact .stops tries
    | error f q =>
      rw [scheduled] at tries
      exact .stuck tries
  | cons head rest ih =>
    rw [List.length_cons, serve_succ, EStateM.run_bind]
    cases tried : (tryHead link now).run p with
    | error f q => exact ⟨0, .stuck tried⟩
    | ok gone q =>
      cases gone with
      | false => exact ⟨0, .stops tried⟩
      | true =>
        simp only [if_true, EStateM.run_bind]
        have turned : Ahead link now (head :: rest) q := by
          cases tryHead_ends tried with
          | gone view front due turn => exact h.moved last turn.moved
        cases taken : (takeHead link now).run q with
        | error f r => exact ⟨1, .torn tried taken⟩
        | ok u r =>
          obtain ⟨count, loops⟩ := ih (turned.taken last taken).1
          exact ⟨count + 1, .goesOn tried taken loops⟩

/-- Only those who stood ahead get on. -/
theorem Loops.le {result : EStateM.Result Failure Partition Unit} (h : Loops link now count p result)
    (last : now < Clock.last) (ahead : Ahead link now queue p) : count ≤ queue.length := by
  induction h generalizing queue with
  | stops | stuck => exact Nat.zero_le _
  | torn tried taken =>
    cases tryHead_ends tried with
    | gone view front due turn =>
      obtain ⟨rest, rfl⟩ := ahead.front view front due
      exact Nat.succ_le_succ (Nat.zero_le _)
  | goesOn tried taken _ ih =>
    cases tryHead_ends tried with
    | gone view front due turn =>
      obtain ⟨rest, rfl⟩ := ahead.front view front due
      exact Nat.succ_le_succ (ih ((ahead.moved last turn.moved).taken last taken).1)

/-- A link is put into the agenda for when its first agent may leave. -/
theorem revisit_front {v : LinkView} {time : Nat} (ahead : Ahead link now queue r) (view : r.links[link]? = some v)
    (front : v.front? = some head) (next : time = max head.finish (now + 1))
    (same : r.dueLinks.stop = p.dueLinks.stop ∧ (r.dueLinks.dates link).Perm (p.dueLinks.dates link))
    (scheduled : Ends (revisit link time) r () q) : Rescheduled link now queue p q := by
  obtain ⟨due, added, rfl⟩ := revisit_eq_ok.1 scheduled
  obtain ⟨-, -, -, dates⟩ := Agenda.add_eq_ok added
  obtain ⟨u, l, behind, hu, owned, stands, late⟩ := ahead
  obtain rfl := Option.some.inj (view.symm.trans hu)
  refine ⟨v, l, behind, view, owned, stands, late, ?_⟩
  have perm := dates link
  rw [if_pos rfl, same.1, next] at perm
  rw [(LinkView.front_eq owned).symm.trans front]
  exact perm.trans (same.2.cons _)

/-- If the loop ends well, those who haven't got on are still ahead, and the link is in the agenda once more, unless
nobody is on it. -/
theorem Loops.ends {result : EStateM.Result Failure Partition Unit} (h : Loops link now count p result)
    (last : now < Clock.last) (ahead : Ahead link now queue p) (ends : result = .ok () q) :
    Rescheduled link now (queue.drop count) p q := by
  induction h generalizing queue with
  | stops tried =>
    cases ends
    cases tryHead_ends tried with
    | nobody view front =>
      obtain ⟨v, l, behind, hu, owned, stands, late⟩ := ahead
      obtain rfl := Option.some.inj (view.symm.trans hu)
      refine ⟨_, l, behind, view, owned, stands, late, ?_⟩
      rw [← LinkView.front_eq owned, front]
      exact .refl _
    | later view front late scheduled =>
      exact revisit_front ahead view front (Nat.max_eq_left late).symm ⟨rfl, .refl _⟩ scheduled
    | blocked view front due turn scheduled =>
      obtain ⟨w, after, front'⟩ := front_dispatched turn view front
      exact revisit_front (ahead.moved last turn.moved) after front' (Nat.max_eq_right (by omega)).symm
        (dates_moved view front turn.moved) scheduled
  | stuck tried | torn tried taken => cases ends
  | goesOn tried taken _ ih =>
    cases tryHead_ends tried with
    | gone view front due turn =>
      obtain ⟨rest, rfl⟩ := ahead.front view front due
      obtain ⟨stop, same⟩ := dates_moved view front turn.moved
      obtain ⟨others, untouched⟩ := (ahead.moved last turn.moved).taken last taken
      obtain ⟨v, l, behind, hv, owned, stands, late, perm⟩ := ih others ends
      rw [untouched, stop] at perm
      exact ⟨v, l, behind, hv, owned, stands, late, perm.trans (same.append_left _)⟩

/-! ## How the loop fails -/

/-- What an agent can make the loop fail at: its turn fails, or somebody waits in front of the link who hasn't
consumed a traversal last. -/
def Offends (link now : Nat) (f : Failure) (r q : Partition) : Prop :=
  (∃ v head, r.links[link]? = some v ∧ v.front? = some head ∧ head.finish ≤ now ∧
      (dispatch head.agent now).run r = .error f q) ∨
    ∃ s gate row, Ends (tryHead link now) r true s ∧ s.links[link]? = some (.gateway gate) ∧ row ∈ gate.inbound ∧
      ¬ s.Traversed row.1

theorem tryHead_fails {v : LinkView} {f : Failure} (viewed : p.links[link]? = some v)
    (soon : p.dueLinks.next ≤ now + 1) (h : (tryHead link now).run p = .error f q) :
    ∃ head, v.front? = some head ∧ head.finish ≤ now ∧ (dispatch head.agent now).run p = .error f q := by
  have found : (view link).run p = .ok v p := ends_view viewed
  rw [tryHead, EStateM.run_bind, found] at h
  dsimp only at h
  cases front : v.front? with
  | none =>
    rw [front] at h
    cases h
  | some head =>
    rw [front] at h
    dsimp only at h
    split at h
    · rename_i late
      have safe : Fails (fun _ => False) (do revisit link head.finish; return false : Act Bool) p :=
        .bind (safe_revisit (Nat.le_trans soon late)) fun _ _ _ => .pure false
      exact (safe f q h).elim
    · rename_i due
      refine ⟨head, rfl, Nat.le_of_not_lt due, ?_⟩
      rw [EStateM.run_bind] at h
      cases turn : (dispatch head.agent now).run p with
      | error f' q' =>
        rw [turn] at h
        exact h
      | ok gone r =>
        rw [turn] at h
        cases gone with
        | true => cases h
        | false =>
          have soon : r.dueLinks.next ≤ now + 1 := (paced_dispatched (dispatch_ends turn)).links ▸ soon
          have safe : Fails (fun _ => False) (do revisit link (now + 1); return false : Act Bool) r :=
            .bind (safe_revisit soon) fun _ _ _ => .pure false
          exact (safe f q h).elim

theorem takeHead_fails {v : LinkView} {f : Failure} (viewed : p.links[link]? = some v) (front : v.front? = some head)
    (h : (takeHead link now).run p = .error f q) :
    ∃ gate row, p.links[link]? = some (.gateway gate) ∧ row ∈ gate.inbound ∧ ¬ p.Traversed row.1 := by
  by_contra none
  have traversed : ∀ gate, v = .gateway gate → ∀ row ∈ gate.inbound, p.Traversed row.1 := by
    rintro gate rfl row waits
    by_contra stranger
    exact none ⟨gate, row, viewed, waits, stranger⟩
  obtain ⟨⟨entry, w⟩, pops⟩ := LinkView.pop_of_front front
  have after : (p.links.setIfInBounds link w)[link]? = some w :=
    Array.getElem?_setIfInBounds_self_of_lt (Array.getElem?_eq_some_iff.1 viewed).1
  have safe : Fails (fun _ => False) (takeHead link now) p := by
    refine .after (ends_view viewed) (.after (attempt_eq_ok.2 ⟨pops, rfl⟩) (.after (ends_setView p link w)
      (fails_drainInbound after ?_)))
    rintro k rfl row waits
    rcases LinkView.pop_eq_ok pops with ⟨l, m, -, other, -⟩ | ⟨gate, k', rfl, same, popped⟩
    · cases other
    · cases same
      have inbound : k.inbound = gate.inbound := by rw [(Gateway.pop_eq_ok popped).2]
      exact traversed gate rfl row (inbound ▸ waits)
  exact safe f q h

/-- If the loop can schedule the link for the next second, it only fails because of an agent. -/
theorem Loops.fails {result : EStateM.Result Failure Partition Unit} {f : Failure}
    (h : Loops link now count p result) (last : now < Clock.last) (ahead : Ahead link now queue p)
    (soon : p.dueLinks.next ≤ now + 1) (fails : result = .error f q) :
    ∃ rounds r, Rounds link now rounds p r ∧ Offends link now f r q := by
  induction h generalizing queue with
  | stops tried => cases fails
  | stuck tried =>
    cases fails
    obtain ⟨v, l, behind, viewed, -⟩ := ahead
    obtain ⟨head, front, due, turn⟩ := tryHead_fails viewed soon tried
    exact ⟨0, _, .none, .inl ⟨v, head, viewed, front, due, turn⟩⟩
  | torn tried taken =>
    cases fails
    cases tryHead_ends tried with
    | gone view front due turn =>
      obtain ⟨w, after, front'⟩ := front_dispatched turn view front
      obtain ⟨gate, row, gateway, waits, stranger⟩ := takeHead_fails after front' taken
      exact ⟨0, _, .none, .inr ⟨_, gate, row, tried, gateway, waits, stranger⟩⟩
  | goesOn tried taken _ ih =>
    cases tryHead_ends tried with
    | gone view front due turn =>
      obtain ⟨rest, rfl⟩ := ahead.front view front due
      obtain ⟨others, untouched⟩ := (ahead.moved last turn.moved).taken last taken
      have next := (paced_dispatched turn).links
      obtain ⟨rounds, r, gone, offends⟩ := ih others (by rw [untouched, next]; exact soon) fails
      exact ⟨rounds + 1, r, .more tried taken gone, offends⟩

/-! ## Serving a link -/

/-- Serving an owned link is a loop without a bound. In whatever state it begins, it ends, in one way only, and no
more agents get on than stood on the link. Whoever enters meanwhile, even an agent that has just left, stands behind
all of them and may not leave in the same second, since a traversal takes a second at least. If the loop ends well,
those who haven't got on are still there, in their order, and the link has one date more in the agenda, for when its
first agent may leave but not in the same second, or no date more if it is empty. And if the agenda accepts the next
second, the loop only fails because the turn of a first agent fails, or because somebody waits in front of the link
who hasn't consumed a traversal last. -/
theorem serveLink_loops {v : LinkView} {l : Link} (last : now < Clock.last) (view : p.links[link]? = some v)
    (owned : v.link? = some l) :
    (∀ (m : Link) (requested delay : Nat), 1 ≤ m.travelTime requested delay) ∧
    ∃ count ≤ l.queue.length,
      Loops link now count p ((serveLink link now).run p) ∧
      (∀ k result, Loops link now k p result → k = count ∧ result = (serveLink link now).run p) ∧
      (∀ q, Ends (serveLink link now) p () q → ∃ w m behind, q.links[link]? = some w ∧ w.link? = some m ∧
        m.queue = l.queue.drop count ++ behind ∧ (∀ e ∈ behind, now < e.finish) ∧
        (q.dueLinks.dates link).Perm ((m.queue.head?.map fun head =>
          Agenda.slot p.dueLinks.stop (max head.finish (now + 1))).toList ++ p.dueLinks.dates link)) ∧
      (p.dueLinks.next ≤ now + 1 → ∀ f q, (serveLink link now).run p = .error f q →
        ∃ rounds r, Rounds link now rounds p r ∧ Offends link now f r q) := by
  have ahead : Ahead link now l.queue p := .refl view owned
  obtain ⟨count, loops⟩ := loops_serve ahead last
  have serves : (serveLink link now).run p = (serve link now l.queue.length).run p := by
    have found : (Partition.view link).run p = .ok v p := ends_view view
    rw [serveLink, EStateM.run_bind, found]
    dsimp only
    rw [owned]
  rw [← serves] at loops
  exact ⟨fun m requested delay => m.travelTime_pos requested delay, count, loops.le last ahead, loops,
    fun k result other => loops.unique other, fun q ends => loops.ends last ahead ends,
    fun soon f q fails => loops.fails last ahead soon fails⟩

/-- An agent that goes round on its link leaves it once in a second, although it is the first one again, and the
link is scheduled for when it has gone round. -/
theorem serveLink_loops_roundabout :
    let link : Link := ⟨0, ⟨0x3f800000⟩, ⟨0x3f800000⟩, 2, [⟨0, 5, none⟩]⟩
    let driver := Agent.fresh 0 ⟨#[Action.wordOnto 0, Action.wordOnto 0], by decide⟩ 0 (low16 0)
    let p : Partition := { initial .ring ⟨0, 9, 0, 0⟩ 0 with
      links := #[.owned link]
      agents := #[{ driver with cursor := 1 }] }
    ∃ q w m, Loops 0 5 1 p (.ok () q) ∧ q.links[0]? = some w ∧ w.link? = some m ∧ m.queue = [⟨0, 6, none⟩] ∧
      q.dueLinks.dates 0 = [some 6] := by
  intro link driver p
  have runs : (match (serveLink 0 5).run p with
      | .ok _ q => (q.links[0]?.bind (·.link?)).any fun m => m.queue = [⟨0, 6, none⟩]
      | .error .. => false) = true := by decide +kernel
  obtain ⟨-, count, few, loops, -, ends, -⟩ := serveLink_loops (p := p) (by decide : 5 < Clock.last)
    (rfl : p.links[0]? = some (.owned link)) rfl
  cases served : (serveLink 0 5).run p with
  | error f q =>
    rw [served] at runs
    cases runs
  | ok u q =>
    obtain ⟨w, m, behind, view, owned, stands, late, dates⟩ := ends q served
    rw [served] at runs loops
    have queue : m.queue = [⟨0, 6, none⟩] := by simpa [view, owned] using runs
    rw [queue] at stands dates
    have all : count = 1 := by
      refine Nat.le_antisymm few (Nat.pos_of_ne_zero ?_)
      rintro rfl
      cases stands
    subst all
    exact ⟨q, w, m, loops, view, owned, queue, List.perm_singleton.1 dates⟩

end Partition

end Mobility
