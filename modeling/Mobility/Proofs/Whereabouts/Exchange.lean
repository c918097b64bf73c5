import Mobility.Proofs.Safety.Receiving
import Mobility.Proofs.Whereabouts.Work

/-!
# The exchange of a second moves agents

Whoever is to be sent to a link or is handed over is in a message afterwards (`Partition.Held.mailed`), and
whoever comes in a message is due in the next second, or it comes to a gateway (`Partition.Held.takenIn`).
These are moves, too.
-/

set_option autoImplicit false

namespace Mobility

open Act

namespace Partition

variable {s : Scenario} {timing : Timing} {now i id x link part : Nat} {crowd : Prop} {rule : Rule}
  {c : Scope} {p q r : Partition} {site : Site} {v : LinkView} {record : AgentRecord} {entry : Option Nat}
  {messages : Table Transfer}

/-! ## Sending -/

/-- Nobody comes to a link which is emptied. -/
theorem spot_emptied (h : Emptied now link p q) (spot : q.Spot c site x) : p.Spot c site x := by
  cases h with
  | other => exact spot
  | @proxy q y view sends =>
    have earlier := sends.keeps (P := fun t => ∀ site x, t.Spot c site x →
      Spot c { p with links := p.links.setIfInBounds link (.proxy { y with outbox := [] }) } site x)
      (fun id _ t u sent back site x spot => by
        obtain ⟨record, -, -, rfl⟩ := send_ends sent
        refine back site x ?_
        cases site <;> exact spot) (fun _ _ spot => spot)
    obtain old | ⟨_, _, rfl, there⟩ | ⟨-, there⟩ | ⟨-, there⟩ := spot_setView view (earlier site x spot)
    · exact old
    · split at there <;> cases there
    · cases there
    · cases there

theorem spot_reported (h : Reported now link p q) (spot : q.Spot c site x) : p.Spot c site x := by
  cases h with
  | other => exact spot
  | @gateway g view =>
    have before : Spot c { p with links := p.links.setIfInBounds link (.gateway { g with released := .empty }) }
        site x := by cases site <;> exact spot
    have same := seen_of_view view
    obtain old | ⟨finish, fromPart, rfl, there⟩ | ⟨rfl, there⟩ | ⟨-, there⟩ := spot_setView view before
    · exact old
    · exact ⟨fromPart, by rw [same]; exact there⟩
    · exact (show x ∈ (p.seen link).inFront by rw [same]; exact there)
    · cases there

/-- Whoever is to be sent to a link may be sent to it. -/
theorem Held.sends_outgoing {y : Proxy} (h : p.Held rule ⟨0, none, 0 + p.roots⟩)
    (closed : rule.Closed s timing now crowd) (hs : s.Accepted) (setting : p.Setting s timing i)
    (view : p.links[link]? = some (.proxy y)) (out : record.id ∈ y.outbox) (records : p.Records record) :
    rule.Sends p.rank y.toPart (some link) record := by
  obtain ⟨-, -, owner, -⟩ := setting.proxy hs view
  have outgoing : record.id ∈ (p.seen link).outgoing := by
    rw [seen_of_view view]
    exact out
  rw [owner]
  refine h.sends records ?_ fun a ha => ?_
  · refine Multiset.mem_add.2 (.inr (Multiset.mem_add.2 (.inr ?_)))
    exact mem_standing_of_seen (LinkView.mem_standing_of_outgoing outgoing)
  · exact closed record.id _ _ .posted (h.spots (.outbound link) record.id a outgoing ha)

/-- Everybody obeys the rule after the transfers are sent, and so does everybody in them. -/
theorem Held.mailed (h : p.Held rule ⟨0, none, 0 + p.roots⟩) (closed : rule.Closed s timing now crowd)
    (hs : s.Accepted) (setting : p.Setting s timing i) (mailed : Mailed now messages p q) :
    q.Held rule ⟨0, none, 0 + q.roots⟩ ∧
      ∀ target t, messages.get? target = some t → t.Every (rule.Sends q.rank target) := by
  have sheds := sheds_mailed mailed
  have sends := (every_mailed h.mail
    (fun _ _ _ view out records => h.sends_outgoing closed hs setting view out records) mailed).1
  have spots : ∀ site x, q.Spot ⟨0, none, 0 + p.roots⟩ site x → p.Spot ⟨0, none, 0 + p.roots⟩ site x := by
    cases mailed with
    | @intro r s emptied reported complete =>
      intro site x spot
      have before : s.Spot ⟨0, none, 0 + p.roots⟩ site x := by cases site <;> exact spot
      have collected := emptied.keeps (P := fun r => ∀ site x, r.Spot ⟨0, none, 0 + p.roots⟩ site x →
        p.Spot ⟨0, none, 0 + p.roots⟩ site x) (fun _ _ _ _ h back site x spot => back site x (spot_emptied h spot))
        fun _ _ spot => spot
      exact reported.keeps (P := fun r => ∀ site x, r.Spot ⟨0, none, 0 + p.roots⟩ site x →
        p.Spot ⟨0, none, 0 + p.roots⟩ site x) (fun _ _ _ _ h back site x spot => back site x (spot_reported h spot))
        collected site x before
  rw [sheds.kept.rank]
  refine ⟨?_, sends⟩
  refine Held.restrict (c := ⟨0, none, 0 + p.roots⟩) ?_ (fun _ hx => hx) (.inl rfl) fun v hv => .inl ?_
  · refine h.lingers sheds.kept.rank (fun x b hb => ⟨b, sheds.agents ▸ hb, rfl⟩)
      (fun site x a spot _ => .inl (spots site x spot)) ?_ ?_
    · cases mailed
      rintro target t ⟨⟩
    · rw [sheds.dueAgents, sheds.kept.timing]
      exact h.horizon
  · exact Multiset.mem_of_le (add_le_add_right sheds.roots 0) hv

/-! ## Receiving -/

theorem plain_updated {xs : List PassengerRecord} (h : Along Updated xs p q) :
    q = { p with agents := q.agents } ∧ ∀ c site x, q.Spot c site x → p.Spot c site x := by
  induction h with
  | nil => exact ⟨rfl, fun _ _ _ spot => spot⟩
  | @cons y _ _ _ _ first _ ih =>
    obtain ⟨a, ha, -, rfl⟩ := first
    refine ⟨ih.1, fun c site x spot => ?_⟩
    exact spot_setAgent (b := { a with cursor := y.cursor }) ha (fun _ _ hy => hy) (ih.2 c site x spot)

theorem plain_boarded (h : Boarded record p q) : q = { p with agents := q.agents } := by
  cases h with
  | nobody => rfl
  | seated listed updated =>
    rw [(plain_updated updated).1]

/-- Those who are aboard when the passengers have been taken over are the passengers, and nobody else has
moved. -/
theorem spot_boarded (o : p.Orderly) (known : record.Known p.isVehicle) (h : Boarded record p q)
    (spot : q.Spot c site x) : (p.Spot c site x ∧ ∀ index, site ≠ .aboard record.id index) ∨
      ∃ row ∈ record.passengers.getD [], row.id = x ∧ site = .aboard record.id row.index := by
  cases h with
  | nobody unlisted =>
    refine .inl ⟨spot, ?_⟩
    rintro index rfl
    rw [AgentRecord.Known, unlisted] at known
    exact Multiset.notMem_zero x (o.pedestrians record.id known ▸ mem_crew.2 ⟨_, spot.2⟩)
  | @seated passengers s a seats listed updated found seated =>
    have back := (plain_updated updated).2 c
    cases site with
    | aboard vehicle index =>
      obtain ⟨car, row⟩ := spot
      rw [rowOf_setIfInBounds found] at row
      split at row
      · rename_i own
        obtain ⟨y, hy, same⟩ := List.mem_map.1 ((Seats.mem_row_replace seated).1 row)
        obtain ⟨rfl, rfl⟩ := Prod.mk.inj same
        rw [listed]
        exact .inr ⟨y, hy, rfl, by rw [own]⟩
      · rename_i other
        refine .inl ⟨back (.aboard vehicle index) x ⟨car, row⟩, ?_⟩
        rintro index' ⟨⟩
        exact other rfl
    | acting => exact .inl ⟨back .acting x spot, by rintro _ ⟨⟩⟩
    | due time => exact .inl ⟨back (.due time) x spot, by rintro _ ⟨⟩⟩
    | beyond => exact .inl ⟨back .beyond x spot, by rintro _ ⟨⟩⟩
    | queued l finish => exact .inl ⟨back (.queued l finish) x spot, by rintro _ ⟨⟩⟩
    | inbound l => exact .inl ⟨back (.inbound l) x spot, by rintro _ ⟨⟩⟩
    | outbound l => exact .inl ⟨back (.outbound l) x spot, by rintro _ ⟨⟩⟩
    | stop stop route index => exact .inl ⟨back (.stop stop route index) x spot, by rintro _ ⟨⟩⟩
    | mailed => exact spot.elim
    | gone time => exact .inl ⟨back (.gone time) x spot, by rintro _ ⟨⟩⟩

/-- Whoever comes to a gateway stands behind the others, or it waits in front of the link because others do or
because there is no room. -/
theorem spot_welcomed (h : Welcomed id link part now p q) (skip : c.skip = none) (spot : q.Spot c site x) :
    p.Spot c site x ∨ x = id ∧ ∃ g, p.links[link]? = some (.gateway g) ∧
      ((site = .inbound link ∧ (g.inbound ≠ [] ∨ g.link.isFull = true)) ∨
        ∃ finish a, site = .queued link finish ∧ p.Enters g.link id now finish a) := by
  cases h with
  | @waits g view known closed =>
    have same := seen_of_view view
    obtain old | ⟨finish, fromPart, rfl, there⟩ | ⟨rfl, there⟩ | ⟨-, there⟩ := spot_setView view spot
    · exact .inl old
    · exact .inl ⟨fromPart, by rw [same]; exact there⟩
    · obtain ⟨row, hrow, rfl⟩ := List.mem_map.1 there
      refine (List.mem_append.1 hrow).imp (fun old => ?_) fun last => ?_
      · exact (show row.1 ∈ (p.seen link).inFront by
          rw [same]; exact List.mem_map_of_mem (f := Prod.fst) old)
      · obtain rfl := List.mem_singleton.1 last
        exact ⟨rfl, g, view, .inl ⟨rfl, closed⟩⟩
    · cases there
  | @enters g a finish q view known empty room enters scheduled =>
    have same := seen_of_view view
    have onLink : Spot c { p with
        agents := p.agents.setIfInBounds id (a.onLink now finish)
        links := p.links.setIfInBounds link (.gateway (g.append id part finish)) } site x := by
      obtain ⟨due, rfl⟩ := scheduled_ends scheduled fun same => same
      cases site <;> exact spot
    have entered := spot_setAgent
      (p := { p with links := p.links.setIfInBounds link (.gateway (g.append id part finish)) })
      (b := a.onLink now finish) enters.found (fun _ _ hy => hy) onLink
    obtain old | ⟨time, fromPart, rfl, there⟩ | ⟨rfl, there⟩ | ⟨-, there⟩ := spot_setView view entered
    · exact .inl old
    · rw [if_neg (by rw [skip]; simp)] at there
      refine (List.mem_append.1 there).imp (fun old => ⟨fromPart, ?_⟩) fun last => ?_
      · rw [if_neg (by rw [skip]; simp), same]
        exact old
      · obtain ⟨rfl, rfl, -⟩ := Entry.mk.inj (List.mem_singleton.1 last)
        exact ⟨rfl, g, view, .inr ⟨time, a, rfl, enters⟩⟩
    · exact .inl (show x ∈ (p.seen link).inFront by rw [same]; exact there)
    · cases there

theorem due_welcomed (h : Welcomed id link part now p q) : q.dueAgents = p.dueAgents := by
  cases h with
  | waits => rfl
  | enters view known empty room enters scheduled =>
    obtain ⟨due, rfl⟩ := scheduled_ends scheduled fun same => same
    rfl

theorem stop_takenIn (taken : TakenIn record entry part now p q) : q.dueAgents.stop = p.dueAgents.stop := by
  obtain ⟨boarded, before, boards, own, grows, placed⟩ := taken
  have plain : boarded.dueAgents = p.dueAgents := by rw [plain_boarded boards]
  rw [← plain]
  cases entry with
  | none =>
    obtain ⟨due, added, rfl⟩ := wake_eq_ok.1 placed
    exact Agenda.stop_add added
  | some l =>
    have due := due_welcomed placed
    exact congrArg Agenda.stop due

/-- Amid the exchange of a second everybody obeys the rule, and so do those who are still to be taken in. -/
structure Greets (s : Scenario) (timing : Timing) (rule : Rule) (now i : Nat) (entrants : List Entrant)
    (p : Partition) : Prop where
  setting : p.Setting s timing i
  hosts : Hosts now entrants p
  known : ∀ x ∈ p.census 0, ∃ a, p.agents[x]? = some a
  held : p.Held rule ⟨0, none, 0 + p.roots⟩
  sent : ∀ e ∈ entrants, rule.Sends e.1 i e.2.1 e.2.2

/-- Whoever enters a link after it has been brought up to date takes as long as its last instruction says. -/
theorem entered_onto {boarded : Partition} {before a : Agent} {g : Gateway} {finish : Nat}
    (setting : p.Setting s timing i) (boards : Boarded record p boarded)
    (own : boarded.agents[record.id]? = some before) (view : boarded.links[link]? = some (.gateway g))
    (enters : Enters { boarded with
      agents := boarded.agents.setIfInBounds record.id { before with cursor := record.cursor } }
      g.link record.id now finish a) :
    ∃ k event requested velocity, record.cursor = k + 1 ∧
      s.Instructs record.id k ⟨event, .traverse requested velocity⟩ ∧
      finish = Clock.after now (s.travelTime link velocity.val timing.delay) := by
  have setting' : Partition.Setting s timing i { boarded with
      agents := boarded.agents.setIfInBounds record.id { before with cursor := record.cursor } } :=
    (setting.trans (kept_boarded boards)).trans
      (Kept.setAgent (b := { before with cursor := record.cursor }) own rfl fun honest => honest)
  obtain ⟨-, -, -, -, travel⟩ := setting'.owned view rfl
  obtain ⟨found, event, requested, velocity, previous, time⟩ := enters
  have timed : boarded.timing = timing := setting'.timing
  obtain ⟨hlt, -⟩ := Array.getElem?_eq_some_iff.1 own
  have same := found
  rw [Array.getElem?_setIfInBounds_self_of_lt hlt] at same
  obtain rfl := Option.some.inj same
  unfold Agent.previous at previous
  split at previous
  · cases previous
  · rename_i consumed
    obtain ⟨k, hk⟩ := Nat.exists_eq_succ_of_ne_zero consumed
    refine ⟨k, event, requested, velocity, hk, setting'.instructs found (by rw [hk] at previous; exact previous), ?_⟩
    rw [time, travel]
    exact congrArg (fun t : Timing => Clock.after now (s.travelTime link velocity.val t.delay)) timed

/-- Whoever has been brought up to date comes to a place where it obeys the rule. -/
theorem spot_placed (closed : rule.Closed s timing now crowd) (setting : p.Setting s timing i)
    (horizon : p.dueAgents.stop = p.timing.stop)
    (sent : rule record.id ⟨part, .mailed i entry, record.cursor⟩)
    (room : ∀ (l : Nat) g, p.links[l]? = some (.gateway g) → g.inbound ≠ [] ∨ g.link.isFull = true → crowd)
    (taken : TakenIn record entry part now p q) (skip : c.skip = none) (spot : q.Spot c site x) :
    Spot c { taken.boarded with
      agents := taken.boarded.agents.setIfInBounds record.id { taken.before with cursor := record.cursor } } site x ∨
      x = record.id ∧ rule record.id ⟨i, site, record.cursor⟩ := by
  obtain ⟨boarded, before, boards, own, grows, placed⟩ := taken
  dsimp only
  have plain := plain_boarded boards
  have timed : p.timing = timing := setting.timing
  cases entry with
  | none =>
    obtain ⟨due, added, rfl⟩ := wake_eq_ok.1 placed
    have stop : boarded.dueAgents.stop = timing.stop := by
      rw [plain]
      exact horizon.trans (congrArg Timing.stop timed)
    have received : rule record.id ⟨i, .due (now + 1), record.cursor⟩ := closed record.id _ _ .received sent
    cases site with
    | due t =>
      refine (Agenda.mem_row_add added spot).imp (fun old => old) ?_
      rintro ⟨rfl, rfl⟩
      exact ⟨rfl, received⟩
    | beyond =>
      refine (Agenda.mem_beyond_add added spot).imp (fun old => old) ?_
      rintro ⟨late, rfl⟩
      exact ⟨rfl, closed record.id _ _ (.late (stop ▸ late)) received⟩
    | acting | queued | inbound | outbound | stop | aboard | mailed | gone => exact .inl spot
  | some l =>
    refine (spot_welcomed placed skip spot).imp_right ?_
    rintro ⟨rfl, g, view, ⟨rfl, jam⟩ | ⟨finish, a, rfl, enters⟩⟩
    · have viewed : p.links[l]? = some (.gateway g) := by
        have links : boarded.links = p.links := by rw [plain]
        exact links ▸ view
      exact ⟨rfl, closed record.id _ _ (.linesUp (room l g viewed jam)) sent⟩
    · obtain ⟨k, event, requested, velocity, cursor, last, rfl⟩ := entered_onto setting boards own view enters
      rw [cursor] at sent ⊢
      exact ⟨rfl, closed record.id _ _ (.arrives last) sent⟩

/-- Whoever is taken in and its passengers obey the rule, and so does everybody else. -/
theorem Held.takenIn (h : p.Held rule ⟨0, none, 0 + p.roots⟩) (closed : rule.Closed s timing now crowd)
    (setting : p.Setting s timing i) (o : p.Orderly) (once : (p.census 0 + record.load).Nodup)
    (expects : p.Expects part entry record) (sent : rule.Sends part i entry record)
    (room : ∀ (l : Nat) g, p.links[l]? = some (.gateway g) → g.inbound ≠ [] ∨ g.link.isFull = true → crowd)
    (taken : TakenIn record entry part now p q) : q.Held rule ⟨0, none, 0 + q.roots⟩ := by
  have rank : p.rank = i := setting.rank
  have kept : Kept LinkView.Alike p q := (kept_takenIn taken).mono LinkView.Same.alike
  have brought := brought_takenIn
    (Multiset.coe_nodup.1 (record.coe_cursors ▸ (Multiset.nodup_add.1 once).2.1)) taken
  -- Whoever is taken in has the cursor which the record tells.
  have cursors : ∀ row ∈ record.cursors, ∀ b, q.agents[row.1]? = some b → b.cursor = row.2 := by
    intro row hrow b hb
    obtain ⟨a, ha, -⟩ := expects.behind row hrow
    obtain ⟨-, b', hb', -, cursor⟩ := brought.brings row.1 row.2 hrow a ha
    obtain rfl := Option.some.inj (hb.symm.trans hb')
    exact cursor
  -- Whoever is still in the partition hasn't come with the record.
  have stays : ∀ site x, p.Spot ⟨0, none, 0 + p.roots⟩ site x → x ∉ record.cursors.map Prod.fst := by
    intro site x spot hx
    have load : x ∈ record.load := record.coe_cursors ▸ Multiset.mem_coe.2 hx
    refine Multiset.disjoint_left.1 (Multiset.nodup_add.1 once).2.2 ?_ load
    rw [Partition.census, aboardOf]
    obtain ⟨-, -, -, -, waits⟩ | ⟨vehicle, -, -, car, rides⟩ | present := present_of_spot spot
    · exact Multiset.mem_add.2 (.inl (Multiset.mem_add.2 (.inr waits)))
    · exact Multiset.mem_add.2 (.inl (Multiset.mem_add.2 (.inl (Multiset.mem_add.2
        (.inr (Multiset.mem_bind.2 ⟨vehicle, car, rides⟩))))))
    · exact Multiset.mem_add.2 (.inl (Multiset.mem_add.2 (.inl (Multiset.mem_add.2 (.inl present)))))
  refine ⟨fun site x b spot hb => ?_, ?_, ?_⟩
  · rw [kept.rank, rank]
    rcases spot_placed closed setting h.horizon sent.1 room taken rfl spot with before | ⟨rfl, obeys⟩
    · have boarded := spot_setAgent (b := { taken.before with cursor := record.cursor }) taken.found
        (fun _ _ hy => hy) before
      rcases spot_boarded o expects.proper.known taken.boards boarded with ⟨old, other⟩ | ⟨row, hrow, rfl, rfl⟩
      · have old : p.Spot ⟨0, none, 0 + p.roots⟩ site x := by
          cases site with
          | aboard vehicle index =>
            refine ⟨?_, old.2⟩
            refine (Multiset.mem_add.1 old.1).elim (fun none => absurd none (Multiset.notMem_zero vehicle))
              fun root => Multiset.mem_add.2 (.inr ?_)
            obtain ⟨-, roots, -, -⟩ := crew_boarded o expects.proper.known taken.boards
            refine roots ▸ (taken.put.roots vehicle root).resolve_right fun own => other index (by rw [own])
          | acting | due | beyond | queued | inbound | outbound | stop | mailed | gone => exact old
        rw [brought.others x (stays site x old)] at hb
        exact rank ▸ h.spots site x b old hb
      · have there : (row.id, row.cursor) ∈ record.cursors :=
          List.mem_cons_of_mem _ (List.mem_map_of_mem (f := fun x : PassengerRecord => (x.id, x.cursor)) hrow)
        rw [cursors _ there b hb]
        exact closed row.id _ _ .rides (sent.2 row hrow)
    · rw [cursors (record.id, record.cursor) List.mem_cons_self b hb]
      exact obeys
  · rw [outbox_takenIn taken, kept.rank]
    exact h.mail
  · rw [kept.timing, ← h.horizon]
    exact stop_takenIn taken

/-- Whoever finds no room where it comes to in the exchange of a second finds a crowd. -/
def Welcoming (s : Scenario) (timing : Timing) (rule : Rule) (now i : Nat) (crowd : Prop) : Prop :=
  ∀ entrants p (link : Nat) g, Greets s timing rule now i entrants p → p.links[link]? = some (.gateway g) →
    g.inbound ≠ [] ∨ g.link.isFull = true → crowd

namespace Greets

variable {first : Entrant} {rest entrants : List Entrant}

theorem takenIn (h : Greets s timing rule now i (first :: rest) p) (closed : rule.Closed s timing now crowd)
    (room : Welcoming s timing rule now i crowd) (taken : TakenIn first.2.2 first.2.1 first.1 now p q) :
    Greets s timing rule now i rest q := by
  have expects := h.hosts.expects first List.mem_cons_self
  have kept : Kept LinkView.Alike p q := (kept_takenIn taken).mono LinkView.Same.alike
  refine ⟨h.setting.trans kept, h.hosts.takenIn taken, fun x hx => ?_, ?_, fun e he => h.sent e (List.mem_cons_of_mem _ he)⟩
  · rw [(census_takenIn h.hosts.orderly expects.proper h.hosts.absent taken).1] at hx
    have known : ∃ a, p.agents[x]? = some a := by
      rcases Multiset.mem_add.1 hx with old | comes
      · exact h.known x old
      · obtain ⟨k, hk⟩ := AgentRecord.mem_load.1 comes
        obtain ⟨a, ha, -⟩ := expects.behind (x, k) hk
        exact ⟨a, ha⟩
    obtain ⟨a, ha⟩ := known
    obtain ⟨b, hb, -⟩ := kept.copy ha
    exact ⟨b, hb⟩
  · have here := (Multiset.nodup_add.1 h.hosts.apart).1
    exact h.held.takenIn closed h.setting h.hosts.orderly here expects (h.sent first List.mem_cons_self)
      (fun l g => room _ p l g h) taken

/-- Transfers are taken in by the rank of their senders. -/
theorem sorted {transfers : List Transfer} (h : Greets s timing rule now i (transfers.flatMap Transfer.entrants) p) :
    Greets s timing rule now i ((transfers.mergeSort fun a b => a.sender ≤ b.sender).flatMap Transfer.entrants) p :=
  have same := (List.mergeSort_perm transfers fun a b => a.sender ≤ b.sender).flatMap_right Transfer.entrants
  ⟨h.setting, h.hosts.sorted, h.known, h.held, fun e he => h.sent e (same.mem_iff.1 he)⟩

/-- What every agent which is taken in leaves as it is holds after all of them have been taken in. -/
theorem received {P : Partition → Prop} {transfers : List Transfer} {d : Delivery} {b : Buffers}
    (h : Greets s timing rule now i (transfers.flatMap Transfer.entrants) p)
    (closed : rule.Closed s timing now crowd) (room : Welcoming s timing rule now i crowd)
    (keeps : ∀ {first : Entrant} {rest : List Entrant} {p q : Partition},
      Greets s timing rule now i (first :: rest) p → TakenIn first.2.2 first.2.1 first.1 now p q → P p → P q)
    (before : P p) (read : Outbox.readTransfers p.rank now p.isVehicle d = .ok transfers)
    (ends : Ends (arrive now d) p b q) :
    ∃ r, Greets s timing rule now i [] r ∧ P r ∧ q = { r with outbox := { r.outbox with releases := .empty } } := by
  obtain ⟨transfers', r, read', receives, rfl⟩ := arrive_forM ends
  obtain rfl := Except.ok.inj (read.symm.trans read')
  obtain ⟨greets, after⟩ := forM_rest (P := fun entrants p => Greets s timing rule now i entrants p ∧ P p)
    (fun first rest p q greeted ends => by
      obtain ⟨taken⟩ := receiveAgent_ends ends
      exact ⟨greeted.1.takenIn closed room taken, keeps greeted.1 taken greeted.2⟩) ⟨h.sorted, before⟩ receives
  exact ⟨r, greets, after, rfl⟩

/-- Everybody obeys the rule after the transfers have been taken in and the releases have been sent. -/
theorem arrived {transfers : List Transfer} {d : Delivery} {b : Buffers}
    (h : Greets s timing rule now i (transfers.flatMap Transfer.entrants) p)
    (closed : rule.Closed s timing now crowd) (room : Welcoming s timing rule now i crowd)
    (read : Outbox.readTransfers p.rank now p.isVehicle d = .ok transfers)
    (ends : Ends (arrive now d) p b q) : q.Held rule ⟨0, none, 0 + q.roots⟩ := by
  obtain ⟨r, ⟨-, -, -, received, -⟩, -, rfl⟩ :=
    h.received (P := fun _ => True) closed room (fun _ _ holds => holds) trivial read ends
  refine received.lingers rfl (fun x b hb => ⟨b, hb, rfl⟩) (fun site x a spot _ => .inl ?_) received.mail
    received.horizon
  cases site <;> exact spot

end Greets

/-! ## Releases -/

theorem spot_applyCount {count : Nat} (h : Ends (applyCount part link count) p () q) (spot : q.Spot c site x) :
    p.Spot c site x := by
  obtain ⟨y, z, view, -, release, rfl⟩ := applyCount_eq_ok.1 h
  obtain ⟨-, rfl⟩ := Proxy.release_eq_ok release
  obtain old | ⟨_, _, rfl, there⟩ | ⟨-, there⟩ | ⟨rfl, there⟩ := spot_setView view spot
  · exact old
  · split at there <;> cases there
  · cases there
  · exact (show x ∈ (p.seen link).outgoing by rw [seen_of_view view]; exact there)

/-- Everybody obeys the rule after the releases have been received. -/
theorem Held.settled {d : Delivery} (h : p.Held rule ⟨0, none, 0 + p.roots⟩)
    (ends : Ends (receiveReleases now d) p () q) : q.Held rule ⟨0, none, 0 + q.roots⟩ := by
  have links := receiveReleases_links ends
  have roots := (still_receiveReleases ends).roots
  obtain ⟨releases, -, credited⟩ := receiveReleases_eq_ok.1 ends
  have spots : ∀ c site x, q.Spot c site x → p.Spot c site x :=
    credited.keeps (P := fun r => ∀ c site x, r.Spot c site x → p.Spot c site x) (fun _ _ _ _ counts back =>
      counts.keeps (P := fun r => ∀ c site x, r.Spot c site x → p.Spot c site x)
        (fun _ _ _ _ applied back c site x spot => back c site x (spot_applyCount applied spot)) back)
      fun _ _ _ spot => spot
  rw [roots]
  rw [links]
  refine h.lingers rfl (fun x b hb => ⟨b, hb, rfl⟩) (fun site x a spot _ => .inl ?_) h.mail h.horizon
  exact spots _ site x (by rw [links]; exact spot)

end Partition

end Mobility
