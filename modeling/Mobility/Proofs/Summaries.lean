import Mobility.Proofs.Census.Places

/-!
# What the summaries account for

A summary counts agents in other ways than the census does: who has finished and who waits at a stop
are numbers kept beside the log and the platforms, and who is aboard is read off the taken seats of
those who are present. The numbers agree with what they stand beside after every act (`Tallied`), so
the summaries of a completed run and the passengers whom finished vehicles have kept are all agents
(`Ensemble.summaries_account`). The latter are in no summary.
-/

set_option autoImplicit false

namespace Mobility

open Act

namespace Partition

/-- The numbers a partition keeps are right. -/
structure Tallied (p : Partition) : Prop where
  finished : p.finished = p.log.finishers.length
  waiting : p.platforms.size = p.platforms.everybody.card

/-- Nobody has finished, come to a stop or left one. -/
structure SameTally (p q : Partition) : Prop where
  finished : q.finished = p.finished
  finishers : q.log.finishers = p.log.finishers
  platforms : q.platforms = p.platforms

instance : Std.Refl SameTally := ⟨fun _ => ⟨rfl, rfl, rfl⟩⟩

instance : IsTrans Partition SameTally where
  trans _ _ _ h k := ⟨k.finished.trans h.finished, k.finishers.trans h.finishers,
    k.platforms.trans h.platforms⟩

variable {p q r : Partition} {id now : Nat}

theorem SameTally.trans (h : SameTally p q) (k : SameTally q r) : SameTally p r :=
  IsTrans.trans _ _ _ h k

/-- Nothing is counted of links, agents and agendas, nor of what is to be sent. -/
theorem SameTally.aside (p : Partition) (links : Array LinkView) (agents : Array Agent)
    (dueAgents dueLinks : Agenda Nat) (outbox : Outbox) :
    SameTally p { p with
      links := links, agents := agents, dueAgents := dueAgents, dueLinks := dueLinks,
      outbox := outbox } :=
  ⟨rfl, rfl, rfl⟩

theorem Tallied.same (t : p.Tallied) (h : SameTally p q) : q.Tallied :=
  ⟨by rw [h.finished, h.finishers, t.finished], by rw [h.platforms, t.waiting]⟩

/-! ## Elementary acts -/

/-- What is stamped when an instruction is consumed is no end. -/
theorem sameTally_consume {how : Consumption} (h : Ends (consume id how now) p () q) :
    SameTally p q := by
  obtain ⟨a, i, -, -, rfl⟩ := consume_ends h
  refine ⟨rfl, ?_, rfl⟩
  by_cases silent : i.event.val = 0
  · simp [silent]
  · simp only [if_neg silent, EventLog.finishers_push]
    cases how <;> simp [Consumption.stamp]

theorem sameTally_wake {time : Nat} (h : Ends (wake id time) p () q) : SameTally p q := by
  obtain ⟨due, -, rfl⟩ := wake_eq_ok.1 h
  exact ⟨rfl, rfl, rfl⟩

theorem sameTally_revisit {link time : Nat} (h : Ends (revisit link time) p () q) :
    SameTally p q := by
  obtain ⟨due, -, rfl⟩ := revisit_eq_ok.1 h
  exact ⟨rfl, rfl, rfl⟩

theorem sameTally_send {target : Nat} {link : Option Nat}
    (h : Ends (send target link id now) p () q) : SameTally p q := by
  obtain ⟨r, -, -, rfl⟩ := send_ends h
  exact ⟨rfl, rfl, rfl⟩

/-! ## The work of a second -/

/-- Whoever boards has waited before. -/
theorem Tallied.exchanged {stop : StopRef} (t : p.Tallied) (h : Exchanged id stop now p q) :
    q.Tallied := by
  have left : SameTally _ h.left := h.leaves.relates fun _ _ _ _ ⟨_, consumes, wakes⟩ =>
    (sameTally_consume consumes).trans (sameTally_wake wakes)
  have before := t.same ((sameTally_consume h.consumes).trans ((SameTally.aside ..).trans left))
  obtain ⟨admits, queues⟩ := Seats.board_eq h.board
  have everybody := Platforms.everybody_board admits.isPrefix queues
  have boarded : SameTally _ q := h.boards.relates fun _ _ _ _ consumes => sameTally_consume consumes
  refine Tallied.same ?_ boarded
  refine ⟨before.finished, ?_⟩
  show h.platforms.size = h.platforms.everybody.card
  rw [Platforms.size_board h.board, before.waiting, ← everybody, Multiset.card_add,
    Multiset.coe_card, List.length_map, Nat.add_sub_cancel]

theorem Tallied.dispatched {b : Bool} (t : p.Tallied) (h : Dispatched id now p b q) : q.Tallied := by
  cases h with
  | finished found current =>
    refine ⟨?_, t.waiting⟩
    rw [EventLog.finishers_push, if_pos rfl, List.length_append, ← t.finished]
    rfl
  | handedOver found current sent => exact t.same (sameTally_send sent)
  | refused => exact t
  | outbound found current action view pushed consumes =>
    exact t.same ((SameTally.aside ..).trans (sameTally_consume consumes))
  | entered found current action view owned time pushed consumes scheduled =>
    exact t.same ((SameTally.aside ..).trans
      ((sameTally_consume consumes).trans (relates_scheduled sameTally_revisit scheduled Eq.symm)))
  | paused found current action consumes wakes =>
    exact t.same ((sameTally_consume consumes).trans (sameTally_wake wakes))
  | queued found current action consumes waiting egress =>
    have after := t.same (sameTally_consume consumes)
    refine ⟨after.finished, ?_⟩
    rw [Platforms.everybody_add, Multiset.card_add, Multiset.card_singleton, ← after.waiting]
    rfl
  | exchanged found current action exchange => exact t.exchanged exchange
  | departed found current action consumes => exact t.same (sameTally_consume consumes)

theorem sameTally_admitted {g h : Gateway} {waiting : List (Nat × Nat)}
    (ha : Admitted now g waiting p h q) : SameTally p q := by
  induction ha with
  | nobody | full => exact Std.Refl.refl _
  | entered room enters later ih =>
    exact (SameTally.aside ..).trans ih

theorem sameTally_drained {link : Nat} (h : Ends (drainInbound link now) p () q) :
    SameTally p q := by
  obtain ⟨v, -, ⟨g, k, r, rfl, admitted, rfl⟩ | ⟨-, rfl⟩⟩ := drainInbound_ends h
  · exact (sameTally_admitted admitted).trans ⟨rfl, rfl, rfl⟩
  · exact Std.Refl.refl p

theorem Tallied.served {link : Nat} (t : p.Tallied) (h : Served link now p q) : q.Tallied := by
  induction h with
  | empty => exact t
  | later view front scheduled => exact t.same (sameTally_revisit scheduled)
  | blocked view front due turn scheduled =>
    exact (t.dispatched turn).same (sameTally_revisit scheduled)
  | left view front due turn after pops drained served ih =>
    exact ih ((t.dispatched turn).same ((SameTally.aside ..).trans (sameTally_drained drained)))

theorem Tallied.acted (t : p.Tallied) (h : Acted id now p q) : q.Tallied := by
  rcases h with turn | ⟨r, turn, wakes⟩
  · exact t.dispatched turn
  · exact (t.dispatched turn).same (sameTally_wake wakes)

theorem Tallied.work (t : p.Tallied) (h : Ends (work now) p () q) : q.Tallied := by
  obtain ⟨ids, dueAgents, links, dueLinks, r, -, agents, -, visits⟩ := work_ends h
  have acted : r.Tallied := agents.keeps (fun _ _ _ _ turn t => t.acted turn) ⟨t.finished, t.waiting⟩
  refine visits.keeps (fun link _ p q visited t => ?_) ⟨acted.finished, acted.waiting⟩
  rcases visited with ⟨v, -, -, rfl⟩ | served
  · exact t
  · exact t.served served

/-! ## The exchange of a second -/

theorem sameTally_emptied {link : Nat} (h : Emptied now link p q) : SameTally p q := by
  cases h with
  | proxy view sends =>
    have sent : SameTally _ q := sends.relates fun _ _ _ _ sent => sameTally_send sent
    exact (SameTally.aside ..).trans sent
  | other => exact Std.Refl.refl p

theorem sameTally_mailed {messages : Table Transfer} (h : Mailed now messages p q) :
    SameTally p q := by
  cases h with
  | @intro r s emptied reported complete =>
    have emptied : SameTally p r := emptied.relates fun _ _ _ _ h => sameTally_emptied h
    have reported : SameTally r s := reported.relates fun _ _ p q h => by
      cases h with
      | gateway | other => exact ⟨rfl, rfl, rfl⟩
    exact (emptied.trans reported).trans ⟨rfl, rfl, rfl⟩

theorem sameTally_welcomed {link part : Nat} (h : Welcomed id link part now p q) :
    SameTally p q := by
  cases h with
  | waits => exact SameTally.aside ..
  | enters view known empty room enters scheduled =>
    exact (SameTally.aside ..).trans (relates_scheduled sameTally_revisit scheduled fun same => same)

theorem sameTally_boarded {record : AgentRecord} (h : Boarded record p q) : SameTally p q := by
  cases h with
  | nobody => exact Std.Refl.refl p
  | seated listed updates =>
    have updated : SameTally p _ := updates.relates fun _ _ p q ⟨_, _, _, h⟩ => h ▸ SameTally.aside ..
    exact updated.trans (SameTally.aside ..)

theorem sameTally_takenIn {record : AgentRecord} {link : Option Nat} {part : Nat}
    (h : TakenIn record link part now p q) : SameTally p q := by
  have placed := h.placed
  refine (sameTally_boarded h.boards).trans ?_
  cases link with
  | none => exact (SameTally.aside ..).trans (sameTally_wake placed)
  | some link => exact (SameTally.aside ..).trans (sameTally_welcomed placed)

/-- No number changes between the work of a second and the next one. -/
theorem Tallied.second {b b' : Buffers} {d d' : Delivery} {s : Partition} (t : p.Tallied)
    (depart : Ends (depart now) p b q) (arrive : Ends (arrive now d) q b' r)
    (settle : Ends (receiveReleases now d') r () s) : s.Tallied := by
  obtain ⟨messages, ⟨w, work, mailed⟩, -⟩ := depart_ends depart
  obtain ⟨transfers, x, -, absorbed, rfl⟩ := arrive_ends arrive
  obtain ⟨releases, -, counted⟩ := receiveReleases_eq_ok.1 settle
  have absorbed : SameTally q x := absorbed.relates fun _ _ _ _ transfer =>
    transfer.relates fun _ _ _ _ group => group.relates fun _ _ _ _ ⟨taken⟩ => sameTally_takenIn taken
  have counted : SameTally _ s := counted.relates fun _ _ _ _ rows =>
    rows.relates fun _ _ p q count => by
      obtain ⟨_, _, -, -, -, rfl⟩ := applyCount_eq_ok.1 count
      exact ⟨rfl, rfl, rfl⟩
  exact (t.work work).same ((sameTally_mailed mailed).trans
    (absorbed.trans ((SameTally.aside ..).trans counted)))

/-! ## Summaries -/

/-- The number of passengers whom vehicles had aboard when they finished. -/
def stranded (p : Partition) : Nat := (p.log.finishers.map p.seatsTaken).sum

theorem length_passengersOf (honest : p.Honest) (id : Nat) :
    (p.passengersOf id).length = p.seatsTaken id := by
  unfold passengersOf seatsTaken
  cases found : p.agents[id]? with
  | none => rfl
  | some a =>
    have counted := (honest id a found).counted
    rw [← Seats.coe_carried, Multiset.coe_card] at counted
    exact counted.symm

theorem aboard_eq (p : Partition) : p.aboard = (p.present.map p.seatsTaken).sum := by
  unfold aboard
  induction p.present with
  | nil => rfl
  | cons id rest ih => rw [List.foldr_cons, ih, List.map_cons, List.sum_cons]

/-- The summary of a partition counts everybody who is counted there, except for the passengers of
vehicles which have finished. -/
theorem Tallied.summary (t : p.Tallied) (honest : p.Honest) (idle : p.outbox.transfers = .empty)
    (unsent : ∀ v ∈ p.links.toList, v.outgoing = []) :
    p.summary.finished + p.summary.unfinished + p.stranded = (p.census 0).card := by
  have seats : ∀ ids : List Nat, (ids.flatMap p.passengersOf).length = (ids.map p.seatsTaken).sum := by
    intro ids
    rw [List.length_flatMap]
    exact congrArg List.sum (List.map_congr_left fun id _ => length_passengersOf honest id)
  have stops : (p.platforms.toList.flatMap (·.2.2)).length = p.platforms.size := by
    rw [t.waiting, ← Platforms.coe_toList, Multiset.coe_card]
  rw [← coe_places idle unsent, Multiset.coe_card, places, placed, List.length_append,
    List.length_append, List.length_append, List.flatMap_append, List.length_append, stops,
    seats, seats, ← t.finished, ← aboard_eq]
  show p.finished + (p.present.length + p.aboard + p.platforms.size) + p.stranded = _
  rw [stranded]
  omega

end Partition

namespace Scenario

variable {s : Scenario} {timing : Timing} {count : Nat} {ps : List Partition}

theorem tallied_run (hrun : Second.run count timing.start
    ((List.range s.numParts).map (Partition.initial s timing)) = some ps) :
    ∀ (i : Nat) p, ps[i]? = some p → p.Tallied :=
  Second.run_keeps (P := fun _ _ p => p.Tallied)
    (fun t depart arrive settle => t.second depart arrive settle)
    (fun _ _ hp => getElem?_cast hp ▸ ⟨rfl, rfl⟩) hrun

/-- Nobody is aboard a fresh agent, so its seats are counted right. -/
theorem Fresh.honest_initial (fresh : s.Fresh) (timing : Timing) (rank : Nat) :
    (Partition.initial s timing rank).Honest := by
  intro id a found
  rw [fresh.agents id a found]
  exact Seats.honest_free _

end Scenario

namespace Ensemble

/-- The agents which the summaries of all partitions account for. -/
def accounted (c : Ensemble) : Nat :=
  (c.processes.map fun x => x.partition.summary.finished + x.partition.summary.unfinished).sum

variable {raw s : Scenario} {method : Method} {timing : Timing} {schedule : List Turn}
  {c c₀ : Ensemble}

/-- When all partitions have ended their run, the summaries account for every agent who isn't aboard
a vehicle that has finished: on a link, in front of one, asleep, due after the end, at a stop, aboard
any other vehicle or finished. So all agents are accounted for if no vehicle has finished with somebody
aboard, and only then. -/
theorem summaries_account (hs : raw.partition method = .ok s) (fresh : s.Fresh) (fits : s.Fits)
    (hm : make s timing = .ok c₀) (hp : play schedule c₀ = some c) (done : c.isDone = true) :
    c.accounted + (c.processes.map fun x => x.partition.stranded).sum = s.agents.size ∧
      (c.accounted = s.agents.size ↔
        ∀ x ∈ c.processes, ∀ id ∈ x.partition.log.finishers, x.partition.seatsTaken id = 0) := by
  have accepted := Scenario.accepted_of_partition hs
  obtain ⟨count, ps, hrun, scene⟩ := reaches hs fits.parts hm hp (isSound_of_isDone done)
  obtain ⟨counted, rest, company⟩ := fresh.run accepted fits hrun
  have tallied := Scenario.tallied_run hrun
  have ended : c.processes.map (·.partition) = ps := by
    rw [(scene.done done accepted.positive).2, List.map_map]
    exact List.map_id _
  have each : ∀ p ∈ ps, p.summary.finished + p.summary.unfinished + p.stranded = (p.census 0).card := by
    intro p hp
    obtain ⟨i, hi⟩ := List.mem_iff_getElem?.1 hp
    exact (tallied i p hi).summary ((rest.setting i p hi).honest (fresh.honest_initial timing i))
      (company.idle i p hi).1 (rest.outgoing hi)
  have total : c.accounted + (c.processes.map fun x => x.partition.stranded).sum = s.agents.size :=
    calc c.accounted + (c.processes.map fun x => x.partition.stranded).sum
        = (c.processes.map fun x => x.partition.summary.finished + x.partition.summary.unfinished +
            x.partition.stranded).sum := List.sum_map_add.symm
      _ = (ps.map fun p => (p.census 0).card).sum := by
        rw [← ended, List.map_map]
        exact congrArg List.sum (List.map_congr_left fun x hx =>
          each x.partition (ended ▸ List.mem_map_of_mem hx))
      _ = s.agents.size := by
        rw [← Multiset.card_range s.agents.size, ← counted.everybody]
        exact (List.sum_map_hom ps (fun p : Partition => p.census 0) Multiset.cardHom)
  refine ⟨total, ?_⟩
  have nobody : (c.processes.map fun x => x.partition.stranded).sum = 0 ↔
      ∀ x ∈ c.processes, ∀ id ∈ x.partition.log.finishers, x.partition.seatsTaken id = 0 := by
    simp [List.sum_eq_zero_iff, Partition.stranded]
  rw [← nobody]
  omega

/-- When the bus has come to its second stop, with an agent aboard. -/
theorem summaries_account_bus : ∃ s c₀ c, Scenario.bus.partition .modulo = .ok s ∧
    make s ⟨0, 3, 0, 0⟩ = .ok c₀ ∧ play (List.replicate 4 Turn.inTurns).flatten c₀ = some c ∧
    c.isDone = true ∧ c.accounted = 2 := by
  have runs : (trial .bus .modulo ⟨0, 3, 0, 0⟩ (List.replicate 4 Turn.inTurns).flatten).any (fun r =>
      r.1.agents = Scenario.bus.agents ∧ r.1.numParts = 2 ∧ r.1.links.size = 2 ∧ r.2.isDone ∧
        r.2.processes.all fun x => x.partition.log.finishers = []) = true := by decide +kernel
  obtain ⟨s, c₀, c, hs, hm, hp, hc⟩ := exists_of_trial runs
  simp only [decide_eq_true_eq] at hc
  obtain ⟨agents, parts, links, done, nobody⟩ := hc
  have fits : s.Fits := ⟨by rw [parts]; decide, by rw [links]; decide, by rw [agents]; decide⟩
  obtain ⟨-, exactly⟩ := summaries_account hs (Scenario.fresh_bus.of_agents agents) fits hm hp done
  refine ⟨s, c₀, c, hs, hm, hp, done, ?_⟩
  rw [exactly.2 fun x hx id hid => ?_, agents]
  · rfl
  · rw [of_decide_eq_true (List.all_eq_true.1 nobody x hx)] at hid
    cases hid

end Ensemble

/-- A bus whose plan ends at its first stop, after the agent there has boarded. -/
def Scenario.shuttle : Scenario :=
  { bus with
    agents := bus.agents.setIfInBounds 0 (.fresh 0
      ⟨#[Action.word (.stopArrive (.of 0 0 0)), Action.word (.stopDelay (.of 0 0 0))], by decide⟩
      1 (low16 0)) }

namespace Ensemble

/-- The agent aboard the shuttle is in no summary. -/
theorem summaries_miss_shuttle : ∃ s c₀ c, Scenario.shuttle.partition .modulo = .ok s ∧ s.Fresh ∧
    make s ⟨0, 3, 0, 0⟩ = .ok c₀ ∧ play (List.replicate 4 Turn.inTurns).flatten c₀ = some c ∧
    c.isDone = true ∧ c.accounted = 1 ∧ s.agents.size = 2 := by
  have runs : (trial .shuttle .modulo ⟨0, 3, 0, 0⟩ (List.replicate 4 Turn.inTurns).flatten).any
      (fun r => r.1.agents = Scenario.shuttle.agents ∧ r.2.isDone ∧ r.2.accounted = 1) = true := by
    decide +kernel
  obtain ⟨s, c₀, c, hs, hm, hp, hc⟩ := exists_of_trial runs
  simp only [decide_eq_true_eq] at hc
  obtain ⟨agents, done, one⟩ := hc
  have fresh : Scenario.shuttle.Fresh := Scenario.fresh_of_isFresh (by decide +kernel)
  exact ⟨s, c₀, c, hs, fresh.of_agents agents, hm, hp, done, one, by rw [agents]; rfl⟩

end Ensemble

end Mobility
