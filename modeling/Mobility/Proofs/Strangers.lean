import Mobility.Proofs.Safety
import Mobility.Proofs.Whereabouts.Routes
import Mobility.Proofs.Whereabouts.Seconds

/-!
# Nobody is sent to a stranger

An outbox can't be emptied if something in it is for a partition which isn't a neighbor. Whoever is queued obeys
the rule of the second (`Scenario.Sane.sends_queued`), and agents which follow their routes are sent to neighbors
only. Counts are for those who feed a link. So plans which are right about where their agents are
(`Scenario.Direct`) never lead to a stranger, whatever the schedule is (`Ensemble.neighbors_suffice`).

Plans needn't be right: a vehicle lets passengers leave and board wherever it is, and neighbors are found as if it
were at the stop. Then a partition fails (`Ensemble.stranger_of_remoteStop`).
-/

set_option autoImplicit false

namespace Mobility

open Act Second Mobility.Partition

/-! ## Messages which say something -/

theorem Transfer.exists_mem_addAgent (t : Transfer) (link : Option Nat) (r : AgentRecord) :
    ∃ g ∈ (t.addAgent link r).records, r ∈ g.agents := by
  have groups : ∀ groups : List LinkRecord, ∃ g ∈ addRecord link r groups, r ∈ g.agents := by
    intro groups
    induction groups with
    | nil => exact ⟨_, List.mem_singleton_self _, List.mem_singleton_self r⟩
    | cons first rest ih =>
      unfold addRecord
      split
      · exact ⟨_, List.mem_cons_self, List.mem_append_right _ (List.mem_singleton_self r)⟩
      · obtain ⟨g, hg, hr⟩ := ih
        exact ⟨g, List.mem_cons_of_mem _ hg, hr⟩
  exact groups t.records

namespace Outbox

variable {o : Outbox} {target now : Nat}

/-- Whatever is queued says something: somebody comes, or something is counted. -/
structure Telling (o : Outbox) : Prop where
  transfers : ∀ target t, o.transfers.get? target = some t → ∃ g ∈ t.records, ∃ r, r ∈ g.agents
  releases : ∀ target r, o.releases.get? target = some r → r.counts ≠ []

theorem Idle.telling (h : o.Idle) : o.Telling :=
  ⟨fun target t ht => by simp [h.transfers] at ht, fun target r hr => by simp [h.releases] at hr⟩

theorem Telling.addAgent (h : o.Telling) (target : Nat) (link : Option Nat) (r : AgentRecord) (now : Nat) :
    (o.addAgent target link r now).Telling := by
  refine ⟨fun i t ht => ?_, h.releases⟩
  unfold Outbox.addAgent at ht
  dsimp only at ht
  rw [Table.get?_alter] at ht
  split at ht
  · obtain rfl := Option.some.inj ht
    obtain ⟨g, hg, hr⟩ := Transfer.exists_mem_addAgent _ link r
    exact ⟨g, hg, r, hr⟩
  · exact h.transfers i t ht

theorem Telling.addCounts {counts : Table Nat} {link : Nat} (h : o.Telling) :
    (o.addCounts link now counts.entries).Telling := by
  refine ⟨fun i t ht => h.transfers i t (by rwa [transfers_addCounts] at ht), fun i r hr => ?_⟩
  rw [releases_addCounts] at hr
  split at hr
  · obtain rfl := Option.some.inj hr
    exact List.append_ne_nil_of_right_ne_nil _ (List.cons_ne_nil _ _)
  · exact h.releases i r hr

end Outbox

namespace Partition

variable {p q r : Partition} {now link : Nat}

theorem telling_worked (h : p.outbox.Telling) (worked : Worked now p q) : q.outbox.Telling := by
  obtain ⟨handed, -, outbox⟩ := worked.handed
  rw [outbox]
  exact Outbox.addHanded_induct (fun _ target r h => h.addAgent target none r now) h

theorem telling_emptied (h : p.outbox.Telling) (emptied : Emptied now link p q) : q.outbox.Telling := by
  cases emptied with
  | other => exact h
  | @proxy q y view sends =>
    refine sends.keeps (P := fun r => r.outbox.Telling) (fun id _ r s sent telling => ?_) h
    obtain ⟨record, -, -, rfl⟩ := send_ends sent
    exact telling.addAgent y.toPart (some link) record now

theorem telling_reported (h : p.outbox.Telling) (reported : Reported now link p q) : q.outbox.Telling := by
  cases reported with
  | other => exact h
  | gateway => exact h.addCounts

/-- What is queued after collecting says something. -/
theorem telling_collected (h : p.outbox.Telling) (emptied : Along (Emptied now) p.proxies p q)
    (reported : Along (Reported now) q.gateways q r) : r.outbox.Telling := by
  have collected := emptied.keeps (P := fun s => s.outbox.Telling) (fun _ _ _ _ h k => telling_emptied k h) h
  exact reported.keeps (P := fun s => s.outbox.Telling) (fun _ _ _ _ h k => telling_reported k h) collected

theorem telling_mailed {messages : Table Transfer} (h : p.outbox.Telling) (mailed : Mailed now messages p q) :
    q.outbox.Telling := by
  cases mailed with
  | intro emptied reported => exact ⟨nofun, (telling_collected h emptied reported).releases⟩

end Partition

/-! ## Strangers -/

namespace Scenario.Sane

variable {s : Scenario} {timing : Timing} {now i target : Nat} {ps : List Partition} {b : Buffers}
  {p q r t w : Partition} {crowd : Prop} {rule : Rule} {f : Failure}

/-- A partition for which agents are queued is one to which agents may be sent. -/
theorem sends_queued (h : s.Sane timing now ps) (hs : s.Accepted) (obeys : Obeys rule ps)
    (governs : s.Governs timing now crowd rule ps) (hp : ps[i]? = some p) (work : Ends (Partition.work now) p () w)
    (emptied : Along (Emptied now) w.proxies w r) (reported : Along (Reported now) r.gateways r t)
    (queued : target ∈ t.outbox.transfers.keys) : ∃ entry record, rule.Sends i target entry record := by
  have setting : p.Setting s timing i := h.rest.setting i p hp
  have worked := (h.amid obeys hp).work governs.closed hs setting (governs.room i p hp) work
  have telling := telling_worked (h.company.idle i p hp).telling (worked_work work)
  obtain ⟨transfer, ht⟩ := Table.mem_keys.1 queued
  obtain ⟨g, hg, record, hr⟩ := (telling_collected telling emptied reported).transfers target transfer ht
  have every := (every_emptied worked.held.mail (fun _ _ _ view out records =>
    worked.held.sends_outgoing governs.closed hs (worked.setting setting) view out records) emptied).1
  have rank : w.rank = i := (worked.setting setting).rank
  rw [(reported_along reported).1] at ht
  exact ⟨g.link, record, rank ▸ every target transfer ht g hg record hr⟩

/-- A partition for which counts are queued is a neighbor. -/
theorem neighbor_of_counted (h : s.Sane timing now ps) (hs : s.Accepted)
    (departs : Second.departed now ps i = some (b, w)) (queued : target ∈ w.outbox.releases.keys) :
    target ∈ s.neighborsOf i := by
  obtain ⟨p, messages, hp, wrote, -⟩ := h.rest.departed hs h.company departs
  have leaves := h.leaves hs hp wrote
  obtain ⟨v, work, mailed⟩ := wrote
  have telling := telling_mailed (telling_worked (h.company.idle i p hp).telling (worked_work work)) mailed
  obtain ⟨report, hr⟩ := Table.mem_keys.1 queued
  obtain ⟨count, hc⟩ := List.exists_mem_of_ne_nil _ (telling.releases target report hr)
  have crossing := hs.crossing_of_admits leaves.setting (leaves.refers target report hr count hc)
  exact hs.neighborsOf_symm (hs.crossing_neighbors crossing)

end Scenario.Sane

namespace Ensemble

variable {raw s : Scenario} {method : Method} {timing : Timing} {count : Nat} {ps : List Partition} {f : Failure}

/-- Nothing is queued for a stranger if those to whom agents may be sent are neighbors. -/
theorem not_stranger_of_breaks {crowd : Prop} {rule : Rule} (sane : s.Sane timing (timing.start + count) ps)
    (hs : s.Accepted) (obeys : Scenario.Obeys rule ps)
    (governs : s.Governs timing (timing.start + count) crowd rule ps)
    (sends : ∀ i target entry record, rule.Sends i target entry record → target ∈ s.neighborsOf i)
    (h : (s.scene timing count ps).Breaks f) : f.isStranger = false := by
  by_contra stranger
  have stranger : f.isStranger = true := by simpa using stranger
  have notable := Failure.isNotable_of_isStranger stranger
  cases h with
  | @departing i p q state inTime fails =>
    rcases depart_eq_error fails notable with ⟨id, r, u, -, turn⟩ | ⟨w, r, t, work, emptied, reported, strays⟩
    · rw [Failure.isStranger_of_isMisplanned (misplanned_of_dispatch turn notable).1] at stranger
      cases stranger
    · obtain ⟨target, queued, unknown, rfl⟩ := strays
      obtain ⟨entry, record, sent⟩ := sane.sends_queued hs obeys governs state work emptied reported queued
      have neighbor := sends i target entry record sent
      have kept : Kept LinkView.Alike p t :=
        ((worked_work work).kept.mono LinkView.Balanced.alike).trans
          ((emptied.relates fun _ _ _ _ h => (kept_emptied h).mono LinkView.Same.alike).trans
            (reported.relates fun _ _ _ _ h => (kept_reported h).mono LinkView.Same.alike))
      rw [← sane.company.partners i p state, ← kept.neighbors] at neighbor
      rw [Table.contains_iff_mem_keys.2 neighbor] at unknown
      cases unknown
  | @arriving i b w q d sent senders said fails =>
    have headed : ∀ buffer ∈ d, Wire.Headed (timing.start + count) buffer.1 buffer.2 := fun buffer hb =>
      InScene.headed_of_says sane.company (said buffer hb)
    obtain ⟨r, taken, target, queued, unknown, rfl⟩ :=
      arrive_eq_error (InScene.now_lt_base sent) headed fails notable
    rw [outbox_receiveTransfers taken] at queued unknown
    have neighbor := sane.neighbor_of_counted hs sent queued
    rw [← (sane.company.departed sent).partners] at neighbor
    rw [Table.contains_iff_mem_keys.2 neighbor] at unknown
    cases unknown
  | @settling i b w q d sent senders said fails =>
    have headed : ∀ buffer ∈ d, Wire.Headed (timing.start + count) buffer.1 buffer.2 := fun buffer hb =>
      InScene.headed_of_says sane.company (said buffer hb)
    rw [(unplanned_receiveReleases (InScene.now_lt_base sent) headed fails).1] at stranger
    cases stranger

/-- In a run of plans which are right about where their agents are nothing is queued for a stranger. -/
theorem not_stranger_of_direct (hs : raw.partition method = .ok s) (fresh : s.Fresh) (direct : s.Direct)
    (fits : s.Fits) (hrun : Second.run count timing.start (s.cast timing) = some ps)
    (early : timing.start + count ≤ Wire.base) (h : (s.scene timing count ps).Breaks f) : f.isStranger = false := by
  have accepted := Scenario.accepted_of_partition hs
  have governs : ∀ now ps, s.Governs timing now True s.Plotted ps := fun now ps =>
    { closed := Scenario.closed_plotted direct timing now
      indices := fun x r v index k ⟨_, _, _, leaving, _, _, _, same⟩ => same ▸ leaving.index.isLt
      room := fun _ _ _ _ _ _ _ _ _ _ _ _ _ _ _ => trivial
      welcoming := fun _ _ _ _ _ _ _ _ => trivial }
  have obeys := fresh.obeys_run (R := fun _ => s.Plotted) (C := fun _ => True) hs fits early
    (fun x a ha => .inl (Scenario.standsAt_zero ha)) (fun n _ ps _ _ => governs _ ps) (fun n _ ps _ obeys => obeys) hrun
  exact not_stranger_of_breaks (fresh.sane_run hs fits early hrun) accepted obeys (governs _ ps)
    (fun _ _ _ _ sends => accepted.neighbor_of_sends sends) h

/-- However the turns go, plans which are right about where their agents are lead to neighbors only, from one
partition to the next. -/
theorem neighbors_suffice (hs : raw.partition method = .ok s) (fresh : s.Fresh) (direct : s.Direct) (fits : s.Fits)
    (capacities : ∀ spec ∈ s.links.toList, spec.capacity < Wire.base)
    (ordered : timing.start ≤ timing.stop) (last : timing.stop < Clock.last) :
    ∃ c₀, make s timing = .ok c₀ ∧ ∀ schedule c, play schedule c₀ = some c →
      ∀ p f, ⟨p, .failed f⟩ ∈ c.processes → ∀ target, f ≠ .exchange (.notANeighbor target) := by
  have accepted := Scenario.accepted_of_partition hs
  obtain ⟨c₀, hm⟩ := exists_make s ordered
  refine ⟨c₀, hm, fun schedule c hp p f hf target => ?_⟩
  rintro rfl
  obtain ⟨count, ps, hrun, early, breaks, -⟩ :=
    breaks_of_play hs fresh ⟨fits.parts, fits.links, capacities⟩ fits (Clock.lt_base_of_lt_last last) hm hp hf
  have known := not_stranger_of_direct hs fresh direct fits hrun early breaks
  cases known

/-- The bus and its passenger are where their plans say. -/
theorem neighbors_suffice_bus : ∃ s c₀ c, Scenario.bus.partition .modulo = .ok s ∧ make s ⟨0, 8, 0, 0⟩ = .ok c₀ ∧
    play (List.replicate 9 Turn.inTurns).flatten c₀ = some c ∧ c.isDone = true ∧
    ∀ p f, ⟨p, .failed f⟩ ∈ c.processes → ∀ target, f ≠ .exchange (.notANeighbor target) := by
  have runs : (trial .bus .modulo ⟨0, 8, 0, 0⟩ (List.replicate 9 Turn.inTurns).flatten).any
      (fun r => r.1.agents = Scenario.bus.agents ∧ r.1.isDirect ∧ r.1.numParts = 2 ∧ r.1.links.size = 2 ∧
        r.1.links.toList.all (fun spec => spec.capacity < Wire.base) ∧ r.2.isDone) = true := by
    decide +kernel
  obtain ⟨s, c₀, c, hs, hm, hp, hc⟩ := exists_of_trial runs
  simp only [decide_eq_true_eq] at hc
  obtain ⟨agents, direct, parts, links, capacities, done⟩ := hc
  have fits : s.Fits := ⟨by rw [parts]; decide, by rw [links]; decide, by rw [agents]; decide⟩
  have ordered : (⟨0, 8, 0, 0⟩ : Timing).start ≤ (⟨0, 8, 0, 0⟩ : Timing).stop := Nat.zero_le 8
  obtain ⟨c₁, hm₁, known⟩ := neighbors_suffice hs (Scenario.fresh_bus.of_agents agents)
    (Scenario.direct_of_isDirect direct) fits
    (fun spec hspec => of_decide_eq_true (List.all_eq_true.1 capacities spec hspec)) ordered (by decide)
  obtain rfl := Except.ok.inj (hm.symm.trans hm₁)
  exact ⟨s, c₀, c, hs, hm, hp, done, known _ c hp⟩

end Ensemble

/-- Three links which aren't connected, with a stop on the second one. An agent serves that stop on its way from
the first link to the third one. -/
def Scenario.remoteStop : Scenario where
  numParts := 3
  links := #[⟨0, 0, 1, ⟨0x3f800000⟩, ⟨0x3f800000⟩, 1, 0⟩, ⟨1, 2, 3, ⟨0x3f800000⟩, ⟨0x3f800000⟩, 1, 0⟩,
    ⟨2, 4, 5, ⟨0x3f800000⟩, ⟨0x3f800000⟩, 1, 0⟩]
  stops := #[⟨0, 1⟩]
  agents := #[.fresh 0 ⟨#[Action.wordOnto 0, Action.word (.stopDelay (.of 0 0 0)), Action.wordOnto 2], by decide⟩ 0
    (low16 0)]
  homes := #[]
  crossings := []
  neighbors := .empty

/-! ## Deliveries in order

Transfers are taken in by the rank of their sender. A delivery which comes in that order needs no sorting, so
what becomes of it can be computed. -/

namespace Partition

variable {p : Partition} {now : Nat} {d : Delivery}

/-- Takes in the transfers as they come and makes the releases. -/
def arriveInOrder (now : Nat) (d : Delivery) : Act Buffers := do
  let p ← get
  let transfers ← communicate (Outbox.readTransfers p.rank now p.isVehicle d)
  transfers.forM fun t => receiveTransfer t now
  sendReleases now

/-- Whether transfers come by the rank of their sender. -/
def comesInOrder (p : Partition) (now : Nat) (d : Delivery) : Bool :=
  match Outbox.readTransfers p.rank now p.isVehicle d with
  | .ok transfers => decide (transfers.Pairwise fun a b => a.sender ≤ b.sender)
  | .error _ => false

theorem arrive_run_of_order (h : p.comesInOrder now d = true) :
    (arrive now d).run p = (arriveInOrder now d).run p := by
  unfold comesInOrder at h
  split at h
  · rename_i transfers read
    have sorted : (transfers.mergeSort fun a b => a.sender ≤ b.sender) = transfers :=
      List.mergeSort_of_pairwise (of_decide_eq_true h |>.imp fun h => decide_eq_true h)
    unfold arrive receiveTransfers arriveInOrder
    simp only [EStateM.run_bind, EStateM.run_get, read, communicate, EStateM.run_pure, sorted]
  · cases h

end Partition

namespace Ensemble

variable {c c' : Ensemble} {turn : Turn} {schedule : List Turn}

/-- The ensemble after a turn, or `none` if the process can't take it or would have to sort transfers. -/
def stepInOrder (c : Ensemble) (turn : Turn) : Option Ensemble :=
  match c.processes[turn.rank]? with
  | some ⟨p, .receiving .transfers now [] received⟩ =>
    if p.comesInOrder now received then
      some (c.put turn.rank (.perform p (arriveInOrder now received) (.sending .releases now)))
    else none
  | _ => c.step turn

theorem step_of_stepInOrder (h : c.stepInOrder turn = some c') : c.step turn = some c' := by
  unfold stepInOrder at h
  split at h
  · rename_i p now received found
    rw [Option.ite_none_right_eq_some] at h
    obtain ⟨order, same⟩ := h
    rw [Process.perform, ← arrive_run_of_order order] at same
    unfold step
    rw [found]
    exact same
  · exact h

/-- The ensemble after the turns of a schedule, if every delivery comes in order. -/
def playInOrder : List Turn → Ensemble → Option Ensemble
  | [], c => some c
  | turn :: rest, c => (c.stepInOrder turn).bind (playInOrder rest)

theorem play_of_playInOrder (h : playInOrder schedule c = some c') : play schedule c = some c' := by
  induction schedule generalizing c with
  | nil => exact h
  | cons turn rest ih =>
    obtain ⟨b, first, later⟩ := Option.bind_eq_some_iff.1 h
    exact Option.bind_eq_some_iff.2 ⟨b, step_of_stepInOrder first, ih later⟩

end Ensemble

/-- A second of three processes, where the second one exchanges messages with the others: `(n, turn)` are `n`
turns. -/
def Turn.inARow : List Turn :=
  [(3, ⟨0, 1⟩), (2, ⟨1, 0⟩), (4, ⟨0, 1⟩), (1, ⟨1, 2⟩), (2, ⟨1, 0⟩), (2, ⟨2, 1⟩), (3, ⟨1, 0⟩), (3, ⟨0, 1⟩),
    (1, ⟨1, 2⟩), (2, ⟨1, 0⟩), (4, ⟨2, 1⟩), (3, ⟨1, 0⟩), (4, ⟨2, 1⟩), (1, ⟨0, 1⟩), (1, ⟨1, 0⟩),
    (1, ⟨2, 1⟩)].flatMap fun (n, turn) => List.replicate n turn

namespace Ensemble

/-- Whoever serves the remote stop doesn't come to its partition. From the first partition it leads to the third
one, which isn't a neighbor. -/
theorem stranger_of_remoteStop : ∃ s c₀ c p, Scenario.remoteStop.partition .modulo = .ok s ∧ s.Fresh ∧
    make s ⟨0, 30, 0, 0⟩ = .ok c₀ ∧ play ((List.replicate 2 Turn.inARow).flatten ++ [⟨0, 1⟩]) c₀ = some c ∧
    ⟨p, .failed (.exchange (.notANeighbor 2))⟩ ∈ c.processes := by
  have runs : ((Scenario.remoteStop.partition .modulo).toOption.any fun s =>
      s.agents = Scenario.remoteStop.agents ∧ (make s ⟨0, 30, 0, 0⟩).toOption.any fun c₀ =>
        (playInOrder ((List.replicate 2 Turn.inARow).flatten ++ [⟨0, 1⟩]) c₀).any fun c =>
          c.processes.any fun x => x.stage = .failed (.exchange (.notANeighbor 2))) = true := by
    decide +kernel
  obtain ⟨s, hs, hc⟩ := (Option.any_eq_true _ _).1 runs
  obtain ⟨agents, hc⟩ := of_decide_eq_true hc
  obtain ⟨c₀, hm, hc⟩ := (Option.any_eq_true _ _).1 hc
  obtain ⟨c, hp, hc⟩ := (Option.any_eq_true _ _).1 hc
  obtain ⟨⟨p, stage⟩, listed, failed⟩ := List.any_eq_true.1 hc
  obtain rfl : stage = .failed (.exchange (.notANeighbor 2)) := of_decide_eq_true failed
  have fresh : Scenario.remoteStop.Fresh := Scenario.fresh_of_isFresh (by decide +kernel)
  exact ⟨s, c₀, c, p, eq_ok_of_toOption hs, fresh.of_agents agents, eq_ok_of_toOption hm,
    play_of_playInOrder hp, listed⟩

end Ensemble

end Mobility
