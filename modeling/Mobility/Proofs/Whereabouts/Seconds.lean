import Mobility.Proofs.Whereabouts.Exchange

/-!
# Seconds move agents

Everybody obeys a closed rule after a second if everybody did so before (`Scenario.Sane.obeys_next`), and so
everybody obeys a rule in a whole run if agents at home may start their plans (`Scenario.Fresh.obeys_run`).
-/

set_option autoImplicit false

namespace Mobility

open Act Second Mobility.Partition

/-! ## Records which are read -/

/-- What is read of a record is sent by the same rule, if nothing in it is too great. -/
theorem Rule.Sends.arrival {rule : Rule} {rank target : Nat} {link : Option Nat} {record : AgentRecord}
    (h : rule.Sends rank target link record)
    (small : ∀ row ∈ record.cursors, row.1 < Wire.base ∧ row.2 < Wire.base)
    (indices : ∀ x r v index k, rule x ⟨r, .aboard v index, k⟩ → index < 0x100) :
    rule.Sends rank target link record.arrival := by
  obtain ⟨id, cursor⟩ := small (record.id, record.cursor) List.mem_cons_self
  have own : record.arrival.id = record.id := Nat.mod_eq_of_lt id
  refine ⟨?_, fun row hrow => ?_⟩
  · rw [own, show record.arrival.cursor = record.cursor from Nat.mod_eq_of_lt cursor]
    exact h.1
  · cases listed : record.passengers with
    | none =>
      rw [show record.arrival.passengers = record.passengers.map (·.map PassengerRecord.arrival) from rfl,
        listed] at hrow
      cases hrow
    | some passengers =>
      rw [show record.arrival.passengers = record.passengers.map (·.map PassengerRecord.arrival) from rfl,
        listed] at hrow
      obtain ⟨y, hy, rfl⟩ := List.mem_map.1 hrow
      have there : y ∈ record.passengers.getD [] := by rw [listed]; exact hy
      have sits := h.2 y there
      obtain ⟨id', cursor'⟩ := small (y.id, y.cursor)
        (List.mem_cons_of_mem _ (List.mem_map_of_mem (f := fun x : PassengerRecord => (x.id, x.cursor)) there))
      have index := indices _ _ _ _ _ sits
      show rule (y.id % Wire.base) ⟨rank, .aboard record.arrival.id (y.index % Wire.base % 0x100),
        y.cursor % Wire.base⟩
      rw [own, Nat.mod_eq_of_lt id', Nat.mod_eq_of_lt cursor',
        Nat.mod_eq_of_lt (index.trans (by decide : 0x100 < Wire.base)), Nat.mod_eq_of_lt index]
      exact sits

namespace Scenario

variable {s : Scenario} {timing : Timing} {now i j : Nat} {ps qs : List Partition} {b : Buffers}
  {p w : Partition} {messages : Table Transfer} {d : Delivery} {crowd : Prop} {rule : Rule}

/-! ## Seconds -/

/-- Everybody in these partitions obeys the rule. -/
def Obeys (rule : Rule) (ps : List Partition) : Prop :=
  ∀ (i : Nat) p, ps[i]? = some p → p.Held rule ⟨0, none, 0 + p.roots⟩

/-- Everybody obeys the rule when these partitions have done the work of a second. -/
def ObeysWorked (rule : Rule) (now : Nat) (ps : List Partition) : Prop :=
  ∀ (i : Nat) p v, ps[i]? = some p → Ends (Partition.work now) p () v → v.Held rule ⟨0, none, 0 + v.roots⟩

/-- The rule is one for the exchange of a second. -/
structure Conducts (s : Scenario) (timing : Timing) (now : Nat) (crowd : Prop) (rule : Rule) : Prop where
  closed : rule.Closed s timing now crowd
  indices : ∀ x r v index k, rule x ⟨r, .aboard v index, k⟩ → index < 0x100
  welcoming : ∀ i, Welcoming s timing rule now i crowd

/-- The rule is one for a second which begins with these partitions. -/
structure Governs (s : Scenario) (timing : Timing) (now : Nat) (crowd : Prop) (rule : Rule)
    (ps : List Partition) : Prop extends s.Conducts timing now crowd rule where
  room : ∀ (i : Nat) p, ps[i]? = some p → p.Roomy rule now crowd

namespace Sane

/-- Amid the work of a second everybody obeys the rule. -/
theorem amid (h : s.Sane timing now ps) (obeys : Obeys rule ps) (hp : ps[i]? = some p) :
    Amid rule now p 0 p :=
  ⟨Std.Refl.refl p, h.ready hp, obeys i p hp⟩

/-- Whoever obeys the rule of a second also does so after the work. -/
theorem obeysWorked (h : s.Sane timing now ps) (hs : s.Accepted) (obeys : Obeys rule ps)
    (governs : s.Governs timing now crowd rule ps) : ObeysWorked rule now ps := fun i p _ hp work =>
  ((h.amid obeys hp).work governs.closed hs (h.rest.setting i p hp) (governs.room i p hp) work).held

/-- Whoever has worked and sent obeys the rule, and so does everybody who is sent. -/
theorem obeys_wrote (h : s.Sane timing now ps) (hs : s.Accepted) (worked : ObeysWorked rule now ps)
    (conducts : s.Conducts timing now crowd rule) (hp : ps[i]? = some p) (wrote : Wrote now messages p w) :
    w.Held rule ⟨0, none, 0 + w.roots⟩ ∧ ∀ target t, messages.get? target = some t →
      t.Every (rule.Sends i target) := by
  obtain ⟨v, work, mailed⟩ := wrote
  have setting : v.Setting s timing i :=
    (h.rest.setting i p hp).trans ((worked_work work).kept.mono LinkView.Balanced.alike)
  have sent := (worked i p v hp work).mailed conducts.closed hs setting mailed
  have rank : w.rank = i := (setting.trans (kept_mailed mailed |>.mono LinkView.Same.alike)).rank
  rw [rank] at sent
  exact sent

/-- What arrives obeys the rule. -/
theorem greets (h : s.Sane timing now ps) (hs : s.Accepted) (fits : s.Fits) (inTime : now < Wire.base)
    (worked : ObeysWorked rule now ps) (conducts : s.Conducts timing now crowd rule)
    (hw : Second.departed now ps i = some (b, w)) (senders : (d.map Prod.fst).Perm (s.neighborsOf i))
    (said : ∀ buffer ∈ d, ∃ b' w', Second.departed now ps buffer.1 = some (b', w') ∧
      b'.get? i = some buffer.2) :
    ∃ transfers, Outbox.readTransfers w.rank now w.isVehicle d = .ok transfers ∧
      Greets s timing rule now i (transfers.flatMap Transfer.entrants) w := by
  have net := hs.network fits.parts
  obtain ⟨transfers, read, hosts⟩ := h.hosts hs fits inTime hw senders said
  obtain ⟨p, messages, hp, wrote, -⟩ := h.counted.letters h.rest hs fits h.company hw
  have setting : w.Setting s timing i := (h.leaves hs hp wrote).setting
  refine ⟨transfers, read, setting, hosts, fun x hx => ?_, (h.obeys_wrote hs worked conducts hp wrote).1,
    fun e he => ?_⟩
  · obtain ⟨-, ⟨p', hp', census⟩, -⟩ := h.counted.departed h.rest hs fits h.company hw
    have counted : x ∈ p'.census 0 := census ▸ Multiset.mem_add.2 (.inl hx)
    have known := Multiset.mem_range.1 (Multiset.mem_of_le (h.counted.le_everybody hp') counted)
    obtain ⟨a, ha, -⟩ := setting.copy (Array.getElem?_eq_getElem known)
    exact ⟨a, ha⟩
  · obtain ⟨t, ht, he⟩ := List.mem_flatMap.1 he
    obtain ⟨buffer, hb, decoded, -⟩ := exists_of_forall₂ (Outbox.readTransfers_eq_ok.1 read) ht
    obtain ⟨b', w', hw', hdata⟩ := said buffer hb
    have neighbor := senders.mem_iff.1 (List.mem_map_of_mem (f := Prod.fst) hb)
    obtain ⟨p', messages', hp', wrote', rfl, -, reads⟩ := h.counted.letters h.rest hs fits h.company hw'
    have headed := (h.company.departed hw').addressed.headed i buffer.2 hdata
    rw [setting.rank, (knows_of_kept setting).1] at decoded
    obtain ⟨-, sender⟩ := Transfer.decode_headed headed decoded
    rw [Nat.mod_eq_of_lt (Nat.lt_of_lt_of_le (net.below neighbor) net.small)] at sender
    rw [Table.get?_mapRows, Option.map_eq_some_iff] at hdata
    obtain ⟨t₀, ht₀, data⟩ := hdata
    rw [← data] at decoded
    obtain rfl := Except.ok.inj (decoded.symm.trans (reads i t₀ ht₀).1)
    obtain ⟨g', hg', he⟩ := List.mem_flatMap.1 he
    obtain ⟨g, hg, rfl⟩ := List.mem_map.1 hg'
    obtain ⟨r', hr', rfl⟩ := List.mem_map.1 he
    obtain ⟨r, hr, rfl⟩ := List.mem_map.1 hr'
    have tells := h.counted.tells h.informed h.rest hs h.company hp' wrote' ht₀
    have small : ∀ row ∈ r.cursors, row.1 < Wire.base ∧ row.2 < Wire.base := fun row hrow =>
      have told := tells row (Transfer.mem_cursors.2 ⟨g, hg, r, hr, hrow⟩)
      ⟨told.2.1.trans fits.agents, told.2.2⟩
    have sent := (h.obeys_wrote hs worked conducts hp' wrote').2 i t₀ ht₀ g hg r hr
    show rule.Sends (t₀.arrival i).sender i g.link r.arrival
    rw [sender]
    exact sent.arrival small conducts.indices

/-- Everybody obeys the rule after the transfers have arrived. -/
theorem obeys_arrived (h : s.Sane timing now ps) (hs : s.Accepted) (fits : s.Fits) (inTime : now < Wire.base)
    (worked : ObeysWorked rule now ps) (conducts : s.Conducts timing now crowd rule)
    (ha : Second.arrived now ps i = some (b, w)) : w.Held rule ⟨0, none, 0 + w.roots⟩ := by
  obtain ⟨b₀, u, d, hu, hd, arrive⟩ := arrived_eq_some.1 ha
  rw [(h.company.departed hu).partners] at hd
  have senders : (d.map Prod.fst).Perm (s.neighborsOf i) := by rw [senders_mail hd]
  obtain ⟨transfers, read, greets⟩ := h.greets hs fits inTime worked conducts hu senders (mem_mail hd)
  exact greets.arrived conducts.closed (conducts.welcoming i) read arrive

/-- Everybody obeys the rule after the second. -/
theorem obeys_next (h : s.Sane timing now ps) (hs : s.Accepted) (fits : s.Fits) (inTime : now < Wire.base)
    (worked : ObeysWorked rule now ps) (conducts : s.Conducts timing now crowd rule)
    (hn : Second.next now ps = some qs) : Obeys rule qs := by
  intro i q hq
  obtain ⟨b, u, d, ha, -, settle⟩ := settled_eq_some.1 ((next_eq_some.1 hn).2 i q hq)
  exact (h.obeys_arrived hs fits inTime worked conducts ha).settled settle

end Sane

/-! ## Runs -/

/-- Nobody is on a link at the start. -/
theorem nobody_initial (s : Scenario) (timing : Timing) (i link : Nat) :
    ((Partition.initial s timing i).seen link).entries = [] ∧
      ((Partition.initial s timing i).seen link).inFront = [] ∧
      ((Partition.initial s timing i).seen link).outgoing = [] := by
  cases view : (s.views i)[link]? with
  | none =>
    have unseen : (Partition.initial s timing i).seen link = .remote 0 0 := by
      show ((s.views i)[link]?).getD _ = _
      rw [view]
      rfl
    rw [unseen]
    exact ⟨rfl, rfl, rfl⟩
  | some v =>
    rw [seen_of_view (p := Partition.initial s timing i) view]
    obtain ⟨spec, -, kind⟩ := firstView view
    cases kind <;> exact ⟨rfl, rfl, rfl⟩

/-- At the start of a fresh scenario agents are due where they are at home. -/
theorem Fresh.obeys (fresh : s.Fresh) (hs : s.Accepted) (timing : Timing)
    (home : ∀ (x : Nat) a, s.agents[x]? = some a → rule x ⟨s.homeOf a, .due timing.start, 0⟩) :
    Obeys rule ((List.range s.numParts).map (Partition.initial s timing)) := by
  intro i p hp
  rw [getElem?_cast hp]
  have views := s.nobody_initial timing i
  refine ⟨fun site x a spot ha => ?_, nofun, ?_⟩
  · have first : s.agents[x]? = some a := ha
    have cursor : a.cursor = 0 := by rw [fresh.agents x a first]; rfl
    cases site with
    | acting => exact absurd spot (Multiset.notMem_zero x)
    | due time =>
      have row : x ∈ (Agenda.starting timing.start timing.stop (s.agentsOf i)).due.row time := spot
      obtain ⟨rfl, there⟩ : time = timing.start ∧ x ∈ s.agentsOf i := by
        unfold Agenda.starting at row
        split at row
        · cases row
        · obtain ⟨list, hlist, hx⟩ := Table.mem_row.1 row
          rw [Table.get?_insert] at hlist
          split at hlist
          · rename_i same
            obtain rfl := Option.some.inj hlist
            exact ⟨same, hx⟩
          · cases hlist
      have part := (List.mem_filter.1 there).2
      rw [decide_eq_true_eq, hs.homes, Array.getElem?_map, first, Option.map_some, Option.some.injEq] at part
      rw [cursor, ← part]
      exact part ▸ home x a first
    | beyond =>
      have there : x ∈ (Agenda.starting timing.start timing.stop (s.agentsOf i)).beyond := spot
      unfold Agenda.starting at there
      split at there <;> cases there
    | queued link finish =>
      obtain ⟨fromPart, entry⟩ := spot
      rw [if_neg (by simp), (views link).1] at entry
      cases entry
    | inbound link =>
      have there : x ∈ ((Partition.initial s timing i).seen link).inFront := spot
      rw [(views link).2.1] at there
      cases there
    | outbound link =>
      have there : x ∈ ((Partition.initial s timing i).seen link).outgoing := spot
      rw [(views link).2.2] at there
      cases there
    | stop => cases spot
    | aboard vehicle index =>
      have rides := mem_crew.2 ⟨index, spot.2⟩
      rw [fresh.crew timing i vehicle] at rides
      exact absurd rides (Multiset.notMem_zero x)
    | mailed => exact spot.elim
    | gone time =>
      obtain ⟨stamp, stamped, -⟩ := spot
      cases stamped
  · show (Agenda.starting ..).stop = timing.stop
    unfold Agenda.starting
    split <;> rfl

/-- Everybody obeys the rules of the seconds in a run, if each of them lets agents move on and is replaced by the
next one. -/
theorem Fresh.obeys_run {R : Nat → Rule} {C : Nat → Prop} {raw : Scenario} {method : Method} {count : Nat}
    (fresh : s.Fresh) (hs : raw.partition method = .ok s) (fits : s.Fits)
    (inTime : timing.start + count ≤ Wire.base)
    (home : ∀ (x : Nat) a, s.agents[x]? = some a → R timing.start x ⟨s.homeOf a, .due timing.start, 0⟩)
    (governs : ∀ n < count, ∀ ps, s.Sane timing (timing.start + n) ps → Obeys (R (timing.start + n)) ps →
      s.Governs timing (timing.start + n) (C (timing.start + n)) (R (timing.start + n)) ps)
    (later : ∀ n < count, ∀ ps, s.Sane timing (timing.start + (n + 1)) ps → Obeys (R (timing.start + n)) ps →
      Obeys (R (timing.start + (n + 1))) ps)
    (hrun : Second.run count timing.start
      ((List.range s.numParts).map (Partition.initial s timing)) = some ps) :
    Obeys (R (timing.start + count)) ps := by
  induction count generalizing ps with
  | zero =>
    obtain rfl := Option.some.inj hrun
    exact fresh.obeys (accepted_of_partition hs) timing home
  | succ count ih =>
    have accepted := accepted_of_partition hs
    rw [run_succ] at hrun
    obtain ⟨qs, hqs, hn⟩ := Option.bind_eq_some_iff.1 hrun
    have sane := fresh.sane_run hs fits (by omega) hqs
    have before := ih (by omega) (fun n hn => governs n (by omega)) (fun n hn => later n (by omega)) hqs
    have governs := governs count (by omega) qs sane before
    have worked := sane.obeysWorked accepted before governs
    have after := sane.obeys_next accepted fits (by omega) worked governs.toConducts hn
    exact later count (by omega) ps (sane.next accepted fits (by omega) hn) after

end Scenario

end Mobility
