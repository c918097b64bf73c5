import Mobility.Proofs.Chronicle.Exchange

/-!
# Diaries in a run

In every second an agent is followed from the partition which counts it to the one which counts it in the
next second. Only the first one stamps anything for it, and where the agent is, its cursor is as far as
anywhere.
-/

set_option autoImplicit false

namespace Mobility

open Act Second Mobility.Partition

namespace Partition

variable {p q : Partition} {x now : Nat} {crowd : Multiset Nat}

/-- How far an agent has come, as far as the partition knows. -/
def cursorOf (p : Partition) (x : Nat) : Nat := (p.agents[x]?).elim 0 (·.cursor)

theorem cursorOf_eq {a : Agent} (h : p.agents[x]? = some a) : p.cursorOf x = a.cursor := by
  rw [cursorOf, h]
  rfl

theorem Quiet.cursorOf (h : Quiet x p q) : q.cursorOf x = p.cursorOf x := by
  rw [Partition.cursorOf, h.agents, Partition.cursorOf]

end Partition

namespace Agent

/-- No end is among the stamps. -/
def Open (stamps : List Stamp) : Prop := ∀ s ∈ stamps, s.what.kind ≠ .finish

/-- The end of the agent is the last of the stamps, and no end before. -/
def Closed (a : Agent) (stamps : List Stamp) : Prop :=
  ∃ body time, stamps = body ++ [⟨time, ⟨.finish, a.id, a.finishEvent, none⟩⟩] ∧ Open body

variable {a b : Agent} {xs ys : List Stamp}

theorem Open.append (h : Open xs) (k : Open ys) : Open (xs ++ ys) :=
  fun s hs => (List.mem_append.1 hs).elim (h s) (k s)

theorem Closed.append (h : Open xs) (k : a.Closed ys) : a.Closed (xs ++ ys) := by
  obtain ⟨body, time, rfl, hb⟩ := k
  exact ⟨xs ++ body, time, (List.append_assoc ..).symm, h.append hb⟩

end Agent

/-- The events of what isn't an end. -/
def Stamp.deeds (stamps : List Stamp) : List EventId :=
  (stamps.filter fun s => s.what.kind ≠ .finish).map (·.what.event)

theorem Stamp.deeds_append (xs ys : List Stamp) : deeds (xs ++ ys) = deeds xs ++ deeds ys := by
  rw [deeds, List.filter_append, List.map_append]
  rfl

theorem Agent.Open.deeds {stamps : List Stamp} (h : Open stamps) :
    Stamp.deeds stamps = stamps.map (·.what.event) := by
  rw [Stamp.deeds, List.filter_eq_self.2]
  exact fun s hs => decide_eq_true (h s hs)

namespace Partition

variable {p q : Partition} {x now : Nat} {crowd : Multiset Nat}

/-- What an agent has done from `p` to `q`: its cursor moves on, what is stamped meanwhile is what it has
consumed, and possibly its end, when nothing is left. -/
structure Progress (now : Nat) (a : Agent) (p q : Partition) (stamps : List Stamp) : Prop where
  diary : q.diary a.id = p.diary a.id ++ stamps
  times : ∀ s ∈ stamps, s.time = now
  grows : p.cursorOf a.id ≤ q.cursorOf a.id
  within : p.cursorOf a.id ≤ a.plan.length → q.cursorOf a.id ≤ a.plan.length
  events : a.plan.events (q.cursorOf a.id) = a.plan.events (p.cursorOf a.id) ++ Stamp.deeds stamps
  done : a.id ∈ p.log.finishers → stamps = []
  close : Agent.Open stamps ∨
    a.id ∈ q.log.finishers ∧ a.plan.length ≤ q.cursorOf a.id ∧ a.Closed stamps

theorem Quiet.progress {a : Agent} (h : Quiet a.id p q) : Progress now a p q [] := by
  refine ⟨by rw [h.diary, List.append_nil], by simp, h.cursorOf.ge, fun hp => h.cursorOf ▸ hp, ?_,
    fun _ => rfl, .inl (by simp [Agent.Open])⟩
  rw [h.cursorOf]
  exact (List.append_nil _).symm

theorem Tale.progress {a b : Agent} (h : Tale now a.id p q) (unfinished : a.id ∉ p.log.finishers)
    (hp : p.agents[a.id]? = some b) (blank : b.blank = a.blank) : ∃ stamps, Progress now a p q stamps := by
  have plan := Agent.plan_of_blank blank
  have going : ∀ {m : Partition}, Advances now a.id p m → ∃ stamps c, m.agents[a.id]? = some c ∧
      c.blank = a.blank ∧ Agent.Open stamps ∧ Progress now a p m stamps := by
    rintro m ⟨stamps, diary, kinds, agents⟩
    obtain ⟨c, hc, goes⟩ := agents b hp
    have silent : Agent.Open stamps := fun s hs => (kinds s hs).2
    refine ⟨stamps, c, hc, goes.blank.trans blank, silent, diary, fun s hs => (kinds s hs).1, ?_, ?_, ?_,
      fun finished => absurd finished unfinished, .inl silent⟩
    · rw [cursorOf_eq hp, cursorOf_eq hc]
      exact goes.grows
    · rw [cursorOf_eq hp, cursorOf_eq hc, ← plan]
      exact goes.within
    · rw [cursorOf_eq hp, cursorOf_eq hc, ← plan, silent.deeds]
      exact goes.events
  cases h with
  | underWay advances =>
    obtain ⟨stamps, -, -, -, -, progress⟩ := going advances
    exact ⟨stamps, progress⟩
  | @ended m r advances finishes after =>
    obtain ⟨stamps, c, hc, hblank, silent, progress⟩ := going advances
    obtain ⟨c', hm, hr, consumed, stamped⟩ := finishes.diary
    obtain rfl := Option.some.inj (hm.symm.trans hc)
    have cursor : q.cursorOf a.id = m.cursorOf a.id := by
      rw [after.cursorOf, cursorOf_eq hr, cursorOf_eq hm]
    have event : c'.finishEvent = a.finishEvent :=
      (congrArg Agent.finishEvent hblank : c'.blank.finishEvent = a.blank.finishEvent)
    rw [event] at stamped
    refine ⟨stamps ++ [⟨now, ⟨.finish, a.id, a.finishEvent, none⟩⟩], ?_, fun s hs => ?_, ?_, ?_, ?_,
      fun finished => absurd finished unfinished, .inr ⟨after.finishers.2 finishes.finisher, ?_, stamps, now, rfl, silent⟩⟩
    · rw [after.diary, stamped, progress.diary, List.append_assoc]
    · rcases List.mem_append.1 hs with hs | hs
      · exact progress.times s hs
      · rw [List.mem_singleton.1 hs]
    · rw [cursor]
      exact progress.grows
    · rw [cursor]
      exact progress.within
    · rw [cursor, progress.events, Stamp.deeds_append]
      exact congrArg _ (List.append_nil _).symm
    · rw [cursor, cursorOf_eq hm, ← Agent.plan_of_blank hblank]
      exact consumed

/-- Whoever has finished doesn't go on, and everybody else does as its second tells. -/
theorem Told.progress {a b : Agent} (h : Told now crowd p q) (hp : p.agents[a.id]? = some b)
    (blank : b.blank = a.blank) : ∃ stamps, Progress now a p q stamps := by
  by_cases finished : a.id ∈ p.log.finishers
  · exact ⟨[], (h.quiet a.id (.inr finished)).progress⟩
  · exact (h.tale a.id finished).progress finished hp blank

/-- What a partition has written after its work tells how far its agents have come. -/
theorem told_wrote {messages : Table Transfer} (o : p.Orderly) (nodup : (p.census 0).Nodup)
    (named : p.Named) (idle : p.outbox.transfers = .empty) (h : Wrote now messages p q) :
    Told now (p.census 0) p q ∧ ∀ j t, messages.get? j = some t → t.Every fun _ r => q.Tells r := by
  have kept := kept_wrote h
  obtain ⟨w, hw, mailed⟩ := h
  have told := told_work o nodup named idle hw
  obtain ⟨every, agents, log⟩ := every_mailed told.queued (fun _ _ _ _ _ records => records.tells) mailed
  have queued : q.outbox.transfers = .empty := by
    cases mailed
    rfl
  have quiet : ∀ x, Quiet x w q := fun x => ⟨by rw [agents], by rw [diary, log]; rfl⟩
  refine ⟨⟨named.of_kept kept, fun x hx => (told.quiet x hx).trans (quiet x), fun x hx => ?_,
    fun target t ht => by rw [queued] at ht; cases ht⟩, fun j t ht g hg r hr => ?_⟩
  · cases told.tale x hx with
    | underWay advances => exact .underWay (advances.trans (quiet x).advances)
    | ended advances finishes after => exact .ended advances finishes (after.trans (quiet x))
  · exact (every j t ht g hg r hr).of_quiet fun x _ => quiet x

end Partition

namespace Scenario

variable {s : Scenario} {timing : Timing} {now i : Nat} {ps qs : List Partition} {b : Buffers}
  {p q : Partition} {x : Nat}

theorem Accepted.named (hs : s.Accepted) {R : LinkView → LinkView → Prop}
    (k : Kept R (Partition.initial s timing i) p) : p.Named :=
  (show (Partition.initial s timing i).Named from hs.denseAgents).of_kept k

/-- All partitions know how far the agents have come which they count, and nobody knows better. -/
structure Informed (s : Scenario) (ps : List Partition) : Prop where
  within : ∀ (i : Nat) p, ps[i]? = some p → ∀ (x : Nat) spec, s.agents[x]? = some spec →
    p.cursorOf x ≤ spec.plan.length
  latest : ∀ (i j : Nat) p q, ps[i]? = some p → ps[j]? = some q → ∀ x ∈ p.census 0,
    q.cursorOf x ≤ p.cursorOf x

/-- Cursors fit into messages. -/
theorem Informed.small (informed : s.Informed ps) (rest : s.Rested timing ps)
    (hp : ps[i]? = some p) (told : Told now (p.census 0) p q) {spec : Agent}
    (hspec : s.agents[x]? = some spec) (id_eq : spec.id = x) :
    q.cursorOf x ≤ spec.plan.length ∧ q.cursorOf x < Wire.base := by
  obtain ⟨a, ha, blank⟩ := (rest.setting i p hp).copy hspec
  obtain ⟨stamps, progress⟩ := told.progress (id_eq ▸ ha) blank
  have within := progress.within (id_eq ▸ informed.within i p hp x spec hspec)
  rw [id_eq] at within
  refine ⟨within, ?_⟩
  have : spec.plan.length ≤ 65535 := spec.plan.size_le
  have : Wire.base = 4294967296 := rfl
  omega

namespace Counted

/-- What a partition does with its agents in a second until its transfers are sent. -/
theorem told (h : s.Counted ps) (rest : s.Rested timing ps) (hs : s.Accepted)
    (c : Company timing s.neighborsOf ps) {messages : Table Transfer} (hp : ps[i]? = some p)
    (wrote : Wrote now messages p q) :
    Told now (p.census 0) p q ∧ ∀ j t, messages.get? j = some t → t.Every fun _ r => q.Tells r := by
  have nodup : (p.census 0).Nodup := Multiset.nodup_of_le (h.le_everybody hp) (Multiset.nodup_range _)
  exact told_wrote (h.orderly i p hp) nodup (hs.named (rest.setting i p hp)) (c.idle i p hp).transfers wrote

/-- A transfer tells where its sender has the agents. -/
theorem tells (h : s.Counted ps) (informed : s.Informed ps) (rest : s.Rested timing ps)
    (hs : s.Accepted) (c : Company timing s.neighborsOf ps) {messages : Table Transfer} {j : Nat}
    {t : Transfer} (hp : ps[i]? = some p) (wrote : Wrote now messages p q)
    (ht : messages.get? j = some t) :
    ∀ row ∈ t.cursors, row.2 = q.cursorOf row.1 ∧ row.1 < s.agents.size ∧ row.2 < Wire.base := by
  obtain ⟨told, tells⟩ := h.told rest hs c hp wrote
  intro row hrow
  obtain ⟨g, hg, r, hr, hrow⟩ := Transfer.mem_cursors.1 hrow
  obtain ⟨a, ha, cursor⟩ := tells j t ht g hg r hr row hrow
  obtain ⟨spec, hspec, -⟩ := ((rest.setting i p hp).trans (kept_wrote wrote)).agent ha
  have cursor : row.2 = q.cursorOf row.1 := cursor.trans (cursorOf_eq ha).symm
  refine ⟨cursor, (Array.getElem?_eq_some_iff.1 hspec).1, ?_⟩
  rw [cursor]
  exact (informed.small rest hp told hspec (hs.denseAgents _ _ hspec)).2

/-- What a second does with the agents of a partition: after its own work, those are brought to their
places who cross into it, each to where its sender has it. -/
theorem brought (h : s.Counted ps) (informed : s.Informed ps) (rest : s.Rested timing ps)
    (hs : s.Accepted) (fits : s.Fits) (c : Company timing s.neighborsOf ps)
    (hn : Second.next now ps = some qs) {u : Partition} (hu : qs[i]? = some u) :
    ∃ v w b cursors, ps[i]? = some v ∧ Second.departed now ps i = some (b, w) ∧
      Told now (v.census 0) v w ∧ Brought cursors w u ∧
      (∀ row ∈ cursors, ∃ j ∈ s.neighborsOf i, row.1 ∈ crossing s.isVehicle now ps j i ∧
        ∃ b' w', Second.departed now ps j = some (b', w') ∧ row.2 = w'.cursorOf row.1) ∧
      ∀ j ∈ s.neighborsOf i, ∀ x ∈ crossing s.isVehicle now ps j i, x ∈ cursors.map Prod.fst := by
  obtain ⟨b, r, d, hr, -, settle⟩ := settled_eq_some.1 ((next_eq_some.1 hn).2 i u hu)
  obtain ⟨b₀, w, d₀, hw, hd, arrive⟩ := arrived_eq_some.1 hr
  obtain ⟨v, messages, hv, wrote, -, -, -⟩ := h.letters rest hs fits c hw
  obtain ⟨told, -⟩ := h.told rest hs c hv wrote
  have departed := c.departed hw
  rw [departed.partners] at hd
  have vehicles := (knows_of_kept ((rest.setting i v hv).trans (kept_wrote wrote))).1
  obtain ⟨transfers, -, read, -⟩ := arrive_ends arrive
  have rows := read_mail hd (Outbox.readTransfers_eq_ok.1 read)
  -- Each transfer tells where its sender has the agents.
  have each : List.Forall₂ (fun j t => t.load = crossing s.isVehicle now ps j i ∧
      ∃ b' w', Second.departed now ps j = some (b', w') ∧
        ∀ row ∈ t.cursors, row.2 = w'.cursorOf row.1) (s.neighborsOf i) transfers := by
    refine rows.imp fun j t => ?_
    rintro ⟨b', w', data, hj, hdata, decoded, -⟩
    obtain ⟨p, messages, hp, wrote, rfl, keys, read⟩ := h.letters rest hs fits c hj
    obtain ⟨-, -, sends⟩ := h.departed rest hs fits c hj
    obtain ⟨t', decoded', load, -⟩ := sends i data hdata
    rw [Table.get?_mapRows, Option.map_eq_some_iff] at hdata
    obtain ⟨t₀, ht₀, rfl⟩ := hdata
    rw [departed.rank, vehicles] at decoded
    obtain rfl := Except.ok.inj (decoded.symm.trans decoded')
    obtain rfl := Except.ok.inj (decoded'.symm.trans (read i t₀ ht₀).1)
    have known := h.tells informed rest hs c hp wrote ht₀
    have small : ∀ row ∈ t₀.cursors, row.1 < Wire.base ∧ row.2 < Wire.base := fun row hrow =>
      ⟨(known row hrow).2.1.trans fits.agents, (known row hrow).2.2⟩
    refine ⟨load, _, w', hj, fun row hrow => ?_⟩
    rw [Transfer.cursors_arrival small] at hrow
    exact (known row hrow).1
  obtain ⟨nodup, -, -⟩ := (h.settled rest hs fits c hn).2 i u hu
  obtain ⟨loads, -⟩ := map_eq_of_forall₂ (P := fun _ => True) (each.imp fun j t h => ⟨h.1, trivial⟩)
  have brings : Brought (transfers.flatMap Transfer.cursors) w r := by
    refine brought_arrive read ?_ arrive
    rw [loads]
    exact Multiset.nodup_of_le (Multiset.le_add_left _ _) nodup
  have settles : Brought [] r u := by
    rw [receiveReleases_links settle]
    exact .nothing rfl rfl
  have all := brings.trans settles (by simp)
  rw [List.append_nil] at all
  refine ⟨v, w, b₀, _, hv, hw, told, all, fun row hrow => ?_, fun j hj x hx => ?_⟩
  · obtain ⟨t, ht, hrow⟩ := List.mem_flatMap.1 hrow
    obtain ⟨j, hj, load, b', w', hw', tells⟩ := exists_of_forall₂ each ht
    refine ⟨j, hj, ?_, b', w', hw', tells row hrow⟩
    rw [← load, ← Transfer.coe_cursors]
    exact Multiset.mem_coe.2 (List.mem_map_of_mem hrow)
  · rw [← Multiset.mem_coe, coe_flatMap_cursors Transfer.coe_cursors, loads]
    exact mem_sum_map.2 ⟨j, hj, hx⟩

/-- Whoever crosses from a partition was counted there. -/
theorem counts_of_crossing (h : s.Counted ps) (rest : s.Rested timing ps) (hs : s.Accepted) (fits : s.Fits)
    (c : Company timing s.neighborsOf ps) (hn : Second.next now ps = some qs) {j l : Nat}
    (hj : Second.departed now ps j = some (b, q)) (hl : l ∈ s.neighborsOf j)
    (hx : x ∈ crossing s.isVehicle now ps j l) : ∃ v, ps[j]? = some v ∧ x ∈ v.census 0 := by
  obtain ⟨v, hv, -⟩ := departed_eq_some.1 hj
  refine ⟨v, hv, ?_⟩
  rw [(h.settled rest hs fits c hn).1 j v hv]
  exact Multiset.mem_add.2 (.inr (mem_sum_map.2 ⟨l, hl, hx⟩))

/-- What everybody knows after a second of an agent which partition `i` counted before: nobody else stamps
anything for it, and whoever gets to know of it knows how far it has come. -/
theorem known (h : s.Counted ps) (informed : s.Informed ps) (rest : s.Rested timing ps)
    (hs : s.Accepted) (fits : s.Fits) (c : Company timing s.neighborsOf ps)
    (hn : Second.next now ps = some qs) {spec : Agent} (hspec : s.agents[x]? = some spec)
    (hp : ps[i]? = some p) (hx : x ∈ p.census 0) {w : Partition}
    (hw : Second.departed now ps i = some (b, w)) {l : Nat} {u : Partition} (hu : qs[l]? = some u) :
    ∃ v, ps[l]? = some v ∧ u.diary x = (if l = i then w.diary x else v.diary x) ∧
      (u.cursorOf x = w.cursorOf x ∨ l ≠ i ∧ u.cursorOf x = v.cursorOf x ∧
        ∀ j ∈ s.neighborsOf l, x ∉ crossing s.isVehicle now ps j l) := by
  obtain ⟨v, w', b', cursors, hv, hw', told', brought, rows, known⟩ :=
    h.brought informed rest hs fits c hn hu
  have home : l = i → w' = w := by
    rintro rfl
    rw [hw] at hw'
    exact (Prod.mk.inj (Option.some.inj hw'.symm)).2
  have abroad : l ≠ i → Quiet x v w' :=
    fun hl => told'.quiet x (.inl fun hv' => hl (h.unique hv hp hv' hx))
  have diary : u.diary x = w'.diary x := by
    rw [Partition.diary, brought.log]
    rfl
  refine ⟨v, hv, ?_, ?_⟩
  · split
    · rename_i hl
      rw [diary, home hl]
    · rename_i hl
      rw [diary, (abroad hl).diary]
  · by_cases hx' : x ∈ cursors.map Prod.fst
    · -- Whoever has brought the agent had it before, and that is partition `i`.
      refine .inl ?_
      obtain ⟨⟨y, k⟩, hrow, rfl⟩ := List.mem_map.1 hx'
      obtain ⟨j, hj, hcross, b'', w'', hw'', hk⟩ := rows (y, k) hrow
      obtain ⟨v'', hv'', hy⟩ :=
        h.counts_of_crossing rest hs fits c hn hw'' ((hs.network fits.parts).symmetric hj) hcross
      obtain rfl := h.unique hv'' hp hy hx
      rw [hw] at hw''
      obtain ⟨-, rfl⟩ := Prod.mk.inj (Option.some.inj hw'')
      obtain ⟨p', messages, hp', wrote, -⟩ := h.letters rest hs fits c hw'
      obtain ⟨a', ha', -⟩ := ((rest.setting l p' hp').trans (kept_wrote wrote)).copy hspec
      obtain ⟨-, b, hb, -, cursor⟩ := brought.brings y k hrow a' ha'
      rw [cursorOf_eq hb, cursor]
      exact hk
    · have same : u.cursorOf x = w'.cursorOf x := by
        rw [Partition.cursorOf, brought.others x hx']
        rfl
      by_cases hl : l = i
      · exact .inl (home hl ▸ same)
      · exact .inr ⟨hl, same.trans (abroad hl).cursorOf, fun j hj hcross => hx' (known j hj x hcross)⟩

end Counted

/-- An agent in a second: partition `i` has it in state `p` before and lets it go on to state `w`, where
these stamps are made, and partition `j` has it in state `q` after the second. -/
structure Follows (now : Nat) (ps qs : List Partition) (spec : Agent) (i : Nat) (p w : Partition)
    (stamps : List Stamp) (j : Nat) (q : Partition) : Prop where
  progress : Progress now spec p w stamps
  found : qs[j]? = some q
  counted : spec.id ∈ q.census 0
  finished : spec.id ∈ w.log.finishers → j = i
  cursor : q.cursorOf spec.id = w.cursorOf spec.id
  others : ∀ (l : Nat) u, qs[l]? = some u → ∃ v, ps[l]? = some v ∧
    u.diary spec.id = (if l = i then w.diary spec.id else v.diary spec.id) ∧
    (u.cursorOf spec.id = w.cursorOf spec.id ∨ l ≠ i ∧ u.cursorOf spec.id = v.cursorOf spec.id)

/-- Every agent can be followed through a second. -/
theorem Counted.follow (h : s.Counted ps) (informed : s.Informed ps) (rest : s.Rested timing ps)
    (hs : s.Accepted) (fits : s.Fits) (c : Company timing s.neighborsOf ps)
    (hn : Second.next now ps = some qs) {spec : Agent} (hspec : s.agents[x]? = some spec)
    (hp : ps[i]? = some p) (hx : x ∈ p.census 0) :
    ∃ w stamps j q, Follows now ps qs spec i p w stamps j q := by
  obtain rfl : spec.id = x := hs.denseAgents x spec hspec
  obtain ⟨length, -⟩ := next_eq_some.1 hn
  obtain ⟨before, after⟩ := h.settled rest hs fits c hn
  obtain ⟨hi, -⟩ := List.getElem?_eq_some_iff.1 hp
  have hi : i < qs.length := length ▸ hi
  obtain ⟨_, w, b, -, hp', hw, told, -, -, -⟩ :=
    h.brought informed rest hs fits c hn (List.getElem?_eq_getElem hi)
  obtain rfl := Option.some.inj (hp.symm.trans hp')
  obtain ⟨a, ha, blank⟩ := (rest.setting i p hp).copy hspec
  obtain ⟨stamps, progress⟩ := told.progress ha blank
  have known := fun {l : Nat} {u : Partition} (hu : qs[l]? = some u) =>
    h.known informed rest hs fits c hn hspec hp hx hw hu
  have others : ∀ (l : Nat) u, qs[l]? = some u → ∃ v, ps[l]? = some v ∧
      u.diary spec.id = (if l = i then w.diary spec.id else v.diary spec.id) ∧
      (u.cursorOf spec.id = w.cursorOf spec.id ∨
        l ≠ i ∧ u.cursorOf spec.id = v.cursorOf spec.id) := by
    intro l u hu
    obtain ⟨v, hv, diary, cursors⟩ := known hu
    exact ⟨v, hv, diary, cursors.imp_right fun hl => ⟨hl.1, hl.2.1⟩⟩
  have finished : spec.id ∈ w.log.finishers → spec.id ∈ staying now ps i := by
    intro hf
    rw [staying, hw]
    show spec.id ∈ w.census 0
    rw [census, zero_add, aboardOf, roots]
    simp only [Multiset.mem_add, Multiset.mem_coe]
    exact .inl (.inl (.inl (.inl (.inl hf))))
  by_cases hstay : spec.id ∈ staying now ps i
  · have hq := List.getElem?_eq_getElem hi
    have there : spec.id ∈ qs[i].census 0 := by
      rw [(after i _ hq).2.1]
      exact Multiset.mem_add.2 (.inl hstay)
    obtain ⟨v, -, -, cursor | ⟨other, -⟩⟩ := known hq
    · exact ⟨w, stamps, i, _, progress, hq, there, fun _ => rfl, cursor, others⟩
    · exact absurd rfl other
  · rw [before i p hp] at hx
    obtain ⟨j, hj, hcross⟩ := mem_sum_map.1 ((Multiset.mem_add.1 hx).resolve_left hstay)
    have net := hs.network fits.parts
    have hlt : j < qs.length := by
      rw [length, h.cast]
      exact net.below hj
    have hq := List.getElem?_eq_getElem hlt
    have there : spec.id ∈ qs[j].census 0 := by
      rw [(after j _ hq).2.1]
      exact Multiset.mem_add.2 (.inr (mem_sum_map.2 ⟨i, net.symmetric hj, hcross⟩))
    obtain ⟨v, -, -, cursor | ⟨-, -, nobody⟩⟩ := known hq
    · exact ⟨w, stamps, j, _, progress, hq, there, fun hf => absurd (finished hf) hstay, cursor, others⟩
    · exact absurd hcross (nobody i (net.symmetric hj))

/-- What everybody knows stays true through a second. -/
theorem Informed.next (informed : s.Informed ps) (h : s.Counted ps) (rest : s.Rested timing ps)
    (hs : s.Accepted) (fits : s.Fits) (c : Company timing s.neighborsOf ps)
    (hn : Second.next now ps = some qs) : s.Informed qs := by
  have counted := h.next rest hs fits c hn
  -- Every agent is followed from where it was counted.
  have each : ∀ (x : Nat) spec, s.agents[x]? = some spec → spec.id = x ∧
      ∃ i p w stamps j q, ps[i]? = some p ∧ x ∈ p.census 0 ∧ Follows now ps qs spec i p w stamps j q := by
    intro x spec hspec
    obtain ⟨hlt, -⟩ := Array.getElem?_eq_some_iff.1 hspec
    obtain ⟨i, p, hp, hx⟩ := h.somewhere hlt
    obtain ⟨w, stamps, j, q, follows⟩ := h.follow informed rest hs fits c hn hspec hp hx
    exact ⟨hs.denseAgents x spec hspec, i, p, w, stamps, j, q, hp, hx, follows⟩
  refine ⟨fun l u hu x spec hspec => ?_, fun j l q u hq hu x hx => ?_⟩
  · obtain ⟨rfl, i, p, w, stamps, j, q, hp, hx, follows⟩ := each x spec hspec
    obtain ⟨v, hv, -, cursor | ⟨-, cursor⟩⟩ := follows.others l u hu
    · rw [cursor]
      exact follows.progress.within (informed.within i p hp _ spec hspec)
    · rw [cursor]
      exact informed.within l v hv _ spec hspec
  · have hlt : x < s.agents.size := Multiset.mem_range.1 (Multiset.mem_of_le (counted.le_everybody hq) hx)
    obtain ⟨spec, hspec⟩ : ∃ spec, s.agents[x]? = some spec := ⟨_, Array.getElem?_eq_getElem hlt⟩
    obtain ⟨rfl, i, p, w, stamps, j', q', hp, hx', follows⟩ := each x spec hspec
    obtain rfl := counted.unique hq follows.found hx follows.counted
    obtain rfl := Option.some.inj (hq.symm.trans follows.found)
    rw [follows.cursor]
    obtain ⟨v, hv, -, cursor | ⟨-, cursor⟩⟩ := follows.others l u hu
    · exact cursor.le
    · rw [cursor]
      exact (informed.latest i l p v hp hv _ hx').trans follows.progress.grows

theorem Fresh.cursorOf (fresh : s.Fresh) (timing : Timing) (rank x : Nat) :
    (Partition.initial s timing rank).cursorOf x = 0 := by
  show (s.agents[x]?).elim 0 (·.cursor) = 0
  cases hx : s.agents[x]? with
  | none => rfl
  | some a =>
    show a.cursor = 0
    rw [fresh.agents x a hx]
    rfl

theorem Fresh.informed (fresh : s.Fresh) (timing : Timing) :
    s.Informed ((List.range s.numParts).map (Partition.initial s timing)) := by
  refine ⟨fun i p hp x spec _ => ?_, fun i j p q _ hq x _ => ?_⟩
  · rw [getElem?_cast hp, fresh.cursorOf]
    exact Nat.zero_le _
  · rw [getElem?_cast hq, fresh.cursorOf]
    exact Nat.zero_le _

/-- In a run everybody knows how far the agents have come which are there. -/
theorem Fresh.informed_run {count : Nat} (fresh : s.Fresh) (hs : s.Accepted) (fits : s.Fits)
    (hrun : Second.run count timing.start ((List.range s.numParts).map (Partition.initial s timing)) =
      some ps) : s.Informed ps := by
  induction count generalizing ps with
  | zero =>
    obtain rfl := Option.some.inj hrun
    exact fresh.informed timing
  | succ count ih =>
    rw [run_succ] at hrun
    obtain ⟨qs, hqs, hn⟩ := Option.bind_eq_some_iff.1 hrun
    obtain ⟨counted, rest, c⟩ := fresh.run hs fits hqs
    exact (ih hqs).next counted rest hs fits c hn

end Scenario

end Mobility
