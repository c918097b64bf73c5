import Mobility.Proofs.Aftermath
import Mobility.Proofs.Chronicle.Diaries
import Mobility.Proofs.Ensemble.Completion
import Mobility.Proofs.Stopping

/-!
# Entries of a log

Whatever a partition does, and even if it fails, it only adds stamps to its log (`Partition.Appends`), and it stamps
an end only in the turn of an agent with nothing left of its plan (`Partition.appends_perform`), which it always does
then (`Partition.ends_dispatch_finish`). So every stamp of a run has been made at a moment of the run
(`Ensemble.passes_of_log`), and what was stamped at a moment stays stamped (`Ensemble.Passes.stays`).
-/

set_option autoImplicit false

namespace Mobility

open Act

namespace Partition

variable {p q r : Partition} {F : Stamp → Prop} {how : Consumption} {v id link now budget n : Nat} {m : Moment}
  {st : Stamp}

/-! ## Adding to a log -/

/-- Stamps are added to the log, and all of them are such. -/
def Appends (F : Stamp → Prop) (p q : Partition) : Prop :=
  ∃ new, q.log.toList = p.log.toList ++ new ∧ ∀ st ∈ new, F st

/-- Stamps are only added to the log. -/
def Grows : Partition → Partition → Prop := Appends fun _ => True

namespace Appends

theorem of_log (log : q.log = p.log) : Appends F p q := ⟨[], by rw [log, List.append_nil], nofun⟩

theorem push (log : q.log = p.log.push st) (fits : F st) : Appends F p q :=
  ⟨[st], by rw [log, Array.toList_push], fun _ hst => List.mem_singleton.1 hst ▸ fits⟩

theorem trans (h : Appends F p q) (k : Appends F q r) : Appends F p r := by
  obtain ⟨xs, log, fits⟩ := h
  obtain ⟨ys, log', fits'⟩ := k
  refine ⟨xs ++ ys, by rw [log', log, List.append_assoc], fun st hst => ?_⟩
  rcases List.mem_append.1 hst with before | after
  · exact fits st before
  · exact fits' st after

instance : Std.Refl (Appends F) := ⟨fun _ => of_log rfl⟩

instance : IsTrans Partition (Appends F) := ⟨fun _ _ _ => trans⟩

/-- A stamp which is there after stamps were added was there before, or it is one of them. -/
theorem old_or_new (h : Appends F p q) (there : q.log[n]? = some st) :
    p.log[n]? = some st ∨ p.log.size ≤ n ∧ F st := by
  obtain ⟨new, log, fits⟩ := h
  rw [← Array.getElem?_toList, log] at there
  by_cases before : n < p.log.size
  · rw [List.getElem?_append_left (by simpa using before), Array.getElem?_toList] at there
    exact .inl there
  · have later : p.log.size ≤ n := Nat.le_of_not_lt before
    rw [List.getElem?_append_right (by simpa using later)] at there
    exact .inr ⟨later, fits st (List.mem_of_getElem? there)⟩

end Appends

theorem Grows.mem (h : Grows p q) (there : st ∈ p.log.toList) : st ∈ q.log.toList := by
  obtain ⟨new, log, -⟩ := h
  rw [log]
  exact List.mem_append_left _ there

instance : Std.Refl Grows := inferInstanceAs (Std.Refl (Appends _))

instance : IsTrans Partition Grows := inferInstanceAs (IsTrans Partition (Appends _))

theorem spans_appends : Spans (Appends F) where
  still h := .of_log h.log
  before h k := Appends.trans (.of_log h.log) k
  after h k := Appends.trans h (.of_log k.log)

/-! ## Turns -/

section Turns

variable (others : ∀ st, st.what.kind ≠ .finish → F st)

include others

/-- Consuming an instruction isn't an end. -/
theorem appends_consume : Leaves (Appends F) (consume id how now) p := by
  refine .look (looks_agent id) fun a _ => .look (looks_attempt _) fun ⟨b, event⟩ consumed => ?_
  obtain ⟨i, -, -, rfl⟩ := Agent.consume_eq_ok (attempt_eq_ok.1 consumed).1
  refine Leaves.bind (.modify (.of_log rfl)) fun _ q _ => ?_
  by_cases silent : i.event.val = 0
  · simp only [if_pos silent]
    exact .pure _ q
  · simp only [if_neg silent]
    exact .modify (.push rfl (others _ (how.kind_stamp a.id i.event)))

theorem appends_exchange {stop : StopRef} : Leaves (Appends F) (exchangePassengers v stop now) p := by
  refine (appends_consume others).bind fun _ _ _ =>
    .look (looks_agent v) fun _ _ => .look (looks_attempt _) fun _ _ => ?_
  refine Leaves.bind (.modify (.of_log rfl)) fun _ _ _ => Leaves.bind (.forM fun passenger _ q => ?_) fun _ _ _ => ?_
  · exact (appends_consume others).bind fun _ _ _ => spans_appends.idle unmoved_wake
  · refine .look (looks_agent v) fun _ _ => .look .get fun _ _ => ?_
    refine Leaves.bind (.modify (.of_log rfl)) fun _ _ _ => Leaves.bind (.modify (.of_log rfl)) fun _ _ _ => ?_
    exact .forM fun _ _ _ => appends_consume others

/-- An end is only stamped in the turn of an agent with nothing left of its plan. -/
theorem appends_dispatch (ended : ∀ a, p.agents[v]? = some a → a.current = .ok none →
      F ⟨now, ⟨.finish, v, a.finishEvent, none⟩⟩) : Leaves (Appends F) (dispatch v now) p := by
  cases found : p.agents[v]? with
  | none =>
    refine .look (looks_agent v) fun a ends => ?_
    cases found.symm.trans (agent_eq_ok.1 ends).1
  | some a =>
    refine spans_appends.dispatch found (fun ahead => ?_) (fun event stop ahead => ?_) fun _ _ _ _ _ _ =>
      appends_consume others
    · refine .look (looks_agent v) fun b ends => Leaves.bind (.modify (.push rfl ?_)) fun _ _ _ => ?_
      · obtain rfl := Option.some.inj (found.symm.trans (agent_eq_ok.1 ends).1)
        exact ended a found ahead
      · exact .modify (.of_log rfl)
    · refine .after (ends_agent found) (.after (attempt_eq_ok.2 ⟨ahead, rfl⟩) ?_)
      exact (appends_exchange others).bind fun _ q _ => .pure _ q

end Turns

/-- Whatever a partition does next, it stamps an end only in the turn of an agent with nothing left of its plan. -/
theorem appends_perform : Leaves (Appends fun st => st.what.kind = .finish →
      st.time = now ∧ m.Turn now p st.what.agent ∧
        ∃ a, p.agents[st.what.agent]? = some a ∧ a.plan.length ≤ a.cursor) (m.perform now) p :=
  spans_appends.perform fun _ turn => appends_dispatch (fun _ other finish => absurd finish other)
    fun a found ahead _ => ⟨rfl, turn, a, found, Plan.get?_eq_none.1 ahead⟩

theorem ends_finish {a : Agent} (found : p.agents[v]? = some a) : Ends (finish v now) p ()
    { p with log := p.log.push ⟨now, ⟨.finish, v, a.finishEvent, none⟩⟩, finished := p.finished + 1 } := by
  simp only [finish, bind_eq_ok, agent_eq_ok, publish_eq_ok, modify_eq_ok]
  exact ⟨a, p, ⟨found, rfl⟩, (), _, rfl, rfl⟩

/-- The turn of an agent with nothing left of its plan. -/
theorem ends_dispatch_finish {a : Agent} (found : p.agents[v]? = some a) (consumed : a.plan.length ≤ a.cursor) :
    Ends (dispatch v now) p true
      { p with log := p.log.push ⟨now, ⟨.finish, v, a.finishEvent, none⟩⟩, finished := p.finished + 1 } := by
  have ahead : a.current = .ok none := Plan.get?_eq_none.2 consumed
  refine bind_eq_ok.2 ⟨a, p, agent_eq_ok.2 ⟨found, rfl⟩, bind_eq_ok.2 ⟨none, p, attempt_eq_ok.2 ⟨ahead, rfl⟩, ?_⟩⟩
  exact bind_eq_ok.2 ⟨(), _, ends_finish found, pure_eq_ok.2 ⟨rfl, rfl⟩⟩

end Partition

open Mobility.Partition

namespace Moment

variable {m : Moment} {p q : Partition} {v now : Nat} {ids links : List Nat}

/-- At the moment of the turn of an agent it takes its turn, and then nobody moves until the next thing is done. -/
theorem Turn.exists_rest (turn : m.Turn now p v) : ∃ rest : Bool → Act Moment,
    (m.perform now).run p = (dispatch v now >>= rest).run p ∧ ∀ done q, Leaves Unmoved (rest done) q := by
  cases turn with
  | @due _ _ ids =>
    refine ⟨fun done => do
      unless done do wake v (now + 1)
      return acting ids, ?_, fun done q => ?_⟩
    · simp only [perform, actOrRetry, bind_assoc]
      congr 2
      funext done
      cases done with
      | true => simp only [if_true, pure_bind]
      | false => simp only [Bool.false_eq_true, if_false]
    · cases done with
      | true => exact .pure _ q
      | false => exact unmoved_wake.bind fun _ r _ => .pure _ r
  | @front _ link budget links view head there first may =>
    refine ⟨fun gone => do
      if gone then
        takeHead link now
        return serving link budget links
      else
        revisit link (now + 1)
        return visiting links, ?_, fun gone q => ?_⟩
    · simp only [perform, takeHead, bind_assoc]
      rw [run_bind_of_ends (ends_view there)]
      simp only [first, if_neg (Nat.not_lt.2 may)]
    · cases gone with
      | true => exact unmoved_takeHead.bind fun _ r _ => .pure _ r
      | false => exact unmoved_revisit.bind fun _ r _ => .pure _ r

/-- What fails in the turn of an agent fails at the moment of its turn. -/
theorem Turn.perform_fails {f : Failure} (turn : m.Turn now p v) (fails : (dispatch v now).run p = .error f q) :
    (m.perform now).run p = .error f q := by
  obtain ⟨rest, same, -⟩ := turn.exists_rest
  rw [same]
  exact run_bind_of_fails fails

/-- Nobody moves after the turn of an agent until the next thing is done. -/
theorem Turn.unmoved {done : Bool} (turn : m.Turn now p v) (ends : Ends (dispatch v now) p done q) :
    Unmoved q ((m.perform now).left p) := by
  obtain ⟨rest, same, idle⟩ := turn.exists_rest
  have unmoved := idle done q
  unfold Leaves left at unmoved
  unfold left
  rwa [same, run_bind_of_ends ends]

end Moment

namespace Partition

variable {p q : Partition} {m : Moment} {v link now budget : Nat} {links : List Nat}

/-! ## Seconds -/

theorem grows_of_unmoved {α : Type} {act : Act α} (h : Leaves Unmoved act p) : Leaves Grows act p :=
  spans_appends.idle h

theorem grows_dispatch : Leaves Grows (dispatch v now) p := appends_dispatch (fun _ _ => trivial) fun _ _ _ => trivial

theorem grows_actOrRetry : Leaves Grows (actOrRetry v now) p := by
  refine grows_dispatch.bind fun done q _ => ?_
  cases done with
  | true => exact .pure _ q
  | false => exact grows_of_unmoved unmoved_wake

theorem grows_tryHead : Leaves Grows (tryHead link now) p := by
  refine .look (looks_view link) fun view _ => ?_
  split
  · exact .pure _ p
  · split
    · exact (grows_of_unmoved unmoved_revisit).bind fun _ q _ => .pure _ q
    · refine grows_dispatch.bind fun gone q _ => ?_
      cases gone with
      | true => exact .pure _ q
      | false => exact (grows_of_unmoved unmoved_revisit).bind fun _ r _ => .pure _ r

theorem grows_serve : Leaves Grows (serve link now budget) p := by
  induction budget generalizing p with
  | zero =>
    refine .look (looks_view link) fun view _ => ?_
    split
    · exact .pure _ p
    · exact grows_of_unmoved unmoved_revisit
  | succ budget ih =>
    rw [serve_succ]
    refine grows_tryHead.bind fun gone q _ => ?_
    cases gone with
    | true => exact (grows_of_unmoved unmoved_takeHead).bind fun _ _ _ => ih
    | false => exact .pure _ q

theorem grows_serveLink : Leaves Grows (serveLink link now) p := by
  refine .look (looks_view link) fun view _ => ?_
  split
  · exact .pure _ p
  · exact grows_serve

theorem grows_serveLinks : Leaves Grows (serveLinks now) p :=
  .look .get fun _ _ => .look (looks_attempt _) fun _ _ => Leaves.bind (.modify (.of_log rfl)) fun _ _ _ =>
    .forM fun _ _ _ => grows_serveLink

theorem grows_work : Leaves Grows (work now) p := by
  refine Leaves.bind (.look .get fun _ _ => .look (looks_attempt _) fun _ _ => ?_) fun _ _ _ => grows_serveLinks
  exact Leaves.bind (.modify (.of_log rfl)) fun _ _ _ => .forM fun _ _ _ => grows_actOrRetry

theorem grows_postTransfers : Leaves Grows (postTransfers now) p :=
  .look .get fun _ _ => Leaves.bind (.modify (.of_log rfl)) fun _ _ _ => (looks_communicate _).leaves

theorem grows_report : Leaves Grows (do links.forM (reportGateway now); postTransfers now) p :=
  Leaves.bind (.forM fun _ _ _ => grows_of_unmoved unmoved_reportGateway) fun _ _ _ => grows_postTransfers

theorem grows_collect : Leaves Grows (do links.forM (emptyProxy now); collectReleases now; postTransfers now) p := by
  refine Leaves.bind (.forM fun _ _ _ => grows_of_unmoved unmoved_emptyProxy) fun _ _ _ => ?_
  simp only [collectReleases, bind_assoc]
  exact .look .get fun _ _ => grows_report

theorem grows_sendTransfers : Leaves Grows (sendTransfers now) p := by
  rw [Moment.sendTransfers_eq]
  exact .look .get fun _ _ => grows_collect

/-- Whatever is left to do in a second, stamps are only added. -/
theorem grows_onward : Leaves Grows (m.onward now) p := by
  cases m with
  | calling => exact grows_work.bind fun _ _ _ => grows_sendTransfers
  | acting ids =>
    refine Leaves.bind (.forM fun _ _ _ => grows_actOrRetry) fun _ _ _ => ?_
    exact grows_serveLinks.bind fun _ _ _ => grows_sendTransfers
  | visiting links => exact Leaves.bind (.forM fun _ _ _ => grows_serveLink) fun _ _ _ => grows_sendTransfers
  | serving link budget rest =>
    refine grows_serve.bind fun _ _ _ => Leaves.bind (.forM fun _ _ _ => grows_serveLink) fun _ _ _ => ?_
    exact grows_sendTransfers
  | collecting links => exact grows_collect
  | reporting links => exact grows_report
  | posting => exact grows_postTransfers

/-- What is stamped next is there when the partition sends its transfers or has failed. -/
theorem Reaches.grows (h : Reaches now p m q) : Grows ((m.perform now).left q) ((depart now).left p) := by
  have same : (depart now).run p = (m.perform now >>= Moment.onward now).run q := by
    rw [h.depart_run, Moment.perform_onward]
  unfold left
  rw [same, EStateM.run_bind]
  cases run : (m.perform now).run q with
  | error f r => exact Std.Refl.refl (r := Grows) r
  | ok m' r => exact grows_onward

/-- Stamp `st` gets number `n` by what a partition in state `p` does at a moment. -/
structure AddedAt (now : Nat) (m : Moment) (p : Partition) (n : Nat) (st : Stamp) : Prop where
  later : p.log.size ≤ n
  there : ((m.perform now).left p).log[n]? = some st

variable {n : Nat} {st : Stamp}

theorem addedAt_of_perform (there : ((m.perform now).left p).log[n]? = some st) :
    p.log[n]? = some st ∨ AddedAt now m p n st :=
  (appends_perform.old_or_new there).imp_right fun new => ⟨new.1, there⟩

/-- A stamp which is there at a moment was there before the second, or it has been added at a moment before. -/
theorem Reaches.addedAt (h : Reaches now p m q) (there : q.log[n]? = some st) :
    p.log[n]? = some st ∨ ∃ m q, Reaches now p m q ∧ AddedAt now m q n st := by
  induction h with
  | begins => exact .inl there
  | @goes m m' q r before performs ih =>
    rw [← left_of_ends performs] at there
    rcases addedAt_of_perform there with old | added
    · exact ih old
    · exact .inr ⟨m, q, before, added⟩

/-- So it is with a stamp which is there when the partition sends its transfers or has failed. -/
theorem addedAt_of_depart (there : ((depart now).left p).log[n]? = some st) :
    p.log[n]? = some st ∨ ∃ m q, Reaches now p m q ∧ AddedAt now m q n st := by
  cases run : (depart now).run p with
  | ok b q =>
    obtain ⟨r, outbox, reaches, rfl⟩ := reaches_of_depart run
    rw [left_of_ends run] at there
    exact reaches.addedAt there
  | error f q =>
    rw [left_of_fails run] at there
    cases stops_of_depart run with
    | @amid m r reaches fails =>
      rw [← left_of_fails fails] at there
      rcases addedAt_of_perform there with old | added
      · exact reaches.addedAt old
      · exact .inr ⟨m, r, reaches, added⟩
    | @posting r outbox reaches left =>
      rw [left] at there
      exact reaches.addedAt there

end Partition

/-! ## Runs -/

namespace Ensemble

variable {s : Scenario} {timing : Timing} {c c' c₀ : Ensemble} {turn : Turn} {schedule : List Turn}
  {i rank n now id : Nat} {m : Moment} {p : Partition} {x : Process} {st : Stamp}

/-- A process stamps something only in the work of a second. -/
theorem step_stamps (hs : c.step turn = some c') :
    ∃ x y, c.processes[turn.rank]? = some x ∧ c'.processes = c.processes.set turn.rank y ∧
      (y.partition.log = x.partition.log ∨
        ∃ now, x.stage = .working now ∧ y.partition = (depart now).left x.partition) := by
  obtain ⟨x, q, stage, hx, processes, acts⟩ := step_acts hs
  refine ⟨x, ⟨q, stage⟩, hx, processes, ?_⟩
  cases acts with
  | rests => exact .inl rfl
  | works stage => exact .inr ⟨_, stage, rfl⟩
  | receives => exact .inl log_arrive
  | settles => exact .inl unmoved_receiveReleases.log

/-- As a run goes on, stamps are only added. -/
theorem grows_of_play (hp : play schedule c = some c') (hx : c.processes[i]? = some x) :
    ∃ y, c'.processes[i]? = some y ∧ Grows x.partition y.partition := by
  induction schedule generalizing c x with
  | nil =>
    obtain rfl := Option.some.inj hp
    exact ⟨x, hx, Std.Refl.refl (r := Grows) x.partition⟩
  | cons turn rest ih =>
    obtain ⟨d, hs, hp⟩ := Option.bind_eq_some_iff.1 hp
    obtain ⟨y, z, hy, processes, stamps⟩ := step_stamps hs
    by_cases own : i = turn.rank
    · obtain rfl : x = y := Option.some.inj (hx.symm.trans (own ▸ hy))
      have hz : d.processes[i]? = some z := by rw [processes, getElem?_set_of hy, if_pos own]
      have grows : Grows x.partition z.partition := by
        rcases stamps with same | ⟨now, -, left⟩
        · exact .of_log same
        · rw [left]
          exact grows_onward (m := .calling)
      obtain ⟨w, hw, later⟩ := ih hp hz
      exact ⟨w, hw, IsTrans.trans _ _ _ grows later⟩
    · exact ih hp (by rw [processes, getElem?_set_of hy, if_neg own, hx])

/-- In a turn of this schedule process `rank` works through second `now`, and it comes to moment `m` in state `p`. -/
def Passes (c₀ : Ensemble) (schedule : List Turn) (rank now : Nat) (m : Moment) (p : Partition) : Prop :=
  ∃ before turn after c x, schedule = before ++ turn :: after ∧ turn.rank = rank ∧ play before c₀ = some c ∧
    c.processes[rank]? = some x ∧ x.stage = .working now ∧ Reaches now x.partition m p

theorem Passes.later (h : Passes c₀ schedule rank now m p) (turn : Turn) :
    Passes c₀ (schedule ++ [turn]) rank now m p := by
  obtain ⟨before, taken, after, c, x, rfl, rest⟩ := h
  exact ⟨before, taken, after ++ [turn], c, x, by rw [List.append_assoc, List.cons_append], rest⟩

/-- What was stamped at a moment stays stamped. -/
theorem Passes.stays (h : Passes c₀ schedule rank now m p) (hp : play schedule c₀ = some c) :
    ∃ y, c.processes[rank]? = some y ∧ Grows ((m.perform now).left p) y.partition := by
  obtain ⟨before, turn, after, b, x, rfl, rfl, hb, hx, stage, reaches⟩ := h
  rw [play_append, hb] at hp
  obtain ⟨d, hs, hp⟩ : ∃ d, b.step turn = some d ∧ play after d = some c := Option.bind_eq_some_iff.1 hp
  obtain ⟨y, hy, left⟩ : ∃ y, d.processes[turn.rank]? = some y ∧ y.partition = (depart now).left x.partition := by
    obtain ⟨z, q, after, hz, processes, acts⟩ := step_acts hs
    obtain rfl := Option.some.inj (hx.symm.trans hz)
    refine ⟨⟨q, after⟩, by rw [processes, getElem?_set_of hx, if_pos rfl], ?_⟩
    cases acts with
    | rests idle => rw [stage] at idle; cases idle
    | works stage' => cases stage.symm.trans stage'; rfl
    | receives stage' | settles stage' => cases stage.symm.trans stage'
  obtain ⟨z, hz, later⟩ := grows_of_play hp hy
  exact ⟨z, hz, IsTrans.trans _ _ _ (left ▸ reaches.grows) later⟩

theorem log_of_make (hm : make s timing = .ok c₀) (hx : c₀.processes[rank]? = some x) : x.partition.log = #[] := by
  obtain ⟨rfl, -⟩ := make_eq_ok hm
  obtain ⟨p, hp, rfl⟩ := List.mem_map.1 (List.mem_of_getElem? hx)
  obtain ⟨i, -, rfl⟩ := List.mem_map.1 hp
  rfl

/-- Every stamp is added at a moment of the run. -/
theorem passes_of_log (hm : make s timing = .ok c₀) (hp : play schedule c₀ = some c)
    (hx : c.processes[rank]? = some x) (there : x.partition.log[n]? = some st) :
    ∃ now m p, Passes c₀ schedule rank now m p ∧ AddedAt now m p n st := by
  induction schedule using List.reverseRecOn generalizing c x with
  | nil =>
    obtain rfl := Option.some.inj hp
    rw [log_of_make hm hx] at there
    cases there
  | append_singleton before turn ih =>
    rw [play_append] at hp
    obtain ⟨b, hb, later⟩ := Option.bind_eq_some_iff.1 hp
    obtain ⟨d, taken, same⟩ := Option.bind_eq_some_iff.1 later
    obtain rfl : d = c := Option.some.inj same
    obtain ⟨y, z, hy, processes, stamps⟩ := step_stamps taken
    have before : ∀ {w : Process}, b.processes[rank]? = some w → w.partition.log[n]? = some st →
        ∃ now m p, Passes c₀ (before ++ [turn]) rank now m p ∧ AddedAt now m p n st := by
      intro w hw there
      obtain ⟨now, m, p, passes, added⟩ := ih hb hw there
      exact ⟨now, m, p, passes.later turn, added⟩
    rw [processes, getElem?_set_of hy] at hx
    split at hx
    · rename_i own
      subst own
      obtain rfl := Option.some.inj hx
      rcases stamps with same | ⟨now, stage, left⟩
      · rw [same] at there
        exact before hy there
      · rw [left] at there
        rcases addedAt_of_depart there with old | ⟨m, p, reaches, added⟩
        · exact before hy old
        · exact ⟨now, m, p, ⟨_, turn, [], b, y, rfl, rfl, hb, hy, stage, reaches⟩, added⟩
    · exact before hx there

/-- In a turn of this schedule an agent acts in second `t` with nothing left of its plan. -/
def ComesToEnd (c₀ : Ensemble) (schedule : List Turn) (id t : Nat) : Prop :=
  ∃ rank m p a, Passes c₀ schedule rank t m p ∧ m.Turn t p id ∧ p.agents[id]? = some a ∧ a.plan.length ≤ a.cursor

/-- An end isn't stamped but for an agent which acts with nothing left of its plan. -/
theorem comesToEnd_of_log (hm : make s timing = .ok c₀) (hp : play schedule c₀ = some c) (hx : x ∈ c.processes)
    (there : st ∈ x.partition.log.toList) (kind : st.what.kind = .finish) :
    ComesToEnd c₀ schedule st.what.agent st.time := by
  obtain ⟨rank, hx⟩ := List.mem_iff_getElem?.1 hx
  obtain ⟨n, there⟩ := List.mem_iff_getElem?.1 there
  rw [Array.getElem?_toList] at there
  obtain ⟨now, m, p, passes, added⟩ := passes_of_log hm hp hx there
  rcases appends_perform.old_or_new added.there with old | ⟨-, ends⟩
  · exact absurd (Array.getElem?_eq_some_iff.1 old).1 (Nat.not_lt.2 added.later)
  · obtain ⟨rfl, turn, a, found, consumed⟩ := ends kind
    exact ⟨rank, m, p, a, passes, turn, found, consumed⟩

/-- The end of an agent which acts with nothing left of its plan is stamped, and stays stamped. -/
theorem Passes.finishes {a : Agent} (h : Passes c₀ schedule rank now m p) (hp : play schedule c₀ = some c)
    (turn : m.Turn now p id) (found : p.agents[id]? = some a) (consumed : a.plan.length ≤ a.cursor) :
    ∃ y ∈ c.processes, ⟨now, ⟨.finish, id, a.finishEvent, none⟩⟩ ∈ y.partition.log.toList := by
  obtain ⟨y, hy, grows⟩ := h.stays hp
  refine ⟨y, List.mem_of_getElem? hy, grows.mem ?_⟩
  rw [(turn.unmoved (ends_dispatch_finish found consumed)).log]
  exact Array.mem_toList_iff.2 Array.mem_push_self

end Ensemble

end Mobility
