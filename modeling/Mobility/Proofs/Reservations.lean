import Mobility.Proofs.Census.Places
import Mobility.Proofs.Ledger

/-!
# Reserved room

A proxy has reserved exactly the room which the agents sent through it take on the link or in front of
it, whenever all partitions have completed a second. So no partition is ever told that more agents have
left a link than it has sent there (`Ensemble.reservations_match`).

Both sides agree only if a message is read as it was written. The fields which count the items of a
message can't count more than they have bits for. In a world of fresh agents nobody is in two places, so
no message lists too many. In other worlds an agent can stand in several places from the start and be
sent more than once, and then the messages have to be shorter than `Wire.reach`.
-/

set_option autoImplicit false

namespace Mobility

open Act Second Mobility.Partition

/-! ## Messages which are read as they were written -/

namespace Transfer

open Wire

variable {t : Transfer} {isVehicle : Nat → Option Bool} {size : Nat}

/-- A short transfer has few groups, of few agents with few passengers each. -/
theorem few_of_short (short : t.encode.length < reach) :
    t.records.length < base ∧ ∀ g ∈ t.records, g.agents.length < base ∧
      ∀ r ∈ g.agents, ∀ passengers, r.passengers = some passengers → passengers.length < base := by
  have eight : reach = 8 * base := rfl
  have whole : t.encode.length = 12 + (t.records.flatMap LinkRecord.encode).length := by
    rw [encode, List.length_append, length_header]
  have count : 8 * t.records.length ≤ (t.records.flatMap LinkRecord.encode).length :=
    mul_length_le fun g _ => by simp only [LinkRecord.encode, List.length_append, length_field]; omega
  refine ⟨by omega, fun g hg => ?_⟩
  have inside : g.encode.length ≤ (t.records.flatMap LinkRecord.encode).length := by
    rw [List.length_flatMap]
    exact List.single_le_sum (fun _ _ => Nat.zero_le _) _ (List.mem_map_of_mem hg)
  have group : g.encode.length = 8 + (g.agents.flatMap AgentRecord.encode).length := by
    simp only [LinkRecord.encode, List.length_append, length_field]
  have agents : 8 * g.agents.length ≤ (g.agents.flatMap AgentRecord.encode).length :=
    mul_length_le fun r _ => r.eight_le_length_encode
  refine ⟨by omega, fun r hr passengers listed => ?_⟩
  have within : r.encode.length ≤ (g.agents.flatMap AgentRecord.encode).length := by
    rw [List.length_flatMap]
    exact List.single_le_sum (fun _ _ => Nat.zero_le _) _ (List.mem_map_of_mem hr)
  have seats : 8 * passengers.length ≤ (passengers.flatMap PassengerRecord.encode).length :=
    mul_length_le fun x _ => by rw [x.length_encode]; omega
  have agent : r.encode.length = 12 + (passengers.flatMap PassengerRecord.encode).length := by
    simp only [AgentRecord.encode, listed, List.length_append, length_field]
    omega
  omega

/-- A short transfer of known agents is legible. -/
theorem Proper.legible_of_short (h : t.Proper (AgentRecord.Known isVehicle) size)
    (hsize : size < base) (known : ∀ id, (isVehicle id).isSome → id < base)
    (short : t.encode.length < reach) : t.Legible isVehicle := by
  obtain ⟨groups, each⟩ := few_of_short short
  refine ⟨groups, fun g hg => ⟨fun link hl => ?_, (each g hg).1, fun r hr => ?_⟩⟩
  · have := (h g hg).link link hl
    have noLink : noLink = base - 1 := rfl
    omega
  · have agent : isVehicle r.id = some r.passengers.isSome := (h g hg).agents r hr
    refine ⟨?_, (each g hg).2 r hr⟩
    rw [Nat.mod_eq_of_lt (known r.id (by rw [agent]; rfl)), agent]

end Transfer

namespace Second

/-- All transfers of the second are short. -/
def Short (now : Nat) (ps : List Partition) : Prop :=
  ∀ (i : Nat) b q, departed now ps i = some (b, q) → ∀ target data, b.get? target = some data →
    data.length < Wire.reach

end Second

namespace Scenario

variable {s : Scenario} {timing : Timing} {now : Nat} {ps : List Partition}

/-- Short transfers are read as they were written. -/
theorem Rested.legible_of_short (rest : s.Rested timing ps) (hs : s.Accepted) (fits : s.Fits)
    (c : Company timing s.neighborsOf ps) (short : Second.Short now ps) : s.Legible now ps := by
  intro i b q hd
  obtain ⟨p, messages, hp, -, rfl, sent, setting⟩ := rest.departed hs c hd
  obtain ⟨vehicles, size⟩ := knows_of_kept setting
  refine ⟨p, messages, hp, rfl, sent, fun j t ht => ?_⟩
  have proper := sent.proper j t ht
  rw [vehicles, size] at proper
  refine proper.legible_of_short fits.links (fun id known => ?_) (short i _ q hd j t.encode ?_)
  · obtain ⟨vehicle, hv⟩ := Option.isSome_iff_exists.1 known
    obtain ⟨a, ha, -⟩ := Option.map_eq_some_iff.1 hv
    obtain ⟨hid, -⟩ := Array.getElem?_eq_some_iff.1 ha
    exact hid.trans fits.agents
  · rw [Table.get?_mapRows, ht, Option.map_some]

/-- If everybody is in one place only, transfers are read as they were written. -/
theorem Counted.legible (h : s.Counted ps) (rest : s.Rested timing ps) (hs : s.Accepted)
    (fits : s.Fits) (c : Company timing s.neighborsOf ps) : s.Legible now ps := by
  intro i b q hd
  obtain ⟨p, messages, hp, wrote, rfl, sent, setting⟩ := rest.departed hs c hd
  obtain ⟨vehicles, size⟩ := knows_of_kept setting
  refine ⟨p, messages, hp, rfl, sent, fun j t ht => ?_⟩
  have nodup : (p.census 0).Nodup := Multiset.nodup_of_le (h.le_everybody hp) (Multiset.nodup_range _)
  obtain ⟨census, -, proper⟩ := census_wrote (h.orderly i p hp) nodup wrote
  rw [vehicles, size] at proper
  obtain ⟨small, few⟩ := h.small_of_wrote fits hp census ht
  exact (proper j t ht).legible fits.links small few

end Scenario

/-! ## Short messages in a run -/

/-- In this second the process has made its transfers. -/
def Stage.HasMailed (now : Nat) : Stage → Prop
  | .sending _ second _ | .receiving _ second _ _ | .arriving second | .waiting second _ => second = now
  | .working _ | .done | .failed _ => False

/-- The process isn't about to send a message of `Wire.reach` bytes or more. -/
def Process.Terse (x : Process) : Prop :=
  ∀ lane now pending target data, x.stage = .sending lane now pending →
    pending.get? target = some data → data.length < Wire.reach

namespace Ensemble

/-- The transfers which have been made in this second are short. -/
def Heralded (e : Scene) (c : Ensemble) : Prop :=
  ∀ (i : Nat) x, c.processes[i]? = some x → x.stage.HasMailed e.now → ∀ b q,
    departed e.now e.start i = some (b, q) → ∀ target data, b.get? target = some data →
      data.length < Wire.reach

variable {e : Scene} {size i : Nat} {c c' : Ensemble} {x y : Process} {turn : Turn}

/-- Whoever has made its transfers by a step had made them before, or makes them now. -/
theorem InScene.mails (h : c.InScene e size) (hs : c.step turn = some c') (sound : c'.isSound = true)
    (hx : c.processes[turn.rank]? = some x) (hy : c'.processes[turn.rank]? = some y)
    (mailed : y.stage.HasMailed e.now) :
    x.stage.HasMailed e.now ∨
      ∃ b q, departed e.now e.start turn.rank = some (b, q) ∧ y.stage = .sending .transfers e.now b := by
  have replaced : ∀ {z : Process}, (c.processes.set turn.rank z)[turn.rank]? = some y → z = y := by
    intro z hz
    rw [getElem?_set_of hx, if_pos rfl] at hz
    exact Option.some.inj hz
  unfold Ensemble.step at hs
  rw [hx] at hs
  cases h.places _ x hx with
  | sending | receiving | arriving | waiting => exact .inl rfl
  | @working p state inTime =>
    obtain rfl := Option.some.inj hs
    obtain ⟨b, q, hd, heq⟩ := performed hx sound
    obtain rfl := replaced hy
    exact .inr ⟨b, q, departed_eq_some.2 ⟨p, state, hd⟩, by rw [heq]⟩
  | @late p =>
    simp only [Option.ite_none_right_eq_some, Option.some.injEq] at hs
    obtain ⟨-, rfl⟩ := hs
    obtain rfl := replaced hy
    dsimp only at mailed
    split at mailed <;> cases mailed
  | done => cases hs

/-- Whoever ends a second has made no transfers of the next one. -/
theorem InScene.not_mailed (h : c.InScene e size) (hs : c.step turn = some c')
    (ends : ∀ (j : Nat) z, c.processes[j]? = some z →
      z.stage = .arriving e.now ∨ z.stage.isWaiting e.now = true)
    (hy : c'.processes[i]? = some y) : ¬ y.stage.HasMailed (e.now + 1) := by
  have before : ∀ {j : Nat} {z : Process}, c.processes[j]? = some z →
      ¬ z.stage.HasMailed (e.now + 1) := by
    intro j z hz mailed
    rcases ends j z hz with arriving | waiting
    · rw [arriving] at mailed
      exact absurd mailed (Nat.ne_of_lt (Nat.lt_succ_self _))
    · rw [(h.settled_of_waiting hz waiting).2] at mailed
      exact absurd mailed (Nat.ne_of_lt (Nat.lt_succ_self _))
  obtain ⟨⟨p, stage⟩, z, hx, -, -⟩ := step_processes hs
  unfold Ensemble.step at hs
  rw [hx] at hs
  rcases ends _ _ hx with arriving | waiting
  · obtain rfl : stage = .arriving e.now := arriving
    obtain rfl := Option.some.inj hs
    change (c.processes.set turn.rank ⟨p, .waiting e.now c.rendezvous.round⟩)[i]? = some y at hy
    rw [getElem?_set_of hx] at hy
    split at hy
    · obtain rfl := Option.some.inj hy
      exact Nat.ne_of_lt (Nat.lt_succ_self _)
    · exact before hy
  · obtain rfl : stage = .waiting e.now c.rendezvous.round := (h.settled_of_waiting hx waiting).2
    simp [Rendezvous.mayPass] at hs

/-- A step to terse processes keeps the transfers of the second short, or ends a second in which all of
them were. -/
theorem InScene.step_heralded (net : Network size e.partners) (h : c.InScene e size)
    (heralded : Heralded e c) (hs : c.step turn = some c') (sound : c'.isSound = true)
    (terse : ∀ y ∈ c'.processes, y.Terse) :
    (c'.InScene e size ∧ Heralded e c') ∨
      ∃ ps, Second.Short e.now e.start ∧ Second.next e.now e.start = some ps ∧
        c'.InScene (e.later ps) size ∧ Heralded (e.later ps) c' := by
  rcases h.step net hs sound with later | ⟨ps, hn, later, all⟩
  · refine .inl ⟨later, fun i y hy mailed b q hd => ?_⟩
    obtain ⟨x, z, hx, -, hset⟩ := step_processes hs
    by_cases hi : i = turn.rank
    · subst hi
      rcases h.mails hs sound hx hy mailed with before | ⟨b', q', hd', hstage⟩
      · exact heralded _ x hx before b q hd
      · obtain ⟨rfl, -⟩ := Prod.mk.inj (Option.some.inj (hd.symm.trans hd'))
        exact fun target data hdata => terse y (List.mem_of_getElem? hy) _ _ b target data hstage hdata
    · rw [hset, getElem?_set_of hx, if_neg hi] at hy
      exact heralded i y hy mailed b q hd
  · refine .inr ⟨ps, fun i b q hd => ?_, hn, later, fun i y hy mailed => absurd mailed (h.not_mailed hs all hy)⟩
    · obtain ⟨p, hp, -⟩ := departed_eq_some.1 hd
      obtain ⟨hi, -⟩ := List.getElem?_eq_some_iff.1 hp
      have hx := List.getElem?_eq_getElem (l := c.processes) (i := i) (by rw [h.processes, ← h.cast]; exact hi)
      refine heralded i _ hx ?_ b q hd
      rcases all i _ hx with arriving | waiting
      · rw [arriving]
        rfl
      · rw [(h.settled_of_waiting hx waiting).2]
        rfl

/-! ## Accounts in a run -/

/-- Both sides of a crossing agree: the neighbor has reserved as much room as agents from it are on the
link or in front of it, and no more than the link has. It has nobody to send, and the owner of the link
nobody to report. -/
def Balances (c : Ensemble) (s : Scenario) (x : Crossing) : Prop :=
  ∃ a b proxy gate spec, c.processes[x.fromPart]? = some a ∧ c.processes[x.toPart]? = some b ∧
    s.links[x.link]? = some spec ∧ a.partition.links[x.link]? = some (.proxy proxy) ∧
    b.partition.links[x.link]? = some (.gateway gate) ∧
    proxy.occupancy = gate.link.queue.countP (fun e => e.fromPart = some x.fromPart) +
      gate.inbound.countP (fun agent => agent.2 = x.fromPart) ∧
    proxy.occupancy ≤ max 1 spec.capacity ∧ proxy.outbox = [] ∧ gate.released = .empty

/-- The ensemble goes through second `count` of a run, which the partitions `ps` have started with right
accounts. If the scenario isn't fresh, messages are short. -/
structure Booked (s : Scenario) (timing : Timing) (count : Nat) (ps : List Partition) (c : Ensemble) :
    Prop where
  scene : c.InScene (s.scene timing count ps) s.numParts
  rest : s.Rested timing ps
  reconciled : s.Reconciled ps
  counted : s.Fresh → s.Counted ps
  heralded : ¬ s.Fresh → Heralded (s.scene timing count ps) c

namespace Booked

variable {s : Scenario} {timing : Timing} {count t : Nat} {ps : List Partition}

theorem make (hs : s.Accepted) (hm : Ensemble.make s timing = .ok c) :
    Booked s timing 0 (s.cast timing) c := by
  refine ⟨inScene_make hs hm, s.rested_initial timing, s.reconciled_initial timing,
    fun fresh => fresh.counted hs timing, fun _ i x hx mailed => ?_⟩
  obtain ⟨rfl, -⟩ := make_eq_ok hm
  obtain ⟨p, -, rfl⟩ := List.mem_map.1 (List.mem_of_getElem? hx)
  cases mailed

/-- A step without failure keeps the accounts right. -/
theorem step (h : Booked s timing count ps c) (hs : s.Accepted) (fits : s.Fits) (measured : s.Measured)
    (hstep : c.step turn = some c') (sound : c'.isSound = true)
    (small : ¬ s.Fresh → ∀ x ∈ c'.processes, x.Terse) : ∃ count ps, Booked s timing count ps c' := by
  have company : Company timing s.neighborsOf ps := h.scene.company
  have net := hs.network fits.parts
  have ends : ∀ {qs}, Second.next (timing.start + count) ps = some qs →
      s.Legible (timing.start + count) ps → c'.InScene ((s.scene timing count ps).later qs) s.numParts →
      (¬ s.Fresh → Heralded ((s.scene timing count ps).later qs) c') →
      ∃ count ps, Booked s timing count ps c' := fun hn legible scene heralded =>
    ⟨count + 1, _, scene, h.rest.next hs company hn,
      h.reconciled.next h.rest hs measured company legible hn,
      fun fresh => (h.counted fresh).next h.rest hs fits company hn, heralded⟩
  by_cases fresh : s.Fresh
  · rcases h.scene.step net hstep sound with scene | ⟨qs, hn, scene, -⟩
    · exact ⟨count, ps, scene, h.rest, h.reconciled, h.counted, fun stale => absurd fresh stale⟩
    · exact ends hn ((h.counted fresh).legible h.rest hs fits company) scene
        fun stale => absurd fresh stale
  · rcases h.scene.step_heralded net (h.heralded fresh) hstep sound (small fresh) with
      ⟨scene, heralded⟩ | ⟨qs, short, hn, scene, heralded⟩
    · exact ⟨count, ps, scene, h.rest, h.reconciled, h.counted, fun _ => heralded⟩
    · exact ends hn (h.rest.legible_of_short hs fits company short) scene fun _ => heralded

/-- No step fails because partitions disagree. -/
theorem agrees (h : Booked s timing count ps c) (hs : s.Accepted) (measured : s.Measured)
    (hstep : c.step turn = some c') {p : Partition} {f : Failure}
    (hf : ⟨p, .failed f⟩ ∈ c'.processes) : f.isDiscord = false := by
  have company : Company timing s.neighborsOf ps := h.scene.company
  by_contra discord
  obtain ⟨b, q, received, r, sent, hx, fails⟩ :=
    h.scene.discord_of_step hstep hf (by simpa using discord)
  have place := h.scene.places _ _ hx
  cases place with
  | receiving state inTime each said =>
    rw [List.append_nil] at each
    have headed : ∀ buffer ∈ received, Wire.Headed (timing.start + count) buffer.1 buffer.2 :=
      fun buffer hb => InScene.headed_of_says h.scene.company (said buffer hb)
    obtain ⟨reports, read, overdrawn⟩ := Partition.receiveReleases_discord
      (InScene.now_lt_base state) headed fails (by simpa using discord)
    obtain ⟨d, hmail, perm, -⟩ := Scene.mail_of_received h.scene.company
      (hs.network measured.parts) state each said
    have arrived := company.arrived state
    rw [arrived.partners] at hmail
    rw [arrived.rank] at read
    obtain ⟨releases, inOrder, reordered⟩ :=
      List.perm_comp_forall₂ perm.symm (Outbox.readReleases_eq_ok.1 read)
    refine h.reconciled.not_overdrawn h.rest hs measured company state
      ((read_mail hmail inOrder).imp fun j r ⟨b, w, data, hj, hdata, decoded, _⟩ =>
        ⟨b, w, data, hj, hdata, decoded⟩) reordered overdrawn

/-- When all partitions have completed a second, both sides of a crossing count the same agents. -/
theorem balanced (h : Booked s timing count ps c) (hs : s.Accepted)
    (completed : c.hasCompleted t = true) {x : Crossing} (hx : x ∈ s.crossings) :
    c.Balances s x := by
  obtain ⟨start, -⟩ := h.scene.completed completed
  have start : c.processes.map (·.partition) = ps := start
  have process : ∀ {i : Nat}, i < s.numParts →
      ∃ z, c.processes[i]? = some z ∧ ps[i]? = some z.partition := by
    intro i hi
    have there : i < c.processes.length := h.scene.processes.symm ▸ hi
    obtain ⟨z, hz⟩ : ∃ z, c.processes[i]? = some z := ⟨_, List.getElem?_eq_getElem there⟩
    exact ⟨z, hz, by rw [← start, List.getElem?_map, hz, Option.map_some]⟩
  obtain ⟨-, from_lt, -⟩ := hs.crossing hx
  obtain ⟨a, ha, pa⟩ := process from_lt
  obtain ⟨b, hb, pb⟩ := process (hs.neighborsOf_lt (hs.crossing_neighbors hx))
  obtain ⟨proxy, spec, sees, -, hspec, capacity⟩ := hs.proxy_at hx (h.rest.setting _ _ pa)
  obtain ⟨gate, owns⟩ := hs.gateway_at hx (h.rest.setting _ _ pb)
  have agreed := h.reconciled.agreed x hx _ _ pa pb
  have room := h.reconciled.room _ _ pa x.link
  have unsent := h.rest.unsent _ _ pa x.link
  have unreported := h.rest.unreported _ _ pb x.link
  rw [sees] at agreed room unsent
  rw [owns] at agreed unreported
  have unreported : gate.released = .empty := unreported
  have occupancy : proxy.occupancy = gate.link.queue.countP (fun e => e.fromPart = some x.fromPart) +
      gate.inbound.countP (fun agent => agent.2 = x.fromPart) := by
    refine agreed.trans ?_
    rw [LinkView.credit, unreported]
    rfl
  have room : proxy.occupancy ≤ proxy.capacity := room
  exact ⟨a, b, proxy, gate, spec, ha, hb, hspec, view_of_seen sees (by simp), view_of_seen owns (by simp),
    occupancy, by omega, unsent, unreported⟩

end Booked

variable {raw s : Scenario} {method : Method} {timing : Timing} {schedule : List Turn}

/-- However the turns went: when all partitions have completed a second, both sides of every crossing
agree. No partition ever fails because more agents are reported to it than it has sent. If the agents
aren't fresh, this takes messages of less than `Wire.reach` bytes. -/
theorem reservations_match (hs : raw.partition method = .ok s) (fits : s.Fits)
    (capacities : ∀ spec ∈ s.links.toList, spec.capacity < Wire.base) (hm : make s timing = .ok c)
    (small : s.Fresh ∨ ∀ before, before <+: schedule → ∀ d, play before c = some d →
      ∀ x ∈ d.processes, x.Terse)
    (hp : play schedule c = some c') :
    (∀ t, c'.hasCompleted t = true → ∀ x ∈ s.crossings, c'.Balances s x) ∧
    ∀ p part link released sent,
      ⟨p, .failed (.fault (.releasedTooMany part link released sent))⟩ ∉ c'.processes := by
  have accepted := Scenario.accepted_of_partition hs
  have measured : s.Measured := ⟨fits.parts, fits.links, capacities⟩
  obtain ⟨d, unfailed, ⟨count, ps, booked⟩, failures⟩ :=
    Unfailed.play (P := fun d => ∃ count ps, Booked s timing count ps d)
      (Q := fun x => ¬ s.Fresh → x.Terse)
      (fun ⟨_, _, h⟩ hstep sound fine =>
        h.step accepted fits measured hstep sound fun stale x hx => fine x hx stale)
      (.refl c) ⟨0, _, Booked.make accepted hm⟩
      (isSound_of_make hm)
      (fun x hx stale => (small.resolve_left stale) [] (List.nil_prefix) c rfl x hx)
      (fun before hb b hplay x hx stale => (small.resolve_left stale) before hb b hplay x hx) hp
  refine ⟨fun t completed x hx => ?_, fun p part link released sent hf => ?_⟩
  · obtain rfl := unfailed.eq_of_sound (isSound_of_hasCompleted completed)
    exact booked.balanced accepted completed hx
  · rcases failures p _ hf with first | ⟨b, turn, b', ⟨_, _, h⟩, hstep, hf⟩
    · obtain ⟨q, heq⟩ := working_of_make hm first
      cases heq
    · cases h.agrees accepted measured hstep hf

/-- When the bus stands on the link into the other partition, at both crossings between the two. -/
theorem reservations_match_bus : ∃ s c₀ c, Scenario.bus.partition .modulo = .ok s ∧
    make s ⟨0, 8, 0, 0⟩ = .ok c₀ ∧ play (List.replicate 4 Turn.inTurns).flatten c₀ = some c ∧
    s.crossings = [⟨0, 1, 0⟩, ⟨1, 0, 1⟩] ∧ c.Balances s ⟨0, 1, 0⟩ ∧ c.Balances s ⟨1, 0, 1⟩ := by
  have runs : (trial .bus .modulo ⟨0, 8, 0, 0⟩ (List.replicate 4 Turn.inTurns).flatten).any (fun r =>
      r.1.agents = Scenario.bus.agents ∧ r.1.numParts = 2 ∧ r.1.links.size = 2 ∧
        r.1.links.toList.all (fun spec => spec.capacity < Wire.base) ∧
        r.1.crossings = [⟨0, 1, 0⟩, ⟨1, 0, 1⟩] ∧ r.2.hasCompleted 3) = true := by decide +kernel
  obtain ⟨s, c₀, c, hs, hm, hp, hc⟩ := exists_of_trial runs
  simp only [decide_eq_true_eq] at hc
  obtain ⟨agents, parts, links, capacities, crossings, completed⟩ := hc
  have fits : s.Fits := ⟨by rw [parts]; decide, by rw [links]; decide, by rw [agents]; decide⟩
  obtain ⟨balances, -⟩ := reservations_match hs fits
    (fun spec hspec => of_decide_eq_true (List.all_eq_true.1 capacities spec hspec)) hm
    (.inl (Scenario.fresh_bus.of_agents agents)) hp
  have each := balances 3 completed
  rw [crossings] at each
  exact ⟨s, c₀, c, hs, hm, hp, crossings, each _ List.mem_cons_self,
    each _ (List.mem_cons_of_mem _ List.mem_cons_self)⟩

end Ensemble

end Mobility
