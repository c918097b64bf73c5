import Mathlib.Algebra.BigOperators.Group.List.Basic
import Mobility.Proofs.Partition.Failures
import Mobility.Proofs.Rested

/-!
# The ledger of the crossings

For every crossing two partitions keep an account: the neighbor reserves room for the agents which it
sends, and the owner of the link knows how many of them are on the link or in front of it. Between two
seconds both numbers are equal (`Scenario.Reconciled`). A second keeps them so: the room which is
reserved comes with the transfers, and the room of those who have left is given back with the releases.
So no release ever reports more agents than there is room reserved (`Reconciled.not_overdrawn`).
-/

set_option autoImplicit false

namespace Mobility

open Act Second Mobility.Partition

/-! ## Counts on their way -/

/-- A transfer brings as many agents for each link as it was written for. -/
theorem Transfer.entering_arrival (t : Transfer) (target link : Nat) :
    (t.arrival target).entering link = t.entering link := by
  simp only [entering, arrival, List.map_map, Function.comp_def, LinkRecord.arrival, List.length_map]

/-- Small counts arrive. -/
theorem Release.reporting_arrival {r : Release} {link : Nat} (target : Nat)
    (links : ∀ c ∈ r.counts, c.1 < Wire.base) (small : r.reporting link < Wire.base) :
    (r.arrival target).reporting link = r.reporting link := by
  have rows : ∀ rows : List (Nat × Nat), (∀ c ∈ rows, c.1 < Wire.base) →
      (rows.map fun c => if c.1 = link then c.2 else 0).sum < Wire.base →
      (((rows.map fun c => (c.1 % Wire.base, c.2 % Wire.base))).map fun c =>
        if c.1 = link then c.2 else 0).sum = (rows.map fun c => if c.1 = link then c.2 else 0).sum := by
    intro rows
    induction rows with
    | nil => intro _ _; rfl
    | cons c rest ih =>
      intro hlinks hsmall
      rw [List.map_cons, List.sum_cons] at hsmall
      have own := Nat.mod_eq_of_lt (hlinks c List.mem_cons_self)
      have later := ih (fun c hc => hlinks c (List.mem_cons_of_mem _ hc)) (by omega)
      rw [List.map_cons, List.map_cons, List.sum_cons, later, List.map_cons, List.sum_cons, own]
      by_cases hc : c.1 = link
      · rw [if_pos hc] at hsmall ⊢
        rw [if_pos hc, Nat.mod_eq_of_lt (by omega)]
      · rw [if_neg hc, if_neg hc]
  exact rows r.counts links small

/-- Releases which report no more than there is room can be applied. -/
theorem Partition.not_overdrawn {reports : List Release} {p : Partition} {f : Failure}
    (h : ∀ link x, p.seen link = .proxy x →
      (reports.map (Release.reporting link)).sum ≤ (p.seen link).reserved) :
    ¬ Overdrawn reports p f := by
  rintro ⟨before, r, after, s, counts, link, count, counts', t, x, rfl, applied, hcounts, applied',
    view, -, more, -⟩
  have hs := reserved_credited_along applied link
  have ht := reserved_credited applied' link
  have hx : (t.seen link).reserved = x.occupancy := by
    rw [seen_of_view view]
    rfl
  have whole : r.reporting link =
      ({ r with counts := counts } : Release).reporting link +
        (count + (counts'.map fun c => if c.1 = link then c.2 else 0).sum) := by
    simp [Release.reporting, hcounts]
  -- The link was a proxy before.
  obtain ⟨y, hy⟩ : ∃ y, p.seen link = .proxy y := by
    have kept : Kept LinkView.Alike p t :=
      Kept.trans (applied.relates fun r _ p q h => h.relates fun row _ p q h =>
          (kept_applyCount h).mono LinkView.Same.alike)
        (applied'.relates fun row _ p q h => (kept_applyCount h).mono LinkView.Same.alike)
    have alike := kept.seen link
    rw [seen_of_view view] at alike
    cases hv : p.seen link with
    | proxy y => exact ⟨y, rfl⟩
    | owned | gateway | remote => rw [hv] at alike; cases alike
  have all := h link y hy
  rw [List.map_append, List.map_cons, List.sum_append, List.sum_cons] at all
  omega

/-- A sum with one item which is not nothing. -/
theorem sum_map_single {xs : List Nat} {a v : Nat} (hmem : a ∈ xs) (nodup : xs.Nodup) :
    (xs.map fun x => if x = a then v else 0).sum = v := by
  rw [List.sum_map_eq_nsmul_single a _ fun x hx _ => if_neg hx, if_pos rfl,
    List.count_eq_one_of_mem nodup hmem, one_nsmul]

namespace Scenario

variable {s : Scenario} {timing : Timing} {now i : Nat} {ps qs : List Partition} {x : Crossing}
  {p q : Partition}

/-! ## Both sides of a crossing -/

/-- The neighbor at a crossing has a proxy of the link. -/
theorem Accepted.proxy_of_crossing (hs : s.Accepted) (hx : x ∈ s.crossings) :
    ∃ spec, s.links[x.link]? = some spec ∧
      (s.views x.fromPart)[x.link]? = some (.proxy (.vacant x.link x.toPart spec.capacity)) := by
  obtain ⟨apart, -, spec, hspec, part⟩ := hs.crossing hx
  have id_eq := hs.denseLinks x.link spec hspec
  have crosses : (s.crossings.any fun c => c.fromPart = x.fromPart ∧ c.link = spec.id) = true :=
    List.any_eq_true.2 ⟨x, hx, by simp [id_eq]⟩
  refine ⟨spec, hspec, ?_⟩
  rw [views, Array.getElem?_map, hspec, Option.map_some, if_neg (by rw [part]; exact Ne.symm apart),
    if_pos crosses, id_eq, part]

/-- The owner of the link at a crossing has a gateway for the neighbor. -/
theorem Accepted.gateway_of_crossing (hs : s.Accepted) (hx : x ∈ s.crossings) :
    ∃ g, (s.views x.toPart)[x.link]? = some (.gateway g) ∧ x.fromPart ∈ g.fromParts := by
  obtain ⟨-, -, spec, hspec, part⟩ := hs.crossing hx
  have id_eq := hs.denseLinks x.link spec hspec
  have listed : x.fromPart ∈
      (s.crossings.filter fun c => c.toPart = x.toPart ∧ c.link = spec.id).map (·.fromPart) :=
    List.mem_map_of_mem (List.mem_filter.2 ⟨hx, by simp [id_eq]⟩)
  rw [views, Array.getElem?_map, hspec, Option.map_some, if_pos part]
  dsimp only
  split
  · rename_i nobody
    rw [nobody] at listed
    cases listed
  · exact ⟨_, rfl, listed⟩

/-- Whoever has a proxy is the neighbor at a crossing. -/
theorem Accepted.crossing_of_proxy (hs : s.Accepted) {link : Nat} {y : Proxy}
    (h : (s.views i)[link]? = some (.proxy y)) : ⟨link, i, y.toPart⟩ ∈ s.crossings := by
  unfold views at h
  rw [Array.getElem?_map, Option.map_eq_some_iff] at h
  obtain ⟨spec, hspec, h⟩ := h
  split at h
  · dsimp only at h
    split at h
    · cases h
    · cases h
  · split at h
    · rename_i crosses
      cases h
      obtain ⟨c, hc, same⟩ := List.any_eq_true.1 crosses
      obtain ⟨rfl, hlink⟩ := of_decide_eq_true same
      obtain ⟨-, -, spec', hspec', part⟩ := hs.crossing hc
      have id_eq := hs.denseLinks link spec hspec
      rw [hlink, id_eq, hspec] at hspec'
      obtain rfl := Option.some.inj hspec'
      obtain ⟨clink, cfrom, cto⟩ := c
      have : clink = link := hlink.trans id_eq
      have : spec.part = cto := part
      subst clink cto
      exact hc
    · cases h

/-- The neighbor at a crossing goes on to have the proxy. -/
theorem Accepted.proxy_at (hs : s.Accepted) (hx : x ∈ s.crossings)
    (k : Kept LinkView.Alike (Partition.initial s timing x.fromPart) p) :
    ∃ y spec, p.seen x.link = .proxy y ∧ y.toPart = x.toPart ∧ s.links[x.link]? = some spec ∧
      y.capacity = max spec.capacity 1 := by
  obtain ⟨spec, hspec, first⟩ := hs.proxy_of_crossing hx
  have alike := k.seen x.link
  rw [seen_of_view (p := Partition.initial s timing x.fromPart) first] at alike
  cases hv : p.seen x.link with
  | proxy y =>
    rw [hv] at alike
    have owner : y.toPart = x.toPart := congrArg (LinkView.owner 0) alike
    have room : y.capacity = max spec.capacity 1 := room_of_alike alike
    exact ⟨y, spec, rfl, owner, hspec, room⟩
  | owned | gateway | remote => rw [hv] at alike; cases alike

/-- The owner of the link at a crossing goes on to have the gateway. -/
theorem Accepted.gateway_at (hs : s.Accepted) (hx : x ∈ s.crossings)
    (k : Kept LinkView.Alike (Partition.initial s timing x.toPart) p) :
    ∃ g, p.seen x.link = .gateway g := by
  obtain ⟨g, first, -⟩ := hs.gateway_of_crossing hx
  have alike := k.seen x.link
  rw [seen_of_view (p := Partition.initial s timing x.toPart) first] at alike
  cases hv : p.seen x.link with
  | gateway h => exact ⟨h, rfl⟩
  | owned | proxy | remote => rw [hv] at alike; cases alike

/-- Somebody who isn't the owner at a crossing has no account of the link. -/
theorem Accepted.no_account (hs : s.Accepted) (hx : x ∈ s.crossings) (other : i ≠ x.toPart)
    (k : Kept LinkView.Alike (Partition.initial s timing i) p) (part : Nat) :
    (p.seen x.link).credit part = 0 := by
  obtain ⟨-, -, spec, hspec, owner⟩ := hs.crossing hx
  have alike := k.seen x.link
  cases hv : (s.views i)[x.link]? with
  | none =>
    have remote : (Partition.initial s timing i).seen x.link = .remote 0 0 := by
      show ((s.views i)[x.link]?).getD _ = _
      rw [hv]
      rfl
    rw [remote] at alike
    cases hp : p.seen x.link with
    | gateway g => rw [hp] at alike; cases alike
    | owned | proxy | remote => rfl
  | some v =>
    rw [seen_of_view (p := Partition.initial s timing i) hv] at alike
    obtain ⟨spec', hspec', first⟩ := firstView hv
    obtain rfl := Option.some.inj (hspec.symm.trans hspec')
    cases hp : p.seen x.link with
    | gateway g =>
      rw [hp] at alike
      cases first with
      | gateway mine => exact absurd (mine.symm.trans owner) other
      | owned | proxy | remote => cases alike
    | owned | proxy | remote => rfl

/-! ## Accounts between two seconds -/

/-- The numbers of the links fit into the fields of a message. -/
structure Measured (s : Scenario) : Prop where
  parts : s.numParts ≤ Wire.base
  links : s.links.size < Wire.base
  capacities : ∀ spec ∈ s.links.toList, spec.capacity < Wire.base

/-- Whatever the partitions send in this second is read as it was written. -/
def Legible (s : Scenario) (now : Nat) (ps : List Partition) : Prop :=
  ∀ (i : Nat) b q, Second.departed now ps i = some (b, q) → ∃ p messages, ps[i]? = some p ∧
    b = messages.mapRows (fun _ t => t.encode) ∧ Sent messages p q ∧
    ∀ j t, messages.get? j = some t → t.Legible s.isVehicle

/-- Between two seconds both sides of every crossing agree, and nobody has reserved more room than
there is. -/
structure Reconciled (s : Scenario) (ps : List Partition) : Prop where
  agreed : ∀ x ∈ s.crossings, ∀ p q, ps[x.fromPart]? = some p → ps[x.toPart]? = some q →
    (p.seen x.link).reserved = (q.seen x.link).credit x.fromPart
  room : ∀ (i : Nat) p, ps[i]? = some p → ∀ link, (p.seen link).reserved ≤ (p.seen link).room

theorem reconciled_initial (s : Scenario) (timing : Timing) :
    s.Reconciled ((List.range s.numParts).map (Partition.initial s timing)) := by
  refine ⟨fun x _ p q hp hq => ?_, fun i p hp link => ?_⟩
  · rw [getElem?_cast hp, getElem?_cast hq, (seen_initial s timing _ x.link).2.2.1,
      (seen_initial s timing _ x.link).2.2.2]
  · rw [getElem?_cast hp, (seen_initial s timing i link).2.2.1]
    exact Nat.zero_le _

/-- What a partition has answered to what it has taken in, one transfer of each neighbor. -/
theorem Rested.arrived (rest : s.Rested timing ps) (hs : s.Accepted)
    (c : Company timing s.neighborsOf ps) {b : Buffers}
    (ha : Second.arrived now ps i = some (b, q)) :
    ∃ p b₀ w messages transfers answers, ps[i]? = some p ∧
      Second.departed now ps i = some (b₀, w) ∧ Sent messages p w ∧
      Answered transfers answers w q ∧ b = answers.mapRows (fun _ r => r.encode) ∧
      List.Forall₂ (fun j t => ∃ b' w' data, Second.departed now ps j = some (b', w') ∧
        b'.get? i = some data ∧ Transfer.decode data i s.isVehicle = .ok t)
        (s.neighborsOf i) transfers := by
  obtain ⟨b₀, w, d, hw, hd, arrive⟩ := arrived_eq_some.1 ha
  have departed := c.departed hw
  rw [departed.partners] at hd
  obtain ⟨p, messages, hp, -, -, sent, setting⟩ := rest.departed hs c hw
  have vehicles := (knows_of_kept setting).1
  obtain ⟨transfers, -, read, -⟩ := arrive_ends arrive
  obtain ⟨answers, hb, answered⟩ := answered_arrive arrive read
  refine ⟨p, b₀, w, messages, transfers, answers, hp, hw, sent, answered, hb, ?_⟩
  rw [departed.rank, vehicles] at read
  exact (read_mail hd (Outbox.readTransfers_eq_ok.1 read)).imp
    fun j t ⟨b', w', data, hj, hdata, decoded, _⟩ => ⟨b', w', data, hj, hdata, decoded⟩

/-- A sum over the neighbors in which only one of them counts. -/
theorem sum_of_single {α : Type} {f : α → Nat} {neighbors : List Nat} {ys : List α} {a v : Nat}
    (hmem : a ∈ neighbors) (nodup : neighbors.Nodup)
    (each : List.Forall₂ (fun j y => f y = if j = a then v else 0) neighbors ys) :
    (ys.map f).sum = v := by
  have rows : ys.map f = neighbors.map fun j => if j = a then v else 0 := by
    clear hmem nodup
    induction each with
    | nil => rfl
    | cons first _ ih => rw [List.map_cons, List.map_cons, first, ih]
  rw [rows, sum_map_single hmem nodup]

namespace Reconciled

/-- The transfers which a partition receives bring as many agents for the link of a crossing as the
neighbor has reserved room for. -/
theorem brought (legible : s.Legible now ps) (hs : s.Accepted) (fits : s.Measured)
    (c : Company timing s.neighborsOf ps) (hx : x ∈ s.crossings) {b : Buffers}
    (hd : Second.departed now ps x.fromPart = some (b, q)) {y : Proxy}
    (hy : q.seen x.link = .proxy y) (owner : y.toPart = x.toPart) {transfers : List Transfer}
    (read : List.Forall₂ (fun j t => ∃ b' w' data, Second.departed now ps j = some (b', w') ∧
        b'.get? x.toPart = some data ∧ Transfer.decode data x.toPart s.isVehicle = .ok t)
      (s.neighborsOf x.toPart) transfers) :
    ∃ p, ps[x.fromPart]? = some p ∧ y.occupancy = (p.seen x.link).reserved +
      (transfers.map fun t => if t.sender = x.fromPart then t.entering x.link else 0).sum := by
  obtain ⟨p, messages, hp, rfl, sent, each⟩ := legible _ _ _ hd
  obtain ⟨t, ht⟩ : ∃ t, messages.get? x.toPart = some t := by
    have keys := (c.departed hd).addressed.keys
    rw [Table.keys_mapRows] at keys
    exact Table.mem_keys.1 (keys ▸ hs.crossing_neighbors hx)
  refine ⟨p, hp, ?_⟩
  have neighbor : x.fromPart ∈ s.neighborsOf x.toPart :=
    hs.neighborsOf_symm (hs.crossing_neighbors hx)
  rw [sent.entering x.toPart t ht x.link y hy owner,
    sum_of_single neighbor (Table.keys_nodup _) (v := t.entering x.link)]
  refine (List.forall₂_iff_get.2 ⟨read.length_eq, fun k hk hk' => ?_⟩)
  obtain ⟨b', w', data, hj, hdata, decoded⟩ := (List.forall₂_iff_get.1 read).2 k hk hk'
  have small : (s.neighborsOf x.toPart).get ⟨k, hk⟩ < Wire.base :=
    Nat.lt_of_lt_of_le (hs.neighborsOf_lt (List.get_mem ..)) fits.parts
  have sender := (Transfer.decode_headed ((c.departed hj).addressed.headed _ _ hdata) decoded).2
  rw [Nat.mod_eq_of_lt small] at sender
  rw [sender]
  split
  · rename_i first
    rw [first] at hj
    obtain ⟨rfl, -⟩ := Prod.mk.inj (Option.some.inj (hj.symm.trans hd))
    rw [Table.get?_mapRows, ht, Option.map_some] at hdata
    obtain rfl := Option.some.inj hdata
    rw [Transfer.decode_encode (each _ t ht)] at decoded
    rw [← Except.ok.inj decoded]
    exact t.entering_arrival ..
  · rfl

/-- What is reserved on a crossing fits into a word. -/
theorem reserved_lt (h : s.Reconciled ps) (rest : s.Rested timing ps) (hs : s.Accepted) (fits : s.Measured)
    (hx : x ∈ s.crossings) (hp : ps[x.fromPart]? = some p) : (p.seen x.link).reserved < Wire.base := by
  obtain ⟨y, spec, hy, -, hspec, capacity⟩ := hs.proxy_at hx (rest.setting _ p hp)
  have room := h.room _ p hp x.link
  rw [hy] at room ⊢
  have := fits.capacities spec (Array.mem_toList_iff.2 (Array.mem_of_getElem? hspec))
  have small : y.occupancy ≤ y.capacity := room
  have positive : 1 < Wire.base := by decide
  show y.occupancy < Wire.base
  omega

/-- A release is read as it was written: it reports those agents whom its sender has counted since the last one.
Only the owner of the link counts somebody on it. -/
theorem reported_by (h : s.Reconciled ps) (rest : s.Rested timing ps) (hs : s.Accepted)
    (fits : s.Measured) (c : Company timing s.neighborsOf ps) (hx : x ∈ s.crossings)
    (hp : ps[x.fromPart]? = some p) {j : Nat} {b : Buffers} {w : Partition} {data : List UInt8} {r : Release}
    (hj : Second.arrived now ps j = some (b, w)) (hdata : b.get? x.fromPart = some data)
    (decoded : Release.decode data x.fromPart = .ok r) :
    ∃ o b w, ps[j]? = some o ∧ Second.departed now ps j = some (b, w) ∧
      r.reporting x.link + (w.seen x.link).credit x.fromPart = (o.seen x.link).credit x.fromPart ∧
      (j ≠ x.toPart → (o.seen x.link).credit x.fromPart = 0) := by
  obtain ⟨o, b₀, w₀, messages, transfers, answers, ho, hd, sent, answered, rfl, -⟩ :=
    rest.arrived hs c hj
  refine ⟨o, b₀, w₀, ho, hd, ?_, fun other => hs.no_account hx other (rest.setting j o ho) _⟩
  rw [Table.get?_mapRows, Option.map_eq_some_iff] at hdata
  obtain ⟨r', hr', rfl⟩ := hdata
  obtain ⟨most, links⟩ := answered.reports _ _ sent.reports _ r' hr'
  have size : w₀.links.size = s.links.size := by
    obtain ⟨-, -, -, -, -, -, setting⟩ := rest.departed hs c hd
    exact (knows_of_kept setting).2
  have few := fits.links
  rw [Release.decode_encode (by omega)] at decoded
  obtain rfl := Except.ok.inj decoded
  have total := sent.reporting x.fromPart x.link
  rw [← answered.reporting _ r' hr' x.link] at total
  have credit : (o.seen x.link).credit x.fromPart < Wire.base := by
    by_cases owner : j = x.toPart
    · rw [← h.agreed x hx p o hp (owner ▸ ho)]
      exact h.reserved_lt rest hs fits hx hp
    · rw [hs.no_account hx owner (rest.setting j o ho)]
      decide
  rw [Release.reporting_arrival _ (fun c hc => by have := links c hc; omega) (by omega)]
  exact total

/-- The releases which the neighbor of a crossing receives report those agents which the owner has
counted. -/
theorem reported (h : s.Reconciled ps) (rest : s.Rested timing ps) (hs : s.Accepted)
    (fits : s.Measured) (c : Company timing s.neighborsOf ps) (hx : x ∈ s.crossings)
    (hp : ps[x.fromPart]? = some p) {releases : List Release}
    (read : List.Forall₂ (fun j r => ∃ b w data, Second.arrived now ps j = some (b, w) ∧
        b.get? x.fromPart = some data ∧ Release.decode data x.fromPart = .ok r)
      (s.neighborsOf x.fromPart) releases) :
    ∃ o b w, ps[x.toPart]? = some o ∧ Second.departed now ps x.toPart = some (b, w) ∧
      (releases.map (Release.reporting x.link)).sum + (w.seen x.link).credit x.fromPart =
        (p.seen x.link).reserved ∧ (p.seen x.link).reserved = (o.seen x.link).credit x.fromPart := by
  have neighbor : x.toPart ∈ s.neighborsOf x.fromPart := hs.crossing_neighbors hx
  obtain ⟨k, hk, hget⟩ := List.getElem_of_mem neighbor
  have rows := List.forall₂_iff_get.1 read
  obtain ⟨_, _, _, arrived, written, decoded⟩ := rows.2 k hk (rows.1 ▸ hk)
  obtain ⟨o, b, w, ho, hd, total, -⟩ := h.reported_by rest hs fits c hx hp arrived written decoded
  rw [List.get_eq_getElem, hget] at ho hd
  have agreed := h.agreed x hx p o hp ho
  refine ⟨o, b, w, ho, hd, ?_, agreed⟩
  rw [sum_of_single neighbor (Table.keys_nodup _)
    (v := ((o.seen x.link).credit x.fromPart) - (w.seen x.link).credit x.fromPart)]
  · omega
  · refine List.forall₂_iff_get.2 ⟨rows.1, fun k hk hk' => ?_⟩
    obtain ⟨_, _, _, arrived, written, decoded⟩ := rows.2 k hk hk'
    obtain ⟨o', b', w', ho', hd', total', others⟩ := h.reported_by rest hs fits c hx hp arrived written decoded
    split
    · rename_i same
      rw [same] at ho' hd'
      obtain rfl := Option.some.inj (ho'.symm.trans ho)
      obtain ⟨rfl, rfl⟩ := Prod.mk.inj (Option.some.inj (hd'.symm.trans hd))
      omega
    · rename_i other
      have := others other
      omega

/-- What the neighbor of a crossing has reserved doesn't shrink before it receives releases. -/
theorem reserved_le (rest : s.Rested timing ps) (hs : s.Accepted)
    (c : Company timing s.neighborsOf ps) (hx : x ∈ s.crossings) {b : Buffers}
    (ha : Second.arrived now ps x.fromPart = some (b, q)) :
    ∃ p, ps[x.fromPart]? = some p ∧ (p.seen x.link).reserved ≤ (q.seen x.link).reserved := by
  obtain ⟨b₀, w, d, hd, -, arrive⟩ := arrived_eq_some.1 ha
  obtain ⟨p, messages, hp, -, rfl, sent, setting⟩ := rest.departed hs c hd
  refine ⟨p, hp, ?_⟩
  obtain ⟨y, -, hy, owner, -, -⟩ := hs.proxy_at hx setting
  obtain ⟨t, ht⟩ : ∃ t, messages.get? x.toPart = some t := by
    have keys := (c.departed hd).addressed.keys
    rw [Table.keys_mapRows] at keys
    exact Table.mem_keys.1 (keys ▸ hs.crossing_neighbors hx)
  have occupancy := sent.entering x.toPart t ht x.link y hy owner
  have same : (q.seen x.link).reserved = (w.seen x.link).reserved :=
    congrArg (·.2.1) ((kept_arrive arrive).seen x.link).same
  rw [same, hy]
  show _ ≤ y.occupancy
  omega

/-- No release reports more agents than there is room reserved, in whatever order the releases are
applied. -/
theorem not_overdrawn (h : s.Reconciled ps) (rest : s.Rested timing ps) (hs : s.Accepted)
    (fits : s.Measured) (c : Company timing s.neighborsOf ps) {b : Buffers}
    (ha : Second.arrived now ps i = some (b, q)) {releases reports : List Release}
    (read : List.Forall₂ (fun j r => ∃ b w data, Second.arrived now ps j = some (b, w) ∧
        b.get? i = some data ∧ Release.decode data i = .ok r) (s.neighborsOf i) releases)
    (perm : releases.Perm reports) {f : Failure} : ¬ Overdrawn reports q f := by
  refine Partition.not_overdrawn fun link y hy => ?_
  rw [← (perm.map _).sum_eq]
  obtain ⟨b₀, w, d, hd, -, arrive⟩ := arrived_eq_some.1 ha
  obtain ⟨p, -, hp, -, -, -, setting⟩ := rest.departed hs c hd
  have alike := (setting.trans ((kept_arrive arrive).mono LinkView.Same.alike)).seen link
  rw [hy] at alike
  -- The link was a proxy from the start, so it belongs to a crossing.
  obtain ⟨y₀, hy₀⟩ : ∃ y₀, (s.views i)[link]? = some (.proxy y₀) := by
    cases hv : (s.views i)[link]? with
    | none =>
      have remote : (Partition.initial s timing i).seen link = .remote 0 0 := by
        show ((s.views i)[link]?).getD _ = _
        rw [hv]
        rfl
      rw [remote] at alike
      cases alike
    | some v =>
      rw [seen_of_view (p := Partition.initial s timing i) hv] at alike
      cases v with
      | proxy y₀ => exact ⟨y₀, rfl⟩
      | owned | gateway | remote => cases alike
  have hx := hs.crossing_of_proxy hy₀
  obtain ⟨p', hp', reserved⟩ := reserved_le rest hs c hx ha
  obtain rfl := Option.some.inj (hp'.symm.trans hp)
  obtain ⟨_, _, _, -, -, total, -⟩ := h.reported rest hs fits c hx hp read
  exact (Nat.le_of_add_right_le (Nat.le_of_eq total)).trans reserved

/-- A second in which all messages are read as they were written keeps the accounts. -/
theorem next (h : s.Reconciled ps) (rest : s.Rested timing ps) (hs : s.Accepted) (fits : s.Measured)
    (c : Company timing s.neighborsOf ps) (legible : s.Legible now ps)
    (hn : Second.next now ps = some qs) : s.Reconciled qs := by
  have settled : ∀ (i : Nat) q, qs[i]? = some q → ∃ b r releases,
      Second.arrived now ps i = some (b, r) ∧ Along Credited releases r q ∧
      Kept (LinkView.Same fun v => (v.outgoing, v.credit, v.released)) r q ∧
      List.Forall₂ (fun j r => ∃ b w data, Second.arrived now ps j = some (b, w) ∧
        b.get? i = some data ∧ Release.decode data i = .ok r) (s.neighborsOf i) releases := by
    intro i q hq
    obtain ⟨b, r, d, hr, hd, hq⟩ := settled_eq_some.1 ((next_eq_some.1 hn).2 i q hq)
    have arrived := c.arrived hr
    obtain ⟨releases, read, credited⟩ := receiveReleases_eq_ok.1 hq
    rw [arrived.partners] at hd
    rw [arrived.rank] at read
    exact ⟨b, r, releases, hr, credited, kept_receiveReleases hq,
      (read_mail hd (Outbox.readReleases_eq_ok.1 read)).imp
        fun j r ⟨b, w, data, hj, hdata, decoded, _⟩ => ⟨b, w, data, hj, hdata, decoded⟩⟩
  refine ⟨fun x hx q o hq ho => ?_, fun i q hq link => ?_⟩
  · obtain ⟨b, r, releases, hr, credited, -, read⟩ := settled x.fromPart q hq
    obtain ⟨b', r', releases', hr', -, keptOwner, -⟩ := settled x.toPart o ho
    obtain ⟨p, b₀, w, messages, transfers, answers, hp, hd, sent, answered, -, -⟩ := rest.arrived hs c hr
    obtain ⟨p', b₀', w', messages', transfers', answers', hp', hd', sent', answered', -, brings⟩ :=
      rest.arrived hs c hr'
    obtain ⟨-, -, -, -, -, -, setting⟩ := rest.departed hs c hd
    obtain ⟨y, -, hy, owner, -, -⟩ := hs.proxy_at hx setting
    obtain ⟨p₁, hp₁, brought⟩ := brought legible hs fits c hx hd hy owner brings
    obtain rfl := Option.some.inj (hp₁.symm.trans hp)
    obtain ⟨o₁, b₁, w₁, -, hd₁, reported, -⟩ := h.reported rest hs fits c hx hp read
    obtain ⟨rfl, rfl⟩ := Prod.mk.inj (Option.some.inj (hd₁.symm.trans hd'))
    -- The neighbor gets back what is reported, and the owner has counted who was brought.
    have neighbor := reserved_credited_along credited x.link
    have before : (r.seen x.link).reserved = (w.seen x.link).reserved :=
      congrArg (·.2.1) (answered.links x.link).same
    have occupancy : (w.seen x.link).reserved = y.occupancy := by
      rw [hy]
      rfl
    have counted := answered'.credit x.link x.fromPart
    have after : (o.seen x.link).credit x.fromPart = (r'.seen x.link).credit x.fromPart :=
      congrFun (congrArg (·.2.1) (keptOwner.seen x.link).same) x.fromPart
    omega
  · obtain ⟨b, r, releases, hr, credited, kept, -⟩ := settled i q hq
    obtain ⟨p, b₀, w, messages, transfers, answers, hp, hd, sent, answered, -, -⟩ := rest.arrived hs c hr
    have back := reserved_credited_along credited link
    have same : (r.seen link).reserved = (w.seen link).reserved :=
      congrArg (·.2.1) (answered.links link).same
    have fits := sent.room link (h.room i p hp link)
    rw [room_of_alike (kept.seen link).alike, room_of_alike (answered.links link).alike]
    omega

end Reconciled

end Scenario

end Mobility
