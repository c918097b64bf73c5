import Mathlib.Data.List.Induction
import Mathlib.Data.List.Nodup
import Mathlib.Data.List.Perm.Subperm
import Mathlib.Order.Basic
import Mobility.Proofs.Wire

/-!
# Messages arrive as they were made

A transfer is made by adding agents one after the other. It has one group for each link, in the order in which
the links come up first, and in the group are the agents which were added for the link, in order
(`Transfer.records_carrying`). Whoever knows the vehicles reads exactly that (`messages_arrive`): what is read of
a message differs from it only where a number is too great for its field, and no number which a partition can name
is.
-/

set_option autoImplicit false

namespace Mobility

open Wire

/-! ## Groups -/

/-- Another item at the end counts if it is new. -/
theorem eraseDups_concat {α : Type} [BEq α] [LawfulBEq α] (xs : List α) (x : α) :
    (xs ++ [x]).eraseDups = if x ∈ xs then xs.eraseDups else xs.eraseDups ++ [x] := by
  rw [List.eraseDups_append]
  by_cases known : x ∈ xs <;> simp [List.removeAll, List.eraseDups_cons, known]

theorem nodup_eraseDups {α : Type} [BEq α] [LawfulBEq α] (xs : List α) : xs.eraseDups.Nodup := by
  induction xs using List.reverseRecOn with
  | nil => exact List.nodup_nil
  | append_singleton xs x ih =>
    rw [eraseDups_concat]
    split
    · exact ih
    · rename_i new
      rw [← List.mem_eraseDups] at new
      exact List.nodup_append.2 ⟨ih, List.nodup_singleton x, fun y hy z hz =>
        List.mem_singleton.1 hz ▸ fun same => new (same ▸ hy)⟩

namespace Transfer

variable {link : Option Nat} {agent : AgentRecord} {links : List (Option Nat)}
  {group : Option Nat → List AgentRecord}

/-- An agent for a link without a group gets a new one. -/
theorem addRecord_of_notMem (new : link ∉ links) :
    addRecord link agent (links.map fun l => ⟨l, group l⟩) =
      (links.map fun l => ⟨l, group l⟩) ++ [⟨link, [agent]⟩] := by
  induction links with
  | nil => rfl
  | cons first rest ih =>
    obtain ⟨other, later⟩ := not_or.1 (mt List.mem_cons.2 new)
    rw [List.map_cons, addRecord, if_neg (Ne.symm other), ih later, List.cons_append]

/-- An agent for a link with a group comes to its end. -/
theorem addRecord_of_mem (unique : links.Nodup) (known : link ∈ links) :
    addRecord link agent (links.map fun l => ⟨l, group l⟩) =
      links.map fun l => ⟨l, if l = link then group l ++ [agent] else group l⟩ := by
  induction links with
  | nil => cases known
  | cons first rest ih =>
    obtain ⟨once, later⟩ := List.nodup_cons.1 unique
    rw [List.map_cons, addRecord, List.map_cons]
    by_cases own : first = link
    · subst own
      rw [if_pos rfl, if_pos rfl]
      congr 1
      refine List.map_congr_left fun l hl => ?_
      rw [if_neg (ne_of_mem_of_not_mem hl once)]
    · rw [if_neg own, if_neg own, ih later ((List.mem_cons.1 known).resolve_left (Ne.symm own))]

/-- The transfer of these agents, each with the link that it enters or none, added one after the other. -/
def carrying (time sender target : Nat) (added : List (Option Nat × AgentRecord)) : Transfer :=
  added.foldl (fun t row => t.addAgent row.1 row.2) (.empty time sender target)

variable {time sender target : Nat} {added : List (Option Nat × AgentRecord)}

theorem carrying_concat (row : Option Nat × AgentRecord) :
    carrying time sender target (added ++ [row]) = (carrying time sender target added).addAgent row.1 row.2 :=
  List.foldl_concat ..

theorem head_carrying (time sender target : Nat) (added : List (Option Nat × AgentRecord)) :
    (carrying time sender target added).time = time ∧
    (carrying time sender target added).sender = sender ∧
    (carrying time sender target added).target = target := by
  induction added using List.reverseRecOn with
  | nil => exact ⟨rfl, rfl, rfl⟩
  | append_singleton rows row ih =>
    rw [carrying_concat]
    exact ih

/-- Links have groups in the order in which they come up first, and a group holds who was added for its link. -/
theorem records_carrying : (carrying time sender target added).records =
    (added.map Prod.fst).eraseDups.map fun link =>
      ⟨link, (added.filter fun row => row.1 = link).map Prod.snd⟩ := by
  induction added using List.reverseRecOn with
  | nil => rfl
  | append_singleton rows row ih =>
    have grown : ∀ link, ((rows ++ [row]).filter fun r => r.1 = link).map Prod.snd =
        if link = row.1 then ((rows.filter fun r => r.1 = link).map Prod.snd) ++ [row.2]
        else (rows.filter fun r => r.1 = link).map Prod.snd := by
      intro link
      rw [List.filter_append, List.map_append, List.filter_singleton]
      by_cases own : link = row.1
      · simp [own]
      · simp [own, Ne.symm own]
    rw [carrying_concat, addAgent, ih, List.map_append, List.map_singleton, eraseDups_concat]
    simp only [grown]
    split
    · rename_i known
      exact addRecord_of_mem (nodup_eraseDups _) (List.mem_eraseDups.2 known)
    · rename_i new
      rw [← List.mem_eraseDups] at new
      rw [addRecord_of_notMem new, List.map_append, List.map_singleton, if_pos rfl]
      congr 1
      · refine List.map_congr_left fun l hl => ?_
        rw [if_neg (ne_of_mem_of_not_mem hl new)]
      · have nobody : (rows.filter fun r => r.1 = row.1) = [] := by
          rw [List.filter_eq_nil_iff]
          intro r hr own
          exact new (List.mem_eraseDups.2 (List.mem_map.2 ⟨r, hr, of_decide_eq_true own⟩))
        rw [nobody]
        rfl

/-- Who is in a transfer was added to it. -/
theorem mem_of_mem_carrying {g : LinkRecord} {r : AgentRecord}
    (hg : g ∈ (carrying time sender target added).records) (hr : r ∈ g.agents) : (g.link, r) ∈ added := by
  rw [records_carrying] at hg
  obtain ⟨link, -, rfl⟩ := List.mem_map.1 hg
  obtain ⟨row, hrow, rfl⟩ := List.mem_map.1 hr
  obtain ⟨listed, own⟩ := List.mem_filter.1 hrow
  rw [← of_decide_eq_true own]
  exact listed

theorem link_mem_of_mem_carrying {g : LinkRecord} (hg : g ∈ (carrying time sender target added).records) :
    g.link ∈ added.map Prod.fst := by
  rw [records_carrying] at hg
  obtain ⟨link, hlink, rfl⟩ := List.mem_map.1 hg
  exact List.mem_eraseDups.1 hlink

end Transfer

/-! ## What is read -/

/-- The numbers of a passenger fit into their fields. -/
structure PassengerRecord.Fits (x : PassengerRecord) : Prop where
  index : x.index < 0x100
  id : x.id < base
  cursor : x.cursor < base

/-- The numbers of an agent and its passengers fit into their fields. Passengers are listed if it is a vehicle. -/
structure AgentRecord.Fits (isVehicle : Nat → Option Bool) (r : AgentRecord) : Prop where
  id : r.id < base
  cursor : r.cursor < base
  known : isVehicle r.id = some r.passengers.isSome
  counted : ∀ xs, r.passengers = some xs → xs.length < base
  passengers : ∀ xs, r.passengers = some xs → ∀ x ∈ xs, x.Fits

theorem PassengerRecord.Fits.arrival {x : PassengerRecord} (h : x.Fits) : x.arrival = x := by
  have index : x.index % base % 0x100 = x.index := by
    rw [Nat.mod_eq_of_lt (Nat.lt_trans h.index (by decide)), Nat.mod_eq_of_lt h.index]
  unfold PassengerRecord.arrival
  rw [index, Nat.mod_eq_of_lt h.id, Nat.mod_eq_of_lt h.cursor]

namespace AgentRecord.Fits

variable {isVehicle : Nat → Option Bool} {r : AgentRecord}

theorem arrival (h : r.Fits isVehicle) : r.arrival = r := by
  have passengers : r.passengers.map (·.map PassengerRecord.arrival) = r.passengers := by
    cases listed : r.passengers with
    | none => rfl
    | some xs =>
      rw [Option.map_some, List.map_congr_left fun x hx => (h.passengers xs listed x hx).arrival, List.map_id']
  unfold AgentRecord.arrival
  rw [passengers, Nat.mod_eq_of_lt h.id, Nat.mod_eq_of_lt h.cursor]

theorem legible (h : r.Fits isVehicle) : r.Legible isVehicle where
  known := by rw [Nat.mod_eq_of_lt h.id, h.known]
  counted := h.counted

end AgentRecord.Fits

/-- A transfer whose numbers fit is read as it is. -/
theorem Transfer.decode_encode_self {isVehicle : Nat → Option Bool} {t : Transfer} (time : t.time < base)
    (sender : t.sender < base) (groups : t.records.length < base)
    (links : ∀ g ∈ t.records, ∀ link, g.link = some link → link < noLink)
    (sizes : ∀ g ∈ t.records, g.agents.length < base)
    (agents : ∀ g ∈ t.records, ∀ r ∈ g.agents, r.Fits isVehicle) :
    Transfer.decode t.encode t.target isVehicle = .ok t := by
  have group : ∀ g ∈ t.records, g.arrival = g := fun g hg => by
    unfold LinkRecord.arrival
    rw [List.map_congr_left fun r hr => (agents g hg r hr).arrival, List.map_id']
  have arrival : t.arrival t.target = t := by
    unfold Transfer.arrival
    rw [Nat.mod_eq_of_lt time, Nat.mod_eq_of_lt sender, List.map_congr_left group, List.map_id']
  have legible : t.Legible isVehicle :=
    ⟨groups, fun g hg => ⟨links g hg, sizes g hg, fun r hr => (agents g hg r hr).legible⟩⟩
  rw [Transfer.decode_encode legible, arrival]

/-- The report of these counts, added one after the other. -/
def Release.counting (time sender target : Nat) (counts : List (Nat × Nat)) : Release :=
  counts.foldl (fun r count => r.addCount count.1 count.2) (.empty time sender target)

theorem Release.counting_eq (time sender target : Nat) (counts : List (Nat × Nat)) :
    counting time sender target counts = ⟨time, sender, target, counts⟩ := by
  induction counts using List.reverseRecOn with
  | nil => rfl
  | append_singleton counts count ih =>
    unfold counting at ih ⊢
    rw [List.foldl_concat, ih]
    rfl

/-- A report whose numbers fit is read as it is. -/
theorem Release.decode_encode_self {r : Release} (time : r.time < base) (sender : r.sender < base)
    (size : r.counts.length < base) (counts : ∀ count ∈ r.counts, count.1 < base ∧ count.2 < base) :
    Release.decode r.encode r.target = .ok r := by
  have each : ∀ count ∈ r.counts, (count.1 % base, count.2 % base) = count := fun count hc => by
    rw [Nat.mod_eq_of_lt (counts count hc).1, Nat.mod_eq_of_lt (counts count hc).2]
  have arrival : r.arrival r.target = r := by
    unfold Release.arrival
    rw [Nat.mod_eq_of_lt time, Nat.mod_eq_of_lt sender, List.map_congr_left each, List.map_id']
  rw [Release.decode_encode size, arrival]

/-! ## Messages -/

section Carrying

variable {isVehicle : Nat → Option Bool} {time sender target : Nat} {added : List (Option Nat × AgentRecord)}
  (second : time < base) (rank : sender < base) (links : ∀ row ∈ added, ∀ link, row.1 = some link → link < noLink)
  (agents : ∀ row ∈ added, row.2.Fits isVehicle)

include second rank links agents

/-- The transfer of some agents is read as it is, if its lists can be counted. -/
theorem Transfer.decode_encode_carrying (groups : (carrying time sender target added).records.length < base)
    (sizes : ∀ g ∈ (carrying time sender target added).records, g.agents.length < base) :
    decode (carrying time sender target added).encode target isVehicle = .ok (carrying time sender target added) := by
  obtain ⟨time', sender', target'⟩ := head_carrying time sender target added
  have read := decode_encode_self (by rw [time']; exact second) (by rw [sender']; exact rank) groups
    (fun g hg link own => ?_) sizes fun g hg r hr => agents _ (mem_of_mem_carrying hg hr)
  · rwa [target'] at read
  · obtain ⟨row, hrow, same⟩ := List.mem_map.1 (link_mem_of_mem_carrying hg)
    exact links row hrow link (same.trans own)

/-- Its lists can be counted if the agents can. -/
theorem Transfer.decode_encode_few (few : added.length < base) :
    decode (carrying time sender target added).encode target isVehicle = .ok (carrying time sender target added) := by
  refine decode_encode_carrying second rank links agents ?_ fun g hg => ?_
  · have listed : (added.map Prod.fst).eraseDups.length ≤ (added.map Prod.fst).length :=
      ((nodup_eraseDups _).subperm fun _ => List.mem_eraseDups.1).length_le
    rw [records_carrying, List.length_map]
    exact Nat.lt_of_le_of_lt (by rwa [List.length_map] at listed) few
  · rw [records_carrying] at hg
    obtain ⟨link, -, rfl⟩ := List.mem_map.1 hg
    rw [List.length_map]
    exact Nat.lt_of_le_of_lt (List.length_filter_le ..) few

end Carrying

/-- Whatever is added to a transfer is grouped by links and arrives in that order. Whatever is added to a report is
there in order, and it arrives like this too. -/
theorem messages_arrive {isVehicle : Nat → Option Bool} {time sender target : Nat}
    {added : List (Option Nat × AgentRecord)} {counts : List (Nat × Nat)} (second : time < base)
    (rank : sender < base) (links : ∀ row ∈ added, ∀ link, row.1 = some link → link < noLink)
    (agents : ∀ row ∈ added, row.2.Fits isVehicle)
    (groups : (Transfer.carrying time sender target added).records.length < base)
    (sizes : ∀ g ∈ (Transfer.carrying time sender target added).records, g.agents.length < base)
    (reported : ∀ count ∈ counts, count.1 < base ∧ count.2 < base) (rows : counts.length < base) :
    ((Transfer.carrying time sender target added).records =
        (added.map Prod.fst).eraseDups.map fun link =>
          ⟨link, (added.filter fun row => row.1 = link).map Prod.snd⟩) ∧
      Transfer.decode (Transfer.carrying time sender target added).encode target isVehicle =
        .ok (Transfer.carrying time sender target added) ∧
      Release.counting time sender target counts = ⟨time, sender, target, counts⟩ ∧
      Release.decode (Release.counting time sender target counts).encode target =
        .ok (Release.counting time sender target counts) := by
  refine ⟨Transfer.records_carrying, ?_, Release.counting_eq time sender target counts, ?_⟩
  · exact Transfer.decode_encode_carrying second rank links agents groups sizes
  · rw [Release.counting_eq]
    exact Release.decode_encode_self (r := ⟨time, sender, target, counts⟩) second rank rows reported

/-- Two agents enter one link, with another one between them who is handed over, and the second is a vehicle. -/
theorem messages_arrive_mixed :
    let isVehicle := fun id => if id < 100 then some (decide (10 < id)) else none
    let added : List (Option Nat × AgentRecord) := [(some 5, ⟨1, 4294967295, none⟩), (none, ⟨2, 4, none⟩),
      (some 5, ⟨12, 3, some [⟨4, 4294967295, 2⟩, ⟨255, 8, 2⟩]⟩)]
    let message := Transfer.carrying 11 2 0 added
    message.records.map (fun g => (g.link, g.agents.map (·.id))) = [(some 5, [1, 12]), (none, [2])] ∧
      Transfer.decode message.encode 0 isVehicle = .ok message ∧
      Release.counting 11 2 0 [(4, 2), (8, 4294967295)] = ⟨11, 2, 0, [(4, 2), (8, 4294967295)]⟩ ∧
      Release.decode (Release.counting 11 2 0 [(4, 2), (8, 4294967295)]).encode 0 =
        .ok (.counting 11 2 0 [(4, 2), (8, 4294967295)]) := by
  intro isVehicle added message
  have walker : ∀ id cursor, id < 11 → cursor < base → AgentRecord.Fits isVehicle ⟨id, cursor, none⟩ := by
    intro id cursor small fits
    refine ⟨Nat.lt_trans small (by decide), fits, ?_, nofun, nofun⟩
    show (if id < 100 then some (decide (10 < id)) else none) = some false
    rw [if_pos (by omega), decide_eq_false (by omega)]
  have bus : AgentRecord.Fits isVehicle ⟨12, 3, some [⟨4, 4294967295, 2⟩, ⟨255, 8, 2⟩]⟩ := by
    refine ⟨by decide, by decide, by decide, ?_, ?_⟩
    · rintro xs ⟨⟩
      decide
    · rintro xs ⟨⟩ x hx
      simp only [List.mem_cons, List.not_mem_nil, or_false] at hx
      rcases hx with rfl | rfl
      · exact ⟨by decide, by decide, by decide⟩
      · exact ⟨by decide, by decide, by decide⟩
  have fits : ∀ row ∈ added, row.2.Fits isVehicle := by
    intro row hrow
    simp only [added, List.mem_cons, List.not_mem_nil, or_false] at hrow
    rcases hrow with rfl | rfl | rfl
    · exact walker 1 4294967295 (by decide) (by decide)
    · exact walker 2 4 (by decide) (by decide)
    · exact bus
  have reported : ∀ count ∈ [(4, 2), (8, 4294967295)], count.1 < base ∧ count.2 < base := by decide
  have groups : message.records.length < base := by decide
  have sizes : ∀ g ∈ message.records, g.agents.length < base := by decide
  obtain ⟨-, transfer, release⟩ := messages_arrive (by decide : 11 < base) (by decide : 2 < base) (by decide) fits
    groups sizes reported (by decide)
  exact ⟨by decide, transfer, release⟩

end Mobility
