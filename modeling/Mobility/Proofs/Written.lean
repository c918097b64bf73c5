import Mobility.Proofs.Layout
import Mobility.Proofs.Outcomes

/-!
# What is read stood there

Whatever a reader accepts, from any bytes, is a message that somebody could have written: the bytes it took are the
encoding of numbers of four bytes each, in the same order (`Transfer.decode_written`, `Release.decode_written`). A
release is read as it was written. Of a transfer everything is, except for the stop index at which a passenger leaves.
It stands in four bytes and only the lowest of them is kept, so a transfer that is encoded again gives other bytes
than were read if and only if such an index exceeds a byte (`decoded_was_written`, `index_not_kept`).
-/

set_option autoImplicit false

namespace Mobility

namespace Wire

variable {α β γ : Type}

/-! ## Bytes behind a reader -/

theorem number_lt (a b c d : UInt8) : number a b c d < base := by
  have := a.toNat_lt
  have := b.toNat_lt
  have := c.toNat_lt
  have := d.toNat_lt
  simp only [number, base]
  omega

/-- Four bytes are the field of their number. -/
theorem field_number (a b c d : UInt8) : field (number a b c d) = [a, b, c, d] := by
  have := a.toNat_lt
  have := b.toNat_lt
  have := c.toNat_lt
  have := d.toNat_lt
  simp only [field, number, List.cons.injEq, and_true, ← UInt8.toNat_inj, UInt8.toNat_ofNat']
  omega

/-- The field of a number tells the number. -/
theorem field_inj {m n : Nat} (hm : m < base) (hn : n < base) : field m = field n ↔ m = n := by
  refine ⟨fun same => ?_, fun same => by rw [same]⟩
  simp only [field, List.cons.injEq, ← UInt8.toNat_inj, UInt8.toNat_ofNat', base] at same hm hn
  omega

theorem readField_ok {name : String} {n : Nat} {place after : Place}
    (h : readField name place = .ok (n, after)) : n < base ∧ place.rest = field n ++ after.rest := by
  rcases readField_cases name place with ⟨a, b, c, d, rest, bytes, read⟩ | ⟨-, short⟩
  · rw [read] at h
    cases h
    refine ⟨number_lt a b c d, ?_⟩
    rw [bytes, field_number]
    rfl
  · rw [short] at h
    cases h

theorem readCount_ok {name : String} {n : Nat} {place after : Place}
    (h : readCount name place = .ok (n, after)) : n < base ∧ place.rest = field n ++ after.rest := by
  rw [readCount_eq] at h
  obtain ⟨m, middle, read, checked⟩ := bind_ok h
  obtain ⟨rfl, rfl, -⟩ := check_ok checked
  exact readField_ok read

/-- Whatever the reader accepts is what it makes of something that was encoded there. -/
def Finds (reader : Reader α) (encode : γ → List UInt8) (arrival : γ → α) (Sound : γ → Prop) : Prop :=
  ∀ {place after : Place} {a : α}, reader place = .ok (a, after) →
    ∃ x, Sound x ∧ place.rest = encode x ++ after.rest ∧ a = arrival x

/-- So many items as were asked for stood one after the other. -/
theorem finds_many {item : Reader α} {encode : γ → List UInt8} {arrival : γ → α} {Sound : γ → Prop}
    (each : Finds item encode arrival Sound) (count : Nat) :
    Finds (readMany item count) (fun xs => xs.flatMap encode) (List.map arrival)
      fun xs => xs.length = count ∧ ∀ x ∈ xs, Sound x := by
  induction count with
  | zero =>
    intro place after as h
    cases h
    exact ⟨[], ⟨rfl, nofun⟩, rfl, rfl⟩
  | succ count ih =>
    intro place after as h
    obtain ⟨a, middle, first, h⟩ := bind_ok h
    obtain ⟨rest, last, later, h⟩ := bind_ok h
    cases h
    obtain ⟨x, sound, here, rfl⟩ := each first
    obtain ⟨xs, ⟨size, all⟩, there, rfl⟩ := ih later
    refine ⟨x :: xs, ⟨by rw [List.length_cons, size], ?_⟩, ?_, rfl⟩
    · intro y hy
      rcases List.mem_cons.1 hy with rfl | hy
      · exact sound
      · exact all y hy
    · simp only [here, there, List.flatMap_cons, List.append_assoc]

/-! ## Items which are encoded again -/

variable {encode : γ → List UInt8} {change : γ → γ} {xs : List γ}

theorem length_flatMap_map (same : ∀ x ∈ xs, (encode (change x)).length = (encode x).length) :
    ((xs.map change).flatMap encode).length = (xs.flatMap encode).length := by
  induction xs with
  | nil => rfl
  | cons x rest ih =>
    simp only [List.map_cons, List.flatMap_cons, List.length_append, same x List.mem_cons_self,
      ih fun y hy => same y (List.mem_cons_of_mem x hy)]

/-- Changed items of the same lengths have the same bytes if each of them has. -/
theorem flatMap_map_inj (same : ∀ x ∈ xs, (encode (change x)).length = (encode x).length) :
    (xs.map change).flatMap encode = xs.flatMap encode ↔ ∀ x ∈ xs, encode (change x) = encode x := by
  induction xs with
  | nil => simp
  | cons x rest ih =>
    have first := same x List.mem_cons_self
    have later := ih fun y hy => same y (List.mem_cons_of_mem x hy)
    rw [List.map_cons, List.flatMap_cons, List.flatMap_cons, List.forall_mem_cons, ← later]
    -- Because of the length it is known where the bytes of the first item end.
    exact ⟨fun bytes => List.append_inj bytes first, fun ⟨here, there⟩ => by rw [here, there]⟩

end Wire

open Wire

/-! ## Transfers -/

/-- The numbers of a passenger fit into four bytes each. -/
structure PassengerRecord.Worded (x : PassengerRecord) : Prop where
  index : x.index < base
  id : x.id < base
  cursor : x.cursor < base

/-- The numbers of an agent and its passengers fit into four bytes each. -/
structure AgentRecord.Worded (r : AgentRecord) : Prop where
  id : r.id < base
  cursor : r.cursor < base
  passengers : ∀ xs, r.passengers = some xs → xs.length < base ∧ ∀ x ∈ xs, x.Worded

/-- The numbers of the agents entering a link fit into four bytes each. -/
structure LinkRecord.Worded (g : LinkRecord) : Prop where
  link : ∀ link, g.link = some link → link < noLink
  counted : g.agents.length < base
  agents : ∀ r ∈ g.agents, r.Worded

/-- The numbers of a transfer fit into four bytes each. -/
structure Transfer.Worded (t : Transfer) : Prop where
  time : t.time < base
  sender : t.sender < base
  counted : t.records.length < base
  records : ∀ g ∈ t.records, g.Worded

/-- Every passenger leaves at an index of one byte. -/
def AgentRecord.Narrow (r : AgentRecord) : Prop := ∀ xs, r.passengers = some xs → ∀ x ∈ xs, x.index < 0x100

/-- Every passenger leaves at an index of one byte. -/
def Transfer.Narrow (t : Transfer) : Prop := ∀ g ∈ t.records, ∀ r ∈ g.agents, r.Narrow

variable {isVehicle : Nat → Option Bool} {target : Nat}

theorem PassengerRecord.finds :
    Finds PassengerRecord.reader PassengerRecord.encode PassengerRecord.arrival PassengerRecord.Worded := by
  intro place after a h
  unfold PassengerRecord.reader at h
  obtain ⟨index, place₁, first, h⟩ := bind_ok h
  obtain ⟨id, place₂, second, h⟩ := bind_ok h
  obtain ⟨cursor, place₃, third, h⟩ := bind_ok h
  cases h
  obtain ⟨index_lt, bytes₁⟩ := readField_ok first
  obtain ⟨id_lt, bytes₂⟩ := readField_ok second
  obtain ⟨cursor_lt, bytes₃⟩ := readField_ok third
  refine ⟨⟨index, id, cursor⟩, ⟨index_lt, id_lt, cursor_lt⟩, ?_, ?_⟩
  · simp only [bytes₁, bytes₂, bytes₃, PassengerRecord.encode, List.append_assoc]
  · simp only [PassengerRecord.arrival, Nat.mod_eq_of_lt index_lt, Nat.mod_eq_of_lt id_lt,
      Nat.mod_eq_of_lt cursor_lt]

theorem AgentRecord.finds :
    Finds (AgentRecord.reader isVehicle) AgentRecord.encode AgentRecord.arrival AgentRecord.Worded := by
  intro place after a h
  unfold AgentRecord.reader at h
  obtain ⟨id, place₁, first, h⟩ := bind_ok h
  obtain ⟨cursor, place₂, second, h⟩ := bind_ok h
  obtain ⟨id_lt, bytes₁⟩ := readField_ok first
  obtain ⟨cursor_lt, bytes₂⟩ := readField_ok second
  cases known : isVehicle id with
  | none =>
    rw [known] at h
    cases h
  | some vehicle =>
    rw [known] at h
    cases vehicle with
    | false =>
      cases h
      refine ⟨⟨id, cursor, none⟩, ⟨id_lt, cursor_lt, nofun⟩, ?_, ?_⟩
      · simp only [bytes₁, bytes₂, AgentRecord.encode, List.append_assoc, List.nil_append]
      · simp only [AgentRecord.arrival, Nat.mod_eq_of_lt id_lt, Nat.mod_eq_of_lt cursor_lt, Option.map_none]
    | true =>
      obtain ⟨count, place₃, third, h⟩ := bind_ok h
      obtain ⟨passengers, place₄, listed, h⟩ := bind_ok h
      cases h
      obtain ⟨count_lt, bytes₃⟩ := readCount_ok third
      obtain ⟨xs, ⟨rfl, worded⟩, bytes₄, rfl⟩ := finds_many PassengerRecord.finds count listed
      refine ⟨⟨id, cursor, some xs⟩, ⟨id_lt, cursor_lt, ?_⟩, ?_, ?_⟩
      · intro ys own
        cases own
        exact ⟨count_lt, worded⟩
      · simp only [bytes₁, bytes₂, bytes₃, bytes₄, AgentRecord.encode, List.append_assoc]
      · simp only [AgentRecord.arrival, Nat.mod_eq_of_lt id_lt, Nat.mod_eq_of_lt cursor_lt, Option.map_some]

theorem LinkRecord.finds :
    Finds (LinkRecord.reader isVehicle) LinkRecord.encode LinkRecord.arrival LinkRecord.Worded := by
  intro place after a h
  unfold LinkRecord.reader at h
  obtain ⟨link, place₁, first, h⟩ := bind_ok h
  obtain ⟨count, place₂, second, h⟩ := bind_ok h
  obtain ⟨agents, place₃, listed, h⟩ := bind_ok h
  cases h
  obtain ⟨link_lt, bytes₁⟩ := readField_ok first
  obtain ⟨count_lt, bytes₂⟩ := readCount_ok second
  obtain ⟨rs, ⟨rfl, worded⟩, bytes₃, rfl⟩ := finds_many AgentRecord.finds count listed
  refine ⟨⟨if link = noLink then none else some link, rs⟩, ⟨?_, count_lt, worded⟩, ?_, rfl⟩
  -- The greatest number stands for no link, so any other one is the id of a link.
  · intro own same
    by_cases mark : link = noLink
    · simp only [mark, if_pos] at same
      cases same
    · simp only [if_neg mark, Option.some.injEq] at same
      subst same
      exact Nat.lt_of_le_of_ne (Nat.le_of_lt_succ link_lt) mark
  · have word : (if link = noLink then none else some link).getD noLink = link := by
      by_cases mark : link = noLink
      · rw [if_pos mark, mark]
        rfl
      · rw [if_neg mark]
        rfl
    simp only [LinkRecord.encode, word, bytes₁, bytes₂, bytes₃, List.append_assoc]

/-- A transfer that is read stood at the beginning of the bytes. -/
theorem Transfer.decode_written {data : List UInt8} {t : Transfer}
    (h : Transfer.decode data target isVehicle = .ok t) :
    ∃ written : Transfer, written.Worded ∧ written.encode <+: data ∧ t = written.arrival target := by
  obtain ⟨after, h⟩ := readAll_ok h
  obtain ⟨time, place₁, first, h⟩ := bind_ok h
  obtain ⟨sender, place₂, second, h⟩ := bind_ok h
  obtain ⟨count, place₃, third, h⟩ := bind_ok h
  obtain ⟨records, place₄, listed, h⟩ := bind_ok h
  cases h
  obtain ⟨time_lt, bytes₁⟩ := readField_ok first
  obtain ⟨sender_lt, bytes₂⟩ := readField_ok second
  obtain ⟨count_lt, bytes₃⟩ := readCount_ok third
  obtain ⟨gs, ⟨rfl, worded⟩, bytes₄, rfl⟩ := finds_many LinkRecord.finds count listed
  refine ⟨⟨time, sender, target, gs⟩, ⟨time_lt, sender_lt, count_lt, worded⟩, ⟨after.rest, ?_⟩, ?_⟩
  · simp only at bytes₁
    simp only [Transfer.encode, header, bytes₁, bytes₂, bytes₃, bytes₄, List.append_assoc]
  · simp only [Transfer.arrival, Nat.mod_eq_of_lt time_lt, Nat.mod_eq_of_lt sender_lt]

/-! ## Encoding again what was read -/

theorem PassengerRecord.encode_arrival {x : PassengerRecord} (h : x.Worded) :
    x.arrival.encode = x.encode ↔ x.index < 0x100 := by
  have index_lt : x.index % 0x100 < base := Nat.lt_trans (Nat.mod_lt _ (by decide)) (by decide)
  simp only [PassengerRecord.encode, PassengerRecord.arrival, Nat.mod_eq_of_lt h.index, Nat.mod_eq_of_lt h.id,
    Nat.mod_eq_of_lt h.cursor, List.append_left_inj, field_inj index_lt h.index]
  omega

theorem AgentRecord.length_encode_arrival (r : AgentRecord) : r.arrival.encode.length = r.encode.length := by
  cases hp : r.passengers with
  | none => simp only [AgentRecord.encode, AgentRecord.arrival, hp, Option.map_none, List.length_append, length_field]
  | some xs =>
    have each : ∀ x ∈ xs, x.arrival.encode.length = x.encode.length := fun x _ => by
      rw [PassengerRecord.length_encode, PassengerRecord.length_encode]
    have same := length_flatMap_map each
    simp only [AgentRecord.encode, AgentRecord.arrival, hp, Option.map_some, List.length_append, length_field, same]

theorem AgentRecord.encode_arrival {r : AgentRecord} (h : r.Worded) :
    r.arrival.encode = r.encode ↔ r.Narrow := by
  cases hp : r.passengers with
  | none =>
    simp only [AgentRecord.encode, AgentRecord.arrival, hp, Nat.mod_eq_of_lt h.id, Nat.mod_eq_of_lt h.cursor,
      Option.map_none, true_iff]
    intro xs listed
    rw [hp] at listed
    cases listed
  | some xs =>
    have each : ∀ x ∈ xs, x.arrival.encode = x.encode ↔ x.index < 0x100 :=
      fun x hx => PassengerRecord.encode_arrival ((h.passengers xs hp).2 x hx)
    have narrow : r.Narrow ↔ ∀ x ∈ xs, x.index < 0x100 := by
      simp only [AgentRecord.Narrow, hp, Option.some.injEq, forall_eq']
    simp only [AgentRecord.encode, AgentRecord.arrival, hp, Nat.mod_eq_of_lt h.id, Nat.mod_eq_of_lt h.cursor,
      Option.map_some, List.length_map, List.append_right_inj, narrow]
    rw [flatMap_map_inj fun x _ => by rw [PassengerRecord.length_encode, PassengerRecord.length_encode]]
    exact forall₂_congr each

theorem LinkRecord.length_encode_arrival (g : LinkRecord) : g.arrival.encode.length = g.encode.length := by
  simp only [LinkRecord.encode, LinkRecord.arrival, List.length_append, length_field,
    length_flatMap_map fun r (_ : r ∈ g.agents) => r.length_encode_arrival]

theorem LinkRecord.encode_arrival {g : LinkRecord} (h : g.Worded) :
    g.arrival.encode = g.encode ↔ ∀ r ∈ g.agents, r.Narrow := by
  simp only [LinkRecord.encode, LinkRecord.arrival, List.length_map, List.append_right_inj]
  rw [flatMap_map_inj fun r _ => r.length_encode_arrival]
  exact forall₂_congr fun r hr => AgentRecord.encode_arrival (h.agents r hr)

theorem Transfer.length_encode_arrival (t : Transfer) : (t.arrival target).encode.length = t.encode.length := by
  simp only [Transfer.encode, Transfer.arrival, List.length_append, length_header,
    length_flatMap_map fun g (_ : g ∈ t.records) => g.length_encode_arrival]

/-- A transfer has the same bytes when it is encoded again if and only if no stop index exceeds a byte. -/
theorem Transfer.encode_arrival {t : Transfer} (h : t.Worded) :
    (t.arrival target).encode = t.encode ↔ t.Narrow := by
  simp only [Transfer.encode, Transfer.arrival, List.length_map, Nat.mod_eq_of_lt h.time, Nat.mod_eq_of_lt h.sender,
    List.append_right_inj]
  rw [flatMap_map_inj fun g _ => g.length_encode_arrival]
  exact forall₂_congr fun g hg => LinkRecord.encode_arrival (h.records g hg)

/-! ## Releases -/

/-- A release that is read stood at the beginning of the bytes. -/
theorem Release.decode_written {data : List UInt8} {r : Release} (h : Release.decode data target = .ok r) :
    r.encode <+: data := by
  have each : Finds (do
      let link ← readField "link id"
      let released ← readField "processed"
      return (link, released)) (fun c : Nat × Nat => field c.1 ++ field c.2) (fun c => c) (fun _ => True) := by
    intro place after c h
    obtain ⟨link, place₁, first, h⟩ := bind_ok h
    obtain ⟨released, place₂, second, h⟩ := bind_ok h
    cases h
    refine ⟨(link, released), trivial, ?_, rfl⟩
    rw [(readField_ok first).2, (readField_ok second).2, List.append_assoc]
  obtain ⟨after, h⟩ := readAll_ok h
  obtain ⟨time, place₁, first, h⟩ := bind_ok h
  obtain ⟨sender, place₂, second, h⟩ := bind_ok h
  obtain ⟨count, place₃, third, h⟩ := bind_ok h
  obtain ⟨counts, place₄, listed, h⟩ := bind_ok h
  cases h
  obtain ⟨cs, ⟨rfl, -⟩, bytes, rfl⟩ := finds_many each count listed
  have start := (readField_ok first).2
  simp only at start
  refine ⟨after.rest, ?_⟩
  simp only [Release.encode, header, start, (readField_ok second).2, (readCount_ok third).2, bytes, List.map_id',
    List.append_assoc]

/-! ## Both messages -/

/-- Bytes which are read as a transfer begin with one that could have been written, and it is read as it was written
but for the stop indices, of which one byte each is kept: encoding again what was read gives back the bytes that were
read exactly if every index fits into one. A release that is read stood there as it is. -/
theorem decoded_was_written (data : List UInt8) (target : Nat) (isVehicle : Nat → Option Bool) :
    (∀ t, Transfer.decode data target isVehicle = .ok t →
      ∃ written : Transfer, written.Worded ∧ written.encode <+: data ∧ t = written.arrival target ∧
        (t.encode <+: data ↔ written.Narrow)) ∧
    ∀ r, Release.decode data target = .ok r → r.encode <+: data := by
  refine ⟨fun t h => ?_, fun r h => Release.decode_written h⟩
  obtain ⟨written, worded, stood, rfl⟩ := Transfer.decode_written h
  refine ⟨written, worded, stood, rfl, ?_⟩
  have narrow : (written.arrival target).encode = written.encode ↔ written.Narrow := Transfer.encode_arrival worded
  have size : (written.arrival target).encode.length = written.encode.length := written.length_encode_arrival
  rw [← narrow]
  constructor
  · intro again
    -- Two beginnings of the same data, equally long, are the same.
    exact (List.prefix_of_prefix_length_le again stood (Nat.le_of_eq size)).eq_of_length size
  · intro same
    rw [same]
    exact stood

/-- A passenger who leaves at index 4 and one who leaves at index 255 are read as they were written, with two more
bytes behind the message. -/
theorem decoded_was_written_bus :
    let isVehicle := fun id => if id < 100 then some (decide (10 < id)) else none
    let message : Transfer := ⟨11, 2, 0, [⟨none, [⟨12, 3, some [⟨4, 7, 2⟩, ⟨255, 8, 2⟩]⟩]⟩]⟩
    Transfer.decode (message.encode ++ [1, 2]) 0 isVehicle = .ok message ∧
      ∃ written : Transfer, written.Worded ∧ written.encode <+: message.encode ++ [1, 2] ∧
        message = written.arrival 0 ∧ (message.encode <+: message.encode ++ [1, 2] ↔ written.Narrow) := by
  intro isVehicle message
  have read : Transfer.decode (message.encode ++ [1, 2]) 0 isVehicle = .ok message := eq_ok_of_toOption (by decide +kernel)
  exact ⟨read, (decoded_was_written (message.encode ++ [1, 2]) 0 isVehicle).1 message read⟩

/-- A passenger who leaves at index 260 is read as one who leaves at index 4, and is written as such. -/
theorem index_not_kept :
    let isVehicle := fun id => if id < 100 then some (decide (10 < id)) else none
    let data := Transfer.encode ⟨11, 2, 0, [⟨none, [⟨12, 3, some [⟨260, 7, 2⟩]⟩]⟩]⟩
    ∃ t, Transfer.decode data 0 isVehicle = .ok t ∧ ¬ t.encode <+: data := by
  intro isVehicle data
  exact ⟨⟨11, 2, 0, [⟨none, [⟨12, 3, some [⟨4, 7, 2⟩]⟩]⟩]⟩, eq_ok_of_toOption (by decide +kernel), by decide +kernel⟩

end Mobility
