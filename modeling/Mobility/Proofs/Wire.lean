import Mobility.Message.Wire

/-!
# Reading what was written

A message is read back as it was written, up to what four bytes can hold: `Transfer.decode_encode`
and `Release.decode_encode`. A transfer has to be legible for its receiver. Which agents are
vehicles isn't written, so both sides have to agree on that, and numbers of items have to fit into
their fields; every message shorter than `Wire.reach` bytes is counted right. The second and the
sender stand in front of every message (`Wire.Headed`) and are read from there by whoever reads it.
-/

set_option autoImplicit false

namespace Mobility

namespace Wire

/-- The first number that doesn't fit into a field. -/
def base : Nat := 0x100000000

/-- The length from which on a message may hold more items than a field can count. -/
def reach : Nat := 8 * base

theorem number_bytes (n : Nat) :
    number (UInt8.ofNat n) (UInt8.ofNat (n / 0x100)) (UInt8.ofNat (n / 0x10000))
      (UInt8.ofNat (n / 0x1000000)) = n % base := by
  simp only [number, base, UInt8.toNat_ofNat']
  omega

@[simp] theorem length_field (n : Nat) : (field n).length = 4 := rfl

@[simp] theorem length_header (time sender count : Nat) : (header time sender count).length = 12 :=
  rfl

/-! ## Readers of a part of a message -/

variable {α β : Type}

/-- The reader takes exactly these bytes, whatever follows, and makes `a` of them. -/
def Reads (reader : Reader α) (bytes : List UInt8) (a : α) : Prop :=
  ∀ offset rest, reader ⟨offset, bytes ++ rest⟩ = .ok (a, ⟨offset + bytes.length, rest⟩)

theorem Reads.pure (a : α) : Reads (pure a) [] a := fun _ _ => rfl

theorem bind_eq {reader : Reader α} {next : α → Reader β} {place after : Place} {a : α}
    (h : reader place = .ok (a, after)) : (reader >>= next) place = next a after := by
  simp only [Bind.bind, StateT.bind, Except.bind, h]

theorem bind_ok {reader : Reader α} {next : α → Reader β} {place last : Place} {b : β}
    (h : (reader >>= next) place = .ok (b, last)) :
    ∃ a after, reader place = .ok (a, after) ∧ next a after = .ok (b, last) := by
  cases hr : reader place with
  | error e =>
    simp only [Bind.bind, StateT.bind, Except.bind, hr] at h
    cases h
  | ok r =>
    rw [bind_eq hr] at h
    exact ⟨r.1, r.2, rfl, h⟩

theorem Reads.bind {reader : Reader α} {next : α → Reader β} {bytes bytes' : List UInt8} {a : α}
    {b : β} (h : Reads reader bytes a) (h' : Reads (next a) bytes' b) :
    Reads (reader >>= next) (bytes ++ bytes') b := by
  intro offset rest
  rw [List.append_assoc]
  refine (bind_eq (h offset (bytes' ++ rest))).trans ?_
  rw [h' (offset + bytes.length) rest, List.length_append, Nat.add_assoc]

theorem reads_field (name : String) (n : Nat) : Reads (readField name) (field n) (n % base) := by
  intro offset rest
  rw [← number_bytes]
  rfl

theorem reads_many {item : Reader β} {encode : α → List UInt8} {arrival : α → β} {xs : List α}
    (h : ∀ x ∈ xs, Reads item (encode x) (arrival x)) :
    Reads (readMany item xs.length) (xs.flatMap encode) (xs.map arrival) := by
  induction xs with
  | nil => exact Reads.pure []
  | cons x rest ih =>
    have later := ih fun y hy => h y (List.mem_cons_of_mem _ hy)
    have bytes : (x :: rest).flatMap encode = encode x ++ (rest.flatMap encode ++ []) := by simp
    rw [bytes]
    exact Reads.bind (h x List.mem_cons_self) (Reads.bind later (Reads.pure _))

/-- Items of a length take that much room each. -/
theorem mul_length_le {encode : α → List UInt8} {xs : List α} {size : Nat}
    (h : ∀ x ∈ xs, size ≤ (encode x).length) : size * xs.length ≤ (xs.flatMap encode).length := by
  induction xs with
  | nil => simp
  | cons x rest ih =>
    have first := h x List.mem_cons_self
    have later := ih fun y hy => h y (List.mem_cons_of_mem _ hy)
    rw [List.flatMap_cons, List.length_append, List.length_cons, Nat.mul_succ]
    omega

/-- A count is accepted if that many items of four bytes at least follow. -/
theorem readCount_eq_ok {name : String} {count : Nat} {place after : Place}
    (field : readField name place = .ok (count, after)) (room : 4 * count ≤ after.rest.length) :
    readCount name place = .ok (count, after) := by
  have enough : ¬ after.rest.length / 4 < count := by omega
  simp only [readCount, bind, StateT.bind, Except.bind, field, get, getThe, MonadStateOf.get,
    StateT.get, pure, Except.pure]
  rw [if_neg enough]
  rfl

/-- Items which are counted in front are read as they were written. -/
theorem reads_counted {R : Reader β} {e : α → List UInt8} {f : α → β} {l : List α} {γ : Type}
    {k : List β → Reader γ} {c : γ} {bytes : List UInt8} (name : String) (hcount : l.length < base)
    (hsize : ∀ x ∈ l, 4 ≤ (e x).length) (h : ∀ x ∈ l, Reads R (e x) (f x))
    (h' : Reads (k (l.map f)) bytes c) :
    Reads (do
        let count ← readCount name
        k (← readMany R count))
      (field l.length ++ (l.flatMap e ++ bytes)) c := by
  intro offset rest
  have items := (reads_many h).bind h' (offset + 4) rest
  have first := reads_field name l.length offset (l.flatMap e ++ bytes ++ rest)
  rw [Nat.mod_eq_of_lt hcount, length_field] at first
  have room := mul_length_le hsize
  have count := readCount_eq_ok first (by simp only [List.length_append]; omega)
  rw [List.append_assoc (field l.length)]
  refine (bind_eq count).trans (items.trans ?_)
  simp only [List.length_append, length_field, Nat.add_assoc]

/-- A message which starts with the bytes of a reader is read as the reader says. -/
theorem Reads.all {reader : Reader α} {bytes : List UInt8} {a : α} (h : Reads reader bytes a) :
    readAll bytes reader = .ok a := by
  have hr := h 0 []
  rw [List.append_nil] at hr
  show ((reader ⟨0, bytes⟩).map (·.1)) = _
  rw [hr]
  rfl

/-- A message which could be read was read from its beginning. -/
theorem readAll_ok {reader : Reader α} {data : List UInt8} {a : α} (h : readAll data reader = .ok a) :
    ∃ after, reader ⟨0, data⟩ = .ok (a, after) := by
  have h : (reader ⟨0, data⟩).map (·.1) = .ok a := h
  cases hr : reader ⟨0, data⟩ with
  | error e => rw [hr] at h; cases h
  | ok r => rw [hr] at h; cases h; exact ⟨r.2, rfl⟩

/-! ## What stands in front of a message -/

/-- The message says that `sender` sent it in second `time`. -/
def Headed (time sender : Nat) (data : List UInt8) : Prop :=
  ∃ rest, data = field time ++ (field sender ++ rest)

theorem headed_header (time sender count : Nat) (rest : List UInt8) :
    Headed time sender (header time sender count ++ rest) :=
  ⟨field count ++ rest, by simp [header]⟩

/-- Whoever reads the second and the sender first reads the ones of the head. -/
theorem readAll_headed {time sender : Nat} {data : List UInt8} {a : α} {name name' : String}
    {next : Nat → Nat → Reader α} (head : Headed time sender data)
    (h : readAll data (do
      let time ← readField name
      let sender ← readField name'
      next time sender) = .ok a) :
    ∃ place place', next (time % base) (sender % base) place = .ok (a, place') := by
  obtain ⟨rest, rfl⟩ := head
  obtain ⟨last, h⟩ := readAll_ok h
  obtain ⟨t, place, first, h⟩ := bind_ok h
  obtain ⟨s, place', second, h⟩ := bind_ok h
  cases (reads_field name time 0 (field sender ++ rest)).symm.trans first
  cases (reads_field name' sender _ rest).symm.trans second
  exact ⟨_, last, h⟩

end Wire

open Wire

/-! ## Transfers -/

/-- What is read of a passenger. -/
def PassengerRecord.arrival (x : PassengerRecord) : PassengerRecord :=
  ⟨x.index % base % 0x100, x.id % base, x.cursor % base⟩

/-- What is read of an agent. -/
def AgentRecord.arrival (r : AgentRecord) : AgentRecord :=
  ⟨r.id % base, r.cursor % base, r.passengers.map (·.map PassengerRecord.arrival)⟩

/-- What is read of the agents entering a link. -/
def LinkRecord.arrival (g : LinkRecord) : LinkRecord := ⟨g.link, g.agents.map AgentRecord.arrival⟩

/-- What `target` reads of a transfer. -/
def Transfer.arrival (t : Transfer) (target : Nat) : Transfer :=
  ⟨t.time % base, t.sender % base, target, t.records.map LinkRecord.arrival⟩

/-- The record of an agent can be read by somebody who knows the vehicles. -/
structure AgentRecord.Legible (isVehicle : Nat → Option Bool) (r : AgentRecord) : Prop where
  known : isVehicle (r.id % base) = some r.passengers.isSome
  counted : ∀ passengers, r.passengers = some passengers → passengers.length < base

/-- The records of the agents entering a link can be read. -/
structure LinkRecord.Legible (isVehicle : Nat → Option Bool) (g : LinkRecord) : Prop where
  link : ∀ link, g.link = some link → link < noLink
  counted : g.agents.length < base
  agents : ∀ r ∈ g.agents, r.Legible isVehicle

/-- The transfer can be read by somebody who knows the vehicles. -/
structure Transfer.Legible (isVehicle : Nat → Option Bool) (t : Transfer) : Prop where
  counted : t.records.length < base
  records : ∀ g ∈ t.records, g.Legible isVehicle

theorem PassengerRecord.reads (x : PassengerRecord) :
    Reads PassengerRecord.reader x.encode x.arrival := by
  have bytes : x.encode = field x.index ++ (field x.id ++ (field x.cursor ++ [])) := by
    simp [PassengerRecord.encode]
  rw [bytes]
  unfold PassengerRecord.reader
  refine (reads_field "egress index" x.index).bind ?_
  refine (reads_field "passenger id" x.id).bind ?_
  exact (reads_field "passenger cursor" x.cursor).bind (Reads.pure x.arrival)

@[simp] theorem PassengerRecord.length_encode (x : PassengerRecord) : x.encode.length = 12 := rfl

theorem AgentRecord.eight_le_length_encode (r : AgentRecord) : 8 ≤ r.encode.length := by
  simp only [AgentRecord.encode, List.length_append, length_field]
  omega

theorem AgentRecord.reads {isVehicle : Nat → Option Bool} {r : AgentRecord}
    (h : r.Legible isVehicle) : Reads (AgentRecord.reader isVehicle) r.encode r.arrival := by
  unfold AgentRecord.reader AgentRecord.encode
  rw [List.append_assoc]
  refine (reads_field "agent id" r.id).bind ((reads_field "cursor" r.cursor).bind ?_)
  rw [h.known]
  cases hp : r.passengers with
  | none =>
    have : r.arrival = ⟨r.id % base, r.cursor % base, none⟩ := by simp [AgentRecord.arrival, hp]
    rw [this]
    exact Reads.pure _
  | some passengers =>
    have harrival : r.arrival =
        ⟨r.id % base, r.cursor % base, some (passengers.map PassengerRecord.arrival)⟩ := by
      simp [AgentRecord.arrival, hp]
    have all := reads_counted (R := PassengerRecord.reader) (e := PassengerRecord.encode)
      (f := PassengerRecord.arrival) (l := passengers)
      (k := fun xs => Pure.pure (⟨r.id % base, r.cursor % base, some xs⟩ : AgentRecord))
      "passenger count" (h.counted passengers hp) (fun x _ => by simp) (fun x _ => x.reads)
      (Reads.pure _)
    rw [harrival]
    simpa using all

theorem LinkRecord.reads {isVehicle : Nat → Option Bool} {g : LinkRecord}
    (h : g.Legible isVehicle) : Reads (LinkRecord.reader isVehicle) g.encode g.arrival := by
  unfold LinkRecord.reader LinkRecord.encode
  rw [List.append_assoc]
  refine (reads_field "link id" (g.link.getD noLink)).bind ?_
  have hlink : (if g.link.getD noLink % base = noLink then none
      else some (g.link.getD noLink % base)) = g.link := by
    cases hl : g.link with
    | none => rfl
    | some link =>
      have hlt := h.link link hl
      have hmod : link % base = link := Nat.mod_eq_of_lt (Nat.lt_trans hlt (by decide))
      rw [Option.getD_some, hmod, if_neg (Nat.ne_of_lt hlt)]
  have all := reads_counted (R := AgentRecord.reader isVehicle) (e := AgentRecord.encode)
    (f := AgentRecord.arrival) (l := g.agents)
    (k := fun xs => Pure.pure (⟨g.link, xs⟩ : LinkRecord)) "agent count" h.counted
    (fun r _ => Nat.le_trans (by decide) r.eight_le_length_encode)
    (fun r hr => AgentRecord.reads (h.agents r hr)) (Reads.pure _)
  rw [hlink]
  simpa [LinkRecord.arrival] using all

/-- A legible transfer is read to its last byte. -/
theorem Transfer.reads {isVehicle : Nat → Option Bool} {t : Transfer} {target : Nat}
    (h : t.Legible isVehicle) :
    Reads (do
      let time ← readField "time"
      let sender ← readField "sender"
      let count ← readCount "record count"
      let records ← readMany (LinkRecord.reader isVehicle) count
      return ⟨time, sender, target, records⟩) t.encode (t.arrival target) := by
  have bytes : t.encode = field t.time ++ (field t.sender ++ (field t.records.length ++
      (t.records.flatMap LinkRecord.encode ++ []))) := by
    simp [Transfer.encode, header]
  rw [bytes]
  refine (reads_field "time" t.time).bind ((reads_field "sender" t.sender).bind ?_)
  exact reads_counted (R := LinkRecord.reader isVehicle) (f := LinkRecord.arrival)
    (k := fun xs => Pure.pure (⟨t.time % base, t.sender % base, target, xs⟩ : Transfer))
    "record count" h.counted
    (fun g _ => by simp only [LinkRecord.encode, List.length_append, length_field]; omega)
    (fun g hg => LinkRecord.reads (h.records g hg)) (Reads.pure _)

/-- A legible transfer arrives. -/
theorem Transfer.decode_encode {isVehicle : Nat → Option Bool} {t : Transfer} {target : Nat}
    (h : t.Legible isVehicle) : Transfer.decode t.encode target isVehicle = .ok (t.arrival target) :=
  Reads.all (Transfer.reads h)

/-- A transfer carries the second and the sender at its head. -/
theorem Transfer.headed_encode (t : Transfer) : Headed t.time t.sender t.encode :=
  headed_header ..

theorem Transfer.decode_headed {time sender target : Nat} {data : List UInt8}
    {isVehicle : Nat → Option Bool} {t : Transfer} (head : Headed time sender data)
    (h : Transfer.decode data target isVehicle = .ok t) :
    t.time = time % base ∧ t.sender = sender % base := by
  obtain ⟨place, last, h⟩ := readAll_headed head h
  obtain ⟨count, place', -, h⟩ := bind_ok h
  obtain ⟨items, place'', -, h⟩ := bind_ok h
  cases h
  exact ⟨rfl, rfl⟩

/-! ## Releases -/

/-- What `target` reads of a release. -/
def Release.arrival (r : Release) (target : Nat) : Release :=
  ⟨r.time % base, r.sender % base, target, r.counts.map fun c => (c.1 % base, c.2 % base)⟩

/-- A release is read to its last byte if its counts can be counted. -/
theorem Release.reads {r : Release} {target : Nat} (h : r.counts.length < base) :
    Reads (do
      let time ← readField "time"
      let sender ← readField "sender"
      let count ← readCount "record count"
      let counts ← readMany (do
        let link ← readField "link id"
        let released ← readField "processed"
        return (link, released)) count
      return ⟨time, sender, target, counts⟩) r.encode (r.arrival target) := by
  have count : ∀ c : Nat × Nat, Reads (do
      let link ← readField "link id"
      let released ← readField "processed"
      return (link, released)) (field c.1 ++ field c.2) (c.1 % base, c.2 % base) := by
    intro c
    have bytes : field c.1 ++ field c.2 = field c.1 ++ (field c.2 ++ []) := by simp
    rw [bytes]
    exact (reads_field "link id" c.1).bind ((reads_field "processed" c.2).bind (Reads.pure _))
  have bytes : r.encode = field r.time ++ (field r.sender ++ (field r.counts.length ++
      (r.counts.flatMap (fun c => field c.1 ++ field c.2) ++ []))) := by
    simp [Release.encode, header]
  rw [bytes]
  refine (reads_field "time" r.time).bind ((reads_field "sender" r.sender).bind ?_)
  exact reads_counted (f := fun c : Nat × Nat => (c.1 % base, c.2 % base))
    (k := fun xs => Pure.pure (⟨r.time % base, r.sender % base, target, xs⟩ : Release))
    "record count" h (fun c _ => by simp) (fun c _ => count c) (Reads.pure _)

/-- A release arrives if its counts can be counted. -/
theorem Release.decode_encode {r : Release} {target : Nat} (h : r.counts.length < base) :
    Release.decode r.encode target = .ok (r.arrival target) :=
  Reads.all (Release.reads h)

/-- A release carries the second and the sender at its head. -/
theorem Release.headed_encode (r : Release) : Headed r.time r.sender r.encode :=
  headed_header ..

theorem Release.decode_headed {time sender target : Nat} {data : List UInt8} {r : Release}
    (head : Headed time sender data) (h : Release.decode data target = .ok r) :
    r.time = time % base ∧ r.sender = sender % base := by
  obtain ⟨place, last, h⟩ := readAll_headed head h
  obtain ⟨count, place', -, h⟩ := bind_ok h
  obtain ⟨items, place'', -, h⟩ := bind_ok h
  cases h
  exact ⟨rfl, rfl⟩

end Mobility
