import Mobility.Proofs.Wire

/-!
# Messages which are cut short

A reader of a message asks for one field after the other, and now and then for a count and that many items. What it
may ask for is a `Layout`, and both messages are read as their layouts say (`Transfer.decode_eq`,
`Release.decode_eq`). Whatever holds for every layout holds for both messages, on any bytes: a reader ends with
something read, at a place where the bytes run out, or with an agent nobody knows (`Layout.ends`), and it does not
notice bytes which are appended to what it read (`Orderly.longer`).

So a message whose end is cut off can't pass for another one. If its beginning could be read, the reader would leave
the rest of the whole message behind as well, and it doesn't (`cuts_detected`).
-/

set_option autoImplicit false

namespace Mobility

namespace Wire

/-! ## Layouts -/

/-- What stands in a part of a message, one thing after the other. What follows may depend on what was read. -/
inductive Layout : Type → Type 1
  | done {α : Type} (a : α) : Layout α
  | asking {α : Type} (agent : Nat) (next : Bool → Layout α) : Layout α
  | field {α : Type} (name : String) (next : Nat → Layout α) : Layout α
  | counted {α β : Type} (name : String) (item : Layout β) (next : List β → Layout α) : Layout α

variable (isVehicle : Nat → Option Bool)

/-- Reads what is laid out so. -/
def Layout.reader : {α : Type} → Layout α → Reader α
  | _, done a => return a
  | _, asking agent next =>
    match isVehicle agent with
    | none => throw (.unknownAgent agent)
    | some vehicle => (next vehicle).reader
  | _, field name next => do
    let n ← readField name
    (next n).reader
  | _, counted name item next => do
    let count ← readCount name
    let items ← readMany item.reader count
    (next items).reader

/-- The counts accepted in reading `count` items. -/
def countsMany {β : Type} (item : Reader β) (counts : Place → List (Nat × Nat)) :
    Nat → Place → List (Nat × Nat)
  | 0, _ => []
  | count + 1, place =>
    counts place ++
      match item place with
      | .error _ => []
      | .ok (_, after) => countsMany item counts count after

/-- The counts which are accepted in reading, each with the number of bytes behind it. They are listed also if the
reader fails later on. -/
def Layout.counts : {α : Type} → Layout α → Place → List (Nat × Nat)
  | _, done _, _ => []
  | _, asking agent next, place =>
    match isVehicle agent with
    | none => []
    | some vehicle => (next vehicle).counts place
  | _, field name next, place =>
    match readField name place with
    | .error _ => []
    | .ok (n, after) => (next n).counts after
  | _, counted name item next, place =>
    match readCount name place with
    | .error _ => []
    | .ok (count, after) =>
      (count, after.rest.length) ::
        (countsMany (item.reader isVehicle) item.counts count after ++
          match readMany (item.reader isVehicle) count after with
          | .error _ => []
          | .ok (items, last) => (next items).counts last)

variable {isVehicle} {α β : Type}

/-! ## What a reader may end in -/

/-- The bytes read so far and the bytes left, together. -/
def Place.size (place : Place) : Nat := place.offset + place.rest.length

/-- The place with more bytes at the end. -/
def Place.extend (place : Place) (more : List UInt8) : Place := ⟨place.offset, place.rest ++ more⟩

/-- What reading from a message of `size` bytes may end in. -/
inductive Ending (isVehicle : Nat → Option Bool) (size : Nat) : Except ExchangeError α → Prop
  | read (a : α) : Ending isVehicle size (.ok a)
  | truncated {offset : Nat} (name : String) (inside : offset ≤ size) :
    Ending isVehicle size (.error (.truncated offset name))
  | unknown {agent : Nat} (h : isVehicle agent = none) : Ending isVehicle size (.error (.unknownAgent agent))

/-- The reader takes its bytes from the message, and fails only where they run out or for an agent nobody knows.
Unless they run out, bytes at the end of the message make no difference. -/
structure Orderly (isVehicle : Nat → Option Bool) (reader : Reader α) : Prop where
  ends : ∀ place, Ending isVehicle place.size (reader place)
  size : ∀ {place after : Place} {a : α}, reader place = .ok (a, after) → after.size = place.size
  longer : ∀ {place after : Place} {a : α} (more : List UInt8), reader place = .ok (a, after) →
    reader (place.extend more) = .ok (a, after.extend more)
  refuses : ∀ {place : Place} {agent : Nat} (more : List UInt8), reader place = .error (.unknownAgent agent) →
    reader (place.extend more) = .error (.unknownAgent agent)

namespace Orderly

theorem done (a : α) : Orderly isVehicle (pure a : Reader α) where
  ends _ := .read _
  size h := by cases h; rfl
  longer more h := by cases h; rfl
  refuses more h := by cases h

theorem unknown {agent : Nat} (h : isVehicle agent = none) :
    Orderly isVehicle (throw (.unknownAgent agent) : Reader α) where
  ends _ := .unknown h
  size ok := by cases ok
  longer more ok := by cases ok
  refuses more refused := refused

/-- A reader that follows another one begins where that one ends. -/
theorem bind {reader : Reader α} {next : α → Reader β} (first : Orderly isVehicle reader)
    (later : ∀ a, Orderly isVehicle (next a)) : Orderly isVehicle (reader >>= next) where
  ends place := by
    show Ending isVehicle place.size (Except.bind (reader place) fun r => next r.1 r.2)
    have ending := first.ends place
    cases hr : reader place with
    | error e =>
      rw [hr] at ending
      cases ending with
      | truncated name inside => exact .truncated name inside
      | unknown h => exact .unknown h
    | ok r =>
      have after := (later r.1).ends r.2
      rwa [first.size hr] at after
  size h := by
    obtain ⟨a, middle, read, h⟩ := bind_ok h
    exact ((later a).size h).trans (first.size read)
  longer more h := by
    obtain ⟨a, middle, read, h⟩ := bind_ok h
    rw [bind_eq (first.longer more read)]
    exact (later a).longer more h
  refuses {place agent} more h := by
    cases hr : reader place with
    | error e =>
      simp only [Bind.bind, StateT.bind, Except.bind, hr] at h
      cases h
      simp only [Bind.bind, StateT.bind, Except.bind, first.refuses more hr]
    | ok r =>
      rw [bind_eq hr] at h
      rw [bind_eq (first.longer more hr)]
      exact (later r.1).refuses more h

end Orderly

/-- A field is read exactly if four bytes are left. -/
theorem readField_cases (name : String) (place : Place) :
    (∃ a b c d rest, place.rest = a :: b :: c :: d :: rest ∧
      readField name place = .ok (number a b c d, ⟨place.offset + 4, rest⟩)) ∨
    (place.rest.length < 4 ∧ readField name place = .error (.truncated place.offset name)) := by
  obtain ⟨offset, rest⟩ := place
  match rest with
  | a :: b :: c :: d :: rest => exact .inl ⟨a, b, c, d, rest, rfl, rfl⟩
  | [] | [_] | [_, _] | [_, _, _] => exact .inr ⟨by simp, rfl⟩

theorem Orderly.field (name : String) : Orderly isVehicle (readField name) where
  ends place := by
    rcases readField_cases name place with ⟨a, b, c, d, rest, -, read⟩ | ⟨-, short⟩
    · rw [read]
      exact .read _
    · rw [short]
      exact .truncated name (Nat.le_add_right _ _)
  size {place _ _} h := by
    rcases readField_cases name place with ⟨a, b, c, d, rest, bytes, read⟩ | ⟨-, short⟩
    · rw [read] at h
      cases h
      simp only [Place.size, bytes, List.length_cons]
      omega
    · rw [short] at h
      cases h
  longer {place _ _} more h := by
    rcases readField_cases name place with ⟨a, b, c, d, rest, bytes, read⟩ | ⟨-, short⟩
    · rw [read] at h
      cases h
      simp only [Place.extend, bytes]
      rfl
    · rw [short] at h
      cases h
  refuses {place _} more h := by
    rcases readField_cases name place with ⟨a, b, c, d, rest, -, read⟩ | ⟨-, short⟩
    · rw [read] at h
      cases h
    · rw [short] at h
      cases h

/-- Refuses a count of more fields than are left. -/
def check (name : String) (count : Nat) : Reader Nat := fun place =>
  if place.rest.length / 4 < count then .error (.truncated place.offset name) else .ok (count, place)

theorem readCount_eq (name : String) : readCount name = readField name >>= check name := by
  funext place
  simp only [readCount, bind, StateT.bind, Except.bind]
  cases readField name place with
  | error e => rfl
  | ok r =>
    simp only [check, get, getThe, MonadStateOf.get, StateT.get, pure, Except.pure]
    split <;> rfl

theorem check_ok {name : String} {count n : Nat} {place after : Place}
    (h : check name count place = .ok (n, after)) : n = count ∧ after = place ∧ 4 * count ≤ place.rest.length := by
  unfold check at h
  split at h
  · cases h
  · rename_i room
    cases h
    exact ⟨rfl, rfl, by omega⟩

theorem Orderly.check (name : String) (count : Nat) : Orderly isVehicle (check name count) where
  ends place := by
    unfold Wire.check
    split
    · exact .truncated name (Nat.le_add_right _ _)
    · exact .read _
  size h := by rw [(check_ok h).2.1]
  longer {place _ _} more h := by
    obtain ⟨same, here, room⟩ := check_ok h
    rw [same, here]
    refine if_neg ?_
    simp only [Place.extend, List.length_append]
    omega
  refuses more h := by
    unfold Wire.check at h
    split at h <;> cases h

theorem Orderly.count (name : String) : Orderly isVehicle (readCount name) := by
  rw [readCount_eq]
  exact (Orderly.field name).bind (Orderly.check name)

/-- So many fields at least are left behind a count. -/
theorem room_of_readCount {name : String} {count : Nat} {place after : Place}
    (h : readCount name place = .ok (count, after)) : 4 * count ≤ after.rest.length := by
  rw [readCount_eq] at h
  obtain ⟨n, middle, -, accepted⟩ := bind_ok h
  obtain ⟨rfl, rfl, room⟩ := check_ok accepted
  exact room

theorem Orderly.many {item : Reader α} (h : Orderly isVehicle item) (count : Nat) :
    Orderly isVehicle (readMany item count) := by
  induction count with
  | zero => exact Orderly.done []
  | succ count ih => exact h.bind fun first => ih.bind fun rest => Orderly.done (first :: rest)

/-- Every layout is read in order. -/
theorem Layout.orderly (layout : Layout α) : Orderly isVehicle (layout.reader isVehicle) := by
  induction layout with
  | done a => exact Orderly.done a
  | asking agent next ih =>
    simp only [Layout.reader]
    split
    · rename_i nobody
      exact Orderly.unknown nobody
    · exact ih _
  | field name next ih => exact (Orderly.field name).bind ih
  | counted name item next item_ih next_ih =>
    exact (Orderly.count name).bind fun count => (item_ih.many count).bind next_ih

/-! ## Counts -/

theorem countsMany_le {item : Reader β} {counts : Place → List (Nat × Nat)}
    (each : ∀ place, ∀ c ∈ counts place, 4 * c.1 ≤ c.2) (count : Nat) (place : Place) :
    ∀ c ∈ countsMany item counts count place, 4 * c.1 ≤ c.2 := by
  induction count generalizing place with
  | zero => exact nofun
  | succ count ih =>
    intro c hc
    rw [countsMany] at hc
    rcases List.mem_append.1 hc with first | later
    · exact each place c first
    · split at later
      · cases later
      · exact ih _ c later

/-- A count is at most a quarter of the bytes behind it. -/
theorem Layout.counts_le (layout : Layout α) (place : Place) :
    ∀ c ∈ layout.counts isVehicle place, 4 * c.1 ≤ c.2 := by
  induction layout generalizing place with
  | done a => exact nofun
  | asking agent next ih =>
    rw [Layout.counts]
    split
    · exact nofun
    · exact ih _ place
  | field name next ih =>
    rw [Layout.counts]
    split
    · exact nofun
    · exact ih _ _
  | counted name item next item_ih next_ih =>
    rw [Layout.counts]
    split
    · exact nofun
    · rename_i count after accepted
      intro c hc
      rcases List.mem_cons.1 hc with rfl | hc
      · exact room_of_readCount accepted
      · rcases List.mem_append.1 hc with inside | later
        · exact countsMany_le item_ih count after c inside
        · split at later
          · cases later
          · exact next_ih _ _ c later

/-! ## Whole messages -/

/-- However a message is laid out, reading it ends properly. -/
theorem Layout.ends (layout : Layout α) (data : List UInt8) :
    Ending isVehicle data.length (readAll data (layout.reader isVehicle)) := by
  have orderly : Orderly isVehicle (layout.reader isVehicle) := layout.orderly
  have ending := orderly.ends ⟨0, data⟩
  have size : Place.size ⟨0, data⟩ = data.length := Nat.zero_add _
  rw [size] at ending
  show Ending isVehicle data.length ((layout.reader isVehicle ⟨0, data⟩).map (·.1))
  cases hr : layout.reader isVehicle ⟨0, data⟩ with
  | error e =>
    rw [hr] at ending
    cases ending with
    | truncated name inside => exact .truncated name inside
    | unknown h => exact .unknown h
  | ok r => exact .read _

/-- A message which is read to its last byte is refused where it ends if it is cut off before that. -/
theorem Layout.cut {layout : Layout α} {bytes : List UInt8} {a : α}
    (whole : Reads (layout.reader isVehicle) bytes a) {k : Nat} (short : k < bytes.length) :
    ∃ offset name, offset ≤ k ∧
      readAll (bytes.take k) (layout.reader isVehicle) = .error (.truncated offset name) := by
  have orderly : Orderly isVehicle (layout.reader isVehicle) := layout.orderly
  have all : layout.reader isVehicle (Place.extend ⟨0, bytes.take k⟩ (bytes.drop k)) =
      .ok (a, ⟨bytes.length, []⟩) := by
    have read := whole 0 []
    rw [List.append_nil, Nat.zero_add] at read
    rw [Place.extend, List.take_append_drop]
    exact read
  have ending := orderly.ends ⟨0, bytes.take k⟩
  show ∃ offset name, offset ≤ k ∧
    (layout.reader isVehicle ⟨0, bytes.take k⟩).map (·.1) = .error (.truncated offset name)
  cases hr : layout.reader isVehicle ⟨0, bytes.take k⟩ with
  | ok r =>
    -- what is cut off would be left of the whole message too
    have same := (orderly.longer (bytes.drop k) hr).symm.trans all
    have left : (bytes.drop k).length = 0 := by
      simp only [Except.ok.injEq, Prod.mk.injEq, Place.extend, Place.mk.injEq, List.append_eq_nil_iff] at same
      rw [same.2.2.2, List.length_nil]
    rw [List.length_drop] at left
    omega
  | error e =>
    rw [hr] at ending
    cases ending with
    | truncated name inside =>
      refine ⟨_, name, ?_, rfl⟩
      simpa only [Place.size, List.length_take, Nat.zero_add, Nat.min_eq_left (Nat.le_of_lt short)] using inside
    -- the whole message would be refused for this agent as well
    | unknown _ => cases (orderly.refuses (bytes.drop k) hr).symm.trans all

end Wire

open Wire

/-! ## The layouts of both messages -/

/-- How a passenger is laid out. -/
def PassengerRecord.layout : Layout PassengerRecord :=
  .field "egress index" fun index => .field "passenger id" fun id => .field "passenger cursor" fun cursor =>
    .done ⟨index % 0x100, id, cursor⟩

/-- How an agent is laid out. -/
def AgentRecord.layout : Layout AgentRecord :=
  .field "agent id" fun id => .field "cursor" fun cursor => .asking id fun
    | false => .done ⟨id, cursor, none⟩
    | true => .counted "passenger count" PassengerRecord.layout fun passengers => .done ⟨id, cursor, some passengers⟩

/-- How the agents entering a link are laid out. -/
def LinkRecord.layout : Layout LinkRecord :=
  .field "link id" fun link => .counted "agent count" AgentRecord.layout fun agents =>
    .done ⟨if link = noLink then none else some link, agents⟩

/-- How a transfer to `target` is laid out. -/
def Transfer.layout (target : Nat) : Layout Transfer :=
  .field "time" fun time => .field "sender" fun sender => .counted "record count" LinkRecord.layout fun records =>
    .done ⟨time, sender, target, records⟩

/-- How a release to `target` is laid out. -/
def Release.layout (target : Nat) : Layout Release :=
  .field "time" fun time => .field "sender" fun sender =>
    .counted "record count" (.field "link id" fun link => .field "processed" fun released => .done (link, released))
      fun counts => .done ⟨time, sender, target, counts⟩

variable {isVehicle : Nat → Option Bool} {target : Nat}

theorem AgentRecord.reader_eq : AgentRecord.reader isVehicle = AgentRecord.layout.reader isVehicle := by
  funext place
  refine congrFun (congrArg (bind _) (funext fun id => congrArg (bind _) (funext fun cursor => ?_))) place
  show _ = Layout.reader isVehicle (.asking id _)
  rw [Layout.reader]
  cases isVehicle id with
  | none => rfl
  | some vehicle => cases vehicle <;> rfl

theorem LinkRecord.reader_eq : LinkRecord.reader isVehicle = LinkRecord.layout.reader isVehicle := by
  unfold LinkRecord.reader
  rw [AgentRecord.reader_eq]
  rfl

/-- A transfer is read as it is laid out. -/
theorem Transfer.decode_eq (data : List UInt8) :
    Transfer.decode data target isVehicle = readAll data ((Transfer.layout target).reader isVehicle) := by
  unfold Transfer.decode
  rw [LinkRecord.reader_eq]
  rfl

/-- A release is read as it is laid out, whoever is a vehicle. -/
theorem Release.decode_eq (isVehicle : Nat → Option Bool) (data : List UInt8) :
    Release.decode data target = readAll data ((Release.layout target).reader isVehicle) :=
  rfl

/-! ## Cuts -/

/-- A message that could be read is refused wherever it is cut off, and no later than there. Any bytes at all can be
read, run out, or are about an agent nobody knows, and no count is accepted for which there is no room. -/
theorem cuts_detected (isVehicle : Nat → Option Bool) (target : Nat) :
    (∀ t : Transfer, t.Legible isVehicle → ∀ k < t.encode.length, ∃ offset name, offset ≤ k ∧
      Transfer.decode (t.encode.take k) target isVehicle = .error (.truncated offset name)) ∧
    (∀ r : Release, r.counts.length < base → ∀ k < r.encode.length, ∃ offset name, offset ≤ k ∧
      Release.decode (r.encode.take k) target = .error (.truncated offset name)) ∧
    ∀ data : List UInt8,
      Ending isVehicle data.length (Transfer.decode data target isVehicle) ∧
      Ending (fun _ => some false) data.length (Release.decode data target) ∧
      (∀ c ∈ (Transfer.layout target).counts isVehicle ⟨0, data⟩, 4 * c.1 ≤ c.2) ∧
      ∀ c ∈ (Release.layout target).counts isVehicle ⟨0, data⟩, 4 * c.1 ≤ c.2 := by
  refine ⟨fun t legible k short => ?_, fun r countable k short => ?_, fun data => ⟨?_, ?_, ?_, ?_⟩⟩
  · have whole : Reads ((Transfer.layout target).reader isVehicle) t.encode (t.arrival target) := by
      have read : Reads _ t.encode (t.arrival target) := Transfer.reads legible
      rw [LinkRecord.reader_eq] at read
      exact read
    rw [Transfer.decode_eq]
    exact Layout.cut whole short
  · have whole : Reads ((Release.layout target).reader isVehicle) r.encode (r.arrival target) :=
      Release.reads countable
    rw [Release.decode_eq isVehicle]
    exact Layout.cut whole short
  · rw [Transfer.decode_eq]
    exact Layout.ends _ data
  · exact Layout.ends (Release.layout target) data
  · exact Layout.counts_le _ _
  · exact Layout.counts_le _ _

/-- A bus with two passengers enters a link, and the message is cut off within the second one: the counts of groups,
agents and passengers have been accepted by then. -/
theorem cuts_detected_bus :
    let isVehicle := fun id => if id < 100 then some (decide (10 < id)) else none
    let message : Transfer := ⟨11, 2, 0, [⟨some 5, [⟨12, 3, some [⟨4, 7, 2⟩, ⟨6, 8, 2⟩]⟩]⟩]⟩
    (message.Legible isVehicle ∧ 46 < message.encode.length) ∧
      (∃ offset name, offset ≤ 46 ∧
        Transfer.decode (message.encode.take 46) 0 isVehicle = .error (.truncated offset name)) ∧
      (Transfer.layout 0).counts isVehicle ⟨0, message.encode.take 46⟩ = [(1, 34), (1, 26), (2, 14)] := by
  intro isVehicle message
  have bus : AgentRecord.Legible isVehicle ⟨12, 3, some [⟨4, 7, 2⟩, ⟨6, 8, 2⟩]⟩ := by
    refine ⟨by decide, fun passengers listed => ?_⟩
    cases listed
    decide
  have group : LinkRecord.Legible isVehicle ⟨some 5, [⟨12, 3, some [⟨4, 7, 2⟩, ⟨6, 8, 2⟩]⟩]⟩ := by
    refine ⟨fun link own => ?_, by decide, fun r hr => ?_⟩
    · cases own
      decide
    · rw [List.mem_singleton.1 hr]
      exact bus
  have legible : message.Legible isVehicle := by
    refine ⟨by decide, fun g hg => ?_⟩
    rw [List.mem_singleton.1 hg]
    exact group
  have short : 46 < message.encode.length := by decide
  exact ⟨⟨legible, short⟩, (cuts_detected isVehicle 0).1 message legible 46 short, by decide +kernel⟩

end Mobility
