import Mobility.Snapshot.File

/-!
# Binary snapshots are read back

What fits into the fields of its shape (`Shape.Fits`) is read from its bytes as it was written, whatever follows
(`Shape.reads`). So a scenario whose numbers fit comes back from its binary snapshot, without its neighbors, which
aren't stored (`Scenario.decode_encode`).
-/

set_option autoImplicit false

namespace Mobility

namespace Table

variable {β : Type}

theorem get?_foldl_insert {rows : List (Nat × β)} (ascending : rows.Pairwise fun a b => a.1 < b.1) (t : Table β)
    (k : Nat) : (rows.foldl (fun t r => t.insert r.1 r.2) t).get? k = (lookup k rows).or (t.get? k) := by
  induction rows generalizing t with
  | nil => rfl
  | cons row rest ih =>
    obtain ⟨before, later⟩ := List.pairwise_cons.1 ascending
    rw [List.foldl_cons, ih later, get?_insert, lookup]
    by_cases own : k = row.1
    · rw [if_pos own, if_pos own, lookup_eq_none fun r hr => own ▸ before r hr]
      rfl
    · rw [if_neg own, if_neg own]

/-- A table is made of its rows. -/
theorem foldl_insert_entries (t : Table β) : t.entries.foldl (fun t r => t.insert r.1 r.2) .empty = t := by
  apply ext_get?
  intro k
  rw [get?_foldl_insert t.ascending, get?_empty, Option.or_none]
  rfl

end Table

namespace Binary

variable {α β : Type}

/-- The reader takes exactly these bytes, whatever follows, and makes `a` of them. -/
def Reads (reader : Reader α) (bytes : List UInt8) (a : α) : Prop :=
  ∀ rest, reader (bytes ++ rest) = some (a, rest)

/-- A number fits into a field of two, four or eight bytes. -/
def FitsInto (bytes n : Nat) : Prop := n < LittleEndian.limit bytes ∧ (bytes = 2 ∨ bytes = 4 ∨ bytes = 8)

/-- Behind the byte that tells the width stands the number. -/
theorem reads_wide {bytes width n : Nat} {first : UInt8} (known : widthOf first = some width) (long : ¬ first < 251)
    (room : width ≤ bytes) (fits : n < LittleEndian.limit width) :
    Reads (readVarint bytes) (first :: LittleEndian.encode width n) n := by
  intro rest
  rw [List.cons_append, readVarint, if_neg long, known]
  show (if width ≤ bytes then LittleEndian.decode width _ else none) = _
  rw [if_pos room, LittleEndian.decode_encode fits]

theorem reads_varint {bytes n : Nat} (h : FitsInto bytes n) : Reads (readVarint bytes) (varint n) n := by
  obtain ⟨small, width⟩ := h
  have limits : LittleEndian.limit 2 = 0x10000 ∧ LittleEndian.limit 4 = 0x100000000 ∧
      LittleEndian.limit 8 = 0x10000000000000000 := by decide
  obtain ⟨two, four, eight⟩ := limits
  unfold varint
  split
  · rename_i short
    have value : (UInt8.ofNat n).toNat = n := by
      rw [UInt8.toNat_ofNat']
      omega
    have below : UInt8.ofNat n < 251 := by
      rw [UInt8.lt_iff_toNat_lt, value]
      exact short
    intro rest
    rw [List.singleton_append, readVarint, if_pos below, value]
  · split
    · rename_i below
      exact reads_wide rfl (by decide) (by omega) (two ▸ below)
    · split
      · rename_i above below
        refine reads_wide rfl (by decide) ?_ (four ▸ below)
        rcases width with rfl | rfl | rfl
        · exact absurd (two ▸ small) above
        · exact Nat.le_refl 4
        · exact Nat.le_add_right 4 4
      · rename_i above
        rcases width with rfl | rfl | rfl
        · omega
        · omega
        · exact reads_wide rfl (by decide) (Nat.le_refl 8) small

theorem reads_many {item : Reader β} {encode : α → List UInt8} {value : α → β} {xs : List α} (before : List β)
    (h : ∀ x ∈ xs, Reads item (encode x) (value x)) :
    Reads (readMany item xs.length before) (xs.flatMap encode) (before.reverse ++ xs.map value) := by
  induction xs generalizing before with
  | nil =>
    intro rest
    simp [readMany]
  | cons x xs ih =>
    intro rest
    have later := ih (value x :: before) (fun y hy => h y (List.mem_cons_of_mem _ hy)) rest
    rw [List.reverse_cons, List.append_assoc] at later
    rw [List.flatMap_cons, List.append_assoc, List.length_cons, readMany, h x List.mem_cons_self]
    exact later

theorem reads_list {item : Reader β} {encode : α → List UInt8} {value : α → β} {xs : List α}
    (size : FitsInto 8 xs.length) (h : ∀ x ∈ xs, Reads item (encode x) (value x)) :
    Reads (readList item) (varint xs.length ++ xs.flatMap encode) (xs.map value) := by
  intro rest
  rw [List.append_assoc, readList, reads_varint size]
  exact reads_many [] h rest

theorem reads_plan (p : Plan) :
    Reads readPlan (varint p.words.size ++ p.words.toList.flatMap fun w => varint w.toNat) p := by
  intro rest
  have words : ∀ w ∈ p.words.toList, Reads (readVarint 8) (varint w.toNat) w.toNat := fun w _ =>
    reads_varint ⟨w.toNat_lt, .inr (.inr rfl)⟩
  have size : FitsInto 8 p.words.toList.length := by
    have short : p.words.size ≤ 65535 := p.size_le
    refine ⟨?_, .inr (.inr rfl)⟩
    rw [Array.length_toList]
    exact Nat.lt_of_le_of_lt short (by decide)
  have listed := reads_list size words rest
  have same : ((p.words.toList.map UInt64.toNat).map UInt64.ofNat).toArray = p.words := by
    have each : p.words.toList.map (UInt64.ofNat ∘ UInt64.toNat) = p.words.toList.map id :=
      List.map_congr_left fun w _ => UInt64.ofNat_toNat
    rw [List.map_map, each, List.map_id]
  rw [Array.length_toList] at listed
  unfold readPlan
  rw [listed]
  show ((Plan.ofWords ((p.words.toList.map UInt64.toNat).map UInt64.ofNat).toArray).toOption.bind fun plan =>
    some (plan, rest)) = some (p, rest)
  rw [same, Plan.ofWords, dif_pos p.size_le]
  rfl

end Binary

open Binary

/-! ## Shapes -/

mutual

/-- All numbers of a value fit into their fields, and all lists can be counted. -/
def Shape.Fits : (s : Shape) → s.Value → Prop
  | .number bytes, (n : Nat) => FitsInto bytes n
  | .measure, _ => True
  | .plan, _ => True
  | .list item, (items : List item.Value) => FitsInto 8 items.length ∧ ∀ x ∈ items, item.Fits x
  | .table row, (rows : Table row.Value) =>
    FitsInto 8 rows.entries.length ∧ ∀ r ∈ rows.entries, r.1 < 0x100 ∧ row.Fits r.2
  | .record fields, value => fields.Fits value

/-- All fields fit. -/
def Fields.Fits : (f : Fields) → f.Value → Prop
  | .done, _ => True
  | .field _ value rest, (v, vs) => value.Fits v ∧ rest.Fits vs
  | .orZero _ bytes rest, (n, vs) => FitsInto bytes n ∧ rest.Fits vs

end

instance (bytes n : Nat) : Decidable (FitsInto bytes n) :=
  inferInstanceAs (Decidable (n < LittleEndian.limit bytes ∧ (bytes = 2 ∨ bytes = 4 ∨ bytes = 8)))

mutual

/-- Whether a value fits can be computed. -/
def Shape.decidableFits : (s : Shape) → (v : s.Value) → Decidable (s.Fits v)
  | .number bytes, (n : Nat) => inferInstanceAs (Decidable (FitsInto bytes n))
  | .measure, _ => .isTrue trivial
  | .plan, _ => .isTrue trivial
  | .list item, (items : List item.Value) =>
    have : DecidablePred item.Fits := Shape.decidableFits item
    inferInstanceAs (Decidable (FitsInto 8 items.length ∧ ∀ x ∈ items, item.Fits x))
  | .table row, (rows : Table row.Value) =>
    have : DecidablePred row.Fits := Shape.decidableFits row
    inferInstanceAs (Decidable (FitsInto 8 rows.entries.length ∧
      ∀ r ∈ rows.entries, r.1 < 0x100 ∧ row.Fits r.2))
  | .record fields, v => Fields.decidableFits fields v

/-- Whether all fields fit can be computed. -/
def Fields.decidableFits : (f : Fields) → (v : f.Value) → Decidable (f.Fits v)
  | .done, _ => .isTrue trivial
  | .field _ value rest, (v, vs) =>
    have := Shape.decidableFits value v
    have := Fields.decidableFits rest vs
    inferInstanceAs (Decidable (value.Fits v ∧ rest.Fits vs))
  | .orZero _ bytes rest, (n, vs) =>
    have := Fields.decidableFits rest vs
    inferInstanceAs (Decidable (FitsInto bytes n ∧ rest.Fits vs))

end

mutual

/-- Whether two values are the same can be computed. -/
def Shape.decidableEq : (s : Shape) → DecidableEq s.Value
  | .number _ => inferInstanceAs (DecidableEq Nat)
  | .measure => inferInstanceAs (DecidableEq Measure)
  | .plan => inferInstanceAs (DecidableEq Plan)
  | .list item =>
    have := Shape.decidableEq item
    inferInstanceAs (DecidableEq (List item.Value))
  | .table row =>
    have := Shape.decidableEq row
    inferInstanceAs (DecidableEq (Table row.Value))
  | .record fields => Fields.decidableEq fields

/-- Whether all fields are the same can be computed. -/
def Fields.decidableEq : (f : Fields) → DecidableEq f.Value
  | .done => inferInstanceAs (DecidableEq Unit)
  | .field _ value rest =>
    have := Shape.decidableEq value
    have := Fields.decidableEq rest
    inferInstanceAs (DecidableEq (value.Value × rest.Value))
  | .orZero _ _ rest =>
    have := Fields.decidableEq rest
    inferInstanceAs (DecidableEq (Nat × rest.Value))

end

instance (s : Shape) : DecidableEq s.Value := Shape.decidableEq s

/-- A measure is stored as its pattern. -/
theorem Measure.reads (m : Measure) : Reads Shape.measure.decode (Shape.measure.encode m) m := by
  intro rest
  have pattern : m.bits.toNat < LittleEndian.limit 4 := m.bits.toNat_lt
  show (LittleEndian.decode 4 (LittleEndian.encode 4 m.bits.toNat ++ rest)).map
    (fun read => (Measure.mk (UInt32.ofNat read.1), read.2)) = some (m, rest)
  rw [LittleEndian.decode_encode pattern, Option.map_some, UInt32.ofNat_toNat]

/-- A row is stored as its key and what stands there. -/
theorem reads_row {α : Type} {row : Reader α} {bytes : List UInt8} {r : Nat × α} (key : r.1 < 0x100)
    (h : Reads row bytes r.2) : Reads (readRow row) (UInt8.ofNat r.1 :: bytes) r := by
  intro rest
  have value : (UInt8.ofNat r.1).toNat = r.1 := by
    rw [UInt8.toNat_ofNat']
    omega
  rw [List.cons_append, readRow, h rest, Option.map_some, value]

theorem reads_items {item : Shape} {items : List item.Value} (size : FitsInto 8 items.length)
    (h : ∀ x ∈ items, Reads item.decode (item.encode x) x) :
    Reads (Shape.list item).decode ((Shape.list item).encode items) items := by
  have listed : Reads (readList item.decode) (varint items.length ++ items.flatMap item.encode) (items.map id) :=
    reads_list size h
  rw [List.map_id] at listed
  simp only [Shape.decode, Shape.encode]
  exact listed

theorem reads_rows {row : Shape} {rows : Table row.Value} (size : FitsInto 8 rows.entries.length)
    (h : ∀ r ∈ rows.entries, Reads (readRow row.decode) (UInt8.ofNat r.1 :: row.encode r.2) r) :
    Reads (Shape.table row).decode ((Shape.table row).encode rows) rows := by
  have listed : Reads (readList (readRow row.decode)) (varint rows.entries.length ++
      rows.entries.flatMap fun r => UInt8.ofNat r.1 :: row.encode r.2) (rows.entries.map id) :=
    reads_list size h
  rw [List.map_id] at listed
  intro rest
  simp only [Shape.decode, Shape.encode]
  rw [listed rest, Option.map_some]
  exact congrArg (fun t => some (t, rest)) (Table.foldl_insert_entries rows)

mutual

/-- What fits is read back. -/
theorem Shape.reads : (s : Shape) → (v : s.Value) → s.Fits v → Reads s.decode (s.encode v) v
  | .number bytes, n, h => by
    simp only [Shape.Fits] at h
    simp only [Shape.decode, Shape.encode]
    exact reads_varint h
  | .measure, m, _ => Measure.reads m
  | .plan, p, _ => by
    simp only [Shape.decode, Shape.encode]
    exact reads_plan p
  | .list item, items, h => by
    simp only [Shape.Fits] at h
    obtain ⟨size, fits⟩ := h
    exact reads_items size fun x hx => Shape.reads item x (fits x hx)
  | .table row, rows, h => by
    simp only [Shape.Fits] at h
    obtain ⟨size, fits⟩ := h
    exact reads_rows size fun r hr => reads_row (fits r hr).1 (Shape.reads row r.2 (fits r hr).2)
  | .record fields, v, h => by
    simp only [Shape.Fits] at h
    simp only [Shape.decode, Shape.encode]
    exact Fields.reads fields v h

theorem Fields.reads : (f : Fields) → (v : f.Value) → f.Fits v → Reads f.decode (f.encode v) v
  | .done, (), _ => by
    intro rest
    simp only [Fields.decode, Fields.encode, List.nil_append]
  | .field name value rest, (v, vs), h => by
    simp only [Fields.Fits] at h
    intro behind
    simp only [Fields.decode, Fields.encode]
    rw [List.append_assoc, Shape.reads value v h.1]
    show (rest.decode (rest.encode vs ++ behind) >>= fun read => _) = _
    rw [Fields.reads rest vs h.2]
    rfl
  | .orZero name bytes rest, (n, vs), h => by
    simp only [Fields.Fits] at h
    intro behind
    simp only [Fields.decode, Fields.encode]
    rw [List.append_assoc, reads_varint h.1]
    show (rest.decode (rest.encode vs ++ behind) >>= fun read => _) = _
    rw [Fields.reads rest vs h.2]
    rfl

end

/-! ## Scenarios -/

namespace Scenario

/-- A scenario is stored without its neighbors. -/
theorem ofStored_stored (s : Scenario) : ofStored s.stored = { s with neighbors := .empty } := by
  have links : (s.links.toList.map (·.stored)).map LinkSpec.ofStored = s.links.toList := by
    rw [List.map_map]
    exact List.map_id _
  have stops : (s.stops.toList.map (·.stored)).map StopSpec.ofStored = s.stops.toList := by
    rw [List.map_map]
    exact List.map_id _
  have agents : (s.agents.toList.map (·.stored)).map Agent.ofStored = s.agents.toList := by
    have each : ∀ a : Agent, Agent.ofStored a.stored = a := by
      intro a
      have event : low16 a.finishEvent.val = a.finishEvent := Fin.ext (Nat.mod_eq_of_lt a.finishEvent.isLt)
      show ({ a with finishEvent := low16 a.finishEvent.val } : Agent) = a
      rw [event]
    rw [List.map_map]
    exact (List.map_congr_left fun a _ => each a).trans (List.map_id _)
  have crossings : (s.crossings.map (·.stored)).map Crossing.ofStored = s.crossings := by
    rw [List.map_map]
    exact List.map_id _
  have all : (⟨s.numParts, ((s.links.toList.map (·.stored)).map LinkSpec.ofStored).toArray,
      ((s.stops.toList.map (·.stored)).map StopSpec.ofStored).toArray,
      ((s.agents.toList.map (·.stored)).map Agent.ofStored).toArray, s.homes.toList.toArray,
      (s.crossings.map (·.stored)).map Crossing.ofStored, .empty⟩ : Scenario) = { s with neighbors := .empty } := by
    rw [links, stops, agents, crossings]
  exact all

/-- What is stored of a scenario fits into its fields. -/
def Storable (s : Scenario) : Prop := (Shape.record fields).Fits s.stored

instance (s : Scenario) : Decidable s.Storable := Shape.decidableFits (.record fields) s.stored

/-- What is stored of a scenario is read back from its binary snapshot. -/
theorem Storable.decode_encode {s : Scenario} (h : s.Storable) :
    SnapshotForm.binary.decode ⟨SnapshotForm.binary.encode s.stored, true⟩ = .ok s.stored := by
  have read := Shape.reads (.record fields) s.stored h []
  rw [List.append_nil] at read
  unfold SnapshotForm.decode SnapshotForm.encode
  simp only [read]

end Scenario

end Mobility
