import Mathlib.Tactic.IntervalCases
import Mobility.Instruction.Word

/-!
# Instructions and words

A `Draft` is what an instruction is asked to say before the width of its fields was checked. The checked constructors
give the instruction of a draft if every field fits and otherwise name the first field which is too large. Main
statement: instructions and words without ignored bits correspond one to one, and reading and writing any other word
clears the bits which its kind ignores (`coding_bijective`).
-/

set_option autoImplicit false

namespace Mobility

/-! ## Drafts -/

/-- The values of a field are below this number. -/
def Field.limit : Field → Nat
  | .event | .route | .stop => 0x10000
  | .link => 0x1000000
  | .velocity | .stopIndex => 0x100

/-- The first of some values, each with its field, which is too large for its field. -/
def firstTooLarge (values : List (Field × Nat)) : Option (Field × Nat) :=
  values.find? fun f => decide (f.1.limit ≤ f.2)

/-- What an instruction is asked to say. Seconds fit in any case. -/
inductive Draft where
  | traverse (event link velocity : Nat)
  | sleepFor (event : Nat) (duration : Seconds)
  | sleepUntil (event : Nat) (time : Seconds)
  | access (event route stop index : Nat)
  | egress (event route stop index : Nat)
  | stopArrive (event route stop index : Nat)
  | stopDelay (event route stop index : Nat)
  | stopDepart (event route stop index : Nat)
  | wait (event route stop : Nat)

namespace Draft

/-- The kind of the instruction which is asked for. -/
def kind : Draft → Kind
  | traverse .. => .linkTraversal
  | sleepFor .. => .sleepFor
  | sleepUntil .. => .sleepUntil
  | access .. => .access
  | egress .. => .egress
  | stopArrive .. => .stopArrive
  | stopDelay .. => .stopDelay
  | stopDepart .. => .stopDepart
  | wait .. => .wait

/-- The checked constructor of the kind. -/
def make : Draft → Except PlanError Instruction
  | traverse event link velocity => Instruction.traverse event link velocity
  | sleepFor event duration => Instruction.sleepFor event duration
  | sleepUntil event time => Instruction.sleepUntil event time
  | access event route stop index => Instruction.access event route stop index
  | egress event route stop index => Instruction.egress event route stop index
  | stopArrive event route stop index => Instruction.stopArrive event route stop index
  | stopDelay event route stop index => Instruction.stopDelay event route stop index
  | stopDepart event route stop index => Instruction.stopDepart event route stop index
  | wait event route stop => Instruction.wait event route stop

/-- The values which can be too large with their fields, the event first and then from left to right. -/
def values : Draft → List (Field × Nat)
  | traverse event link velocity => [(.event, event), (.link, link), (.velocity, velocity)]
  | sleepFor event _ | sleepUntil event _ => [(.event, event)]
  | access event route stop index | egress event route stop index | stopArrive event route stop index
  | stopDelay event route stop index | stopDepart event route stop index =>
    [(.event, event), (.route, route), (.stop, stop), (.stopIndex, index)]
  | wait event route stop => [(.event, event), (.route, route), (.stop, stop)]

/-- What an instruction says. -/
def of (i : Instruction) : Draft :=
  match i.action with
  | .traverse link velocity => traverse i.event link velocity
  | .sleepFor duration => sleepFor i.event duration
  | .sleepUntil time => sleepUntil i.event time
  | .access stop => access i.event stop.route stop.stop stop.index
  | .egress stop => egress i.event stop.route stop.stop stop.index
  | .stopArrive stop => stopArrive i.event stop.route stop.stop stop.index
  | .stopDelay stop => stopDelay i.event stop.route stop.stop stop.index
  | .stopDepart stop => stopDepart i.event stop.route stop.stop stop.index
  | .wait route stop => wait i.event route stop

end Draft

variable {α β : Type} {kind : Kind} {field : Field} {value limit payload : Nat} {values more : List (Field × Nat)}
  {event route stop index : Nat} {d : Draft} {i j : Instruction} {w : Word}

/-! ## What the constructors check -/

theorem firstTooLarge_eq_none : firstTooLarge values = none ↔ ∀ f ∈ values, f.2 < f.1.limit := by
  simp [firstTooLarge]

theorem firstTooLarge_append :
    firstTooLarge (values ++ more) = (firstTooLarge values).or (firstTooLarge more) :=
  List.find?_append

/-- `result` was computed by checking these values for an instruction of a kind in their order. -/
structure Checks (kind : Kind) (values : List (Field × Nat)) (result : Except PlanError α) : Prop where
  passes : firstTooLarge values = none → ∃ a, result = .ok a
  names : ∀ f, firstTooLarge values = some f → result = .error (.fieldTooLarge kind f.1 f.2 (f.1.limit - 1))

namespace Checks

theorem ok (a : α) : Checks kind [] (.ok a) where
  passes _ := ⟨a, rfl⟩
  names _ h := nomatch h

theorem check (field : Field) (value : Nat) :
    Checks kind [(field, value)] (field.check kind field.limit value) := by
  rcases Nat.lt_or_ge value field.limit with fits | large
  · have none : firstTooLarge [(field, value)] = none := by simp [firstTooLarge, fits]
    exact ⟨fun _ => ⟨⟨value, fits⟩, dif_pos fits⟩, fun f h => by simp [none] at h⟩
  · have some : firstTooLarge [(field, value)] = some (field, value) := by simp [firstTooLarge, large]
    refine ⟨fun h => by simp [some] at h, fun f h => ?_⟩
    obtain rfl := Option.some.inj (some.symm.trans h)
    exact dif_neg (Nat.not_lt.2 large)

theorem bind {x : Except PlanError α} {next : α → Except PlanError β} (first : Checks kind values x)
    (second : ∀ a, Checks kind more (next a)) : Checks kind (values ++ more) (x >>= next) where
  passes h := by
    obtain ⟨early, late⟩ := Option.or_eq_none_iff.1 (firstTooLarge_append.symm.trans h)
    obtain ⟨a, rfl⟩ := first.passes early
    exact (second a).passes late
  names f h := by
    rcases Option.or_eq_some_iff.1 (firstTooLarge_append.symm.trans h) with early | ⟨early, late⟩
    · rw [first.names f early]
      rfl
    · obtain ⟨a, rfl⟩ := first.passes early
      exact (second a).names f late

theorem map {x : Except PlanError α} (g : α → β) (h : Checks kind values x) : Checks kind values (g <$> x) where
  passes none := by
    obtain ⟨a, rfl⟩ := h.passes none
    exact ⟨g a, rfl⟩
  names f some := by
    rw [h.names f some]
    rfl

theorem checked {action : Except PlanError Action} (h : Checks kind values action) :
    Checks kind ((.event, event) :: values) (Instruction.checked kind event action) :=
  (check .event event).bind fun event => h.map (Instruction.mk event)

theorem checkedStop : Checks kind [(.route, route), (.stop, stop), (.stopIndex, index)]
    (Instruction.checkedStop kind route stop index) :=
  (check .route route).bind fun route => (check .stop stop).bind fun stop =>
    (check .stopIndex index).map (StopRef.mk route stop)

end Checks

theorem Draft.checks_make (d : Draft) : Checks d.kind d.values d.make := by
  cases d with
  | traverse event link velocity =>
    exact .checked ((Checks.check .link link).bind fun link =>
      (Checks.check .velocity velocity).map (Action.traverse link))
  | sleepFor event duration => exact .checked (.ok _)
  | sleepUntil event time => exact .checked (.ok _)
  | access event route stop index => exact .checked (Checks.checkedStop.map _)
  | egress event route stop index => exact .checked (Checks.checkedStop.map _)
  | stopArrive event route stop index => exact .checked (Checks.checkedStop.map _)
  | stopDelay event route stop index => exact .checked (Checks.checkedStop.map _)
  | stopDepart event route stop index => exact .checked (Checks.checkedStop.map _)
  | wait event route stop =>
    exact .checked ((Checks.check .route route).bind fun route => (Checks.check .stop stop).map (Action.wait route))

namespace Draft

theorem exists_make_iff : (∃ i, d.make = .ok i) ↔ ∀ f ∈ d.values, f.2 < f.1.limit := by
  rw [← firstTooLarge_eq_none]
  refine ⟨?_, d.checks_make.passes⟩
  rintro ⟨i, made⟩
  cases large : firstTooLarge d.values with
  | none => rfl
  | some f => cases made.symm.trans (d.checks_make.names f large)

theorem make_eq_error_iff {e : PlanError} : d.make = .error e ↔
    ∃ f, firstTooLarge d.values = some f ∧ e = .fieldTooLarge d.kind f.1 f.2 (f.1.limit - 1) := by
  constructor
  · intro refused
    cases large : firstTooLarge d.values with
    | none =>
      obtain ⟨i, made⟩ := d.checks_make.passes large
      cases made.symm.trans refused
    | some f => exact ⟨f, rfl, Except.error.inj (refused.symm.trans (d.checks_make.names f large))⟩
  · rintro ⟨f, large, rfl⟩
    exact d.checks_make.names f large

end Draft

/-! ## What the constructors give -/

theorem Field.check_eq_ok {a : Fin limit} : field.check kind limit value = .ok a ↔ value = a := by
  unfold check
  split
  · exact ⟨fun h => congrArg Fin.val (Except.ok.inj h), fun h => congrArg _ (Fin.ext h)⟩
  · exact ⟨nofun, fun h => absurd (h ▸ a.isLt) ‹_›⟩

theorem bind_eq_ok_iff {x : Except PlanError α} {next : α → Except PlanError β} {b : β} :
    x >>= next = .ok b ↔ ∃ a, x = .ok a ∧ next a = .ok b := by
  cases x with
  | error e => exact ⟨nofun, fun ⟨_, h, _⟩ => nomatch h⟩
  | ok a => exact ⟨fun h => ⟨a, rfl, h⟩, fun ⟨_, h, next⟩ => Except.ok.inj h ▸ next⟩

theorem map_eq_ok_iff {x : Except PlanError α} {g : α → β} {b : β} :
    g <$> x = .ok b ↔ ∃ a, x = .ok a ∧ g a = b := by
  cases x with
  | error e => exact ⟨nofun, fun ⟨_, h, _⟩ => nomatch h⟩
  | ok a => exact ⟨fun h => ⟨a, rfl, Except.ok.inj h⟩, fun ⟨_, h, made⟩ => by cases h; cases made; rfl⟩

theorem checked_eq_ok_iff {action : Except PlanError Action} :
    Instruction.checked kind event action = .ok i ↔ event = i.event ∧ action = .ok i.action := by
  obtain ⟨own, act⟩ := i
  simp only [Instruction.checked, bind_eq_ok_iff, Field.check_eq_ok]
  constructor
  · rintro ⟨_, rfl, _, rfl, h⟩
    cases h
    exact ⟨rfl, rfl⟩
  · rintro ⟨rfl, rfl⟩
    exact ⟨own, rfl, act, rfl, rfl⟩

theorem checkedStop_eq_ok_iff {s : StopRef} : Instruction.checkedStop kind route stop index = .ok s ↔
    route = s.route ∧ stop = s.stop ∧ index = s.index := by
  obtain ⟨r, t, n⟩ := s
  simp only [Instruction.checkedStop, bind_eq_ok_iff, Field.check_eq_ok]
  constructor
  · rintro ⟨_, rfl, _, rfl, _, rfl, h⟩
    cases h
    exact ⟨rfl, rfl, rfl⟩
  · rintro ⟨rfl, rfl, rfl⟩
    exact ⟨r, rfl, t, rfl, n, rfl, rfl⟩

/-- An instruction at a stop says what was asked for. -/
theorem atStop_eq_ok_iff {action : StopRef → Action} :
    Instruction.checked kind event (action <$> Instruction.checkedStop kind route stop index) = .ok i ↔
      event = i.event ∧
        ∃ s : StopRef, (route = s.route ∧ stop = s.stop ∧ index = s.index) ∧ action s = i.action := by
  simp only [checked_eq_ok_iff, map_eq_ok_iff, checkedStop_eq_ok_iff]

/-- A constructor gives an instruction exactly when it is asked for what the instruction says. -/
theorem Draft.make_eq_ok_iff : d.make = .ok i ↔ d = .of i := by
  obtain ⟨own, action⟩ := i
  constructor
  · intro made
    cases d with
    | traverse event link velocity =>
      obtain ⟨rfl, acts⟩ := checked_eq_ok_iff.1 made
      simp only [bind_eq_ok_iff, Field.check_eq_ok] at acts
      obtain ⟨_, rfl, _, rfl, acts⟩ := acts
      cases acts
      rfl
    | sleepFor | sleepUntil =>
      obtain ⟨rfl, acts⟩ := checked_eq_ok_iff.1 made
      cases acts
      rfl
    | access | egress | stopArrive | stopDelay | stopDepart =>
      obtain ⟨rfl, s, ⟨rfl, rfl, rfl⟩, rfl⟩ := atStop_eq_ok_iff.1 made
      rfl
    | wait event route stop =>
      obtain ⟨rfl, acts⟩ := checked_eq_ok_iff.1 made
      simp only [bind_eq_ok_iff, Field.check_eq_ok] at acts
      obtain ⟨_, rfl, _, rfl, acts⟩ := acts
      cases acts
      rfl
  · rintro rfl
    cases action with
    | traverse link velocity =>
      refine checked_eq_ok_iff.2 ⟨rfl, ?_⟩
      simp only [bind_eq_ok_iff, Field.check_eq_ok]
      exact ⟨link, rfl, velocity, rfl, rfl⟩
    | sleepFor | sleepUntil => exact checked_eq_ok_iff.2 ⟨rfl, rfl⟩
    | access s | egress s | stopArrive s | stopDelay s | stopDepart s =>
      exact atStop_eq_ok_iff.2 ⟨rfl, s, ⟨rfl, rfl, rfl⟩, rfl⟩
    | wait route stop =>
      refine checked_eq_ok_iff.2 ⟨rfl, ?_⟩
      simp only [bind_eq_ok_iff, Field.check_eq_ok]
      exact ⟨route, rfl, stop, rfl, rfl⟩

/-! ## From an instruction to its word and back -/

theorem Kind.code_bounds (kind : Kind) : 1 ≤ kind.code ∧ kind.code ≤ 9 := by
  cases kind <;> exact ⟨by decide, by decide⟩

theorem Kind.ofCode?_eq_some {code : Nat} (h : Kind.ofCode? code = some kind) : code = kind.code := by
  unfold ofCode? at h
  split at h <;> cases h <;> rfl

theorem Kind.ofCode?_eq_none {code : Nat} : Kind.ofCode? code = none ↔ ¬(1 ≤ code ∧ code ≤ 9) := by
  constructor
  · rintro none ⟨least, most⟩
    interval_cases code <;> cases none
  · intro outside
    cases some : Kind.ofCode? code with
    | none => rfl
    | some kind => exact absurd (Kind.ofCode?_eq_some some ▸ kind.code_bounds) outside

theorem StopRef.payload_lt (s : StopRef) : s.payload < 2 ^ 40 := by
  have := s.route.isLt
  have := s.stop.isLt
  have := s.index.isLt
  unfold payload
  omega

theorem StopRef.ofPayload_payload (s : StopRef) : StopRef.ofPayload s.payload = s := by
  obtain ⟨route, stop, index⟩ := s
  have := stop.isLt
  have := index.isLt
  simp only [ofPayload, payload, low16, low8, StopRef.mk.injEq, Fin.ext_iff, Fin.val_ofNat]
  omega

theorem Action.payload_lt (a : Action) : a.payload < 2 ^ 40 := by
  cases a with
  | traverse link velocity => simp only [payload]; omega
  | sleepFor seconds => simp only [payload]; omega
  | sleepUntil seconds => simp only [payload]; omega
  | access s | egress s | stopArrive s | stopDelay s | stopDepart s => exact s.payload_lt
  | wait route stop => simp only [payload]; omega

theorem Action.ofPayload_payload (a : Action) : Action.ofPayload a.kind a.payload = a := by
  cases a with
  | traverse link velocity =>
    simp only [kind, ofPayload, payload, low24, low8, Action.traverse.injEq, Fin.ext_iff, Fin.val_ofNat]
    omega
  | sleepFor seconds => exact congrArg sleepFor (Fin.ofNat_val_eq_self seconds)
  | sleepUntil seconds => exact congrArg sleepUntil (Fin.ofNat_val_eq_self seconds)
  | access s => exact congrArg access s.ofPayload_payload
  | egress s => exact congrArg egress s.ofPayload_payload
  | stopArrive s => exact congrArg stopArrive s.ofPayload_payload
  | stopDelay s => exact congrArg stopDelay s.ofPayload_payload
  | stopDepart s => exact congrArg stopDepart s.ofPayload_payload
  | wait route stop =>
    simp only [kind, ofPayload, payload, StopRef.ofPayload, low16, Action.wait.injEq, Fin.ext_iff, Fin.val_ofNat]
    omega

namespace Instruction

theorem toNat_encode (i : Instruction) :
    i.encode.toNat = 2 ^ 40 * (2 ^ 16 * i.kind.code + i.event) + i.action.payload := by
  have code := i.action.kind.code_bounds
  have event := i.event.isLt
  have payload := i.action.payload_lt
  unfold encode
  rw [UInt64.toNat_ofNat_of_lt' (by simp only [kind, UInt64.size]; omega)]
  omega

/-- The parts of a word are read where they are written. -/
theorem decode_eq_ok (own : EventId) (low : payload < 2 ^ 40)
    (whole : w.toNat = 2 ^ 40 * (2 ^ 16 * kind.code + own) + payload) :
    decode w = .ok ⟨own, .ofPayload kind payload⟩ := by
  have code : w.toNat / 0x100000000000000 = kind.code := by omega
  have event : low16 (w.toNat / 0x10000000000) = own := by
    rw [Fin.ext_iff, low16, Fin.val_ofNat]
    omega
  have rest : w.toNat % 0x10000000000 = payload := by omega
  unfold decode
  rw [code, Kind.ofCode?_code, rest, event]

/-- What was packed is unpacked. -/
theorem decode_encode (i : Instruction) : decode i.encode = .ok i := by
  rw [decode_eq_ok i.event i.action.payload_lt i.toNat_encode]
  exact congrArg (fun action => Except.ok (Instruction.mk i.event action)) i.action.ofPayload_payload

theorem encode_injective : Function.Injective encode := fun i j same =>
  Except.ok.inj (i.decode_encode.symm.trans ((congrArg decode same).trans j.decode_encode))

/-! ## From a word to its instruction and back -/

theorem decode_eq_error_iff {e : UnknownKind} :
    decode w = .error e ↔ e.code = w.toNat / 2 ^ 56 ∧ ¬(1 ≤ e.code ∧ e.code ≤ 9) := by
  obtain ⟨code⟩ := e
  unfold decode
  split
  next none =>
    constructor
    · intro h
      cases h
      exact ⟨rfl, Kind.ofCode?_eq_none.1 none⟩
    · rintro ⟨rfl, -⟩
      rfl
  next kind some =>
    refine ⟨nofun, ?_⟩
    rintro ⟨rfl, outside⟩
    exact absurd (Kind.ofCode?_eq_none.2 outside) (some ▸ nofun)

end Instruction

/-- Whether reading a word of a kind ignores a bit of it. -/
def Kind.ignores (kind : Kind) (bit : Nat) : Bool :=
  match kind with
  | .linkTraversal | .sleepFor | .sleepUntil => 32 ≤ bit && bit < 40
  | .wait => bit < 8
  | .access | .egress | .stopArrive | .stopDelay | .stopDepart => false

/-- The bits below 32 are all that traversals and sleeps read. -/
theorem testBit_mod (h : payload < 2 ^ 40) (bit : Nat) :
    (payload % 2 ^ 32).testBit bit = (payload.testBit bit && !(decide (32 ≤ bit) && decide (bit < 40))) := by
  rw [Nat.testBit_mod_two_pow]
  rcases Nat.lt_or_ge bit 40 with low | high
  · rcases Nat.lt_or_ge bit 32 with read | ignored
    · simp [read, Nat.not_le.2 read]
    · simp [low, ignored, Nat.not_lt.2 ignored]
  · have clear := Nat.testBit_lt_two_pow (Nat.lt_of_lt_of_le h (Nat.pow_le_pow_right (by decide) high))
    simp [clear]

/-- The bits from 8 are all that waiting reads. -/
theorem testBit_mul_div (payload bit : Nat) :
    (2 ^ 8 * (payload / 2 ^ 8)).testBit bit = (payload.testBit bit && !decide (bit < 8)) := by
  rw [Nat.testBit_two_pow_mul, Nat.testBit_div_two_pow]
  rcases Nat.lt_or_ge bit 8 with ignored | read
  · simp [ignored, Nat.not_le.2 ignored]
  · simp [read, Nat.not_lt.2 read]

theorem StopRef.payload_ofPayload (h : payload < 2 ^ 40) : (StopRef.ofPayload payload).payload = payload := by
  simp only [StopRef.payload, ofPayload, low16, low8, Fin.val_ofNat]
  omega

theorem Action.testBit_payload_ofPayload (kind : Kind) (h : payload < 2 ^ 40) (bit : Nat) :
    (Action.ofPayload kind payload).payload.testBit bit = (payload.testBit bit && !kind.ignores bit) := by
  have stops : (StopRef.ofPayload payload).payload.testBit bit = (payload.testBit bit && !false) := by
    rw [StopRef.payload_ofPayload h, Bool.not_false, Bool.and_true]
  cases kind with
  | linkTraversal =>
    have low : (Action.ofPayload .linkTraversal payload).payload = payload % 2 ^ 32 := by
      simp only [Action.ofPayload, Action.payload, low24, low8, Fin.val_ofNat]
      omega
    rw [low, testBit_mod h, Kind.ignores]
  | sleepFor => exact testBit_mod h bit
  | sleepUntil => exact testBit_mod h bit
  | access => exact stops
  | egress => exact stops
  | stopArrive => exact stops
  | stopDelay => exact stops
  | stopDepart => exact stops
  | wait =>
    have high : (Action.ofPayload .wait payload).payload = 2 ^ 8 * (payload / 2 ^ 8) := by
      simp only [Action.ofPayload, Action.payload, StopRef.ofPayload, low16, Fin.val_ofNat]
      omega
    rw [high, testBit_mul_div, Kind.ignores]

theorem Kind.ignores_high {bit : Nat} (h : 40 ≤ bit) : kind.ignores bit = false := by
  cases kind <;> simp [ignores] <;> omega

theorem Action.kind_ofPayload (kind : Kind) (payload : Nat) : (Action.ofPayload kind payload).kind = kind := by
  cases kind <;> rfl

namespace Instruction

/-- Reading and writing a word clears the bits which its kind ignores. -/
theorem testBit_encode (read : decode w = .ok i) (bit : Nat) :
    i.encode.toNat.testBit bit = (w.toNat.testBit bit && !i.kind.ignores bit) := by
  unfold decode at read
  split at read
  · cases read
  next kind known =>
    cases read
    have code := Kind.ofCode?_eq_some known
    have payload : w.toNat % 0x10000000000 < 2 ^ 40 := Nat.mod_lt _ (by decide)
    have written := toNat_encode ⟨low16 (w.toNat / 0x10000000000), Action.ofPayload kind (w.toNat % 0x10000000000)⟩
    have above : 2 ^ 16 * kind.code + w.toNat / 0x10000000000 % 0x10000 = w.toNat / 2 ^ 40 := by omega
    simp only [Instruction.kind, Action.kind_ofPayload, low16, Fin.val_ofNat] at written ⊢
    rw [written, above, Nat.testBit_two_pow_mul_add _ (Action.payload_lt _)]
    rcases Nat.lt_or_ge bit 40 with low | high
    · rw [if_pos low, Action.testBit_payload_ofPayload kind payload, Nat.testBit_mod_two_pow w.toNat 40,
        decide_eq_true low, Bool.true_and]
    · rw [if_neg (Nat.not_lt.2 high), Nat.testBit_div_two_pow, Nat.sub_add_cancel high, Kind.ignores_high high,
        Bool.not_false, Bool.and_true]

theorem encode_eq_iff (read : decode w = .ok i) :
    i.encode = w ↔ ∀ bit, i.kind.ignores bit = true → w.toNat.testBit bit = false := by
  constructor
  · rintro rfl bit ignored
    simpa [ignored] using testBit_encode read bit
  · intro clear
    refine UInt64.toNat_inj.1 (Nat.eq_of_testBit_eq fun bit => (testBit_encode read bit).trans ?_)
    cases ignored : i.kind.ignores bit with
    | false => rw [Bool.not_false, Bool.and_true]
    | true => rw [clear bit ignored, Bool.false_and]

end Instruction

/-! ## The correspondence -/

/-- A constructor gives an instruction exactly when every field fits, the instruction says what was asked for, and
otherwise the first field which is too large is named. An instruction is read back from its word, and distinct ones
have distinct words. A word is refused exactly for a kind which isn't a number from 1 to 9. Every other word gives an
instruction which is made by a constructor and whose word has the bits of the given one except those which the kind
ignores, so it's the given word exactly if these are clear. -/
theorem coding_bijective :
    (∀ d : Draft, ((∃ i, d.make = .ok i) ↔ ∀ f ∈ d.values, f.2 < f.1.limit) ∧
      (∀ i, d.make = .ok i ↔ d = .of i) ∧
      ∀ e, d.make = .error e ↔ ∃ f, firstTooLarge d.values = some f ∧
        e = .fieldTooLarge d.kind f.1 f.2 (f.1.limit - 1)) ∧
    (∀ i : Instruction, Instruction.decode i.encode = .ok i) ∧
    (∀ i j : Instruction, i.encode = j.encode ↔ i = j) ∧
    ∀ w : Word,
      (∀ e, Instruction.decode w = .error e ↔ e.code = w.toNat / 2 ^ 56 ∧ ¬(1 ≤ e.code ∧ e.code ≤ 9)) ∧
      ∀ i, Instruction.decode w = .ok i → (∃ d : Draft, d.make = .ok i) ∧
        (∀ bit, i.encode.toNat.testBit bit = (w.toNat.testBit bit && !i.kind.ignores bit)) ∧
        (i.encode = w ↔ ∀ bit, i.kind.ignores bit = true → w.toNat.testBit bit = false) := by
  refine ⟨fun d => ⟨d.exists_make_iff, fun i => d.make_eq_ok_iff, fun e => d.make_eq_error_iff⟩,
    Instruction.decode_encode, fun i j => Instruction.encode_injective.eq_iff,
    fun w => ⟨fun e => Instruction.decode_eq_error_iff, fun i read => ?_⟩⟩
  exact ⟨⟨.of i, Draft.make_eq_ok_iff.2 rfl⟩, Instruction.testBit_encode read, Instruction.encode_eq_iff read⟩

/-- A traversal of link 5 with some of the ignored bits set, and one with two fields which are too large. -/
theorem coding_bijective_traversals :
    Instruction.decode 0x010002AB0000050A = .ok ⟨2, .traverse 5 10⟩ ∧
    (∃ d : Draft, d.make = .ok ⟨2, .traverse 5 10⟩) ∧
    (Instruction.encode ⟨2, .traverse 5 10⟩).toNat.testBit 33 = false ∧
    Instruction.encode ⟨2, .traverse 5 10⟩ ≠ 0x010002AB0000050A ∧
    (Draft.traverse 65536 16777216 10).make = .error (.fieldTooLarge .linkTraversal .event 65536 65535) := by
  obtain ⟨drafts, -, -, words⟩ := coding_bijective
  have read : Instruction.decode 0x010002AB0000050A = .ok ⟨2, .traverse 5 10⟩ := by decide +kernel
  obtain ⟨made, bits, same⟩ := (words 0x010002AB0000050A).2 _ read
  have refused := (drafts (.traverse 65536 16777216 10)).2.2
  refine ⟨read, made, (bits 33).trans (by decide), fun unchanged => ?_, (refused _).2 ⟨(.event, 65536), rfl, rfl⟩⟩
  exact absurd (same.1 unchanged 33 (by decide)) (by decide)

end Mobility
