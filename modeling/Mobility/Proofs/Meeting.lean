import Mathlib.Algebra.GroupWithZero.Nat
import Mathlib.Algebra.Order.BigOperators.Group.List
import Mathlib.Algebra.Order.Group.Nat
import Mathlib.Data.List.Basic
import Mobility.Clock
import Mobility.Rendezvous

/-!
# Inside the rendezvous

To arrive, a party takes a lock. The last one to do so keeps it while it sets the clock on, and gives it back when
the next round has begun. The others give it back and sleep; they may wake up at any time, for a reason or for none,
and then want the lock again to see whether their round is over. Whoever is out reads the clock, without the lock.
A `Meeting` is the state of all this, with a record of what has occurred, and a party which gets a turn takes its
next step (`Meeting.step`).

Two rounds can overlap: a party may be back while others haven't woken up, or haven't read the clock. Still nobody is
counted in a round but its own, every round has one leader, the clock is set once for a round, before anybody is out,
and everybody reads what it was set to (`Meeting.rounds_in_order`). Round numbers may start over: a party which sleeps
keeps the round after its own from ending, so it never sees its number again.
-/

set_option autoImplicit false

namespace Mobility

/-! ## Parties and what they do -/

/-- Where a party is on its way through a round. -/
inductive Station where
  /-- It is about to arrive. -/
  | outside
  /-- It has given the lock back and sleeps, since round `since`. -/
  | asleep (since : Nat)
  /-- It has woken up and wants the lock again. -/
  | awake (since : Nat)
  /-- It has arrived last and keeps the lock. -/
  | leading
  /-- It has set the clock on and still keeps the lock. -/
  | opening
  /-- It is out and is about to read the clock. -/
  | leaving (led : Bool)
deriving DecidableEq

/-- The party has arrived, and has neither found its round over nor to lead it. -/
def Station.isWaiting : Station → Bool
  | asleep _ | awake _ => true
  | _ => false

/-- A party: through how many rounds it has been, and where it is in the next one. -/
structure Party where
  round : Nat
  station : Station
deriving DecidableEq

/-- The party is awake. -/
def Party.rouse : Party → Party
  | ⟨round, .asleep since⟩ => ⟨round, .awake since⟩
  | x => x

/-- The party has arrived in round `k` and waits for others. -/
def Party.isInside (k : Nat) : Party → Bool
  | ⟨round, .asleep _⟩ | ⟨round, .awake _⟩ => round = k
  | _ => false

/-- What occurs in a round. -/
inductive Occurrence where
  | arrived (rank round : Nat)
  /-- The clock was set on. -/
  | acted (rank round : Nat)
  /-- The wait is over, for the leader (`led`) or for one of the others. -/
  | passed (rank round : Nat) (led : Bool)
  /-- The clock was read. -/
  | saw (rank round time : Nat)
deriving DecidableEq

/-- Whose occurrence it is. -/
def Occurrence.rank : Occurrence → Nat
  | arrived rank _ | acted rank _ | passed rank _ _ | saw rank _ _ => rank

/-- Parties at a rendezvous, the lock and the clock that they share, and what has occurred. -/
structure Meeting where
  rendezvous : Rendezvous
  /-- Who keeps the lock. -/
  holder : Option Nat
  clock : Nat
  parties : List Party
  record : List Occurrence
deriving DecidableEq

namespace Meeting

/-- A turn of a party. Whoever sleeps has no turn of its own, but may wake up for no reason. -/
inductive Turn where
  | next (rank : Nat)
  | rouse (rank : Nat)
deriving DecidableEq

def Turn.isNext : Turn → Bool
  | next _ => true
  | rouse _ => false

@[simp] theorem Turn.isNext_next (i : Nat) : (Turn.next i).isNext = true := rfl

@[simp] theorem Turn.isNext_rouse (i : Nat) : (Turn.rouse i).isNext = false := rfl

/-- Nobody has come yet. -/
def start (parties : Nat) : Except Fault Meeting := do
  let rendezvous ← Rendezvous.make parties
  return {
    rendezvous := rendezvous
    holder := none
    clock := 0
    parties := List.replicate parties ⟨0, .outside⟩
    record := [] }

/-- Moves a party. -/
def put (m : Meeting) (rank round : Nat) (station : Station) : Meeting :=
  { m with parties := m.parties.set rank ⟨round, station⟩ }

/-- Adds to the record. -/
def tell (m : Meeting) (o : Occurrence) : Meeting := { m with record := m.record ++ [o] }

/-- Party `i` arrives in its round `k`. Unless it is the last one, it sleeps. -/
def enter (m : Meeting) (i k : Nat) : Meeting :=
  let (leads, rendezvous) := m.rendezvous.arrive
  if leads then { m.put i k .leading with holder := some i }
  else { m.put i k (.asleep m.rendezvous.round) with rendezvous := rendezvous }

/-- The leader `i` of round `k` begins the next round, calls everybody and gives the lock back. -/
def leave (m : Meeting) (i k : Nat) : Meeting :=
  let woken := { m with parties := m.parties.map Party.rouse }
  { woken.put i k (.leaving true) with rendezvous := m.rendezvous.arrive.2, holder := none }

/-- The next step of a party. It has none if it sleeps, if it has to wait for the lock, if it has been through all its
rounds, or if it is to set the clock on past the last second. In round `k` party `i` comes in second `second i k`. -/
def next (rounds : Nat) (second : Nat → Nat → Nat) (m : Meeting) (i : Nat) : Option Meeting :=
  match m.parties[i]? with
  | none => none
  | some ⟨k, .outside⟩ =>
    if rounds ≤ k ∨ m.holder.isSome then none else some ((m.enter i k).tell (.arrived i k))
  | some ⟨_, .asleep _⟩ => none
  | some ⟨k, .awake since⟩ =>
    if m.holder.isSome then none
    else if m.rendezvous.mayPass since then some ((m.put i k (.leaving false)).tell (.passed i k false))
    else some (m.put i k (.asleep since))
  | some ⟨k, .leading⟩ => (Clock.next (second i k)).toOption.map fun time =>
    { m.put i k .opening with clock := time }.tell (.acted i k)
  | some ⟨k, .opening⟩ => some ((m.leave i k).tell (.passed i k true))
  | some ⟨k, .leaving _⟩ => some ((m.put i (k + 1) .outside).tell (.saw i k m.clock))

/-- A party wakes up. -/
def rouse (m : Meeting) (i : Nat) : Option Meeting :=
  match m.parties[i]? with
  | some ⟨k, .asleep since⟩ => some (m.put i k (.awake since))
  | _ => none

/-- The meeting after a turn, or `none` if the party can't take it. -/
def step (rounds : Nat) (second : Nat → Nat → Nat) (m : Meeting) : Turn → Option Meeting
  | .next i => m.next rounds second i
  | .rouse i => m.rouse i

/-- The meeting after the turns of a schedule. -/
def play (rounds : Nat) (second : Nat → Nat → Nat) : List Turn → Meeting → Option Meeting
  | [], m => some m
  | turn :: rest, m => (m.step rounds second turn).bind (play rounds second rest)

/-- Everybody has been through all rounds. -/
def isOver (rounds : Nat) (m : Meeting) : Bool := m.parties.all fun x => x = ⟨rounds, .outside⟩

end Meeting

/-! ## Order -/

/-- What has to have occurred before, and what not. -/
def Occurrence.Regular (parties : Nat) (second : Nat → Nat → Nat) (before : List Occurrence) : Occurrence → Prop
  | arrived i k => .arrived i k ∉ before
  | acted _ k => (∀ j, .acted j k ∉ before) ∧ ∀ j < parties,
      .arrived j k ∈ before ∧ .arrived j (k + 1) ∉ before ∧ ∀ led, .passed j k led ∉ before
  | passed i k led => (∃ j < parties, .acted j k ∈ before ∧ (led = true ↔ j = i)) ∧
      ∀ led, .passed i k led ∉ before
  | saw i k time => (∃ led, .passed i k led ∈ before) ∧ ∃ j < parties, .acted j k ∈ before ∧ time = second j k + 1

/-- Whatever has occurred was regular then. -/
def Regular (parties : Nat) (second : Nat → Nat → Nat) (record : List Occurrence) : Prop :=
  ∀ before o after, record = before ++ o :: after → o.Regular parties second before

section Record

variable {parties : Nat} {second : Nat → Nat → Nat} {record : List Occurrence} {o : Occurrence}

theorem Regular.nil : Regular parties second [] := by
  intro before o after split
  simp at split

theorem Regular.concat (h : Regular parties second record) (now : o.Regular parties second record) :
    Regular parties second (record ++ [o]) := by
  intro before p after split
  rcases List.eq_nil_or_concat after with rfl | ⟨after, last, rfl⟩
  · obtain ⟨rfl, same⟩ := List.append_inj' split rfl
    obtain rfl := List.singleton_inj.1 same
    exact now
  · rw [List.concat_eq_append, ← List.cons_append, ← List.append_assoc] at split
    exact h before p after (List.append_inj' split rfl).1

/-- What is in a record was regular then. -/
theorem Regular.of_mem (h : Regular parties second record) (ho : o ∈ record) :
    ∃ before, (∀ p ∈ before, p ∈ record) ∧ o.Regular parties second before := by
  obtain ⟨before, after, split⟩ := List.append_of_mem ho
  exact ⟨before, fun p hp => split ▸ List.mem_append_left _ hp, h before o after split⟩

/-- The clock is set on by one party in a round. -/
theorem Regular.acted_unique (h : Regular parties second record) {i j k : Nat} (hi : .acted i k ∈ record)
    (hj : .acted j k ∈ record) : i = j := by
  obtain ⟨before, after, split⟩ := List.append_of_mem hi
  have first := (h before _ after split).1
  rw [split] at hj
  rcases List.mem_append.1 hj with hj | hj
  · exact absurd hj (first j)
  · rcases List.mem_cons.1 hj with same | hj
    · cases same
      rfl
    · obtain ⟨between, later, split'⟩ := List.append_of_mem hj
      have second := (h (before ++ .acted i k :: between) (.acted j k) later (by rw [split, split']; simp)).1
      exact absurd (List.mem_append_right _ List.mem_cons_self) (second i)

/-- Whoever is out is so because somebody has set the clock on: the leader itself, or another one. -/
theorem Regular.passed (h : Regular parties second record) {i k : Nat} {led : Bool}
    (hi : .passed i k led ∈ record) : ∃ j < parties, .acted j k ∈ record ∧ (led = true ↔ j = i) := by
  obtain ⟨before, old, ⟨j, hj, acted, leader⟩, -⟩ := h.of_mem hi
  exact ⟨j, hj, old _ acted, leader⟩

/-- When all are out of a round, one of them has led it. -/
theorem Regular.one_leader (h : Regular parties second record) {k : Nat} (some : 0 < parties)
    (out : ∀ i < parties, ∃ led, .passed i k led ∈ record) :
    (∃! i, .passed i k true ∈ record) ∧ ∃! i, .acted i k ∈ record := by
  obtain ⟨led, first⟩ := out 0 some
  obtain ⟨j, hj, acted, -⟩ := h.passed first
  obtain ⟨led', own⟩ := out j hj
  have leads : led' = true := by
    obtain ⟨j', -, acted', leader⟩ := h.passed own
    exact leader.2 (h.acted_unique acted' acted)
  subst leads
  refine ⟨⟨j, own, fun i hi => ?_⟩, ⟨j, acted, fun i hi => h.acted_unique hi acted⟩⟩
  obtain ⟨j', -, acted', leader⟩ := h.passed hi
  rw [← leader.1 rfl]
  exact h.acted_unique acted' acted

/-- If all come to a round in the same second, everybody sees the one after it. -/
theorem Regular.saw (h : Regular parties second record) {i k now time : Nat}
    (together : ∀ j < parties, second j k = now) (hi : .saw i k time ∈ record) : time = now + 1 := by
  obtain ⟨before, -, -, j, hj, -, rfl⟩ := h.of_mem hi
  rw [together j hj]

end Record

namespace Meeting

variable {rounds n k r i j : Nat} {second : Nat → Nat → Nat} {m m' : Meeting} {x y : Party} {o : Occurrence}
  {station : Station}

/-- How many round numbers there are. -/
def period : Nat := 0x10000000000000000

/-- Numbers of two rounds in a row differ. -/
theorem succ_mod_period_ne (k : Nat) : (k + 1) % period ≠ k % period := by
  unfold period
  omega

/-! ## Where parties can be -/

/-- Where party `i` can be when `k` rounds are over. Whoever has woken up or reads the clock may still do so in the
round before. -/
inductive Stands (rounds k : Nat) (holder : Option Nat) (i : Nat) : Party → Prop where
  | outside (within : k ≤ rounds) : Stands rounds k holder i ⟨k, .outside⟩
  | asleep (within : k < rounds) : Stands rounds k holder i ⟨k, .asleep (k % period)⟩
  | awake (within : k < rounds) : Stands rounds k holder i ⟨k, .awake (k % period)⟩
  | leading (within : k < rounds) (held : holder = some i) : Stands rounds k holder i ⟨k, .leading⟩
  | opening (within : k < rounds) (held : holder = some i) : Stands rounds k holder i ⟨k, .opening⟩
  | late {r : Nat} (ended : r + 1 = k) (within : k ≤ rounds) : Stands rounds k holder i ⟨r, .awake (r % period)⟩
  | leaving {r : Nat} {led : Bool} (ended : r + 1 = k) (within : k ≤ rounds) :
      Stands rounds k holder i ⟨r, .leaving led⟩

/-- What the record says of party `i`. -/
structure Told (record : List Occurrence) (i : Nat) (x : Party) : Prop where
  arrived : ∀ r, .arrived i r ∈ record ↔ r < x.round ∨ r = x.round ∧ x.station ≠ .outside
  acted : ∀ r, .acted i r ∈ record → r < x.round ∨ r = x.round ∧ (x.station = .opening ∨ x.station = .leaving true)
  passed : ∀ r led, .passed i r led ∈ record → r < x.round ∨ r = x.round ∧ x.station = .leaving led
  saw : ∀ r < x.round, ∃ time, .saw i r time ∈ record
  opened : x.station = .opening → .acted i x.round ∈ record
  left : ∀ led, x.station = .leaving led → .passed i x.round led ∈ record

/-- The state of a meeting of `n` parties when `k` rounds are over. -/
structure Sound (rounds : Nat) (second : Nat → Nat → Nat) (n k : Nat) (m : Meeting) : Prop where
  expected : m.rendezvous.parties = n
  cast : m.parties.length = n
  round : m.rendezvous.round = k % period
  stands : ∀ (i : Nat) x, m.parties[i]? = some x → Stands rounds k m.holder i x
  inside : m.rendezvous.arrived = m.parties.countP (·.isInside k)
  lacking : m.rendezvous.arrived < n
  /-- Whoever keeps the lock is the last one to arrive. -/
  held : ∀ i, m.holder = some i → (∃ x, m.parties[i]? = some x ∧ (x.station = .leading ∨ x.station = .opening)) ∧
    ∀ (j : Nat) x, j ≠ i → m.parties[j]? = some x → x.isInside k = true
  told : ∀ (i : Nat) x, m.parties[i]? = some x → Told m.record i x
  known : ∀ o ∈ m.record, o.rank < n
  ended : ∀ r < k, ∃ i, .acted i r ∈ m.record
  clock : ∀ r, r + 1 = k → m.holder = none → ∃ i, .acted i r ∈ m.record ∧ m.clock = second i r + 1
  opened : ∀ (i : Nat) x, m.parties[i]? = some x → x.station = .opening → m.clock = second i k + 1
  regular : Regular n second m.record

namespace Told

variable {record : List Occurrence}

theorem concat_other (h : Told record i x) (other : o.rank ≠ i) : Told (record ++ [o]) i x := by
  have old : ∀ p : Occurrence, p.rank = i → (p ∈ record ++ [o] ↔ p ∈ record) := by
    intro p own
    rw [List.mem_append, List.mem_singleton, or_iff_left]
    rintro rfl
    exact other own
  exact ⟨fun r => (old _ rfl).trans (h.arrived r), fun r hr => h.acted r ((old _ rfl).1 hr),
    fun r led hr => h.passed r led ((old _ rfl).1 hr),
    fun r hr => (h.saw r hr).imp fun _ hs => (old _ rfl).2 hs, fun opening => (old _ rfl).2 (h.opened opening),
    fun led leaving => (old _ rfl).2 (h.left led leaving)⟩

/-- A party which waits may turn over. -/
theorem stir {station' : Station} (h : Told record i ⟨k, station⟩) (waits : station.isWaiting = true)
    (still : station'.isWaiting = true) : Told record i ⟨k, station'⟩ := by
  cases station <;> simp [Station.isWaiting] at waits <;> cases station' <;> simp [Station.isWaiting] at still <;>
    exact ⟨by simpa using h.arrived, by simpa using h.acted, by simpa using h.passed, h.saw, nofun, nofun⟩

theorem rouse (h : Told record i x) : Told record i x.rouse := by
  obtain ⟨k, station⟩ := x
  cases station with
  | asleep since => exact h.stir rfl rfl
  | _ => exact h

theorem arrive (h : Told record i ⟨k, .outside⟩) (inside : station.isWaiting = true ∨ station = .leading) :
    Told (record ++ [.arrived i k]) i ⟨k, station⟩ := by
  rcases inside with inside | rfl
  · cases station <;> simp [Station.isWaiting] at inside <;>
      exact ⟨by simpa using fun r => or_congr_left (by simpa using h.arrived r), by simpa using h.acted,
        by simpa using h.passed, by simpa using h.saw, nofun, nofun⟩
  · exact ⟨by simpa using fun r => or_congr_left (by simpa using h.arrived r), by simpa using h.acted,
      by simpa using h.passed, by simpa using h.saw, nofun, nofun⟩

theorem act (h : Told record i ⟨k, .leading⟩) : Told (record ++ [.acted i k]) i ⟨k, .opening⟩ where
  arrived := by simpa using h.arrived
  acted := by
    have old := h.acted
    simp only [reduceCtorEq, or_self, and_false, or_false] at old
    simpa using fun r => Or.imp_left (old r)
  passed := by simpa using h.passed
  saw := by simpa using h.saw
  opened _ := List.mem_append_right _ (List.mem_singleton.2 rfl)
  left := nofun

theorem pass {led : Bool} (h : Told record i ⟨k, station⟩) (inside : station.isWaiting = true ∧ led = false ∨
    station = .opening ∧ led = true) : Told (record ++ [.passed i k led]) i ⟨k, .leaving led⟩ := by
  have left : ∀ led', Station.leaving led = .leaving led' →
      .passed i k led' ∈ record ++ [Occurrence.passed i k led] := by
    rintro _ ⟨⟩
    exact List.mem_append_right _ (List.mem_singleton.2 rfl)
  have passed : (∀ r led', .passed i r led' ∈ record → r < k) → ∀ r led',
      .passed i r led' ∈ record ++ [Occurrence.passed i k led] →
        r < k ∨ r = k ∧ Station.leaving led = .leaving led' := by
    intro old r led' hr
    rcases List.mem_append.1 hr with hr | hr
    · exact .inl (old r led' hr)
    · cases List.mem_singleton.1 hr
      exact .inr ⟨rfl, rfl⟩
  rcases inside with ⟨waits, rfl⟩ | ⟨rfl, rfl⟩
  · cases station <;> simp [Station.isWaiting] at waits <;>
      exact ⟨by simpa using h.arrived, by simpa using h.acted, passed fun r led' hr => by
        simpa using h.passed r led' hr, by simpa using h.saw, nofun, left⟩
  · exact ⟨by simpa using h.arrived, by simpa using h.acted, passed fun r led' hr => by
      simpa using h.passed r led' hr, by simpa using h.saw, nofun, left⟩

theorem see {led : Bool} {time : Nat} (h : Told record i ⟨k, .leaving led⟩) :
    Told (record ++ [.saw i k time]) i ⟨k + 1, .outside⟩ where
  arrived := by
    intro r
    have old := h.arrived r
    simp only [List.mem_append, List.mem_singleton, reduceCtorEq, or_false, ne_eq, not_true_eq_false, and_false,
      not_false_eq_true, and_true] at old ⊢
    rw [old, Nat.lt_succ_iff_lt_or_eq]
  acted := by
    intro r hr
    have := h.acted r (by simpa using hr)
    left
    show r < k + 1
    rcases this with below | ⟨rfl, -⟩
    · exact Nat.lt_succ_of_lt below
    · exact Nat.lt_succ_self _
  passed := by
    intro r led' hr
    have := h.passed r led' (by simpa using hr)
    left
    show r < k + 1
    rcases this with below | ⟨rfl, -⟩
    · exact Nat.lt_succ_of_lt below
    · exact Nat.lt_succ_self _
  saw := by
    intro r hr
    rcases Nat.lt_succ_iff_lt_or_eq.1 hr with below | rfl
    · exact (h.saw r below).imp fun _ hs => List.mem_append_left _ hs
    · exact ⟨time, List.mem_append_right _ (List.mem_singleton.2 rfl)⟩
  opened := nofun
  left := nofun

/-- Of whoever waits, or is about to set the clock on, nothing is known in this round but the arrival. -/
theorem of_inside (h : Told record i ⟨k, station⟩) (inside : station.isWaiting = true ∨ station = .leading) :
    (.arrived i k ∈ record ∧ .arrived i (k + 1) ∉ record ∧ ∀ led, .passed i k led ∉ record) ∧
      .acted i k ∉ record := by
  have outside : station ≠ .outside := by rintro rfl; simp [Station.isWaiting] at inside
  have opening : station ≠ .opening := by rintro rfl; simp [Station.isWaiting] at inside
  have leaving : ∀ led, station ≠ .leaving led := by rintro led rfl; simp [Station.isWaiting] at inside
  refine ⟨⟨(h.arrived k).2 (.inr ⟨rfl, outside⟩), fun early => ?_, fun led passed => ?_⟩, fun acted => ?_⟩
  · have := (h.arrived _).1 early
    simp only at this
    omega
  · rcases h.passed k led passed with below | ⟨-, left⟩
    · exact absurd below (Nat.lt_irrefl k)
    · exact leaving led left
  · rcases h.acted k acted with below | ⟨-, led | left⟩
    · exact absurd below (Nat.lt_irrefl k)
    · exact opening led
    · exact leaving true left

end Told

theorem getElem?_put (r : Nat) (station : Station) (hx : m.parties[i]? = some x) (j : Nat) :
    (m.put i r station).parties[j]? = if j = i then some ⟨r, station⟩ else m.parties[j]? := by
  obtain ⟨hi, -⟩ := List.getElem?_eq_some_iff.1 hx
  show (m.parties.set i _)[j]? = _
  rw [List.getElem?_set]
  by_cases own : i = j
  · subst own
    simp [hi]
  · rw [if_neg own, if_neg (Ne.symm own)]

/-- Someone of a party stays with the rest if it holds of the others and of the one who has moved. -/
theorem forall_put {P : Nat → Party → Prop} (hx : m.parties[i]? = some x) (own : P i ⟨r, station⟩)
    (others : ∀ (j : Nat) y, j ≠ i → m.parties[j]? = some y → P j y) :
    ∀ (j : Nat) y, (m.put i r station).parties[j]? = some y → P j y := by
  intro j y hy
  rw [getElem?_put _ _ hx] at hy
  split at hy
  · rename_i same
    subst same
    exact Option.some.inj hy ▸ own
  · exact others j y ‹_› hy

theorem countP_put (r : Nat) (station : Station) {p : Party → Bool} (hx : m.parties[i]? = some x) :
    (m.put i r station).parties.countP p + (if p x then 1 else 0) =
      m.parties.countP p + if p ⟨r, station⟩ then 1 else 0 := by
  obtain ⟨hi, rfl⟩ := List.getElem?_eq_some_iff.1 hx
  have present : (if p m.parties[i] then 1 else 0) ≤ m.parties.countP p := by
    split
    · exact List.countP_pos_iff.2 ⟨_, List.getElem_mem hi, ‹_›⟩
    · exact Nat.zero_le _
  show (m.parties.set i _).countP p + _ = _
  rw [List.countP_set hi]
  omega

/-! ## How far the parties are -/

/-- How far a party has come when `k` rounds are over. Whoever wants to see, too early, whether the round is over is
less far than whoever sleeps. -/
def way (k : Nat) : Party → Nat
  | ⟨r, .outside⟩ => 5 * r
  | ⟨r, .asleep _⟩ => 5 * r + 2
  | ⟨r, .awake _⟩ => if r = k then 5 * r + 1 else 5 * r + 3
  | ⟨r, .leading⟩ => 5 * r + 2
  | ⟨r, .opening⟩ => 5 * r + 3
  | ⟨r, .leaving _⟩ => 5 * r + 4

/-- How far all parties have come. -/
def ways (k : Nat) (parties : List Party) : Nat := (parties.map (way k)).sum

theorem ways_set {parties : List Party} (hx : parties[i]? = some x) (y : Party) :
    ways k (parties.set i y) + way k x = ways k parties + way k y := by
  induction parties generalizing i with
  | nil => cases hx
  | cons first rest ih =>
    cases i with
    | zero =>
      cases hx
      simp only [ways, List.set_cons_zero, List.map_cons, List.sum_cons]
      omega
    | succ i =>
      have := ih (i := i) hx
      simp only [ways, List.set_cons_succ, List.map_cons, List.sum_cons] at this ⊢
      omega

theorem ways_put (hx : m.parties[i]? = some x) (farther : way k x < way k ⟨r, station⟩) :
    ways k m.parties < ways k (m.put i r station).parties := by
  have : ways k (m.put i r station).parties + _ = _ := ways_set hx ⟨r, station⟩
  omega

/-- When the leader leaves, everybody knows that the round is over. -/
theorem ways_leave (hx : m.parties[i]? = some ⟨k, .opening⟩)
    (inside : ∀ (j : Nat) x, j ≠ i → m.parties[j]? = some x → x.isInside k = true) :
    ways k m.parties < ways (k + 1) (m.leave i k).parties := by
  have woken : ways k m.parties ≤ ways (k + 1) (m.parties.map Party.rouse) := by
    unfold ways
    rw [List.map_map]
    refine List.sum_le_sum fun x hx' => ?_
    obtain ⟨j, hj⟩ := List.mem_iff_getElem?.1 hx'
    by_cases own : j = i
    · subst own
      obtain rfl := Option.some.inj (hj.symm.trans hx)
      simp [Party.rouse, way]
    · have := inside j x own hj
      obtain ⟨r, station⟩ := x
      cases station <;> simp [Party.isInside] at this <;> subst this <;> simp [Party.rouse, way]
  have hx' : (m.parties.map Party.rouse)[i]? = some ⟨k, .opening⟩ := by
    rw [List.getElem?_map, hx]
    rfl
  have moved : ways (k + 1) (m.leave i k).parties + _ = _ := ways_set hx' ⟨k, .leaving true⟩
  simp only [way] at moved
  omega

/-- Nobody has farther to go than through all rounds. -/
theorem ways_le (h : Sound rounds second n k m) : ways k m.parties ≤ n * (5 * rounds) := by
  have each : ∀ w ∈ m.parties.map (way k), w ≤ 5 * rounds := by
    intro w hw
    obtain ⟨x, hx, rfl⟩ := List.mem_map.1 hw
    obtain ⟨i, hx⟩ := List.mem_iff_getElem?.1 hx
    cases h.stands i x hx with
    | awake | late =>
      simp only [way]
      split <;> omega
    | _ =>
      simp only [way]
      omega
  have bound := List.sum_le_card_nsmul _ _ each
  rwa [List.length_map, h.cast, Nat.nsmul_eq_mul] at bound

namespace Sound

/-- Whoever neither waits nor keeps the lock is there only while nobody keeps it. -/
theorem free (h : Sound rounds second n k m) (hx : m.parties[i]? = some x) (apart : x.isInside k = false)
    (keeps : ¬(x.station = .leading ∨ x.station = .opening)) : m.holder = none := by
  cases hh : m.holder with
  | none => rfl
  | some leader =>
    obtain ⟨⟨y, hy, station⟩, others⟩ := h.held leader hh
    by_cases own : i = leader
    · subst own
      rw [hx] at hy
      obtain rfl := Option.some.inj hy
      exact absurd station keeps
    · rw [others i x own hx] at apart
      cases apart

/-- Where the holder of the lock is when another party moves. -/
theorem other (h : Sound rounds second n k m) (hx : m.parties[i]? = some x) (inside : x.isInside k = true)
    {leader : Nat} (hh : m.holder = some leader) : leader ≠ i := by
  rintro rfl
  obtain ⟨⟨y, hy, station⟩, -⟩ := h.held leader hh
  rw [hx] at hy
  obtain rfl := Option.some.inj hy
  obtain ⟨r, station'⟩ := x
  cases station' <;> simp [Party.isInside] at inside station

theorem told_other (h : Sound rounds second n k m) (own : o.rank = i) (j : Nat) (y : Party) (hj : j ≠ i)
    (hy : m.parties[j]? = some y) : Told (m.record ++ [o]) j y :=
  (h.told j y hy).concat_other (own ▸ Ne.symm hj)

theorem known_concat (h : Sound rounds second n k m) (hx : m.parties[i]? = some x) (own : o.rank = i) :
    ∀ p ∈ m.record ++ [o], p.rank < n := by
  intro p hp
  rcases List.mem_append.1 hp with hp | hp
  · exact h.known p hp
  · obtain ⟨hi, -⟩ := List.getElem?_eq_some_iff.1 hx
    rw [List.mem_singleton.1 hp, own, ← h.cast]
    exact hi

/-- A party which waits turns over. -/
theorem stir (h : Sound rounds second n k m) (hx : m.parties[i]? = some ⟨k, station⟩) {station' : Station}
    (waits : station.isWaiting = true) (still : station' = .asleep (k % period) ∨ station' = .awake (k % period))
    (within : k < rounds) : Sound rounds second n k (m.put i k station') := by
  have before : Party.isInside k ⟨k, station⟩ = true := by
    cases station <;> simp [Station.isWaiting, Party.isInside] at waits ⊢
  have after : Party.isInside k ⟨k, station'⟩ = true := by rcases still with rfl | rfl <;> simp [Party.isInside]
  have waits' : station'.isWaiting = true := by rcases still with rfl | rfl <;> rfl
  exact {
    expected := h.expected
    cast := (List.length_set ..).trans h.cast
    round := h.round
    stands := by
      refine forall_put hx ?_ fun j y _ hy => h.stands j y hy
      rcases still with rfl | rfl
      · exact .asleep within
      · exact .awake within
    inside := by
      have := countP_put k station' (p := Party.isInside k) hx
      rw [before, after] at this
      exact h.inside.trans (Nat.add_right_cancel this).symm
    lacking := h.lacking
    held := by
      intro leader hh
      have other := h.other hx before hh
      obtain ⟨⟨y, hy, keeps⟩, others⟩ := h.held leader hh
      exact ⟨⟨y, by rw [getElem?_put _ _ hx, if_neg other, hy], keeps⟩, fun j z hj hz =>
        forall_put (P := fun j z => j ≠ leader → z.isInside k = true) hx (fun _ => after)
          (fun j z _ hz hj => others j z hj hz) j z hz hj⟩
    told := forall_put hx ((h.told i _ hx).stir waits waits') fun j y _ hy => h.told j y hy
    known := h.known
    ended := h.ended
    clock := h.clock
    opened := forall_put (P := fun _ y => y.station = .opening → m.clock = second _ k + 1) hx
      (fun opening => by rcases still with rfl | rfl <;> cases opening) fun j y _ hy => h.opened j y hy
    regular := h.regular }

/-- A party which is through with the round before goes on. -/
theorem go (h : Sound rounds second n k m) (hx : m.parties[i]? = some x) (free : m.holder = none)
    (apart : x.isInside k = false) (stands : Stands rounds k m.holder i ⟨r, station⟩)
    (out : station = .outside ∨ ∃ led, station = .leaving led) (own : o.rank = i)
    (told : Told (m.record ++ [o]) i ⟨r, station⟩) (regular : o.Regular n second m.record) :
    Sound rounds second n k ((m.put i r station).tell o) where
  expected := h.expected
  cast := (List.length_set ..).trans h.cast
  round := h.round
  stands := forall_put hx stands fun j y _ hy => h.stands j y hy
  inside := by
    have := countP_put r station (p := Party.isInside k) hx
    have after : Party.isInside k ⟨r, station⟩ = false := by rcases out with rfl | ⟨led, rfl⟩ <;> rfl
    rw [apart, after] at this
    exact h.inside.trans (Nat.add_right_cancel this).symm
  lacking := h.lacking
  held leader hh := nomatch free.symm.trans hh
  told := forall_put hx told fun j y hj hy => h.told_other own j y hj hy
  known := h.known_concat hx own
  ended := fun r hr => (h.ended r hr).imp fun _ => List.mem_append_left _
  clock := fun r hr hh => (h.clock r hr hh).imp fun _ hc => ⟨List.mem_append_left _ hc.1, hc.2⟩
  opened := forall_put (P := fun j y => y.station = .opening → m.clock = second j k + 1) hx
    (fun opening => by rcases out with rfl | ⟨led, rfl⟩ <;> cases opening) fun j y _ hy => h.opened j y hy
  regular := h.regular.concat regular

/-- The last one to arrive finds all others inside. -/
theorem others_inside (h : Sound rounds second n k m) (hx : m.parties[i]? = some x) (apart : x.isInside k = false)
    (last : m.rendezvous.arrived + 1 = n) (j : Nat) (y : Party) (hj : j ≠ i) (hy : m.parties[j]? = some y) :
    y.isInside k = true := by
  have count := countP_put k (.asleep 0) (p := Party.isInside k) hx
  rw [apart, show Party.isInside k ⟨k, .asleep 0⟩ = true by simp [Party.isInside], ← h.inside] at count
  have full : (m.put i k (.asleep 0)).parties.countP (Party.isInside k) =
      (m.put i k (.asleep 0)).parties.length := by
    rw [show (m.put i k (.asleep 0)).parties.length = n from (List.length_set ..).trans h.cast]
    simpa [last] using count
  refine List.countP_eq_length.1 full y ?_
  have := getElem?_put k (.asleep 0) hx j
  rw [if_neg hj, hy] at this
  exact List.mem_of_getElem? this

/-- A party arrives. -/
theorem enter (h : Sound rounds second n k m) (hx : m.parties[i]? = some ⟨k, .outside⟩) (free : m.holder = none)
    (within : k < rounds) : Sound rounds second n k ((m.enter i k).tell (.arrived i k)) := by
  have regular : Regular n second (m.record ++ [.arrived i k]) := by
    refine h.regular.concat fun known => ?_
    have := ((h.told i _ hx).arrived k).1 known
    simp at this
  have ended : ∀ r < k, ∃ i', .acted i' r ∈ m.record ++ [.arrived i k] :=
    fun r hr => (h.ended r hr).imp fun _ => List.mem_append_left _
  by_cases last : m.rendezvous.arrived + 1 = m.rendezvous.parties
  · have inside := h.others_inside hx rfl (last.trans h.expected)
    have enters : m.enter i k = { m.put i k .leading with holder := some i } := by
      simp [Meeting.enter, Rendezvous.arrive, last]
    rw [enters]
    exact {
      expected := h.expected
      cast := (List.length_set ..).trans h.cast
      round := h.round
      stands := by
        refine forall_put hx (.leading within rfl) fun j y hj hy => ?_
        have stands := h.stands j y hy
        have waits := inside j y hj hy
        cases stands with
        | asleep within => exact .asleep within
        | awake within => exact .awake within
        | late ended within => exact .late ended within
        | _ => cases waits
      inside := by
        have := countP_put k .leading (p := Party.isInside k) hx
        exact h.inside.trans (Nat.add_right_cancel this).symm
      lacking := h.lacking
      held := by
        rintro leader ⟨⟩
        have moved := getElem?_put k .leading hx
        refine ⟨⟨⟨k, .leading⟩, (moved i).trans (if_pos rfl), .inl rfl⟩, fun j y hj hy => ?_⟩
        exact inside j y hj (((moved j).trans (if_neg hj)).symm.trans hy)
      told := forall_put hx ((h.told i _ hx).arrive (.inr rfl)) fun j y hj hy => h.told_other rfl j y hj hy
      known := h.known_concat hx rfl
      ended := ended
      clock := nofun
      opened := forall_put (P := fun j y => y.station = .opening → m.clock = second j k + 1) hx nofun
        fun j y _ hy => h.opened j y hy
      regular := regular }
  · have enters : m.enter i k = { m.put i k (.asleep m.rendezvous.round) with
        rendezvous := { m.rendezvous with arrived := m.rendezvous.arrived + 1 } } := by
      simp [Meeting.enter, Rendezvous.arrive, last]
    rw [enters, h.round]
    exact {
      expected := h.expected
      cast := (List.length_set ..).trans h.cast
      round := h.round
      stands := forall_put hx (.asleep within) fun j y _ hy => h.stands j y hy
      inside := by
        have := countP_put k (.asleep (k % period)) (p := Party.isInside k) hx
        rw [show Party.isInside k ⟨k, .asleep (k % period)⟩ = true by simp [Party.isInside]] at this
        exact (congrArg (· + 1) h.inside).trans this.symm
      lacking := by
        have := h.lacking
        rw [h.expected] at last
        exact Nat.lt_of_le_of_ne this last
      held leader hh := nomatch free.symm.trans hh
      told := forall_put hx ((h.told i _ hx).arrive (.inl rfl)) fun j y hj hy => h.told_other rfl j y hj hy
      known := h.known_concat hx rfl
      ended := ended
      clock := fun r hr hh => (h.clock r hr hh).imp fun _ hc => ⟨List.mem_append_left _ hc.1, hc.2⟩
      opened := forall_put (P := fun j y => y.station = .opening → m.clock = second j k + 1) hx nofun
        fun j y _ hy => h.opened j y hy
      regular := regular }

/-- The leader sets the clock on. -/
theorem act (h : Sound rounds second n k m) (hx : m.parties[i]? = some ⟨k, .leading⟩) (held : m.holder = some i)
    (within : k < rounds) : Sound rounds second n k
      ({ m.put i k .opening with clock := second i k + 1 }.tell (.acted i k)) := by
  have inside := (h.held i held).2
  have waits : ∀ (j : Nat) y, j ≠ i → m.parties[j]? = some y → y.round = k ∧ y.station.isWaiting = true := by
    intro j ⟨r, station⟩ hj hy
    have := inside j _ hj hy
    cases station <;> simp [Party.isInside, Station.isWaiting] at this ⊢ <;> exact this
  have each : ∀ j < n, (.arrived j k ∈ m.record ∧ .arrived j (k + 1) ∉ m.record ∧
      ∀ led, .passed j k led ∉ m.record) ∧ .acted j k ∉ m.record := by
    intro j hj
    by_cases own : j = i
    · exact own ▸ (h.told i _ hx).of_inside (.inr rfl)
    · rw [← h.cast] at hj
      obtain ⟨rfl, station⟩ := waits j _ own (List.getElem?_eq_getElem hj)
      exact (h.told j _ (List.getElem?_eq_getElem hj)).of_inside (.inl station)
  have regular : Occurrence.Regular n second m.record (.acted i k) :=
    ⟨fun j acted => (each j (h.known _ acted)).2 acted, fun j hj => (each j hj).1⟩
  exact {
    expected := h.expected
    cast := (List.length_set ..).trans h.cast
    round := h.round
    stands := forall_put hx (.opening within held) fun j y _ hy => h.stands j y hy
    inside := by
      have := countP_put k .opening (p := Party.isInside k) hx
      exact h.inside.trans (Nat.add_right_cancel this).symm
    lacking := h.lacking
    held := by
      intro leader hh
      obtain rfl := Option.some.inj (held.symm.trans hh)
      have moved := getElem?_put k .opening hx
      refine ⟨⟨⟨k, .opening⟩, (moved i).trans (if_pos rfl), .inr rfl⟩, fun j y hj hy => ?_⟩
      exact inside j y hj (((moved j).trans (if_neg hj)).symm.trans hy)
    told := forall_put hx (h.told i _ hx).act fun j y hj hy => h.told_other rfl j y hj hy
    known := h.known_concat hx rfl
    ended := fun r hr => (h.ended r hr).imp fun _ => List.mem_append_left _
    clock := fun _ _ hh => nomatch held.symm.trans hh
    opened := forall_put (P := fun j y => y.station = .opening → second i k + 1 = second j k + 1) hx (fun _ => rfl)
      fun j y hj hy opening => by
        have := (waits j y hj hy).2
        rw [opening] at this
        cases this
    regular := h.regular.concat regular }

/-- The leader begins the next round. -/
theorem leave (h : Sound rounds second n k m) (hx : m.parties[i]? = some ⟨k, .opening⟩) (held : m.holder = some i)
    (within : k < rounds) : Sound rounds second n (k + 1) ((m.leave i k).tell (.passed i k true)) := by
  have inside := (h.held i held).2
  have acted := (h.told i _ hx).opened rfl
  have alone : m.rendezvous.arrived + 1 = n := by
    have count := countP_put k (.asleep 0) (p := Party.isInside k) hx
    rw [show Party.isInside k ⟨k, .opening⟩ = false from rfl,
      show Party.isInside k ⟨k, .asleep 0⟩ = true by simp [Party.isInside], ← h.inside] at count
    rw [← h.cast, ← show (m.put i k (.asleep 0)).parties.length = m.parties.length from List.length_set ..]
    refine count.symm.trans (List.countP_eq_length.2 fun y hy => ?_)
    obtain ⟨j, hy⟩ := List.mem_iff_getElem?.1 hy
    exact forall_put (P := fun _ y => y.isInside k = true) hx (by simp [Party.isInside]) inside j y hy
  have renewed : m.rendezvous.arrive.2 = { m.rendezvous with arrived := 0, round := (k + 1) % period } := by
    have : (m.rendezvous.round + 1) % period = (k + 1) % period := by
      rw [h.round]
      exact Nat.mod_add_mod ..
    rw [← this]
    simp [Rendezvous.arrive, alone, h.expected, period]
  let woken := { m with parties := m.parties.map Party.rouse }
  have hx' : woken.parties[i]? = some ⟨k, .opening⟩ := by
    show (m.parties.map Party.rouse)[i]? = _
    rw [List.getElem?_map, hx]
    rfl
  -- Everybody else has waited, and is awake in the round that is over.
  have others : ∀ (j : Nat) y, j ≠ i → woken.parties[j]? = some y → Told m.record j y ∧ y = ⟨k, .awake (k % period)⟩ := by
    intro j y hj hy
    obtain ⟨x, hx, rfl⟩ := Option.map_eq_some_iff.1 ((List.getElem?_map ..).symm.trans hy)
    refine ⟨(h.told j x hx).rouse, ?_⟩
    have waits := inside j x hj hx
    cases h.stands j x hx with
    | asleep => rfl
    | awake => rfl
    | @late r ended =>
      have : r = k := by simpa [Party.isInside] using waits
      omega
    | _ => cases waits
  have regular : Occurrence.Regular n second m.record (.passed i k true) := by
    refine ⟨⟨i, h.known _ acted, acted, by simp⟩, fun led passed => ?_⟩
    have := (h.told i _ hx).passed k led passed
    simp at this
  show Sound rounds second n (k + 1)
    ({ woken.put i k (.leaving true) with rendezvous := m.rendezvous.arrive.2, holder := none }.tell _)
  rw [renewed]
  exact {
    expected := h.expected
    cast := (List.length_set ..).trans ((List.length_map ..).trans h.cast)
    round := rfl
    stands := forall_put hx' (.leaving rfl within) fun j y hj hy => (others j y hj hy).2 ▸ .late rfl within
    inside := by
      refine (List.countP_eq_zero.2 fun y hy => ?_).symm
      obtain ⟨j, hy⟩ := List.mem_iff_getElem?.1 hy
      refine forall_put (P := fun _ y => ¬y.isInside (k + 1) = true) hx' (by simp [Party.isInside]) ?_ j y hy
      rintro j y hj hy
      rw [(others j y hj hy).2]
      simp [Party.isInside]
    lacking := Nat.zero_lt_of_lt h.lacking
    held := nofun
    told := forall_put hx' ((h.told i _ hx).pass (.inr ⟨rfl, rfl⟩)) fun j y hj hy =>
      (others j y hj hy).1.concat_other (Ne.symm hj)
    known := h.known_concat hx rfl
    ended := by
      intro r hr
      rcases Nat.lt_succ_iff_lt_or_eq.1 hr with below | rfl
      · exact (h.ended r below).imp fun _ => List.mem_append_left _
      · exact ⟨i, List.mem_append_left _ acted⟩
    clock := by
      rintro r same -
      obtain rfl := Nat.succ.inj same
      exact ⟨i, List.mem_append_left _ acted, h.opened i _ hx rfl⟩
    opened := by
      refine forall_put (P := fun j y => y.station = .opening → m.clock = second j (k + 1) + 1) hx' nofun ?_
      intro j y hj hy opening
      rw [(others j y hj hy).2] at opening
      cases opening
    regular := h.regular.concat regular }

/-- A party reads the clock. -/
theorem see {led : Bool} (h : Sound rounds second n k m) (hx : m.parties[i]? = some ⟨r, .leaving led⟩)
    (ended : r + 1 = k) (within : k ≤ rounds) :
    Sound rounds second n k ((m.put i (r + 1) .outside).tell (.saw i r m.clock)) := by
  have free := h.free hx rfl (by simp)
  obtain ⟨leader, acted, time⟩ := h.clock r ended free
  exact h.go hx free rfl (ended ▸ .outside (ended ▸ within)) (.inl rfl) rfl (h.told i _ hx).see
    ⟨⟨led, (h.told i _ hx).left led rfl⟩, leader, h.known _ acted, acted, time⟩

/-- A party finds its round over. -/
theorem pass (h : Sound rounds second n k m) (hx : m.parties[i]? = some ⟨r, .awake (r % period)⟩)
    (ended : r + 1 = k) (within : k ≤ rounds) :
    Sound rounds second n k ((m.put i r (.leaving false)).tell (.passed i r false)) := by
  have apart : Party.isInside k ⟨r, .awake (r % period)⟩ = false := by
    simp only [Party.isInside, decide_eq_false_iff_not]
    omega
  have told := h.told i _ hx
  refine h.go hx (h.free hx apart (by simp)) apart (.leaving ended within) (.inr ⟨false, rfl⟩) rfl
    (told.pass (.inl ⟨rfl, rfl⟩)) ⟨?_, fun led passed => ?_⟩
  · obtain ⟨leader, acted⟩ := h.ended r (by omega)
    refine ⟨leader, h.known _ acted, acted, nofun, ?_⟩
    rintro rfl
    have := told.acted r acted
    simp at this
  · have := told.passed r led passed
    simp at this

end Sound

/-- A step of a party leads to a sound meeting again, in which it has come farther. A round ends when its leader
leaves. -/
theorem Sound.next (h : Sound rounds second n k m) (step : m.next rounds second i = some m') :
    ∃ k', Sound rounds second n k' m' ∧ ways k m.parties < ways k' m'.parties := by
  unfold Meeting.next at step
  cases hx : m.parties[i]? with
  | none => simp [hx] at step
  | some x =>
    cases h.stands i x hx with
    | outside =>
      simp only [hx] at step
      split at step
      · cases step
      · rename_i may
        cases step
        simp only [not_or, Nat.not_le, Bool.not_eq_true, Option.isSome_eq_false_iff, Option.isNone_iff_eq_none] at may
        refine ⟨k, h.enter hx may.2 may.1, ?_⟩
        rw [show ((m.enter i k).tell _).parties = (m.enter i k).parties from rfl, Meeting.enter]
        simp only
        split
        · exact ways_put hx (by simp [way])
        · exact ways_put hx (by simp [way])
    | asleep => simp [hx] at step
    | awake within =>
      simp only [hx, Rendezvous.mayPass, h.round, ne_eq, not_true_eq_false, decide_false, Bool.false_eq_true,
        if_false] at step
      split at step
      · cases step
      · cases step
        exact ⟨k, h.stir hx rfl (.inl rfl) within, ways_put hx (by simp [way])⟩
    | leading within held =>
      simp only [hx, Clock.next] at step
      split at step
      · cases step
        exact ⟨k, h.act hx held within, ways_put hx (by simp [way])⟩
      · cases step
    | opening within held =>
      simp only [hx] at step
      cases step
      exact ⟨k + 1, h.leave hx held within, ways_leave hx (h.held i held).2⟩
    | @late r ended within =>
      simp only [hx, Rendezvous.mayPass, h.round, ← ended, ne_eq, succ_mod_period_ne, not_false_eq_true, decide_true,
        if_true] at step
      split at step
      · cases step
      · cases step
        have past : r ≠ k := by omega
        exact ⟨k, h.pass hx ended within, ways_put hx (by simp [way, past])⟩
    | leaving ended within =>
      simp only [hx] at step
      cases step
      exact ⟨k, h.see hx ended within, ways_put hx (by simp only [way]; omega)⟩

/-- A party which wakes up loses one step. -/
theorem Sound.rouse (h : Sound rounds second n k m) (step : m.rouse i = some m') :
    Sound rounds second n k m' ∧ ways k m.parties = ways k m'.parties + 1 := by
  unfold Meeting.rouse at step
  split at step
  · rename_i r since hx
    cases step
    cases h.stands i _ hx with
    | asleep within =>
      refine ⟨h.stir hx rfl (.inr rfl) within, ?_⟩
      have : ways k (m.put i k (.awake (k % period))).parties + _ = _ := ways_set hx ⟨k, .awake (k % period)⟩
      simp only [way, if_true] at this
      omega
  · cases step

/-- A schedule leads to a sound meeting. Every turn but those of waking up takes a party farther. -/
theorem Sound.play {schedule : List Turn} (h : Sound rounds second n k m)
    (play : m.play rounds second schedule = some m') : ∃ k', Sound rounds second n k' m' ∧
      ways k m.parties + schedule.countP Turn.isNext ≤ ways k' m'.parties + schedule.countP (!·.isNext) := by
  induction schedule generalizing m k with
  | nil =>
    cases play
    exact ⟨k, h, Nat.le_refl _⟩
  | cons turn rest ih =>
    obtain ⟨m₁, step, later⟩ := Option.bind_eq_some_iff.1 play
    cases turn with
    | next i =>
      obtain ⟨k₁, h₁, farther⟩ := h.next step
      obtain ⟨k', h', far⟩ := ih h₁ later
      refine ⟨k', h', ?_⟩
      simp only [List.countP_cons, Turn.isNext_next, if_true, Bool.not_true, Bool.false_eq_true, if_false]
      omega
    | rouse i =>
      obtain ⟨h₁, back⟩ := h.rouse step
      obtain ⟨k', h', far⟩ := ih h₁ later
      refine ⟨k', h', ?_⟩
      simp only [List.countP_cons, Turn.isNext_rouse, if_true, Bool.not_false, Bool.false_eq_true, if_false]
      omega

/-- Parties meet in a sound state. -/
theorem exists_start (rounds : Nat) (second : Nat → Nat → Nat) (somebody : 0 < n) :
    ∃ m₀, start n = .ok m₀ ∧ Sound rounds second n 0 m₀ ∧ m₀.parties = List.replicate n ⟨0, .outside⟩ := by
  have each : ∀ (i : Nat) x, (List.replicate n (⟨0, .outside⟩ : Party))[i]? = some x → x = ⟨0, .outside⟩ :=
    fun i x hx => List.eq_of_mem_replicate (List.mem_of_getElem? hx)
  refine ⟨⟨⟨n, 0, 0⟩, none, 0, List.replicate n ⟨0, .outside⟩, []⟩, ?_, ?_, rfl⟩
  · rw [start, Rendezvous.make, if_pos somebody]
    rfl
  · exact {
      expected := rfl
      cast := List.length_replicate ..
      round := rfl
      stands := fun i x hx => by
        rw [each i x hx]
        exact .outside (Nat.zero_le _)
      inside := by
        refine (List.countP_eq_zero.2 fun x hx => ?_).symm
        rw [List.eq_of_mem_replicate hx]
        simp [Party.isInside]
      lacking := somebody
      held := nofun
      told := fun i x hx => by
        rw [each i x hx]
        exact ⟨by simp, nofun, nofun, nofun, nofun, nofun⟩
      known := nofun
      ended := nofun
      clock := nofun
      opened := fun i x hx opening => by
        rw [each i x hx] at opening
        cases opening
      regular := Regular.nil }

/-! ## Who is counted -/

/-- While the lock is free, exactly those count who have arrived in the round in which nobody has led yet. -/
theorem Sound.counted (h : Sound rounds second n k m) (free : m.holder = none) :
    m.rendezvous.arrived = (List.range n).countP fun i => .arrived i k ∈ m.record := by
  have each : m.parties.map (·.isInside k) = (List.range n).map fun i => decide (.arrived i k ∈ m.record) := by
    refine List.ext_getElem (by simp [h.cast]) fun i hi _ => ?_
    rw [List.length_map] at hi
    have hx := List.getElem?_eq_getElem hi
    have told := (h.told i _ hx).arrived k
    have stands := h.stands i _ hx
    rw [free] at stands
    rw [List.getElem_map, List.getElem_map, List.getElem_range, Bool.eq_iff_iff, decide_eq_true_iff, told]
    generalize m.parties[i] = x at stands
    cases stands with
    | leading _ held => cases held
    | opening _ held => cases held
    | _ => simp [Party.isInside]; try omega
  have count := congrArg (List.countP id) each
  rw [List.countP_map, List.countP_map] at count
  exact h.inside.trans count

/-- While the lock is free, the rounds in which the clock has been set on are those which are over. -/
theorem Sound.acted_iff (h : Sound rounds second n k m) (free : m.holder = none) :
    (∃ i, .acted i r ∈ m.record) ↔ r < k := by
  refine ⟨fun ⟨i, acted⟩ => ?_, h.ended r⟩
  have hi : i < m.parties.length := h.cast ▸ h.known _ acted
  have hx := List.getElem?_eq_getElem hi
  have told := (h.told i _ hx).acted r acted
  have stands := h.stands i _ hx
  rw [free] at stands
  generalize m.parties[i] = x at told stands
  cases stands with
  | leading _ held => cases held
  | opening _ held => cases held
  | _ => simp at told; omega

/-! ## When nobody can go on -/

/-- Somebody can take a step unless everybody has been through all rounds. -/
theorem Sound.over_of_stuck (h : Sound rounds second n k m)
    (early : ∀ i < n, ∀ k < rounds, second i k < Clock.last) (stuck : ∀ i, m.next rounds second i = none) :
    m.isOver rounds = true := by
  have free : m.holder = none := by
    cases held : m.holder with
    | none => rfl
    | some i =>
      obtain ⟨⟨x, hx, station⟩, -⟩ := h.held i held
      have hi : i < n := h.cast ▸ (List.getElem?_eq_some_iff.1 hx).1
      have := stuck i
      cases h.stands i x hx with
      | leading within => simp [Meeting.next, hx, Clock.next, early i hi k within, Except.toOption] at this
      | opening => simp [Meeting.next, hx] at this
      | _ => simp at station
  have each : ∀ (i : Nat) x, m.parties[i]? = some x → x.isInside k = true ∧ k < rounds ∨ x = ⟨rounds, .outside⟩ := by
    intro i x hx
    have := stuck i
    cases h.stands i x hx with
    | outside within =>
      simp only [Meeting.next, hx, free, Option.isSome_none, Bool.false_eq_true, or_false] at this
      split at this
      · rename_i ended
        exact .inr (by rw [Nat.le_antisymm within ended])
      · cases this
    | asleep within => exact .inl ⟨by simp [Party.isInside], within⟩
    | awake within => exact .inl ⟨by simp [Party.isInside], within⟩
    | leading _ held => exact nomatch free.symm.trans held
    | opening _ held => exact nomatch free.symm.trans held
    | late ended =>
      simp [Meeting.next, hx, free, Rendezvous.mayPass, h.round, ← ended, succ_mod_period_ne] at this
    | leaving => simp [Meeting.next, hx] at this
  refine List.all_eq_true.2 fun x hx => decide_eq_true ?_
  obtain ⟨i, hx⟩ := List.mem_iff_getElem?.1 hx
  rcases each i x hx with ⟨-, within⟩ | ended
  · -- Otherwise all wait in this round, and then the last one to arrive wouldn't.
    refine absurd h.lacking (Nat.not_lt.2 (Nat.le_of_eq ?_))
    rw [h.inside, ← h.cast]
    refine (List.countP_eq_length.2 fun y hy => ?_).symm
    obtain ⟨j, hy⟩ := List.mem_iff_getElem?.1 hy
    rcases each j y hy with ⟨inside, -⟩ | rfl
    · exact inside
    · cases h.stands j _ hy with
      | outside => exact absurd within (Nat.lt_irrefl _)
  · exact ended

/-! ## Rounds in order -/

/-- For every number of parties and rounds, and whoever's turn it is: whatever occurs does so in order; a round that
all have left had one leader, who has set the clock on once; those who came in one second see the next one; nobody
counts in a round but those who have arrived in it; and there is no end to it before all have been through all
rounds, but then there is, unless parties keep waking up for no reason. -/
theorem rounds_in_order {n rounds : Nat} {second : Nat → Nat → Nat} (somebody : 0 < n)
    (early : ∀ i < n, ∀ k < rounds, second i k < Clock.last) :
    ∃ m₀, start n = .ok m₀ ∧ ∀ schedule m, m₀.play rounds second schedule = some m →
      Regular n second m.record ∧
      (∀ k, (∀ i < n, ∃ led, .passed i k led ∈ m.record) →
        (∃! i, .passed i k true ∈ m.record) ∧ ∃! i, .acted i k ∈ m.record) ∧
      (∀ k now, (∀ i < n, second i k = now) → ∀ i time, .saw i k time ∈ m.record → time = now + 1) ∧
      (m.holder = none → ∃ k, (∀ r, (∃ i, .acted i r ∈ m.record) ↔ r < k) ∧
        m.rendezvous.arrived = (List.range n).countP fun i => .arrived i k ∈ m.record) ∧
      schedule.countP Turn.isNext ≤ n * (5 * rounds) + schedule.countP (!·.isNext) ∧
      ((∀ i, m.next rounds second i = none) →
        m.isOver rounds = true ∧ ∀ i < n, ∀ k < rounds, ∃ time, .saw i k time ∈ m.record) := by
  obtain ⟨m₀, started, sound, all⟩ := exists_start rounds second somebody
  refine ⟨m₀, started, fun schedule m played => ?_⟩
  obtain ⟨k, h, far⟩ := sound.play played
  refine ⟨h.regular, fun k => h.regular.one_leader somebody, fun k now together i time => h.regular.saw together,
    fun free => ⟨k, fun r => h.acted_iff free, h.counted free⟩, ?_, fun stuck => ?_⟩
  · have := ways_le h
    omega
  · have ended := h.over_of_stuck early stuck
    refine ⟨ended, fun i hi k hk => ?_⟩
    rw [← h.cast] at hi
    refine (h.told i _ (List.getElem?_eq_getElem hi)).saw k ?_
    have := of_decide_eq_true (List.all_eq_true.1 ended _ (List.getElem_mem hi))
    rw [this]
    exact hk

/-- Party 1 leads the first round, is back and sleeps in the second one, wakes up there for no reason, and only then
does party 0 see that the first one is over. -/
theorem rounds_in_order_two :
    let second := fun _ k => 10 * k + 3
    let schedule : List Turn := [.next 0, .next 1, .next 1, .next 1, .next 1, .next 1, .rouse 1, .next 1, .next 0,
      .next 0, .next 0, .next 0, .next 0, .next 1, .next 0, .next 1]
    ∃ m₀ m, start 2 = .ok m₀ ∧ m₀.play 2 second schedule = some m ∧
      m.record = [.arrived 0 0, .arrived 1 0, .acted 1 0, .passed 1 0 true, .saw 1 0 4, .arrived 1 1,
        .passed 0 0 false, .saw 0 0 4, .arrived 0 1, .acted 0 1, .passed 0 1 true, .passed 1 1 false, .saw 0 1 14,
        .saw 1 1 14] ∧
      Regular 2 second m.record ∧ (∃! i, .passed i 1 true ∈ m.record) ∧ schedule.countP Turn.isNext ≤ 21 := by
  intro second schedule
  have early : ∀ i < 2, ∀ k < 2, second i k < Clock.last := by decide
  obtain ⟨m₀, started, all⟩ := rounds_in_order (by decide : 0 < 2) early
  cases started
  have trial : (Meeting.play 2 second schedule ⟨⟨2, 0, 0⟩, none, 0, [⟨0, .outside⟩, ⟨0, .outside⟩], []⟩).map
      Meeting.record = some [.arrived 0 0, .arrived 1 0, .acted 1 0, .passed 1 0 true, .saw 1 0 4, .arrived 1 1,
        .passed 0 0 false, .saw 0 0 4, .arrived 0 1, .acted 0 1, .passed 0 1 true, .passed 1 1 false, .saw 0 1 14,
        .saw 1 1 14] := by decide +kernel
  obtain ⟨m, played, record⟩ := Option.map_eq_some_iff.1 trial
  obtain ⟨regular, led, -, -, far, -⟩ := all schedule m played
  exact ⟨_, m, rfl, played, record, regular, (led 1 (by rw [record]; decide)).1, far⟩

end Meeting

end Mobility
