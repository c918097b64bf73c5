import Mobility.Proofs.Second

/-!
# Ensembles in a second

A `Scene` is one second of a run: which one it is, and from which states the partitions start it.
An ensemble is in a scene (`Ensemble.InScene`) if every process is where the states of the others
let it be. What a process has put into a lane and what it has taken can be read off its stage, and
the lanes hold exactly the difference. A process may also still be inside the rendezvous of the
second before.
-/

set_option autoImplicit false

namespace Mobility

open Act Second

/-! ## Stages -/

namespace Stage

/-- In this second the process has put its buffer for `target` into the lane. -/
def HasPosted (now : Nat) (lane : Lane) (target : Nat) : Stage → Prop
  | .working _ => False
  | .sending l _ pending => if l = lane then target ∉ pending.keys else lane = .transfers
  | .receiving l _ _ _ => lane = .transfers ∨ l = .releases
  | .arriving _ => True
  | .waiting second _ => second = now
  | .done | .failed _ => False

/-- In this second the process has taken a buffer of `sender` from its lane. -/
def HasHeard (now : Nat) (lane : Lane) (sender : Nat) : Stage → Prop
  | .working _ => False
  | .sending l _ _ => lane = .transfers ∧ l = .releases
  | .receiving l _ missing _ => if l = lane then sender ∉ missing else lane = .transfers
  | .arriving _ => True
  | .waiting second _ => second = now
  | .done | .failed _ => False

/-- The process is inside the rendezvous of the second. -/
def isWaiting (now : Nat) : Stage → Bool
  | .waiting second _ => second = now
  | _ => false

end Stage

/-! ## Scenes -/

/-- A second of a run. -/
structure Scene where
  timing : Timing
  partners : Nat → List Nat
  now : Nat
  /-- The partitions at the start of the second. -/
  start : List Partition

namespace Scene

/-- What partition `rank` puts into a lane, and its state then. -/
def sent (e : Scene) : Lane → Nat → Option (Buffers × Partition)
  | .transfers => departed e.now e.start
  | .releases => arrived e.now e.start

/-- `data` is what `sender` puts into the lane of `target`. -/
def Says (e : Scene) (lane : Lane) (sender target : Nat) (data : List UInt8) : Prop :=
  ∃ b q, e.sent lane sender = some (b, q) ∧ b.get? target = some data

/-- Where the process of partition `rank` can be while the rendezvous is in round `round`. -/
inductive Places (e : Scene) (clock round rank : Nat) : Process → Prop where
  /-- It is still inside the rendezvous of the second before. -/
  | late {p : Partition} {second since : Nat} (state : e.start[rank]? = some p)
      (inTime : second ≤ e.timing.stop) (before : second + 1 = e.now) (ended : since ≠ round)
      (ahead : clock = e.now) : Places e clock round rank ⟨p, .waiting second since⟩
  | working {p : Partition} (state : e.start[rank]? = some p) (inTime : e.now ≤ e.timing.stop) :
      Places e clock round rank ⟨p, .working e.now⟩
  | sending {lane : Lane} {b pending : Buffers} {p : Partition}
      (state : e.sent lane rank = some (b, p)) (inTime : e.now ≤ e.timing.stop)
      (rest : ∀ target data, pending.get? target = some data → b.get? target = some data) :
      Places e clock round rank ⟨p, .sending lane e.now pending⟩
  | receiving {lane : Lane} {b : Buffers} {p : Partition} {missing : List Nat} {received : Delivery}
      (state : e.sent lane rank = some (b, p)) (inTime : e.now ≤ e.timing.stop)
      (each : (received.map Prod.fst ++ missing).Perm (e.partners rank))
      (said : ∀ buffer ∈ received, e.Says lane buffer.1 rank buffer.2) :
      Places e clock round rank ⟨p, .receiving lane e.now missing received⟩
  | arriving {p : Partition} (state : settled e.now e.start rank = some p)
      (inTime : e.now ≤ e.timing.stop) : Places e clock round rank ⟨p, .arriving e.now⟩
  | waiting {p : Partition} (state : settled e.now e.start rank = some p)
      (inTime : e.now ≤ e.timing.stop) : Places e clock round rank ⟨p, .waiting e.now round⟩
  | done {p : Partition} (state : e.start[rank]? = some p) (ended : e.now = e.timing.stop + 1) :
      Places e clock round rank ⟨p, .done⟩

end Scene

namespace Ensemble

/-- Process `sender` has put its buffer into the lane of `target`. -/
def Posted (processes : List Process) (now : Nat) (lane : Lane) (sender target : Nat) : Prop :=
  ∃ x, processes[sender]? = some x ∧ x.stage.HasPosted now lane target

/-- Process `target` has taken the buffer of `sender` from its lane. -/
def Heard (processes : List Process) (now : Nat) (lane : Lane) (target sender : Nat) : Prop :=
  ∃ x, processes[target]? = some x ∧ x.stage.HasHeard now lane sender

/-- The lanes hold what was put there in this second and wasn't taken, once. -/
structure Delivers (e : Scene) (processes : List Process) (lanes : Lanes) : Prop where
  unique : ∀ lane i, ((lanes.contents lane i).map Prod.fst).Nodup
  contents : ∀ lane i j data, (j, data) ∈ lanes.contents lane i ↔
    j ∈ e.partners i ∧ Posted processes e.now lane j i ∧ ¬ Heard processes e.now lane i j ∧
      e.Says lane j i data
  heard : ∀ lane i j, j ∈ e.partners i → Heard processes e.now lane i j →
    Posted processes e.now lane j i

/-- The ensemble goes through this second, or waits for it to begin. -/
structure InScene (e : Scene) (size : Nat) (c : Ensemble) : Prop where
  company : Company e.timing e.partners e.start
  cast : e.start.length = size
  processes : c.processes.length = size
  lanes : c.lanes.size = size
  parties : c.rendezvous.parties = size
  places : ∀ (i : Nat) x, c.processes[i]? = some x → e.Places c.clock c.rendezvous.round i x
  arrived : c.rendezvous.arrived = c.processes.countP fun x => x.stage.isWaiting e.now
  some_out : c.rendezvous.arrived < size
  delivers : Delivers e c.processes c.lanes

end Ensemble

/-! ## Lanes -/

namespace Lanes

theorem contents_setContents (l : Lanes) (lane lane' : Lane) (rank i : Nat) (buffers : Delivery) :
    (l.setContents lane rank buffers).contents lane' i =
      if lane' = lane ∧ i = rank then buffers else l.contents lane' i := by
  have row : ∀ t : Table Delivery,
      ((t.alter rank fun _ => if buffers.isEmpty then none else some buffers).get? i).getD [] =
        if i = rank then buffers else (t.get? i).getD [] := by
    intro t
    rw [Table.get?_alter]
    by_cases hi : i = rank
    · rw [if_pos hi, if_pos hi]
      cases buffers <;> rfl
    · rw [if_neg hi, if_neg hi]
  cases lane <;> cases lane'
  · simp only [true_and]
    exact row l.transfers
  · simp [setContents, contents]
  · simp [setContents, contents]
  · simp only [true_and]
    exact row l.releases

@[simp] theorem size_setContents (l : Lanes) (lane : Lane) (rank : Nat) (buffers : Delivery) :
    (l.setContents lane rank buffers).size = l.size := by
  cases lane <;> rfl

theorem send_eq_ok {l l' : Lanes} {lane : Lane} {sender target : Nat} {data : List UInt8}
    (h : l.send lane sender target data = .ok l') :
    target < l.size ∧
      l' = l.setContents lane target (l.contents lane target ++ [(sender, data)]) := by
  unfold send at h
  split at h
  · rename_i ht
    cases h
    exact ⟨ht, rfl⟩
  · cases h

end Lanes

end Mobility
