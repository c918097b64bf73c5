import Mobility.Proofs.Acts

/-!
# What an act leaves behind

A failure keeps the state, so what an act has done can be asked however it ends: `Act.Leaves R act p`
says that the state in which `act` leaves `p` is related to `p` by `R`. Most of what a partition does
doesn't touch its links (`Act.OffLinks`). This is seen from the parts of an act, whatever they read.
-/

set_option autoImplicit false

namespace Mobility

namespace Act

variable {α β : Type} {act : Act α} {next : α → Act β} {R : Partition → Partition → Prop}
  {p q : Partition}

/-- The state in which an act leaves the partition, whether it ends well or fails. -/
def left (act : Act α) (p : Partition) : Partition :=
  match act.run p with
  | .ok _ q => q
  | .error _ q => q

theorem left_of_ends {a : α} (h : Ends act p a q) : act.left p = q := by
  unfold left
  rw [h]

/-- However the act ends, the state it leaves is related to the state before. -/
def Leaves (R : Partition → Partition → Prop) (act : Act α) (p : Partition) : Prop := R p (act.left p)

theorem Leaves.bind [IsTrans Partition R] (h : Leaves R act p)
    (hn : ∀ a q, Ends act p a q → Leaves R (next a) q) : Leaves R (act >>= next) p := by
  unfold Leaves left at h ⊢
  rw [EStateM.run_bind]
  cases hr : act.run p with
  | error f q => rwa [hr] at h
  | ok a q =>
    rw [hr] at h
    exact IsTrans.trans _ _ _ h (hn a q hr)

/-- What is read is known before. -/
theorem Leaves.after {a : α} (h : Ends act p a p) (hn : Leaves R (next a) p) :
    Leaves R (act >>= next) p := by
  unfold Leaves left at hn ⊢
  rw [EStateM.run_bind, h]
  exact hn

theorem Leaves.forM [Std.Refl R] [IsTrans Partition R] {xs : List α} {each : α → Act Unit}
    (h : ∀ x ∈ xs, ∀ p, Leaves R (each x) p) : Leaves R (xs.forM each) p := by
  induction xs generalizing p with
  | nil => exact Std.Refl.refl (r := R) _
  | cons x rest ih =>
    exact (h x List.mem_cons_self p).bind fun _ _ _ => ih fun y hy => h y (List.mem_cons_of_mem _ hy)

/-! ## Acts which leave the links alone -/

/-- However the act ends, the links are what they were. -/
def OffLinks (act : Act α) : Prop := ∀ p, (act.left p).links = p.links

namespace OffLinks

theorem pure (a : α) : OffLinks (pure a) := fun _ => rfl

theorem get : OffLinks (α := Partition) MonadState.get := fun _ => rfl

theorem fail (f : Failure) : OffLinks (throw f : Act α) := fun _ => rfl

theorem modify (g : Partition → Partition) (h : ∀ p, (g p).links = p.links) :
    OffLinks (modify g) := h

theorem bind (h : OffLinks act) (hn : ∀ a, OffLinks (next a)) : OffLinks (act >>= next) := by
  intro p
  have := h p
  unfold left at this ⊢
  rw [EStateM.run_bind]
  cases hr : act.run p with
  | error f q => rwa [hr] at this
  | ok a q =>
    rw [hr] at this
    exact (hn a q).trans this

theorem forM {xs : List α} {each : α → Act Unit} (h : ∀ x ∈ xs, OffLinks (each x)) :
    OffLinks (xs.forM each) := by
  induction xs with
  | nil => exact pure ()
  | cons x rest ih =>
    exact (h x List.mem_cons_self).bind fun _ => ih fun y hy => h y (List.mem_cons_of_mem _ hy)

theorem mapM {xs : List α} {each : α → Act β} (h : ∀ x ∈ xs, OffLinks (each x)) :
    OffLinks (xs.mapM each) := by
  induction xs with
  | nil => exact pure []
  | cons x rest ih =>
    rw [List.mapM_cons]
    exact (h x List.mem_cons_self).bind fun _ =>
      (ih fun y hy => h y (List.mem_cons_of_mem _ hy)).bind fun _ => pure _

/-- The links are what they were if the act ends well. -/
theorem links {a : α} (h : OffLinks act) (ends : Ends act p a q) : q.links = p.links :=
  left_of_ends ends ▸ h p

end OffLinks

end Act

namespace Partition

open Act

variable {α : Type} {id link now : Nat} {p q r : Partition}

theorem attempt_off (x : Except Fault α) : OffLinks (attempt x) := by
  cases x with
  | ok a => exact .pure a
  | error f => exact .fail _

theorem communicate_off (x : Except ExchangeError α) : OffLinks (communicate x) := by
  cases x with
  | ok a => exact .pure a
  | error f => exact .fail _

theorem entry_off {xs : Array α} {index : Nat} : OffLinks (entry xs index) := by
  unfold entry
  split
  · exact .pure _
  · exact .fail _

theorem agent_off : OffLinks (agent id) := OffLinks.get.bind fun _ => entry_off

theorem setAgent_off {a : Agent} : OffLinks (setAgent id a) := .modify _ (by intro p; rfl)

theorem view_off : OffLinks (view link) := OffLinks.get.bind fun _ => entry_off

theorem wake_off {time : Nat} : OffLinks (wake id time) :=
  OffLinks.get.bind fun _ => (attempt_off _).bind fun _ => .modify _ (by intro p; rfl)

theorem revisit_off {time : Nat} : OffLinks (revisit link time) :=
  OffLinks.get.bind fun _ => (attempt_off _).bind fun _ => .modify _ (by intro p; rfl)

theorem consume_off {how : Consumption} : OffLinks (consume id how now) := by
  refine agent_off.bind fun a => (attempt_off _).bind fun ⟨b, event⟩ => setAgent_off.bind fun _ => ?_
  cases event with
  | none => exact .pure ()
  | some event => exact .modify _ (by intro p; rfl)

theorem stopOwner_off {stop : Nat} : OffLinks (stopOwner stop) :=
  OffLinks.get.bind fun _ => entry_off.bind fun _ =>
    view_off.bind fun _ => OffLinks.get.bind fun _ => .pure _

theorem record_off : OffLinks (record id) := by
  refine agent_off.bind fun a => ?_
  split
  · exact (OffLinks.mapM fun _ _ => agent_off.bind fun _ => .pure _).bind fun _ => .pure _
  · exact .pure _

theorem send_off {target : Nat} {link : Option Nat} : OffLinks (send target link id now) :=
  record_off.bind fun _ => .modify _ (by intro p; rfl)

theorem wait_off {route : RouteId} {stop : StopId} : OffLinks (wait id route stop now) := by
  refine stopOwner_off.bind fun owner => OffLinks.get.bind fun p => ?_
  split
  · exact send_off.bind fun _ => .pure _
  · refine consume_off.bind fun _ => agent_off.bind fun a => (attempt_off _).bind fun next => ?_
    split
    · exact (OffLinks.modify _ (by intro p; rfl)).bind fun _ => .pure _
    · exact .fail _

theorem stopArrive_off {stop : StopRef} : OffLinks (stopArrive id stop now) := by
  refine stopOwner_off.bind fun owner => OffLinks.get.bind fun p => ?_
  split
  · exact send_off.bind fun _ => .pure _
  · exact consume_off.bind fun _ => wake_off.bind fun _ => .pure _

theorem exchangePassengers_off {stop : StopRef} : OffLinks (exchangePassengers id stop now) := by
  refine consume_off.bind fun _ => agent_off.bind fun vehicle =>
    (attempt_off _).bind fun ⟨leaving, seats⟩ => setAgent_off.bind fun _ => ?_
  refine OffLinks.bind (.forM fun _ _ => consume_off.bind fun _ => wake_off) fun _ =>
    agent_off.bind fun vehicle => OffLinks.get.bind fun p => ?_
  exact setAgent_off.bind fun _ => (OffLinks.modify _ (by intro p; rfl)).bind fun _ =>
    .forM fun _ _ => consume_off

theorem requestedVelocity_off : OffLinks (requestedVelocity id) := by
  refine agent_off.bind fun a => (attempt_off _).bind fun previous => ?_
  split
  · exact .pure _
  · exact .fail _

theorem letIn_off {gate : Gateway} {fromPart : Nat} {velocity : Velocity} :
    OffLinks (letIn gate id fromPart now velocity) :=
  OffLinks.get.bind fun _ => agent_off.bind fun _ => setAgent_off.bind fun _ => .pure _

theorem admitWaiting_off {waiting : List (Nat × Nat)} (gate : Gateway) :
    OffLinks (admitWaiting gate now waiting) := by
  induction waiting generalizing gate with
  | nil => exact .pure _
  | cons first rest ih =>
    obtain ⟨id, fromPart⟩ := first
    unfold admitWaiting
    split
    · exact .pure _
    · exact requestedVelocity_off.bind fun _ => letIn_off.bind fun _ => ih _

theorem revisitHead_off : OffLinks (revisitHead link) := by
  refine view_off.bind fun v => ?_
  split
  · exact .pure ()
  · exact revisit_off

theorem receivePassenger_off {x : PassengerRecord} : OffLinks (receivePassenger x) := by
  refine OffLinks.get.bind fun p => ?_
  split
  · exact .fail _
  · exact (attempt_off _).bind fun _ => setAgent_off.bind fun _ => .pure _

theorem sendReleases_off : OffLinks (sendReleases now) :=
  OffLinks.get.bind fun _ => (OffLinks.modify _ (by intro p; rfl)).bind fun _ => communicate_off _

end Partition

end Mobility
