import Mobility.Proofs.Partition.Failures
import Mobility.Proofs.Partition.Steps

/-!
# Acts which only fail as documented

`Act.Fails F act p` says that `act`, done in state `p`, ends well or fails as `F` says. The rules follow the way
in which acts are made of acts; after the first part of an act one knows how it ended.

Three failures are a matter of the plans, and a scenario with such plans is accepted: an agent leads to a
partition which isn't a neighbor, it dispatches a step which only a vehicle executes, or it waits without
saying where it leaves. An act is safe (`Act.Safe`) if it only fails in one of these three ways, or because
partitions disagree (`Failure.isDiscord`), which is a matter of the ledger of the crossings.
-/

set_option autoImplicit false

namespace Mobility

/-- The plan of an agent brings the failure about. -/
def Failure.isDocumented : Failure → Bool
  | .exchange (.notANeighbor _) | .fault (.notAboard ..) | .fault (.noEgress ..) => true
  | _ => false

theorem Failure.isNotable_of_isDocumented {f : Failure} (h : f.isDocumented = true) : f.isNotable = true := by
  unfold isDocumented at h
  split at h
  · exact isNotable_of_isStranger rfl
  · exact isNotable_of_isMisplanned rfl
  · exact isNotable_of_isMisplanned rfl
  · cases h

namespace Act

variable {α β : Type} {act : Act α} {next : α → Act β} {p q : Partition}

/-- Done in state `p`, the act only fails as `F` says. -/
def Fails (F : Failure → Prop) (act : Act α) (p : Partition) : Prop :=
  ∀ f q, act.run p = .error f q → F f

namespace Fails

variable {F : Failure → Prop}

theorem of_ends {a : α} (h : Ends act p a q) : Fails F act p := by
  intro f r hf
  rw [h] at hf
  cases hf

theorem pure (a : α) : Fails F (pure a) p := .of_ends (pure_eq_ok.2 ⟨rfl, rfl⟩)

theorem modify (g : Partition → Partition) : Fails F (modify g) p :=
  .of_ends (a := ()) (modify_eq_ok.2 rfl)

theorem throw {f : Failure} (h : F f) : Fails F (throw f : Act α) p := by
  intro f' q hf
  cases hf
  exact h

theorem bind (h : Fails F act p) (hn : ∀ a q, Ends act p a q → Fails F (next a) q) :
    Fails F (act >>= next) p := by
  intro f r hf
  rw [EStateM.run_bind] at hf
  split at hf
  · rename_i a q ha
    exact hn a q ha f r hf
  · rename_i he
    cases hf
    exact h _ _ he

/-- What is read is known before. -/
theorem after {a : α} (h : Ends act p a q) (hn : Fails F (next a) q) : Fails F (act >>= next) p := by
  intro f r hf
  rw [EStateM.run_bind, h] at hf
  exact hn f r hf

/-- What holds of the items still to come and of the state, round by round, makes a loop safe. -/
theorem forM {P : List α → Partition → Prop} {f : α → Act Unit} {xs : List α}
    (safe : ∀ x rest p, P (x :: rest) p → Fails F (f x) p)
    (step : ∀ x rest p q, P (x :: rest) p → Ends (f x) p () q → P rest q) (h : P xs p) :
    Fails F (xs.forM f) p := by
  induction xs generalizing p with
  | nil => exact pure ()
  | cons x rest ih => exact (safe x rest p h).bind fun _ q hx => ih (step x rest p q h hx)

theorem mapM {P : List α → Partition → Prop} {f : α → Act β} {xs : List α}
    (safe : ∀ x rest p, P (x :: rest) p → Fails F (f x) p)
    (step : ∀ x rest p y q, P (x :: rest) p → Ends (f x) p y q → P rest q) (h : P xs p) :
    Fails F (xs.mapM f) p := by
  induction xs generalizing p with
  | nil => exact pure []
  | cons x rest ih =>
    rw [List.mapM_cons]
    exact (safe x rest p h).bind fun y q hx =>
      (ih (step x rest p y q h hx)).bind fun ys r _ => pure _

end Fails

/-- What can't fail ends well. -/
theorem ends_of_never (h : Fails (fun _ => False) act p) : ∃ a q, Ends act p a q := by
  cases hr : act.run p with
  | ok a q => exact ⟨a, q, hr⟩
  | error f q => exact (h f q hr).elim

/-- Done in state `p`, the act doesn't fail but because of a plan or because partitions disagree. -/
def Safe (act : Act α) (p : Partition) : Prop :=
  Fails (fun f => f.isDocumented = true ∨ f.isDiscord = true) act p

/-- What holds of the items still to come, round by round, holds of none after the loop. -/
theorem forM_rest {P : List α → Partition → Prop} {f : α → Act Unit} {xs : List α}
    (step : ∀ x rest p q, P (x :: rest) p → Ends (f x) p () q → P rest q) (h : P xs p)
    (ends : Ends (xs.forM f) p () q) : P [] q := by
  have along : Along (fun x p q => Ends (f x) p () q) xs p q := along_of_forM (fun _ _ _ h => h) ends
  induction along with
  | nil => exact h
  | cons first later ih => exact ih (step _ _ _ _ h first) ((forM_iff_along fun _ _ _ => Iff.rfl).2 later)

/-- A loop in a loop is one loop. -/
theorem forM_flatMap (xs : List α) (f : α → List β) (g : β → Act Unit) :
    (xs.flatMap f).forM g = xs.forM fun x => (f x).forM g := by
  induction xs with
  | nil => rfl
  | cons x rest ih =>
    simp only [List.forM_eq_forM, List.flatMap_cons, List.forM_append, List.forM_cons] at ih ⊢
    rw [ih]

end Act

namespace Partition

open Act

variable {α : Type} {F : Failure → Prop} {p q : Partition} {id link now time : Nat}

/-! ## Elementary acts -/

theorem ends_agent {a : Agent} (h : p.agents[id]? = some a) : Ends (agent id) p a p :=
  agent_eq_ok.2 ⟨h, rfl⟩

theorem ends_view {v : LinkView} (h : p.links[link]? = some v) : Ends (view link) p v p :=
  view_eq_ok.2 ⟨h, rfl⟩

theorem ends_modify (g : Partition → Partition) (p : Partition) : Ends (modify g : Act Unit) p () (g p) :=
  modify_eq_ok.2 rfl

theorem ends_setAgent (p : Partition) (id : Nat) (a : Agent) :
    Ends (setAgent id a) p () { p with agents := p.agents.setIfInBounds id a } :=
  setAgent_eq_ok.2 rfl

theorem ends_setView (p : Partition) (link : Nat) (v : LinkView) :
    Ends (setView link v) p () { p with links := p.links.setIfInBounds link v } :=
  setView_eq_ok.2 rfl

theorem ends_get (p : Partition) : Ends (get : Act Partition) p p p := get_eq_ok.2 ⟨rfl, rfl⟩

theorem add_of_le {a : Agenda α} {x : α} (h : a.next ≤ time) : ∃ b, a.add x time = .ok b := by
  unfold Agenda.add
  rw [if_neg (by omega)]
  split
  · exact ⟨_, rfl⟩
  · exact ⟨_, rfl⟩

/-- A second which isn't over can be scheduled. -/
theorem safe_wake (h : p.dueAgents.next ≤ time) : Fails F (wake id time) p := by
  obtain ⟨due, hadd⟩ := add_of_le (x := id) h
  exact .of_ends (a := ()) (wake_eq_ok.2 ⟨due, hadd, rfl⟩)

theorem safe_revisit (h : p.dueLinks.next ≤ time) : Fails F (revisit link time) p := by
  obtain ⟨due, hadd⟩ := add_of_le (x := link) h
  exact .of_ends (a := ()) (revisit_eq_ok.2 ⟨due, hadd, rfl⟩)

theorem visit_of_next {a : Agenda α} (h : a.next = now) (last : now < Clock.last) :
    ∃ r, a.visit now = .ok r := by
  unfold Agenda.visit Clock.next
  rw [if_pos h, if_pos last]
  exact ⟨_, rfl⟩

end Partition

end Mobility
