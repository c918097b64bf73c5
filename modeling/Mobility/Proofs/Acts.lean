import Mathlib.Data.List.Forall2
import Mathlib.Order.Defs.Unbundled
import Mobility.Ensemble

/-!
# What a successful act has done

`Act.Ends act p a q` says that `act`, done in state `p`, ends well with result `a` in state `q`. A
proof takes such an end apart, one step after the other: there is one equivalence for each way to
combine acts and one for each elementary act. They are simplification lemmas, so `simp` turns the
end of an act into what was read on the way and what `q` is. Loops have rules of their own: what
each round keeps, all rounds keep.
-/

set_option autoImplicit false

namespace Mobility

namespace Act

variable {α β : Type} {p q : Partition}

/-- Done in state `p`, the act ends well, with result `a` and in state `q`. -/
def Ends (act : Act α) (p : Partition) (a : α) (q : Partition) : Prop := act.run p = .ok a q

/-! ## Combining acts -/

@[simp] theorem bind_eq_ok {x : Act α} {f : α → Act β} {b : β} :
    Ends (x >>= f) p b q ↔ ∃ a r, Ends x p a r ∧ Ends (f a) r b q := by
  unfold Ends
  rw [EStateM.run_bind]
  cases h : x.run p with
  | ok a r => simp [and_assoc]
  | error e r => simp

@[simp] theorem pure_eq_ok {a b : α} : Ends (pure a : Act α) p b q ↔ a = b ∧ p = q := by
  show EStateM.Result.ok a p = .ok b q ↔ _
  simp

@[simp] theorem throw_ne_ok {f : Failure} {a : α} : ¬ Ends (throw f : Act α) p a q := by
  show ¬ EStateM.Result.error f p = .ok a q
  simp

@[simp] theorem get_eq_ok {r : Partition} : Ends (get : Act Partition) p r q ↔ p = r ∧ p = q := by
  show EStateM.Result.ok p p = .ok r q ↔ _
  simp

@[simp] theorem modify_eq_ok {f : Partition → Partition} {u : Unit} :
    Ends (modify f : Act Unit) p u q ↔ q = f p := by
  show EStateM.Result.ok () (f p) = .ok u q ↔ _
  simp [eq_comm]

/-! ## Loops -/

/-- A relation along each round of a loop, as a relation along the loop. -/
inductive Along (R : α → Partition → Partition → Prop) : List α → Partition → Partition → Prop where
  | nil {p : Partition} : Along R [] p p
  | cons {x : α} {rest : List α} {p r q : Partition} (first : R x p r) (later : Along R rest r q) :
      Along R (x :: rest) p q

theorem forM_iff_along {R : α → Partition → Partition → Prop} {f : α → Act Unit}
    (hstep : ∀ x p q, Ends (f x) p () q ↔ R x p q) {xs : List α} :
    Ends (xs.forM f) p () q ↔ Along R xs p q := by
  rw [List.forM_eq_forM]
  induction xs generalizing p with
  | nil =>
    simp only [List.forM_nil, pure_eq_ok, true_and]
    constructor
    · rintro rfl
      exact .nil
    · rintro ⟨⟩
      rfl
  | cons x rest ih =>
    simp only [List.forM_cons, bind_eq_ok]
    constructor
    · rintro ⟨⟨⟩, r, hx, hrest⟩
      exact .cons ((hstep x p r).1 hx) (ih.1 hrest)
    · intro h
      cases h with
      | @cons _ _ _ r _ first later => exact ⟨(), r, (hstep x p r).2 first, ih.2 later⟩

theorem Along.mono {R S : α → Partition → Partition → Prop} {xs : List α}
    (hRS : ∀ x p q, R x p q → S x p q) (h : Along R xs p q) : Along S xs p q := by
  induction h with
  | nil => exact .nil
  | cons first _ ih => exact .cons (hRS _ _ _ first) ih

theorem along_of_forM {R : α → Partition → Partition → Prop} {f : α → Act Unit}
    (hstep : ∀ x p q, Ends (f x) p () q → R x p q) {xs : List α}
    (h : Ends (xs.forM f) p () q) : Along R xs p q :=
  ((forM_iff_along fun _ _ _ => Iff.rfl).1 h).mono hstep

/-- A reflexive and transitive relation which holds along every round holds along the loop. -/
theorem Along.relates {R : α → Partition → Partition → Prop} {S : Partition → Partition → Prop}
    [Std.Refl S] [IsTrans Partition S] {xs : List α} (hstep : ∀ x ∈ xs, ∀ p q, R x p q → S p q)
    (h : Along R xs p q) : S p q := by
  induction h with
  | nil => exact Std.Refl.refl _
  | cons hx _ ih =>
    exact IsTrans.trans _ _ _ (hstep _ List.mem_cons_self _ _ hx)
      (ih fun y hy => hstep y (List.mem_cons_of_mem _ hy))

/-- A property which no round of a loop breaks survives the loop. -/
theorem Along.keeps {R : α → Partition → Partition → Prop} {P : Partition → Prop} {xs : List α}
    (hstep : ∀ x ∈ xs, ∀ p q, R x p q → P p → P q) (h : Along R xs p q) (hp : P p) : P q := by
  induction h with
  | nil => exact hp
  | cons first _ ih =>
    exact ih (fun y hy => hstep y (List.mem_cons_of_mem _ hy))
      (hstep _ List.mem_cons_self _ _ first hp)

/-- A step which can be done before any round of a loop can be done before the loop. -/
theorem Along.past {R : α → Partition → Partition → Prop}
    {S : Partition → Partition → Prop} {xs : List α} {r : Partition}
    (hstep : ∀ x ∈ xs, ∀ p r q, R x p r → S r q → ∃ s, S p s ∧ R x s q) (h : Along R xs p r)
    (hS : S r q) : ∃ s, S p s ∧ Along R xs s q := by
  induction h generalizing q with
  | nil => exact ⟨q, hS, .nil⟩
  | cons first _ ih =>
    obtain ⟨s, hs, later⟩ := ih (fun y hy => hstep y (List.mem_cons_of_mem _ hy)) hS
    obtain ⟨t, ht, first⟩ := hstep _ List.mem_cons_self _ _ _ first hs
    exact ⟨t, ht, .cons first later⟩

/-- A loop which only modifies the state is a fold. -/
theorem forM_modify {f : α → Partition → Partition} {xs : List α} :
    Ends (xs.forM fun x => (modify (f x) : Act Unit)) p () q ↔
      q = xs.foldl (fun r x => f x r) p := by
  rw [List.forM_eq_forM]
  induction xs generalizing p with
  | nil => simp [eq_comm]
  | cons x rest ih => simp [ih]

/-- Acts which read the state and leave it alone give one result for each item. -/
theorem mapM_reads {f : α → Act β} {P : α → β → Prop} {xs : List α} {ys : List β}
    (hread : ∀ x ∈ xs, ∀ y r, Ends (f x) p y r → p = r ∧ P x y)
    (h : Ends (xs.mapM f) p ys q) : p = q ∧ List.Forall₂ P xs ys := by
  induction xs generalizing ys with
  | nil =>
    simp only [List.mapM_nil, pure_eq_ok] at h
    exact ⟨h.2, h.1 ▸ .nil⟩
  | cons x rest ih =>
    simp only [List.mapM_cons, bind_eq_ok, pure_eq_ok] at h
    obtain ⟨y, r, hx, zs, r', hrest, rfl, rfl⟩ := h
    obtain ⟨rfl, hy⟩ := hread x List.mem_cons_self y r hx
    obtain ⟨hr, hzs⟩ := ih (fun z hz => hread z (List.mem_cons_of_mem _ hz)) hrest
    exact ⟨hr, .cons hy hzs⟩

end Act

namespace Partition

open Act

variable {α : Type} {p q : Partition}

/-! ## Elementary acts -/

@[simp] theorem attempt_eq_ok {x : Except Fault α} {a : α} :
    Ends (attempt x) p a q ↔ x = .ok a ∧ p = q := by
  cases x with
  | ok b => simp [attempt]
  | error f => simp [attempt]

@[simp] theorem communicate_eq_ok {x : Except ExchangeError α} {a : α} :
    Ends (communicate x) p a q ↔ x = .ok a ∧ p = q := by
  cases x with
  | ok b => simp [communicate]
  | error f => simp [communicate]

@[simp] theorem entry_eq_ok {xs : Array α} {index : Nat} {x : α} :
    Ends (entry xs index) p x q ↔ xs[index]? = some x ∧ p = q := by
  unfold entry
  cases h : xs[index]? with
  | some y => simp
  | none => simp

@[simp] theorem agent_eq_ok {id : Nat} {a : Agent} :
    Ends (agent id) p a q ↔ p.agents[id]? = some a ∧ p = q := by
  simp [agent, and_comm]

@[simp] theorem setAgent_eq_ok {id : Nat} {a : Agent} {u : Unit} :
    Ends (setAgent id a) p u q ↔ q = { p with agents := p.agents.setIfInBounds id a } := by
  simp [setAgent]

@[simp] theorem view_eq_ok {link : Nat} {v : LinkView} :
    Ends (view link) p v q ↔ p.links[link]? = some v ∧ p = q := by
  simp [view, and_comm]

@[simp] theorem setView_eq_ok {link : Nat} {v : LinkView} {u : Unit} :
    Ends (setView link v) p u q ↔ q = { p with links := p.links.setIfInBounds link v } := by
  simp [setView]

@[simp] theorem wake_eq_ok {id time : Nat} {u : Unit} :
    Ends (wake id time) p u q ↔
      ∃ due, p.dueAgents.add id time = .ok due ∧ q = { p with dueAgents := due } := by
  simp [wake]

@[simp] theorem revisit_eq_ok {link time : Nat} {u : Unit} :
    Ends (revisit link time) p u q ↔
      ∃ due, p.dueLinks.add link time = .ok due ∧ q = { p with dueLinks := due } := by
  simp [revisit]

@[simp] theorem publish_eq_ok {now : Nat} {event : Event} {u : Unit} :
    Ends (publish now event) p u q ↔ q = { p with log := p.log.push ⟨now, event⟩ } := by
  simp [publish]

@[simp] theorem linkOwner_eq_ok {link owner : Nat} :
    Ends (linkOwner link) p owner q ↔
      ∃ v, p.links[link]? = some v ∧ v.owner p.rank = owner ∧ p = q := by
  simp only [linkOwner, bind_eq_ok, view_eq_ok, get_eq_ok, pure_eq_ok]
  constructor
  · rintro ⟨v, _, ⟨hv, rfl⟩, _, _, ⟨rfl, rfl⟩, rfl, rfl⟩
    exact ⟨v, hv, rfl, rfl⟩
  · rintro ⟨v, hv, rfl, rfl⟩
    exact ⟨v, p, ⟨hv, rfl⟩, p, p, ⟨rfl, rfl⟩, rfl, rfl⟩

@[simp] theorem stopOwner_eq_ok {stop owner : Nat} :
    Ends (stopOwner stop) p owner q ↔
      ∃ link v, p.stopLinks[stop]? = some link ∧ p.links[link]? = some v ∧
        v.owner p.rank = owner ∧ p = q := by
  simp only [stopOwner, bind_eq_ok, get_eq_ok, entry_eq_ok, linkOwner_eq_ok]
  constructor
  · rintro ⟨_, _, ⟨rfl, rfl⟩, link, _, ⟨hl, rfl⟩, v, hv, rfl, rfl⟩
    exact ⟨link, v, hl, hv, rfl, rfl⟩
  · rintro ⟨link, v, hl, hv, rfl, rfl⟩
    exact ⟨p, p, ⟨rfl, rfl⟩, link, p, ⟨hl, rfl⟩, v, hv, rfl, rfl⟩

end Partition

end Mobility
