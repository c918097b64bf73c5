import Mobility.Proofs.Whereabouts.Rows

/-!
# Platforms are first-in first-out queues

A stop has a queue for every route and every index where passengers leave. Whatever was done before, each queue is
what was added to it without those at its front who have boarded. A vehicle asks those who leave at its index or
later, by index and then by arrival, until one is refused, and takes exactly those who were admitted
(`Platforms.used_as_queues`).
-/

set_option autoImplicit false

namespace Mobility.Platforms

variable {p q : Platforms} {stop route fromIndex index agent : Nat} {boarded : List (Nat × Nat)}

/-! ## Histories -/

/-- What is done at stops, with those who boarded. -/
inductive Use where
  | adds (stop route index agent : Nat)
  | boards (stop route fromIndex : Nat) (boarded : List (Nat × Nat))

namespace Use

def addition : Use → List ((Nat × Nat × Nat) × Nat)
  | .adds stop route index agent => [((stop, route, index), agent)]
  | .boards .. => []

def boarding : Use → List ((Nat × Nat × Nat) × Nat)
  | .adds .. => []
  | .boards stop route _ boarded => boarded.map fun row => ((stop, route, row.1), row.2)

end Use

/-- Who was added, each with stop, route and index, in order. -/
def additions (uses : List Use) : List ((Nat × Nat × Nat) × Nat) := uses.flatMap Use.addition

/-- Who has boarded, each with stop, route and index, in order. -/
def boardings (uses : List Use) : List ((Nat × Nat × Nat) × Nat) := uses.flatMap Use.boarding

/-- Stops where nobody waited at first, with everything that was done there. Each vehicle has a test of its own. -/
inductive Used : List Use → Platforms → Prop
  | begins : Used [] empty
  | adds {uses : List Use} {p : Platforms} (stop route index agent : Nat) (before : Used uses p) :
      Used (uses ++ [.adds stop route index agent]) (p.add stop route index agent)
  | boards {uses : List Use} {p q : Platforms} {stop route fromIndex : Nat} {σ : Type}
      {accepts : Nat → Nat → StateM σ Bool} {s t : σ} {boarded : List (Nat × Nat)} (before : Used uses p)
      (board : p.board stop route fromIndex accepts s = ((boarded, q), t)) :
      Used (uses ++ [.boards stop route fromIndex boarded]) q

variable {uses : List Use}

theorem additions_concat (uses : List Use) (use : Use) :
    additions (uses ++ [use]) = additions uses ++ use.addition := by
  simp [additions]

theorem boardings_concat (uses : List Use) (use : Use) :
    boardings (uses ++ [use]) = boardings uses ++ use.boarding := by
  simp [boardings]

/-! ## Boarding -/

/-- Those who may board wait by the index where they leave, and then by arrival. -/
theorem byNumber_waiting (p : Platforms) (stop route fromIndex : Nat) :
    ByNumber (fun index => if fromIndex ≤ index then p.row stop route index else [])
      (waiting (p.queuesOf stop route) fromIndex) where
  ascending := ascending_waiting ..
  values := filter_waiting (p.queuesOf stop route) fromIndex

theorem bind_apply {σ α β : Type} {x : StateM σ α} {next : α → StateM σ β} {s t : σ} {a : α} (h : x s = (a, t)) :
    (x >>= next) s = next a t := by
  show next (x s).1 (x s).2 = next a t
  rw [h]

/-- Everybody is asked up to the first one who is refused, and nobody else. -/
theorem admitted_eq {σ : Type} (accepts : Nat → Nat → StateM σ Bool) (line : List (Nat × Nat)) (s : σ) :
    ∃ (count : Nat) (t : σ), count ≤ line.length ∧ admitted accepts line s = (line.take count, t) ∧
      ((line.take (count + 1)).mapM fun row => accepts row.1 row.2) s =
        (List.replicate count true ++ if count < line.length then [false] else [], t) := by
  induction line generalizing s with
  | nil => exact ⟨0, s, Nat.le_refl 0, rfl, rfl⟩
  | cons row rest ih =>
    obtain ⟨index, agent⟩ := row
    obtain ⟨⟨answer, s'⟩, asked⟩ : ∃ r, accepts index agent s = r := ⟨_, rfl⟩
    cases answer with
    | false =>
      refine ⟨0, s', Nat.zero_le _, ?_, ?_⟩
      · rw [admitted, bind_apply asked]
        rfl
      · rw [List.take_succ_cons, List.mapM_cons, bind_apply asked]
        rfl
    | true =>
      obtain ⟨count, t, few, took, answers⟩ := ih s'
      refine ⟨count + 1, t, Nat.succ_le_succ few, ?_, ?_⟩
      · rw [admitted, bind_apply asked, if_pos rfl, bind_apply took]
        rfl
      · rw [List.take_succ_cons, List.mapM_cons, bind_apply asked, bind_apply answers]
        simp only [List.length_cons, Nat.add_lt_add_iff_right]
        rfl

/-- What a vehicle at a stop does, whatever its test is: it asks the first ones of those who may board, takes them
from the fronts of their queues, and leaves everything else as it is. -/
theorem board_takes {σ : Type} (p : Platforms) (stop route fromIndex : Nat) (accepts : Nat → Nat → StateM σ Bool)
    (s : σ) : ∃ (line : List (Nat × Nat)) (count : Nat) (t : σ) (q : Platforms),
      ByNumber (fun index => if fromIndex ≤ index then p.row stop route index else []) line ∧ count ≤ line.length ∧
      p.board stop route fromIndex accepts s = ((line.take count, q), t) ∧
      ((line.take (count + 1)).mapM fun row => accepts row.1 row.2) s =
        (List.replicate count true ++ if count < line.length then [false] else [], t) ∧
      q.size = p.size - count ∧ q.everybody + ((line.take count).map Prod.snd : List Nat) = p.everybody ∧
      ∀ a b index, p.row a b index =
        (if a = stop ∧ b = route then valuesAt index (line.take count) else []) ++ q.row a b index := by
  let line := waiting (p.queuesOf stop route) fromIndex
  obtain ⟨count, t, few, took, answers⟩ := admitted_eq accepts line s
  have front : line.take count <+: waiting (p.queuesOf stop route) fromIndex := List.take_prefix count line
  obtain ⟨q, after⟩ : ∃ q : Platforms, q = ⟨p.queues.alter stop fun routes => routes.map fun routes =>
    routes.alter route fun queues => queues.map fun queues => without queues (line.take count),
    p.size - (line.take count).length⟩ := ⟨_, rfl⟩
  have queues := congrArg Platforms.queues after
  have size := congrArg Platforms.size after
  refine ⟨line, count, t, q, byNumber_waiting p stop route fromIndex, few, ?_, answers, ?_,
    everybody_board front queues, fun a b index => ?_⟩
  · rw [board, bind_apply took, after]
    rfl
  · rw [size, List.length_take_of_le few]
  · unfold row
    rw [queuesOf_board queues]
    by_cases own : a = stop ∧ b = route
    · obtain ⟨rfl, rfl⟩ := own
      rw [if_pos ⟨rfl, rfl⟩, if_pos ⟨rfl, rfl⟩]
      exact row_eq_boarded front index
    · rw [if_neg own, if_neg own, List.nil_append]

/-! ## All uses -/

/-- What the queues are after everything that was done, and how many agents wait. -/
structure Holding (uses : List Use) (p : Platforms) : Prop where
  queues : ∀ stop route index, valuesAt (stop, route, index) (additions uses) =
    valuesAt (stop, route, index) (boardings uses) ++ p.row stop route index
  size : p.size = p.everybody.card
  total : (additions uses).length = (boardings uses).length + p.size

namespace Holding

theorem begins : Holding [] empty := ⟨fun _ _ _ => rfl, rfl, rfl⟩

theorem adds (h : Holding uses p) (stop route index agent : Nat) :
    Holding (uses ++ [.adds stop route index agent]) (p.add stop route index agent) where
  queues a b c := by
    rw [additions_concat, boardings_concat, Use.addition, Use.boarding, List.append_nil, row_add, valuesAt_append,
      valuesAt_singleton, h.queues, List.append_assoc]
    simp only [Prod.mk.injEq, eq_comm]
  size := by
    rw [everybody_add, Multiset.card_add, Multiset.card_singleton, ← h.size]
    rfl
  total := by
    rw [additions_concat, boardings_concat, Use.addition, Use.boarding, List.append_nil, List.length_append, h.total]
    exact Nat.add_assoc ..

theorem boards {σ : Type} {accepts : Nat → Nat → StateM σ Bool} {s t : σ} (h : Holding uses p)
    (board : p.board stop route fromIndex accepts s = ((boarded, q), t)) :
    Holding (uses ++ [.boards stop route fromIndex boarded]) q := by
  obtain ⟨line, count, t', q', -, few, took, -, fewer, left, rows⟩ := board_takes p stop route fromIndex accepts s
  rw [took] at board
  cases board
  have kept : additions (uses ++ [.boards stop route fromIndex (line.take count)]) = additions uses := by
    rw [additions_concat]
    exact List.append_nil _
  have waited := congrArg Multiset.card left
  rw [Multiset.card_add, Multiset.coe_card, List.length_map, List.length_take_of_le few, ← h.size] at waited
  refine ⟨fun a b c => ?_, by omega, ?_⟩
  · have own : valuesAt (a, b, c) ((line.take count).map fun row => ((stop, route, row.1), row.2)) =
        if a = stop ∧ b = route then valuesAt c (line.take count) else [] := by
      unfold valuesAt
      rw [List.filter_map, List.map_map]
      by_cases same : a = stop ∧ b = route
      · obtain ⟨rfl, rfl⟩ := same
        simp [Function.comp_def]
      · rw [if_neg same, List.map_eq_nil_iff, List.filter_eq_nil_iff]
        intro row _ this
        simp only [Function.comp_apply, decide_eq_true_eq, Prod.mk.injEq] at this
        exact same ⟨this.1.symm, this.2.1.symm⟩
    rw [kept, boardings_concat, Use.boarding, valuesAt_append, own, h.queues, List.append_assoc, ← rows]
  · rw [kept, boardings_concat, Use.boarding, List.length_append, List.length_map, List.length_take_of_le few,
      h.total]
    omega

end Holding

theorem Used.holding (h : Used uses p) : Holding uses p := by
  induction h with
  | begins => exact .begins
  | adds stop route index agent _ ih => exact ih.adds stop route index agent
  | boards _ board ih => exact ih.boards board

/-- Whatever was done at the stops before, with whatever tests: each queue is what was added to it without those
who have boarded from it, who were at its front, so nobody has boarded twice. As many agents wait as are counted,
which are those who were added and haven't boarded. And whatever test a vehicle has, it asks those who leave at its
index or later, by index and then by arrival, up to the first one who is refused or to the last one. Exactly those
who are admitted board, in this order; they leave the fronts of their queues, and all queues are the same otherwise.
No more board than are counted. -/
theorem used_as_queues (h : Used uses p) :
    (∀ stop route index, valuesAt (stop, route, index) (additions uses) =
      valuesAt (stop, route, index) (boardings uses) ++ p.row stop route index) ∧
    p.size = (p.toList.flatMap (·.2.2)).length ∧
    (additions uses).length = (boardings uses).length + p.size ∧
    ∀ (stop route fromIndex : Nat) (σ : Type) (accepts : Nat → Nat → StateM σ Bool) (s : σ),
      ∃ (line : List (Nat × Nat)) (count : Nat) (t : σ) (q : Platforms),
        ByNumber (fun index => if fromIndex ≤ index then p.row stop route index else []) line ∧
        count ≤ line.length ∧
        p.board stop route fromIndex accepts s = ((line.take count, q), t) ∧
        ((line.take (count + 1)).mapM fun row => accepts row.1 row.2) s =
          (List.replicate count true ++ if count < line.length then [false] else [], t) ∧
        q.size + count = p.size ∧
        ∀ a b index, p.row a b index =
          (if a = stop ∧ b = route then valuesAt index (line.take count) else []) ++ q.row a b index := by
  have holding := h.holding
  refine ⟨holding.queues, ?_, holding.total, fun stop route fromIndex σ accepts s => ?_⟩
  · rw [holding.size, ← coe_toList, Multiset.coe_card]
  · obtain ⟨line, count, t, q, listed, few, took, answers, fewer, left, rows⟩ :=
      board_takes p stop route fromIndex accepts s
    have waited := congrArg Multiset.card left
    rw [Multiset.card_add, Multiset.coe_card, List.length_map, List.length_take_of_le few, ← holding.size] at waited
    exact ⟨line, count, t, q, listed, few, took, answers, by omega, rows⟩

/-- A vehicle with two free seats takes those who leave first, even if somebody else came earlier. -/
theorem used_as_queues_last_seat :
    let seats : Nat → Nat → StateM Nat Bool := fun _ _ free => (free ≠ 0, free - 1)
    let uses : List Use := [.adds 3 1 5 10, .adds 3 1 2 20, .adds 3 1 2 30, .adds 3 2 2 40,
      .boards 3 1 1 [(2, 20), (2, 30)]]
    ∃ p q : Platforms, p.board 3 1 1 seats 2 = (([(2, 20), (2, 30)], q), 0) ∧ Used uses q ∧ q.row 3 1 5 = [10] ∧
      q.row 3 1 2 = [] ∧ q.row 3 2 2 = [40] ∧ q.size = 2 := by
  intro seats uses
  have added : Used [.adds 3 1 5 10, .adds 3 1 2 20, .adds 3 1 2 30, .adds 3 2 2 40] _ :=
    (((Used.begins.adds 3 1 5 10).adds 3 1 2 20).adds 3 1 2 30).adds 3 2 2 40
  obtain ⟨p, waiting, hp⟩ : ∃ p, Used [.adds 3 1 5 10, .adds 3 1 2 20, .adds 3 1 2 30, .adds 3 2 2 40] p ∧
    ∃ q, p.board 3 1 1 seats 2 = (([(2, 20), (2, 30)], q), 0) := ⟨_, added, _, rfl⟩
  obtain ⟨q, board⟩ := hp
  have boarded : Used uses q := waiting.boards board
  obtain ⟨queues, -, total, -⟩ := used_as_queues boarded
  have all : [20, 30] ++ q.row 3 1 2 = [20, 30] ++ [] := (queues 3 1 2).symm
  exact ⟨p, q, board, boarded, (queues 3 1 5).symm, List.append_cancel_left all, (queues 3 2 2).symm,
    Nat.add_left_cancel total.symm⟩

end Mobility.Platforms
