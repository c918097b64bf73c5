import Mobility.Proofs.Partition.Letters
import Mobility.Proofs.Partition.Order

/-!
# A second of all partitions

What a second makes of a partition depends on nobody's speed: its transfers follow from its own
state, its releases from the transfers of its neighbors, and its state afterwards from their
releases. `Second.departed`, `Second.arrived` and `Second.settled` say what that is, for each rank,
as long as nobody who matters for it fails. A `Company` is all partitions of a run between two
seconds, and a second leads from one company to the next.
-/

set_option autoImplicit false

namespace Mobility

open Act

/-- What an act comes to, if it ends well. -/
def Act.outcome {α : Type} (act : Act α) (p : Partition) : Option (α × Partition) :=
  match act.run p with
  | .ok a q => some (a, q)
  | .error .. => none

theorem Act.outcome_eq_some {α : Type} {act : Act α} {p q : Partition} {a : α} :
    act.outcome p = some (a, q) ↔ Ends act p a q := by
  unfold Act.outcome Ends
  cases act.run p with
  | ok b r => simp
  | error e r => simp

/-- All items have an answer if each of them has one. -/
theorem mapM_eq_some_iff {α β : Type} {f : α → Option β} {xs : List α} {ys : List β} :
    xs.mapM f = some ys ↔ List.Forall₂ (fun x y => f x = some y) xs ys := by
  induction xs generalizing ys with
  | nil =>
    rw [List.forall₂_nil_left_iff]
    exact ⟨fun h => (Option.some.inj h).symm, fun h => by rw [h]; rfl⟩
  | cons x rest ih =>
    rw [List.mapM_cons, List.forall₂_cons_left_iff]
    cases hx : f x with
    | none =>
      constructor
      · rintro ⟨⟩
      · rintro ⟨y, later, ⟨⟩, -⟩
    | some y =>
      cases hrest : rest.mapM f with
      | none =>
        constructor
        · rintro ⟨⟩
        · rintro ⟨z, later, -, hl, rfl⟩
          cases hrest.symm.trans (ih.2 hl)
      | some later =>
        constructor
        · rintro ⟨⟩
          exact ⟨y, later, rfl, ih.1 hrest, rfl⟩
        · rintro ⟨z, others, ⟨⟩, hl, rfl⟩
          cases hrest.symm.trans (ih.2 hl)
          rfl

/-- Lists which agree item by item. -/
theorem map_eq_of_forall₂ {α β γ : Type} {f : α → γ} {g : β → γ} {P : α → Prop} {xs : List β}
    {ys : List α} (h : List.Forall₂ (fun x y => f y = g x ∧ P y) xs ys) :
    ys.map f = xs.map g ∧ ∀ y ∈ ys, P y := by
  induction h with
  | nil => exact ⟨rfl, by simp⟩
  | cons first _ ih =>
    refine ⟨by rw [List.map_cons, List.map_cons, first.1, ih.1], fun y hy => ?_⟩
    rcases List.mem_cons.1 hy with rfl | hy
    · exact first.2
    · exact ih.2 y hy

theorem exists_of_forall₂ {α β : Type} {R : β → α → Prop} {xs : List β} {ys : List α} {y : α}
    (h : List.Forall₂ R xs ys) (hy : y ∈ ys) : ∃ x ∈ xs, R x y := by
  induction h with
  | nil => cases hy
  | @cons x z xs ys first _ ih =>
    rcases List.mem_cons.1 hy with rfl | hy
    · exact ⟨x, List.mem_cons_self, first⟩
    · obtain ⟨x, hx, hr⟩ := ih hy
      exact ⟨x, List.mem_cons_of_mem _ hx, hr⟩

namespace Second

/-! ## What a second comes to -/

/-- What partition `rank` sends before it receives anything, and its state then. -/
def departed (now : Nat) (ps : List Partition) (rank : Nat) : Option (Buffers × Partition) :=
  ps[rank]?.bind (Partition.depart now).outcome

/-- What the partners of partition `rank` send to it, by their ranks. -/
def mail (sent : Nat → Option (Buffers × Partition)) (rank : Nat) (partners : List Nat) :
    Option Delivery :=
  partners.mapM fun j => (sent j).bind fun r => (r.1.get? rank).map fun data => (j, data)

/-- What partition `rank` sends after it has received the transfers, and its state then. -/
def arrived (now : Nat) (ps : List Partition) (rank : Nat) : Option (Buffers × Partition) :=
  (departed now ps rank).bind fun r =>
    (mail (departed now ps) rank r.2.outbox.neighbors.keys).bind fun d =>
      (Partition.arrive now d).outcome r.2

/-- Partition `rank` after it has received the releases. -/
def settled (now : Nat) (ps : List Partition) (rank : Nat) : Option Partition :=
  (arrived now ps rank).bind fun r =>
    (mail (arrived now ps) rank r.2.outbox.neighbors.keys).bind fun d =>
      ((Partition.receiveReleases now d).outcome r.2).map (·.2)

/-- All partitions after the second. -/
def next (now : Nat) (ps : List Partition) : Option (List Partition) :=
  (List.range ps.length).mapM (settled now ps)

/-- All partitions after `count` seconds from `now` on. -/
def run : Nat → Nat → List Partition → Option (List Partition)
  | 0, _, ps => some ps
  | count + 1, now, ps => (next now ps).bind (run count (now + 1))

variable {now rank : Nat} {ps qs : List Partition}

theorem departed_eq_some {b : Buffers} {q : Partition} :
    departed now ps rank = some (b, q) ↔
      ∃ p, ps[rank]? = some p ∧ Ends (Partition.depart now) p b q := by
  simp only [departed, Option.bind_eq_some_iff, outcome_eq_some]

theorem mail_eq_some {sent : Nat → Option (Buffers × Partition)} {partners : List Nat} {d : Delivery} :
    mail sent rank partners = some d ↔
      List.Forall₂ (fun j buffer => buffer.1 = j ∧
        ∃ b q, sent j = some (b, q) ∧ b.get? rank = some buffer.2) partners d := by
  have one : ∀ (j : Nat) (buffer : Nat × List UInt8),
      ((sent j).bind fun r => (r.1.get? rank).map fun data => (j, data)) = some buffer ↔
      buffer.1 = j ∧ ∃ b q, sent j = some (b, q) ∧ b.get? rank = some buffer.2 := by
    intro j buffer
    simp only [Option.bind_eq_some_iff, Option.map_eq_some_iff, Prod.exists]
    constructor
    · rintro ⟨b, q, hs, data, hd, rfl⟩
      exact ⟨rfl, b, q, hs, hd⟩
    · rintro ⟨rfl, b, q, hs, hd⟩
      exact ⟨b, q, hs, buffer.2, hd, rfl⟩
  rw [mail, mapM_eq_some_iff]
  exact ⟨fun h => h.imp fun j buffer => (one j buffer).1, fun h => h.imp fun j buffer => (one j buffer).2⟩

/-- Mail comes from the partners, in their order. -/
theorem senders_mail {sent : Nat → Option (Buffers × Partition)} {partners : List Nat} {d : Delivery}
    (h : mail sent rank partners = some d) : d.map Prod.fst = partners := by
  have rows := mail_eq_some.1 h
  clear h
  induction rows with
  | nil => rfl
  | cons first _ ih => rw [List.map_cons, first.1, ih]

/-- Mail is what the partners have sent. -/
theorem mem_mail {sent : Nat → Option (Buffers × Partition)} {partners : List Nat} {d : Delivery}
    (h : mail sent rank partners = some d) :
    ∀ buffer ∈ d, ∃ b q, sent buffer.1 = some (b, q) ∧ b.get? rank = some buffer.2 := by
  have rows := mail_eq_some.1 h
  clear h
  induction rows with
  | nil => simp
  | cons first _ ih =>
    intro buffer hb
    rcases List.mem_cons.1 hb with rfl | hb
    · obtain ⟨rfl, h⟩ := first
      exact h
    · exact ih buffer hb

/-- What is read of the mail, partner by partner. -/
theorem read_mail {α : Type} {sent : Nat → Option (Buffers × Partition)} {partners : List Nat}
    {d : Delivery} {R : Nat × List UInt8 → α → Prop} {ys : List α} (h : mail sent rank partners = some d)
    (read : List.Forall₂ R d ys) :
    List.Forall₂ (fun j y => ∃ b q data, sent j = some (b, q) ∧ b.get? rank = some data ∧
      R (j, data) y) partners ys := by
  have rows := mail_eq_some.1 h
  clear h
  induction rows generalizing ys with
  | nil =>
    cases read
    exact .nil
  | @cons j buffer _ _ first _ ih =>
    cases read with
    | cons this later =>
      obtain ⟨rfl, b, q, hs, hb⟩ := first
      exact .cons ⟨b, q, buffer.2, hs, hb, this⟩ (ih later)

theorem arrived_eq_some {b : Buffers} {q : Partition} :
    arrived now ps rank = some (b, q) ↔
      ∃ b₀ p d, departed now ps rank = some (b₀, p) ∧
        mail (departed now ps) rank p.outbox.neighbors.keys = some d ∧
        Ends (Partition.arrive now d) p b q := by
  simp only [arrived, Option.bind_eq_some_iff, outcome_eq_some, Prod.exists]
  constructor
  · rintro ⟨b₀, p, hp, d, hd, hq⟩
    exact ⟨b₀, p, d, hp, hd, hq⟩
  · rintro ⟨b₀, p, d, hp, hd, hq⟩
    exact ⟨b₀, p, hp, d, hd, hq⟩

theorem settled_eq_some {q : Partition} :
    settled now ps rank = some q ↔
      ∃ b₀ p d, arrived now ps rank = some (b₀, p) ∧
        mail (arrived now ps) rank p.outbox.neighbors.keys = some d ∧
        Ends (Partition.receiveReleases now d) p () q := by
  simp only [settled, Option.bind_eq_some_iff, Option.map_eq_some_iff, Prod.exists]
  constructor
  · rintro ⟨b₀, p, hp, d, hd, ⟨⟩, q', hq, rfl⟩
    exact ⟨b₀, p, d, hp, hd, outcome_eq_some.1 hq⟩
  · rintro ⟨b₀, p, d, hp, hd, hq⟩
    exact ⟨b₀, p, hp, d, hd, (), q, outcome_eq_some.2 hq, rfl⟩

/-- A second of one partition, in its three acts. -/
theorem acts_of_settled {q : Partition} (h : settled now ps rank = some q) :
    ∃ p b r d b' s d', ps[rank]? = some p ∧ Ends (Partition.depart now) p b r ∧
      Ends (Partition.arrive now d) r b' s ∧ Ends (Partition.receiveReleases now d') s () q := by
  obtain ⟨b', s, d', hs, -, hq⟩ := settled_eq_some.1 h
  obtain ⟨b, r, d, hr, -, hs⟩ := arrived_eq_some.1 hs
  obtain ⟨p, hp, hr⟩ := departed_eq_some.1 hr
  exact ⟨p, b, r, d, b', s, d', hp, hr, hs, hq⟩

theorem next_eq_some :
    next now ps = some qs ↔
      qs.length = ps.length ∧ ∀ (i : Nat) (q : Partition), qs[i]? = some q → settled now ps i = some q := by
  rw [next, mapM_eq_some_iff, List.forall₂_iff_get]
  constructor
  · rintro ⟨hl, h⟩
    rw [List.length_range] at hl
    refine ⟨hl.symm, fun i q hq => ?_⟩
    obtain ⟨hi, rfl⟩ := List.getElem?_eq_some_iff.1 hq
    have := h i (by rw [List.length_range]; omega) hi
    simpa using this
  · rintro ⟨hl, h⟩
    refine ⟨by rw [List.length_range, hl], fun i hi hi' => ?_⟩
    have := h i _ (List.getElem?_eq_getElem hi')
    simpa using this

/-- What every second keeps of each partition, a run keeps. -/
theorem run_keeps {P : Nat → Nat → Partition → Prop} {count : Nat}
    (hstep : ∀ {now i p q b r d b' s d'}, P now i p → Ends (Partition.depart now) p b r →
      Ends (Partition.arrive now d) r b' s → Ends (Partition.receiveReleases now d') s () q →
      P (now + 1) i q)
    (hp : ∀ (i : Nat) p, ps[i]? = some p → P now i p) (h : run count now ps = some qs) :
    ∀ (i : Nat) q, qs[i]? = some q → P (now + count) i q := by
  induction count generalizing now ps with
  | zero => exact Option.some.inj h ▸ hp
  | succ count ih =>
    obtain ⟨rs, hr, h⟩ := Option.bind_eq_some_iff.1 h
    rw [Nat.add_comm count 1, ← Nat.add_assoc]
    refine ih (fun i r hi => ?_) h
    obtain ⟨p, b, r', d, b', s, d', hi, depart, arrive, settle⟩ :=
      acts_of_settled ((next_eq_some.1 hr).2 i r hi)
    exact hstep (hp i p hi) depart arrive settle

/-- The last second can be told apart from the ones before. -/
theorem run_succ {count : Nat} :
    run (count + 1) now ps = (run count now ps).bind (next (now + count)) := by
  induction count generalizing now ps with
  | zero =>
    simp only [run, Option.bind_some, Option.bind_fun_some, Nat.add_zero]
  | succ count ih =>
    show (next now ps).bind (run (count + 1) (now + 1)) = _
    rw [run]
    cases hn : next now ps with
    | none => rfl
    | some qs =>
      show run (count + 1) (now + 1) qs = (run count (now + 1) qs).bind _
      rw [ih, Nat.add_right_comm now 1 count, Nat.add_assoc]

end Second

/-! ## Companies -/

/-- There are only `n` numbers below `n`. -/
theorem length_le_of_nodup {xs : List Nat} {n : Nat} (nodup : xs.Nodup) (below : ∀ x ∈ xs, x < n) :
    xs.length ≤ n :=
  List.length_range (n := n) ▸
    (nodup.subperm fun x hx => List.mem_range.2 (below x hx)).length_le

/-- Who talks to whom among `size` partitions. -/
structure Network (size : Nat) (partners : Nat → List Nat) : Prop where
  symmetric : ∀ {i j}, j ∈ partners i → i ∈ partners j
  below : ∀ {i j}, j ∈ partners i → j < size
  /-- Ranks fit into messages. -/
  small : size ≤ Wire.base

/-- All partitions of a run between two seconds: they have nothing to send. -/
structure Company (timing : Timing) (partners : Nat → List Nat) (ps : List Partition) : Prop where
  rank : ∀ (i : Nat) p, ps[i]? = some p → p.rank = i ∧ p.outbox.rank = i
  timing : ∀ (i : Nat) p, ps[i]? = some p → p.timing = timing
  partners : ∀ (i : Nat) p, ps[i]? = some p → p.outbox.neighbors.keys = partners i
  idle : ∀ (i : Nat) p, ps[i]? = some p → p.outbox.Idle

namespace Company

open Second

variable {timing : Timing} {partners : Nat → List Nat} {ps qs : List Partition} {now i : Nat}
  {b : Buffers} {q : Partition}

/-- What holds of a partition which has sent its transfers. -/
structure Departed (timing : Timing) (partners : Nat → List Nat) (now i : Nat) (b : Buffers)
    (q : Partition) : Prop where
  addressed : Addressed now i (partners i) b
  rank : q.rank = i
  outboxRank : q.outbox.rank = i
  timing : q.timing = timing
  partners : q.outbox.neighbors.keys = partners i
  transfers : q.outbox.transfers = .empty
  stamped : q.outbox.Stamped now

/-- What holds of a partition which has sent its releases. -/
structure Arrived (timing : Timing) (partners : Nat → List Nat) (now i : Nat) (b : Buffers)
    (q : Partition) : Prop where
  addressed : Addressed now i (partners i) b
  rank : q.rank = i
  outboxRank : q.outbox.rank = i
  timing : q.timing = timing
  partners : q.outbox.neighbors.keys = partners i
  idle : q.outbox.Idle

theorem departed (c : Company timing partners ps) (h : departed now ps i = some (b, q)) :
    Departed timing partners now i b q := by
  obtain ⟨p, hp, h⟩ := departed_eq_some.1 h
  obtain ⟨addressed, transfers, stamped⟩ := Partition.depart_addressed h (c.idle i p hp)
  have kept := Partition.kept_depart h
  obtain ⟨hr, ho⟩ := c.rank i p hp
  rw [ho, c.partners i p hp] at addressed
  exact ⟨addressed, kept.rank.trans hr, kept.outboxRank.trans ho,
    kept.timing.trans (c.timing i p hp), by rw [kept.neighbors, c.partners i p hp], transfers, stamped⟩

theorem arrived (c : Company timing partners ps) (h : arrived now ps i = some (b, q)) :
    Arrived timing partners now i b q := by
  obtain ⟨b₀, p, d, hp, hd, h⟩ := arrived_eq_some.1 h
  have hp := c.departed hp
  obtain ⟨addressed, idle⟩ := Partition.arrive_addressed h hp.transfers hp.stamped
  have kept := Partition.kept_arrive h
  rw [hp.outboxRank, hp.partners] at addressed
  exact ⟨addressed, kept.rank.trans hp.rank, kept.outboxRank.trans hp.outboxRank,
    kept.timing.trans hp.timing, by rw [kept.neighbors, hp.partners], idle⟩

/-- A second leads from a company to a company. -/
theorem next (c : Company timing partners ps) (h : next now ps = some qs) :
    Company timing partners qs := by
  have settled : ∀ (i : Nat) q, qs[i]? = some q → q.rank = i ∧ q.outbox.rank = i ∧ q.timing = timing ∧
      q.outbox.neighbors.keys = partners i ∧ q.outbox.Idle := by
    intro i q hq
    obtain ⟨b, p, d, hp, hd, h⟩ := settled_eq_some.1 ((next_eq_some.1 h).2 i q hq)
    have hp := c.arrived hp
    rw [Partition.receiveReleases_links h]
    exact ⟨hp.rank, hp.outboxRank, hp.timing, hp.partners, hp.idle⟩
  exact ⟨fun i q hq => ⟨(settled i q hq).1, (settled i q hq).2.1⟩,
    fun i q hq => (settled i q hq).2.2.1, fun i q hq => (settled i q hq).2.2.2.1,
    fun i q hq => (settled i q hq).2.2.2.2⟩

/-- Mail is certified. -/
theorem certified {sent : Nat → Option (Buffers × Partition)} {d : Delivery} {size : Nat}
    (net : Network size partners) (hn : (partners i).Nodup)
    (hsent : ∀ j b q, sent j = some (b, q) → Addressed now j (partners j) b)
    (h : mail sent i (partners i) = some d) : d.Certified now := by
  have senders := senders_mail h
  refine ⟨fun buffer hb => ?_, senders ▸ hn, fun buffer hb => ?_⟩
  · obtain ⟨b, q, hs, hb⟩ := mem_mail h buffer hb
    exact (hsent _ b q hs).headed i buffer.2 hb
  · have : buffer.1 ∈ partners i := senders ▸ List.mem_map_of_mem hb
    exact Nat.lt_of_lt_of_le (net.below this) net.small

end Company

end Mobility
