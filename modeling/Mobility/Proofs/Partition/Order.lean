import Mathlib.Data.List.Nodup
import Mathlib.Data.List.Perm.Basic
import Mobility.Proofs.Partition.Exchanges
import Mobility.Proofs.Wire

/-!
# The order of arrival

Buffers from different partitions arrive in an order which nobody controls. What a partition makes
of them doesn't depend on it: transfers are sorted by their senders before they are taken in, and
releases of different senders are about different links, so they can be applied in any order.
-/

set_option autoImplicit false

namespace Mobility

open Act

/-! ## Reading a delivery -/

/-- Reading a list reads each item. -/
theorem mapM_eq_ok_iff {ε α β : Type} {f : α → Except ε β} {xs : List α} {ys : List β} :
    xs.mapM f = .ok ys ↔ List.Forall₂ (fun x y => f x = .ok y) xs ys := by
  induction xs generalizing ys with
  | nil =>
    simp only [List.mapM_nil, List.forall₂_nil_left_iff]
    constructor
    · rintro ⟨⟩
      rfl
    · rintro rfl
      rfl
  | cons x rest ih =>
    rw [List.mapM_cons, List.forall₂_cons_left_iff]
    cases hx : f x with
    | error e =>
      constructor
      · rintro ⟨⟩
      · rintro ⟨y, later, ⟨⟩, -⟩
    | ok y =>
      cases hrest : rest.mapM f with
      | error e =>
        constructor
        · rintro ⟨⟩
        · rintro ⟨z, later, -, hl, rfl⟩
          cases hrest.symm.trans (ih.2 hl)
      | ok later =>
        constructor
        · rintro ⟨⟩
          exact ⟨y, later, rfl, ih.1 hrest, rfl⟩
        · rintro ⟨z, others, ⟨⟩, hl, rfl⟩
          cases hrest.symm.trans (ih.2 hl)
          rfl

namespace Outbox

theorem checkTime_eq_ok {sender received now : Nat} :
    checkTime sender received now = .ok () ↔ received = now := by
  unfold checkTime
  split <;> simp_all

/-- A message which is read and checked is about this second. -/
theorem checked_eq_ok {α : Type} {x : Except ExchangeError α} {time : α → Nat} {sender now : Nat}
    {a : α} :
    (do
      let a ← x
      checkTime sender (time a) now
      return a) = Except.ok a ↔ x = .ok a ∧ time a = now := by
  cases x with
  | error e => simp [bind, Except.bind]
  | ok b =>
    cases hc : checkTime sender (time b) now with
    | error e =>
      have hne : time b ≠ now := fun h => by cases hc.symm.trans (checkTime_eq_ok.2 h)
      simp only [bind, Except.bind, hc, Except.ok.injEq]
      constructor
      · rintro ⟨⟩
      · rintro ⟨rfl, ht⟩
        exact absurd ht hne
    | ok v =>
      have hb := checkTime_eq_ok.1 hc
      simp only [bind, Except.bind, hc, pure, Except.pure, Except.ok.injEq]
      constructor
      · rintro rfl
        exact ⟨rfl, hb⟩
      · rintro ⟨rfl, -⟩
        rfl

theorem readTransfers_eq_ok {rank now : Nat} {isVehicle : Nat → Option Bool} {delivery : Delivery}
    {transfers : List Transfer} :
    readTransfers rank now isVehicle delivery = .ok transfers ↔
      List.Forall₂ (fun buffer t => Transfer.decode buffer.2 rank isVehicle = .ok t ∧ t.time = now)
        delivery transfers := by
  rw [readTransfers, mapM_eq_ok_iff]
  exact ⟨fun h => h.imp fun buffer t => checked_eq_ok.1, fun h => h.imp fun buffer t => checked_eq_ok.2⟩

theorem readReleases_eq_ok {rank now : Nat} {delivery : Delivery} {releases : List Release} :
    readReleases rank now delivery = .ok releases ↔
      List.Forall₂ (fun buffer r => Release.decode buffer.2 rank = .ok r ∧ r.time = now)
        delivery releases := by
  rw [readReleases, mapM_eq_ok_iff]
  exact ⟨fun h => h.imp fun buffer r => checked_eq_ok.1, fun h => h.imp fun buffer r => checked_eq_ok.2⟩

end Outbox

/-! ## Deliveries -/

/-- Every buffer of the delivery says that it was sent in second `now` by the partition it came
from, and no partition sent two. -/
structure Delivery.Certified (now : Nat) (d : Delivery) : Prop where
  headed : ∀ buffer ∈ d, Wire.Headed now buffer.1 buffer.2
  senders : (d.map Prod.fst).Nodup
  ranks : ∀ buffer ∈ d, buffer.1 < Wire.base

theorem Delivery.Certified.perm {now : Nat} {d e : Delivery} (h : d.Certified now) (hp : d.Perm e) :
    e.Certified now :=
  ⟨fun buffer hb => h.headed buffer (hp.mem_iff.2 hb), (hp.map _).nodup_iff.1 h.senders,
    fun buffer hb => h.ranks buffer (hp.mem_iff.2 hb)⟩

/-- The senders which are read are the ones who sent. -/
theorem senders_of_forall₂ {α : Type} {sender : α → Nat} {d : Delivery} {ys : List α}
    {R : Nat × List UInt8 → α → Prop} (h : List.Forall₂ R d ys)
    (hR : ∀ buffer ∈ d, ∀ y, R buffer y → sender y = buffer.1) : ys.map sender = d.map Prod.fst := by
  induction h with
  | nil => rfl
  | cons first later ih =>
    rw [List.map_cons, List.map_cons, hR _ List.mem_cons_self _ first,
      ih fun buffer hb => hR buffer (List.mem_cons_of_mem _ hb)]

theorem Delivery.Certified.transfers {now rank : Nat} {d : Delivery} {isVehicle : Nat → Option Bool}
    {transfers : List Transfer} (h : d.Certified now)
    (hr : Outbox.readTransfers rank now isVehicle d = .ok transfers) :
    transfers.map (·.sender) = d.map Prod.fst := by
  refine senders_of_forall₂ (Outbox.readTransfers_eq_ok.1 hr) fun buffer hb t ht => ?_
  rw [(Transfer.decode_headed (h.headed buffer hb) ht.1).2, Nat.mod_eq_of_lt (h.ranks buffer hb)]

theorem Delivery.Certified.releases {now rank : Nat} {d : Delivery} {releases : List Release}
    (h : d.Certified now) (hr : Outbox.readReleases rank now d = .ok releases) :
    releases.map (·.sender) = d.map Prod.fst := by
  refine senders_of_forall₂ (Outbox.readReleases_eq_ok.1 hr) fun buffer hb r ht => ?_
  rw [(Release.decode_headed (h.headed buffer hb) ht.1).2, Nat.mod_eq_of_lt (h.ranks buffer hb)]

namespace Partition

variable {now : Nat} {p q r : Partition}

/-! ## Transfers -/

/-- Sorting by the sender forgets the order of arrival. -/
theorem mergeSort_senders_perm {ts us : List Transfer} (hp : ts.Perm us)
    (hn : (ts.map (·.sender)).Nodup) :
    (ts.mergeSort fun a b => a.sender ≤ b.sender) = us.mergeSort fun a b => a.sender ≤ b.sender := by
  have sorted : ∀ l : List Transfer,
      (l.mergeSort fun a b => a.sender ≤ b.sender).Pairwise fun a b => a.sender ≤ b.sender := by
    intro l
    have : (l.mergeSort fun a b => decide (a.sender ≤ b.sender)).Pairwise
        fun a b => decide (a.sender ≤ b.sender) = true := List.pairwise_mergeSort
      (fun a b c hab hbc => by simp only [decide_eq_true_eq] at *; omega)
      (fun a b => by simp only [Bool.or_eq_true, decide_eq_true_eq]; omega) l
    exact this.imp fun h => by simpa using h
  have perm := ((List.mergeSort_perm ts fun a b => decide (a.sender ≤ b.sender)).trans hp).trans
    (List.mergeSort_perm us fun a b => decide (a.sender ≤ b.sender)).symm
  refine perm.eq_of_pairwise (fun a b ha hb hab hba => ?_) (sorted ts) (sorted us)
  have ha := (List.mergeSort_perm ts _).mem_iff.1 ha
  have hb := hp.mem_iff.2 ((List.mergeSort_perm us _).mem_iff.1 hb)
  exact List.inj_on_of_nodup_map hn ha hb (Nat.le_antisymm hab hba)

/-- The order in which transfers arrive doesn't matter. -/
theorem receiveTransfers_perm {d e : Delivery} (hd : d.Certified now) (hp : d.Perm e)
    (h : Ends (receiveTransfers now d) p () q) : Ends (receiveTransfers now e) p () q := by
  simp only [receiveTransfers, bind_eq_ok, get_eq_ok, communicate_eq_ok] at h ⊢
  obtain ⟨_, _, ⟨rfl, rfl⟩, transfers, _, ⟨ht, rfl⟩, h⟩ := h
  obtain ⟨others, hread, perm⟩ :=
    List.perm_comp_forall₂ hp.symm (Outbox.readTransfers_eq_ok.1 ht)
  have hn : (transfers.map (·.sender)).Nodup := hd.transfers ht ▸ hd.senders
  refine ⟨p, p, ⟨rfl, rfl⟩, others, p, ⟨Outbox.readTransfers_eq_ok.2 hread, rfl⟩, ?_⟩
  rw [← mergeSort_senders_perm perm.symm hn]
  exact h

theorem arrive_perm {d e : Delivery} {buffers : Buffers} (hd : d.Certified now) (hp : d.Perm e)
    (h : Ends (arrive now d) p buffers q) : Ends (arrive now e) p buffers q := by
  obtain ⟨⟨⟩, r, hr, hs⟩ := bind_eq_ok.1 h
  exact bind_eq_ok.2 ⟨(), r, receiveTransfers_perm hd hp hr, hs⟩

/-! ## Releases -/

/-- Counts of different partitions are about different links. -/
theorem applyCount_comm {part part' link link' count count' : Nat} (hne : part ≠ part')
    (h : Ends (applyCount part link count) p () r) (h' : Ends (applyCount part' link' count') r () q) :
    ∃ s, Ends (applyCount part' link' count') p () s ∧ Ends (applyCount part link count) s () q := by
  obtain ⟨x, y, hx, rfl, hy, rfl⟩ := applyCount_eq_ok.1 h
  obtain ⟨x', y', hx', rfl, hy', rfl⟩ := applyCount_eq_ok.1 h'
  have hl : link ≠ link' := by
    rintro rfl
    obtain ⟨hlt, -⟩ := Array.getElem?_eq_some_iff.1 hx
    simp only [Array.getElem?_setIfInBounds_self_of_lt hlt, Option.some.injEq,
      LinkView.proxy.injEq] at hx'
    obtain ⟨-, rfl⟩ := Proxy.release_eq_ok hy
    exact hne (by rw [← hx'])
  rw [Array.getElem?_setIfInBounds_ne hl] at hx'
  refine ⟨_, applyCount_eq_ok.2 ⟨x', y', hx', rfl, hy', rfl⟩,
    applyCount_eq_ok.2 ⟨x, y, ?_, rfl, hy, ?_⟩⟩
  · rw [← hx]
    exact Array.getElem?_setIfInBounds_ne (Ne.symm hl)
  · rw [Array.setIfInBounds_comm _ _ hl]

theorem credited_comm {a b : Release} (hne : a.sender ≠ b.sender) (ha : Credited a p r)
    (hb : Credited b r q) : ∃ s, Credited b p s ∧ Credited a s q := by
  refine Along.past (S := Credited b) (fun row _ p r q hrow hb => ?_) ha hb
  -- The other way round: each count of `b` goes before this one of `a`.
  have turned : ∀ {rows : List (Nat × Nat)} {p r q : Partition},
      Ends (applyCount a.sender row.1 row.2) p () r →
      Along (fun (row : Nat × Nat) p q => Ends (applyCount b.sender row.1 row.2) p () q) rows r q →
      ∃ s, Along (fun (row : Nat × Nat) p q => Ends (applyCount b.sender row.1 row.2) p () q) rows p s ∧
        Ends (applyCount a.sender row.1 row.2) s () q := by
    intro rows p r q hrow h
    induction h generalizing p with
    | nil => exact ⟨p, .nil, hrow⟩
    | cons first _ ih =>
      obtain ⟨s, hs, hrow⟩ := applyCount_comm hne hrow first
      obtain ⟨t, ht, hrow⟩ := ih hrow
      exact ⟨t, .cons hs ht, hrow⟩
  exact turned hrow hb

theorem credited_perm {rs ss : List Release} (hp : rs.Perm ss) (hn : (rs.map (·.sender)).Nodup)
    (h : Along Credited rs p q) : Along Credited ss p q := by
  induction hp generalizing p with
  | nil => exact h
  | cons r _ ih =>
    cases h with
    | cons first later => exact .cons first (ih (List.nodup_cons.1 hn).2 later)
  | swap a b rest =>
    cases h with
    | cons first later =>
      cases later with
      | cons second later =>
        have hne : b.sender ≠ a.sender := fun h =>
          (List.nodup_cons.1 hn).1 (List.mem_map.2 ⟨a, List.mem_cons_self, h.symm⟩)
        obtain ⟨s, hs, ht⟩ := credited_comm hne first second
        exact .cons hs (.cons ht later)
  | trans first _ ih ih' => exact ih' ((first.map _).nodup_iff.1 hn) (ih hn h)

/-- The order in which releases arrive doesn't matter. -/
theorem receiveReleases_perm {d e : Delivery} (hd : d.Certified now) (hp : d.Perm e)
    (h : Ends (receiveReleases now d) p () q) : Ends (receiveReleases now e) p () q := by
  obtain ⟨releases, hr, h⟩ := receiveReleases_eq_ok.1 h
  obtain ⟨others, hread, perm⟩ :=
    List.perm_comp_forall₂ hp.symm (Outbox.readReleases_eq_ok.1 hr)
  have hn : (releases.map (·.sender)).Nodup := hd.releases hr ▸ hd.senders
  exact receiveReleases_eq_ok.2 ⟨others, Outbox.readReleases_eq_ok.2 hread,
    credited_perm perm.symm hn h⟩

end Partition

end Mobility
