import Mobility.Proofs.Ensemble.Scene

/-!
# Lanes in step with the processes

Three kinds of steps matter for the lanes. Putting a buffer into a lane and taking one from it
change one lane and what one process has posted or heard. Every other step of a second changes
neither, so the lanes stay right (`Delivers.move`).
-/

set_option autoImplicit false

namespace Mobility

namespace Ensemble

variable {ps : List Process} {now i j k : Nat} {lane : Lane} {x y : Process}

theorem posted_of (hx : ps[i]? = some x) :
    Posted ps now lane i k ↔ x.stage.HasPosted now lane k := by
  constructor
  · rintro ⟨z, hz, h⟩
    obtain rfl := Option.some.inj (hz.symm.trans hx)
    exact h
  · exact fun h => ⟨x, hx, h⟩

theorem heard_of (hx : ps[i]? = some x) : Heard ps now lane i k ↔ x.stage.HasHeard now lane k := by
  constructor
  · rintro ⟨z, hz, h⟩
    obtain rfl := Option.some.inj (hz.symm.trans hx)
    exact h
  · exact fun h => ⟨x, hx, h⟩

theorem getElem?_set_of (hx : ps[i]? = some x) (y : Process) :
    (ps.set i y)[j]? = if j = i then some y else ps[j]? := by
  obtain ⟨hi, -⟩ := List.getElem?_eq_some_iff.1 hx
  by_cases hj : j = i
  · subst hj
    rw [if_pos rfl, List.getElem?_set_self hi]
  · rw [if_neg hj, List.getElem?_set_ne (Ne.symm hj)]

theorem posted_set (hx : ps[i]? = some x) :
    Posted (ps.set i y) now lane j k ↔
      if j = i then y.stage.HasPosted now lane k else Posted ps now lane j k := by
  unfold Posted
  rw [getElem?_set_of hx y]
  by_cases hj : j = i
  · simp [hj]
  · simp [hj]

theorem heard_set (hx : ps[i]? = some x) :
    Heard (ps.set i y) now lane j k ↔
      if j = i then y.stage.HasHeard now lane k else Heard ps now lane j k := by
  unfold Heard
  rw [getElem?_set_of hx y]
  by_cases hj : j = i
  · simp [hj]
  · simp [hj]

/-- Nothing else is posted if the process which goes on has posted the same as before. -/
theorem posted_same (hx : ps[i]? = some x)
    (same : j = i → (y.stage.HasPosted now lane k ↔ x.stage.HasPosted now lane k)) :
    Posted (ps.set i y) now lane j k ↔ Posted ps now lane j k := by
  rw [posted_set hx]
  by_cases hj : j = i
  · subst hj
    rw [if_pos rfl, same rfl, posted_of hx]
  · rw [if_neg hj]

/-- Nothing else is heard if the process which goes on has heard the same as before. -/
theorem heard_same (hx : ps[i]? = some x)
    (same : j = i → (y.stage.HasHeard now lane k ↔ x.stage.HasHeard now lane k)) :
    Heard (ps.set i y) now lane j k ↔ Heard ps now lane j k := by
  rw [heard_set hx]
  by_cases hj : j = i
  · subst hj
    rw [if_pos rfl, same rfl, heard_of hx]
  · rw [if_neg hj]

variable {e : Scene} {size : Nat} {lanes : Lanes} {data : List UInt8}

theorem said_unique {data' : List UInt8} (h : e.Says lane i k data)
    (h' : e.Says lane i k data') : data = data' := by
  obtain ⟨b, q, hb, hd⟩ := h
  obtain ⟨b', q', hb', hd'⟩ := h'
  obtain ⟨rfl, rfl⟩ := Prod.mk.inj (Option.some.inj (hb.symm.trans hb'))
  exact Option.some.inj (hd.symm.trans hd')

namespace Delivers

/-- A step which posts nothing and hears nothing. -/
theorem move (net : Network size e.partners) (h : Delivers e ps lanes) (hx : ps[i]? = some x)
    (hposted : ∀ lane, ∀ k ∈ e.partners i,
      (y.stage.HasPosted e.now lane k ↔ x.stage.HasPosted e.now lane k))
    (hheard : ∀ lane, ∀ k ∈ e.partners i,
      (y.stage.HasHeard e.now lane k ↔ x.stage.HasHeard e.now lane k)) :
    Delivers e (ps.set i y) lanes := by
  have posted : ∀ lane, ∀ {j k}, j ∈ e.partners k →
      (Posted (ps.set i y) e.now lane j k ↔ Posted ps e.now lane j k) := fun lane j k hj =>
    posted_same hx fun own => hposted lane k (own ▸ net.symmetric hj)
  have heard : ∀ lane, ∀ {j k}, j ∈ e.partners k →
      (Heard (ps.set i y) e.now lane k j ↔ Heard ps e.now lane k j) := fun lane j k hj =>
    heard_same hx fun own => hheard lane j (own ▸ hj)
  refine ⟨h.unique, fun lane k j data => ?_, fun lane k j hj hh => ?_⟩
  · rw [h.contents]
    constructor
    · rintro ⟨hj, hp, hn, hs⟩
      exact ⟨hj, (posted lane hj).2 hp, fun hh => hn ((heard lane hj).1 hh), hs⟩
    · rintro ⟨hj, hp, hn, hs⟩
      exact ⟨hj, (posted lane hj).1 hp, fun hh => hn ((heard lane hj).2 hh), hs⟩
  · exact (posted lane hj).2 (h.heard lane k j hj ((heard lane hj).1 hh))

/-- A buffer is put into the lane of `k`. -/
theorem post {p : Partition} {pending : Buffers} (net : Network size e.partners)
    (h : Delivers e ps lanes) (hx : ps[i]? = some ⟨p, .sending lane e.now pending⟩)
    (hd : pending.get? k = some data) (hk : k ∈ e.partners i) (said : e.Says lane i k data) :
    Delivers e (ps.set i ⟨p, .sending lane e.now (pending.erase k)⟩)
      (lanes.setContents lane k (lanes.contents lane k ++ [(i, data)])) := by
  -- Before this step the buffer wasn't posted, so nothing of `i` lies there and `k` hasn't heard it.
  have unposted : ¬ Posted ps e.now lane i k := by
    rw [posted_of hx]
    simp only [Stage.HasPosted, if_true, not_not]
    exact Table.mem_keys.2 ⟨data, hd⟩
  have absent : i ∉ (lanes.contents lane k).map Prod.fst := by
    intro hi
    obtain ⟨⟨i', d⟩, hm, rfl⟩ := List.mem_map.1 hi
    exact unposted ((h.contents lane k i' d).1 hm).2.1
  have posted : ∀ lane' j k', Posted (ps.set i ⟨p, .sending lane e.now (pending.erase k)⟩) e.now lane' j k' ↔
      Posted ps e.now lane' j k' ∨ lane' = lane ∧ j = i ∧ k' = k := by
    intro lane' j k'
    rw [posted_set hx]
    by_cases hj : j = i
    · subst hj
      rw [if_pos rfl, posted_of hx]
      simp only [Stage.HasPosted]
      by_cases hl : lane = lane'
      · subst hl
        simp only [if_true, true_and, Table.mem_keys, Table.get?_erase]
        by_cases hk' : k' = k
        · simp [hk']
        · simp [hk']
      · simp [hl, Ne.symm hl]
    · simp [hj]
  have heard : ∀ lane' j k', Heard (ps.set i ⟨p, .sending lane e.now (pending.erase k)⟩) e.now lane' j k' ↔
      Heard ps e.now lane' j k' := fun _ _ _ => heard_same hx fun _ => Iff.rfl
  refine ⟨fun lane' k' => ?_, fun lane' k' j d => ?_, fun lane' k' j hj hh => ?_⟩
  · rw [Lanes.contents_setContents]
    split
    · rw [List.map_append, List.nodup_append]
      refine ⟨h.unique lane k, by simp, ?_⟩
      intro a ha b hb hab
      rw [List.map_cons, List.map_nil, List.mem_singleton] at hb
      rw [hab, hb] at ha
      exact absent ha
    · exact h.unique lane' k'
  · rw [Lanes.contents_setContents, posted, heard]
    by_cases hlk : lane' = lane ∧ k' = k
    · obtain ⟨rfl, rfl⟩ := hlk
      rw [if_pos ⟨rfl, rfl⟩, List.mem_append, h.contents, List.mem_singleton, Prod.mk.injEq]
      constructor
      · rintro (⟨hj, hp, hn, hs⟩ | ⟨rfl, rfl⟩)
        · exact ⟨hj, .inl hp, hn, hs⟩
        · exact ⟨net.symmetric hk, .inr ⟨rfl, rfl, rfl⟩,
            fun hh => unposted (h.heard lane' k' j (net.symmetric hk) hh), said⟩
      · rintro ⟨hj, hp | ⟨-, rfl, -⟩, hn, hs⟩
        · exact .inl ⟨hj, hp, hn, hs⟩
        · exact .inr ⟨rfl, said_unique hs said⟩
    · rw [if_neg hlk, h.contents]
      constructor
      · rintro ⟨hj, hp, hn, hs⟩
        exact ⟨hj, .inl hp, hn, hs⟩
      · rintro ⟨hj, hp | ⟨hl, -, hk'⟩, hn, hs⟩
        · exact ⟨hj, hp, hn, hs⟩
        · exact absurd ⟨hl, hk'⟩ hlk
  · rw [posted]
    rw [heard] at hh
    exact .inl (h.heard lane' k' j hj hh)

/-- A buffer is taken from the lane of `i`. -/
theorem take {p : Partition} {missing : List Nat} {received rest : Delivery}
    (h : Delivers e ps lanes) (hx : ps[i]? = some ⟨p, .receiving lane e.now missing received⟩)
    (hc : lanes.contents lane i = (j, data) :: rest) :
    Delivers e
      (ps.set i ⟨p, .receiving lane e.now (missing.filter (· ≠ j)) (received ++ [(j, data)])⟩)
      (lanes.setContents lane i rest) := by
  obtain ⟨hj, hpost, hunheard, hsaid⟩ := (h.contents lane i j data).1 (hc ▸ List.mem_cons_self)
  have unique := h.unique lane i
  rw [hc, List.map_cons, List.nodup_cons] at unique
  have posted : ∀ lane' j' k',
      Posted (ps.set i ⟨p, .receiving lane e.now (missing.filter (· ≠ j)) (received ++ [(j, data)])⟩)
        e.now lane' j' k' ↔ Posted ps e.now lane' j' k' := fun _ _ _ => posted_same hx fun _ => Iff.rfl
  have heard : ∀ lane' i' j',
      Heard (ps.set i ⟨p, .receiving lane e.now (missing.filter (· ≠ j)) (received ++ [(j, data)])⟩)
        e.now lane' i' j' ↔ Heard ps e.now lane' i' j' ∨ lane' = lane ∧ i' = i ∧ j' = j := by
    intro lane' i' j'
    rw [heard_set hx]
    by_cases hi' : i' = i
    · subst hi'
      rw [if_pos rfl, heard_of hx]
      simp only [Stage.HasHeard]
      by_cases hl : lane = lane'
      · subst hl
        simp only [if_true, true_and, List.mem_filter, decide_eq_true_eq]
        by_cases hj' : j' = j
        · simp [hj']
        · simp [hj']
      · simp [hl, Ne.symm hl]
    · simp [hi']
  refine ⟨fun lane' k' => ?_, fun lane' k' j' d => ?_, fun lane' k' j' hj' hh => ?_⟩
  · rw [Lanes.contents_setContents]
    split
    · exact unique.2
    · exact h.unique lane' k'
  · rw [Lanes.contents_setContents, posted, heard]
    by_cases hlk : lane' = lane ∧ k' = i
    · obtain ⟨rfl, rfl⟩ := hlk
      have whole := h.contents lane' k' j' d
      rw [hc, List.mem_cons, Prod.mk.injEq] at whole
      rw [if_pos ⟨rfl, rfl⟩]
      constructor
      · intro hm
        obtain ⟨hj', hp, hn, hs⟩ := whole.1 (.inr hm)
        have hne : j' ≠ j := by
          rintro rfl
          exact unique.1 (List.mem_map.2 ⟨(j', d), hm, rfl⟩)
        exact ⟨hj', hp, by simp [hn, hne], hs⟩
      · rintro ⟨hj', hp, hn, hs⟩
        rcases whole.2 ⟨hj', hp, fun hh => hn (.inl hh), hs⟩ with ⟨rfl, -⟩ | hm
        · exact absurd (.inr ⟨rfl, rfl, rfl⟩) hn
        · exact hm
    · rw [if_neg hlk, h.contents]
      constructor
      · rintro ⟨hj', hp, hn, hs⟩
        refine ⟨hj', hp, ?_, hs⟩
        rintro (hh | ⟨hl, hk', -⟩)
        · exact hn hh
        · exact hlk ⟨hl, hk'⟩
      · rintro ⟨hj', hp, hn, hs⟩
        exact ⟨hj', hp, fun hh => hn (.inl hh), hs⟩
  · rw [posted]
    rcases (heard lane' k' j').1 hh with hh | ⟨rfl, rfl, rfl⟩
    · exact h.heard lane' k' j' hj' hh
    · exact hpost

/-- Nothing is left in the lanes once everybody has heard of everybody. -/
theorem lanes_empty (net : Network size e.partners) (h : Delivers e ps lanes)
    (length : ps.length = size)
    (heard : ∀ (i : Nat) x, ps[i]? = some x → ∀ lane k, x.stage.HasHeard e.now lane k) (lane : Lane)
    (i : Nat) : lanes.contents lane i = [] := by
  refine List.eq_nil_iff_forall_not_mem.2 fun ⟨j, data⟩ hm => ?_
  obtain ⟨hj, -, unheard, -⟩ := (h.contents lane i j data).1 hm
  have hi : i < ps.length := length ▸ net.below (net.symmetric hj)
  exact unheard ⟨_, List.getElem?_eq_getElem hi, heard i _ (List.getElem?_eq_getElem hi) lane j⟩

end Delivers

end Ensemble

end Mobility
