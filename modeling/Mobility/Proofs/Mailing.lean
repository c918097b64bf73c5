import Mathlib.Data.List.Induction
import Mobility.Proofs.Partition.Exchanges
import Mobility.Proofs.RoundTrip
import Mobility.Proofs.Totals

/-!
# An outbox sends what was queued

A message comes into being with the first thing that is queued for a partition, and everything else for that
partition is added to it (`Mail.stack`). When the messages of a kind are taken, every neighbor gets one, whether
something was queued for it or not, and nobody else gets any; if something was queued for a stranger, nothing is
sent (`Outbox.Posts`). The two kinds don't meet: over any history of an outbox, what is sent of a kind is what was
queued of it since this kind was taken last (`Outbox.posts_queued`).
-/

set_option autoImplicit false

namespace Mobility

/-- Something that is queued for a partition in second `now`. -/
structure Mail (α : Type) where
  target : Nat
  now : Nat
  what : α

namespace Mail

variable {α β : Type} {mail : List (Mail α)} {blank : Nat → Nat → β} {add : β → α → β} {now target : Nat}

/-- What is queued for one partition, in order. -/
def addressedTo (target : Nat) (mail : List (Mail α)) : List α :=
  (mail.filter fun m => m.target = target).map (·.what)

/-- The messages that are made of mail. The first mail for a partition is added to a blank message of its second. -/
def stack (blank : Nat → Nat → β) (add : β → α → β) (mail : List (Mail α)) : Table β :=
  mail.foldl (fun t m => t.alter m.target fun b => some (add (b.getD (blank m.now m.target)) m.what)) .empty

theorem addressedTo_concat (mail : List (Mail α)) (m : Mail α) :
    addressedTo target (mail ++ [m]) = addressedTo target mail ++ if m.target = target then [m.what] else [] := by
  unfold addressedTo
  rw [List.filter_append, List.map_append, List.filter_singleton]
  by_cases own : m.target = target <;> simp [own]

theorem stack_concat (mail : List (Mail α)) (m : Mail α) : stack blank add (mail ++ [m]) =
    (stack blank add mail).alter m.target fun b => some (add (b.getD (blank m.now m.target)) m.what) :=
  List.foldl_concat ..

/-- There is a message for everybody for whom something is queued. -/
theorem mem_keys_stack : target ∈ (stack blank add mail).keys ↔ ∃ m ∈ mail, m.target = target := by
  induction mail using List.reverseRecOn with
  | nil => simp [stack]
  | append_singleton mail m ih =>
    rw [stack_concat, Table.mem_keys, Table.get?_alter]
    by_cases own : target = m.target
    · simp [own]
    · rw [if_neg own, ← Table.mem_keys, ih]
      simp [Ne.symm own]

/-- If all of it is of one second, a message is a blank one of this second with what is queued added in order. -/
theorem getD_stack (inTime : ∀ m ∈ mail, m.now = now) (target : Nat) :
    ((stack blank add mail).get? target).getD (blank now target) =
      (addressedTo target mail).foldl add (blank now target) := by
  induction mail using List.reverseRecOn with
  | nil => rfl
  | append_singleton mail m ih =>
    have before := ih fun m hm => inTime m (List.mem_append_left _ hm)
    have second := inTime m (List.mem_append_right _ List.mem_cons_self)
    rw [stack_concat, addressedTo_concat, List.foldl_append, Table.get?_alter]
    by_cases own : target = m.target
    · subst own
      rw [if_pos rfl, if_pos rfl, Option.getD_some, second, before, List.foldl_cons, List.foldl_nil]
    · rw [if_neg own, if_neg (Ne.symm own), before, List.foldl_nil]

end Mail

/-- The transfer of these agents, each with the link that it enters or none. There is one group for each link, in the
order in which the links come up first. -/
def Transfer.grouping (time sender target : Nat) (added : List (Option Nat × AgentRecord)) : Transfer :=
  ⟨time, sender, target, (added.map Prod.fst).eraseDups.map fun link =>
    ⟨link, (added.filter fun row => row.1 = link).map Prod.snd⟩⟩

theorem Transfer.carrying_eq (time sender target : Nat) (added : List (Option Nat × AgentRecord)) :
    carrying time sender target added = grouping time sender target added := by
  obtain ⟨inTime, sent, aimed⟩ := head_carrying time sender target added
  rw [grouping, ← records_carrying, Transfer.mk.injEq]
  exact ⟨inTime, sent, aimed, rfl⟩

/-! ## Taking messages -/

namespace Outbox

variable {α β : Type} {neighbors : Table Unit} {mail : List (Mail α)} {blank : Nat → Nat → β} {add : β → α → β}
  {now : Nat}

/-- Every neighbor gets a message, and this is all that was queued for it. -/
theorem complete_stack (inTime : ∀ m ∈ mail, m.now = now)
    (known : ∀ m ∈ mail, neighbors.contains m.target = true) :
    complete neighbors (Mail.stack blank add mail) (blank now) =
      .ok (neighbors.mapRows fun target _ => (Mail.addressedTo target mail).foldl add (blank now target)) := by
  have strangers : ((Mail.stack blank add mail).keys.find? fun target => !neighbors.contains target) = none := by
    rw [List.find?_eq_none]
    intro target queued
    obtain ⟨m, hm, rfl⟩ := Mail.mem_keys_stack.1 queued
    simp [known m hm]
  unfold complete
  rw [strangers]
  simp only [Mail.getD_stack inTime]

/-- Something is queued for a stranger, so there is nothing for anybody. -/
theorem complete_stack_stranger (blank : Nat → Nat → β) (add : β → α → β) (now : Nat) {m : Mail α}
    (queued : m ∈ mail) (unknown : neighbors.contains m.target = false) :
    ∃ m ∈ mail, neighbors.contains m.target = false ∧
      complete neighbors (Mail.stack blank add mail) (blank now) = .error (.notANeighbor m.target) := by
  have stranger : ((Mail.stack blank add mail).keys.find? fun target => !neighbors.contains target).isSome = true :=
    List.find?_isSome.2 ⟨m.target, Mail.mem_keys_stack.2 ⟨m, queued, rfl⟩, by simp [unknown]⟩
  obtain ⟨target, found⟩ := Option.isSome_iff_exists.1 stranger
  obtain ⟨m, hm, rfl⟩ := Mail.mem_keys_stack.1 (List.mem_of_find?_eq_some found)
  refine ⟨m, hm, by simpa using List.find?_some found, ?_⟩
  unfold complete
  rw [found]

/-- What is handed over is one buffer for each neighbor, the one that is said, and none for anybody else. If
something is queued for a stranger, nothing is handed over, and such a stranger is named. -/
def Posts (neighbors : List Nat) (mail : List (Mail α)) (buffer : Nat → List UInt8)
    (taken : Except ExchangeError Buffers) : Prop :=
  if ∀ m ∈ mail, m.target ∈ neighbors then
    ∃ buffers, taken = .ok buffers ∧
      ∀ target, buffers.get? target = if target ∈ neighbors then some (buffer target) else none
  else ∃ m ∈ mail, m.target ∉ neighbors ∧ taken = .error (.notANeighbor m.target)

/-- A buffer which is handed over is the one that is said. -/
theorem Posts.buffer {partners : List Nat} {buffer : Nat → List UInt8} {taken : Except ExchangeError Buffers}
    {buffers : Buffers} {target : Nat} {data : List UInt8} (h : Posts partners mail buffer taken)
    (handed : taken = .ok buffers) (there : buffers.get? target = some data) : data = buffer target := by
  unfold Posts at h
  split at h
  · obtain ⟨all, taken, each⟩ := h
    obtain rfl := Except.ok.inj (handed.symm.trans taken)
    rw [each] at there
    split at there
    · exact (Option.some.inj there).symm
    · cases there
  · obtain ⟨m, -, -, refused⟩ := h
    cases handed.symm.trans refused

theorem posts_complete {partners : List Nat} (encode : β → List UInt8) (inTime : ∀ m ∈ mail, m.now = now)
    (same : ∀ target, neighbors.contains target = true ↔ target ∈ partners) :
    Posts partners mail (fun target => encode ((Mail.addressedTo target mail).foldl add (blank now target)))
      ((complete neighbors (Mail.stack blank add mail) (blank now)).map fun messages =>
        messages.mapRows fun _ message => encode message) := by
  unfold Posts
  split
  · rename_i known
    rw [complete_stack inTime fun m hm => (same m.target).2 (known m hm)]
    refine ⟨_, rfl, fun target => ?_⟩
    rw [Table.get?_mapRows, Table.get?_mapRows]
    by_cases partner : target ∈ partners
    · have there := (same target).2 partner
      obtain ⟨u, hu⟩ := Option.isSome_iff_exists.1 there
      rw [if_pos partner, hu]
      rfl
    · have absent := mt (same target).1 partner
      rw [if_neg partner, Option.not_isSome_iff_eq_none.1 absent]
      rfl
  · rename_i strangers
    simp only [not_forall] at strangers
    obtain ⟨m, hm, stranger⟩ := strangers
    obtain ⟨m, hm, unknown, refused⟩ := complete_stack_stranger blank add now hm
      (Bool.eq_false_iff.2 (mt (same m.target).1 stranger))
    refine ⟨m, hm, ?_, by rw [refused]; rfl⟩
    intro partner
    rw [(same m.target).2 partner] at unknown
    cases unknown

/-! ## Histories -/

/-- What is done with an outbox. -/
inductive Use where
  /-- An agent is queued in second `now`. -/
  | agent (target : Nat) (link : Option Nat) (record : AgentRecord) (now : Nat)
  /-- A count is queued in second `now`. -/
  | count (target link released now : Nat)
  | takesTransfers (now : Nat)
  | takesReleases (now : Nat)

namespace Use

def perform : Use → Outbox → Outbox
  | .agent target link record now, o => o.addAgent target link record now
  | .count target link released now, o => o.addCount target link released now
  | .takesTransfers now, o => (o.takeTransfers now).2
  | .takesReleases now, o => (o.takeReleases now).2

/-- The agents which are queued, after those in `mail`. -/
def postAgents (mail : List (Mail (Option Nat × AgentRecord))) : Use → List (Mail (Option Nat × AgentRecord))
  | .agent target link record now => mail ++ [⟨target, now, (link, record)⟩]
  | .takesTransfers _ => []
  | .count .. | .takesReleases _ => mail

/-- The counts which are queued, after those in `mail`. -/
def postCounts (mail : List (Mail (Nat × Nat))) : Use → List (Mail (Nat × Nat))
  | .count target link released now => mail ++ [⟨target, now, (link, released)⟩]
  | .takesReleases _ => []
  | .agent .. | .takesTransfers _ => mail

end Use

/-- The agents which were queued since the transfers were taken last. -/
def agentsOf (history : List Use) : List (Mail (Option Nat × AgentRecord)) := history.foldl Use.postAgents []

/-- The counts which were queued since the releases were taken last. -/
def countsOf (history : List Use) : List (Mail (Nat × Nat)) := history.foldl Use.postCounts []

/-- The outbox of partition `rank` after its history. -/
def after (rank : Nat) (neighbors : List Nat) (history : List Use) : Outbox :=
  history.foldl (fun o use => use.perform o) (.empty rank neighbors)

variable {partners : List Nat}

/-- What an outbox holds is what was queued of each kind since this kind was taken last. -/
theorem after_eq (rank : Nat) (partners : List Nat) (history : List Use) : after rank partners history =
    { empty rank partners with
      transfers := Mail.stack (fun now target => Transfer.empty now rank target)
        (fun t row => t.addAgent row.1 row.2) (agentsOf history)
      releases := Mail.stack (fun now target => Release.empty now rank target)
        (fun r row => r.addCount row.1 row.2) (countsOf history) } := by
  induction history using List.reverseRecOn with
  | nil => rfl
  | append_singleton history use ih =>
    have agents : agentsOf (history ++ [use]) = use.postAgents (agentsOf history) := List.foldl_concat ..
    have counts : countsOf (history ++ [use]) = use.postCounts (countsOf history) := List.foldl_concat ..
    have performs : after rank partners (history ++ [use]) = use.perform (after rank partners history) :=
      List.foldl_concat ..
    rw [performs, agents, counts, ih]
    cases use with
    | agent target link record now =>
      simp only [Use.perform, Use.postAgents, Use.postCounts, addAgent, Mail.stack_concat]
      rfl
    | count target link released now =>
      simp only [Use.perform, Use.postAgents, Use.postCounts, addCount, Mail.stack_concat]
      rfl
    | takesTransfers now => rfl
    | takesReleases now => rfl

theorem contains_empty (rank : Nat) {target : Nat} :
    (empty rank partners).neighbors.contains target = true ↔ target ∈ partners := by
  have listed : ∀ (xs : List Nat) (t : Table Unit),
      (xs.foldl (fun t n => t.insert n ()) t).contains target = true ↔ target ∈ xs ∨ t.contains target = true := by
    intro xs
    induction xs with
    | nil => simp
    | cons x rest ih =>
      intro t
      rw [List.foldl_cons, ih, Table.contains, Table.get?_insert, List.mem_cons]
      by_cases own : target = x
      · simp [own]
      · simp [own, Table.contains]
  rw [empty, listed]
  simp [Table.contains]

section Used

variable {rank : Nat} {history : List Use}

theorem posts_transfers (inTime : ∀ m ∈ agentsOf history, m.now = now) :
    Posts partners (agentsOf history)
      (fun target => (Transfer.grouping now rank target (Mail.addressedTo target (agentsOf history))).encode)
      ((after rank partners history).takeTransfers now).1 := by
  simp only [← Transfer.carrying_eq, after_eq]
  exact posts_complete Transfer.encode inTime fun _ => contains_empty rank

theorem posts_releases (inTime : ∀ m ∈ countsOf history, m.now = now) :
    Posts partners (countsOf history)
      (fun target => Release.encode ⟨now, rank, target, Mail.addressedTo target (countsOf history)⟩)
      ((after rank partners history).takeReleases now).1 := by
  simp only [← Release.counting_eq, after_eq]
  exact posts_complete Release.encode inTime fun _ => contains_empty rank

end Used

/-- However an outbox was used before: if all agents which it holds were queued in second `now`, then what is taken
as transfers is one buffer for each neighbor, the bytes of a transfer of that second with the agents queued for this
neighbor, grouped by the links that they enter and otherwise in order; and if one of them is queued for a stranger,
such a stranger is named and nothing is handed over. The same holds of counts, which aren't grouped. In any case
nothing of the kind which was taken is left, and the other kind is as it was. And if the numbers fit into their fields,
a neighbor who knows the vehicles reads from its buffer what was queued for it. -/
theorem posts_queued (rank : Nat) (partners : List Nat) (history : List Use) (now : Nat) :
    ((∀ m ∈ agentsOf history, m.now = now) →
      Posts partners (agentsOf history)
        (fun target => (Transfer.grouping now rank target (Mail.addressedTo target (agentsOf history))).encode)
        ((after rank partners history).takeTransfers now).1) ∧
    ((∀ m ∈ countsOf history, m.now = now) →
      Posts partners (countsOf history)
        (fun target => Release.encode ⟨now, rank, target, Mail.addressedTo target (countsOf history)⟩)
        ((after rank partners history).takeReleases now).1) ∧
    ((after rank partners history).takeTransfers now).2 =
      { after rank partners history with transfers := .empty } ∧
    ((after rank partners history).takeReleases now).2 =
      { after rank partners history with releases := .empty } ∧
    (now < Wire.base → rank < Wire.base → ∀ buffers target data, buffers.get? target = some data →
      (∀ isVehicle, ((after rank partners history).takeTransfers now).1 = .ok buffers →
        (∀ m ∈ agentsOf history, m.now = now) →
        (∀ row ∈ Mail.addressedTo target (agentsOf history),
          (∀ link, row.1 = some link → link < Wire.noLink) ∧ row.2.Fits isVehicle) →
        (Mail.addressedTo target (agentsOf history)).length < Wire.base →
        Transfer.decode data target isVehicle =
          .ok (.grouping now rank target (Mail.addressedTo target (agentsOf history)))) ∧
      (((after rank partners history).takeReleases now).1 = .ok buffers →
        (∀ m ∈ countsOf history, m.now = now) →
        (∀ row ∈ Mail.addressedTo target (countsOf history), row.1 < Wire.base ∧ row.2 < Wire.base) →
        (Mail.addressedTo target (countsOf history)).length < Wire.base →
        Release.decode data target = .ok ⟨now, rank, target, Mail.addressedTo target (countsOf history)⟩)) := by
  refine ⟨posts_transfers, posts_releases, rfl, rfl, fun second own buffers target data there =>
    ⟨fun isVehicle handed inTime fits few => ?_, fun handed inTime fits few => ?_⟩⟩
  · rw [(posts_transfers inTime).buffer handed there, ← Transfer.carrying_eq]
    exact Transfer.decode_encode_few second own (fun row hrow => (fits row hrow).1)
      (fun row hrow => (fits row hrow).2) few
  · rw [(posts_releases inTime).buffer handed there]
    exact Release.decode_encode_self (r := ⟨now, rank, target, Mail.addressedTo target (countsOf history)⟩)
      second own few
      fits

/-- Partition 0 sends three agents in second 6, two of them into link 3, after one that it sent in second 5. A
neighbor for whom there is nobody gets an empty transfer, and the count of second 5 is still there. -/
theorem posts_queued_twice :
    let rider : AgentRecord := ⟨7, 2, none⟩
    let bus : AgentRecord := ⟨8, 4, some [⟨6, 9, 1⟩]⟩
    let walker : AgentRecord := ⟨10, 1, none⟩
    let history := [.agent 1 (some 3) walker 5, .count 2 4 1 5, .takesTransfers 5, .agent 1 (some 3) rider 6,
      .agent 1 none walker 6, .agent 1 (some 3) bus 6]
    ∃ transfers releases, ((after 0 [1, 2] history).takeTransfers 6).1 = .ok transfers ∧
      transfers.get? 1 = some (Transfer.encode ⟨6, 0, 1, [⟨some 3, [rider, bus]⟩, ⟨none, [walker]⟩]⟩) ∧
      transfers.get? 2 = some (Transfer.encode ⟨6, 0, 2, []⟩) ∧ transfers.get? 0 = none ∧
      ((after 0 [1, 2] history).takeReleases 5).1 = .ok releases ∧
      releases.get? 2 = some (Release.encode ⟨5, 0, 2, [(4, 1)]⟩) ∧
      ((after 0 [2] history).takeTransfers 6).1 = .error (.notANeighbor 1) ∧
      (∃ data, transfers.get? 1 = some data ∧ Transfer.decode data 1 (fun id => some (id == 8)) =
        .ok ⟨6, 0, 1, [⟨some 3, [rider, bus]⟩, ⟨none, [walker]⟩]⟩) ∧
      ∃ data, releases.get? 2 = some data ∧ Release.decode data 2 = .ok ⟨5, 0, 2, [(4, 1)]⟩ := by
  intro rider bus walker history
  obtain ⟨sent, -, -, -, arrives⟩ := posts_queued 0 [1, 2] history 6
  obtain ⟨-, reported, -, -, reads⟩ := posts_queued 0 [1, 2] history 5
  obtain ⟨refused, -, -, -, -⟩ := posts_queued 0 [2] history 6
  have posts := sent (by decide)
  rw [Posts, if_pos (by decide)] at posts
  obtain ⟨transfers, taken, buffer⟩ := posts
  have posts := reported (by decide)
  rw [Posts, if_pos (by decide)] at posts
  obtain ⟨releases, counted, report⟩ := posts
  have posts := refused (by decide)
  rw [Posts, if_neg (by decide)] at posts
  obtain ⟨m, hm, -, stranger⟩ := posts
  have named : m.target = 1 := (by decide : ∀ m ∈ agentsOf history, m.target = 1) m hm
  have read : releases.get? 2 = some (Release.encode ⟨5, 0, 2, [(4, 1)]⟩) := by
    rw [report, if_pos (by decide)]
    rfl
  have carried : transfers.get? 1 = some (Transfer.encode ⟨6, 0, 1, [⟨some 3, [rider, bus]⟩, ⟨none, [walker]⟩]⟩) := by
    rw [buffer, if_pos (by decide)]
    rfl
  have fits : ∀ row ∈ Mail.addressedTo 1 (agentsOf history), (∀ link, row.1 = some link → link < Wire.noLink) ∧
      row.2.Fits fun id => some (id == 8) := by
    intro row hrow
    have listed : row ∈ [(some 3, rider), (none, walker), (some 3, bus)] := hrow
    simp only [List.mem_cons, List.not_mem_nil, or_false] at listed
    rcases listed with rfl | rfl | rfl
    · exact ⟨by rintro link ⟨⟩; decide, by decide, by decide, rfl, nofun, nofun⟩
    · exact ⟨nofun, by decide, by decide, rfl, nofun, nofun⟩
    · refine ⟨by rintro link ⟨⟩; decide, by decide, by decide, rfl, by rintro xs ⟨⟩; decide, ?_⟩
      rintro xs ⟨⟩ x hx
      rw [List.mem_singleton.1 hx]
      exact ⟨by decide, by decide, by decide⟩
  refine ⟨transfers, releases, taken, carried, ?_, ?_, counted, read, named ▸ stranger, ⟨_, carried, ?_⟩, _, read, ?_⟩
  · rw [buffer, if_pos (by decide)]
    rfl
  · rw [buffer, if_neg (by decide)]
  · exact (arrives (by decide) (by decide) transfers 1 _ carried).1 _ taken (by decide) fits (by decide)
  · exact (reads (by decide) (by decide) releases 2 _ read).2 counted (by decide) (by decide) (by decide)

end Outbox

end Mobility
