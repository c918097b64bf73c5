import Mobility.Proofs.Census.Places
import Mobility.Proofs.Compression
import Mobility.Proofs.Files
import Mobility.Proofs.Outcomes
import Mobility.Proofs.Scenario.Splitting
import Mobility.Proofs.Stored

/-!
# What is derived never depends on an earlier split

Homes, crossings and neighbors are derived from the entities whenever a scenario is split, and so it makes no
difference whether a scenario was split before, or how. In particular a scenario which was saved is loaded as it was,
although its neighbors aren't stored (`Scenario.split_anew`).
-/

set_option autoImplicit false

namespace Mobility

/-- The codecs give back what they were given: a value from its content, and this content from its compressed form. -/
structure Codecs.Lossless (codecs : Codecs) (form : SnapshotForm) (value : Scenario.fields.Value) : Prop where
  decodes : codecs.decode form ⟨codecs.encode form value, true⟩ = .ok value
  decompresses : codecs.decompress (codecs.compress (codecs.encode form value)) = ⟨codecs.encode form value, true⟩

/-- A file is unpacked as it was packed. -/
theorem FilePath.unpackWith_packWith {compress : List UInt8 → List UInt8} {decompress : List UInt8 → Gzip.Readable}
    {content : List UInt8} (p : FilePath) (lossless : decompress (compress content) = ⟨content, true⟩) :
    p.unpackWith decompress (p.packWith compress content) = ⟨content, true⟩ := by
  unfold unpackWith packWith
  split
  · exact lossless
  · rfl

namespace Scenario

variable {codecs : Codecs} {s : Scenario} {p : FilePath} {form : SnapshotForm} {t t' : FileTree}

/-- The text of a snapshot is read as the value which was written. -/
def TextReads (s : Scenario) : Prop :=
  (Shape.record fields).read true ((Shape.record fields).write s.stored) = .ok (s.stored, [])

instance (s : Scenario) : Decidable s.TextReads :=
  inferInstanceAs
    (Decidable ((Shape.record fields).read true ((Shape.record fields).write s.stored) = .ok (s.stored, [])))

/-- The standard codecs give a scenario back whose numbers fit into their fields; a text has to be read as the value
which was written. -/
theorem lossless_standard (fits : s.Storable) (legible : form = .text → s.TextReads) :
    Codecs.standard.Lossless form s.stored := by
  have decodes : form.decode ⟨form.encode s.stored, true⟩ = .ok s.stored := by
    cases form with
    | binary => exact fits.decode_encode
    | text =>
      have read : (Shape.record fields).read true ((Shape.record fields).write s.stored) = .ok (s.stored, []) :=
        legible rfl
      unfold SnapshotForm.decode SnapshotForm.encode
      simp only [read]
  have decompresses := Gzip.decompress_compress (form.encode s.stored)
  exact ⟨decodes, decompresses⟩

/-- What ends well has a first and a second part which do. -/
theorem bind_run_ok {ε σ α β : Type} {x : EStateM ε σ α} {f : α → EStateM ε σ β} {b : β} {s s' : σ}
    (h : (x >>= f).run s = .ok b s') : ∃ a r, x.run s = .ok a r ∧ (f a).run r = .ok b s' := by
  rw [EStateM.run_bind] at h
  split at h
  · exact ⟨_, _, ‹_›, h⟩
  · cases h

theorem adaptExcept_run_ok {ε ε' σ α : Type} {f : ε → ε'} {x : EStateM ε σ α} {a : α} {s s' : σ}
    (h : (x.adaptExcept f).run s = .ok a s') : x.run s = .ok a s' := by
  unfold EStateM.adaptExcept EStateM.run at h
  unfold EStateM.run
  beta_reduce at h
  split at h
  · cases h
  · rename_i ended
    cases h
    exact ended

/-- The last thing that is done to save a scenario is to write its snapshot. -/
theorem saveWith_eq_ok (known : p.snapshotForm? = some form) (h : (s.saveWith codecs p).run t = .ok () t') :
    ∃ t₁, (Disk.write p (p.packWith codecs.compress (codecs.encode form s.stored))).run t₁ = .ok () t' := by
  have last : ∀ {t₀}, (do
      (Disk.write p (p.packWith codecs.compress [])).adaptExcept SnapshotError.file
      (Disk.write p (p.packWith codecs.compress (codecs.encode form s.stored))).adaptExcept SnapshotError.file).run t₀ =
        .ok () t' →
      ∃ t₁, (Disk.write p (p.packWith codecs.compress (codecs.encode form s.stored))).run t₁ = .ok () t' := by
    intro t₀ h
    obtain ⟨_, t₁, -, written⟩ := bind_run_ok h
    exact ⟨t₁, adaptExcept_run_ok written⟩
  unfold saveWith at h
  simp only [known] at h
  split at h
  · obtain ⟨_, t₀, -, written⟩ := bind_run_ok h
    exact last written
  · exact last h

/-- A scenario which was saved is loaded as it was. -/
theorem loadWith_saveWith (split : ∃ raw method, Split raw method s) (known : p.snapshotForm? = some form)
    (lossless : codecs.Lossless form s.stored) (saved : (s.saveWith codecs p).run t = .ok () t') :
    loadWith codecs t' p = .ok s := by
  obtain ⟨raw, method, split⟩ := split
  obtain ⟨t₁, written⟩ := saveWith_eq_ok known saved
  refine loadWith_eq_ok.2 ⟨form, p.packWith codecs.compress (codecs.encode form s.stored), s.stored, known, ?_, ?_, ?_⟩
  · unfold opened
    rw [Disk.read_write written]
  · rw [FilePath.unpackWith_packWith p lossless.decompresses]
    exact lossless.decodes
  · rw [ofStored_stored]
    exact split.again

/-- However a scenario came about, it is split like its entities alone, with the owners that its links have or get.
If all links get new owners, then those before make no difference either. And a scenario which was made or loaded comes
back from every file in which it was saved successfully, whatever the codecs, if they give back what they were given.
The standard ones do so for every scenario whose numbers fit into the fields of a snapshot; a text has to be read as
the value which was written. -/
theorem split_anew :
    (∀ (s : Scenario) (numParts : Nat) (method : Method),
      s.repartition numParts method = build numParts method s.links s.stops s.agents) ∧
    (∀ (s : Scenario) (links : Array LinkSpec) (numParts : Nat) (method : Method), method ≠ .precomputed →
      links.map LinkSpec.unowned = s.links.map LinkSpec.unowned →
      s.repartition numParts method = build numParts method links s.stops s.agents) ∧
    (∀ (codecs : Codecs) (s : Scenario) (p : FilePath) (form : SnapshotForm) (t t' : FileTree), s.Admitted →
      p.snapshotForm? = some form → codecs.Lossless form s.stored →
      (s.saveWith codecs p).run t = .ok () t' → loadWith codecs t' p = .ok s) ∧
    (∀ (s : Scenario) (p : FilePath) (form : SnapshotForm) (t t' : FileTree), s.Admitted →
      p.snapshotForm? = some form → s.Storable → (form = .text → s.TextReads) →
      (s.save p).run t = .ok () t' → load t' p = .ok s) := by
  refine ⟨fun s numParts method => rfl, ?_, ?_, ?_⟩
  · intro s links numParts method anew same
    have entities : SameEntities { s with numParts := numParts }
        ⟨numParts, links, s.stops, s.agents, #[], [], .empty⟩ :=
      ⟨same.symm, rfl, rfl⟩
    exact partition_congr entities rfl anew
  · intro codecs s p form t t' admitted known lossless saved
    exact loadWith_saveWith admitted.split known lossless saved
  · intro s p form t t' admitted known fits legible saved
    exact loadWith_saveWith admitted.split known (lossless_standard fits legible) saved

/-- Two agents without links. One sleeps and carries the other one, which gets off at its stop number 3. -/
def dozers : Array Agent :=
  let plan : Plan := ⟨#[Action.word (.sleepFor (low32 2)), Action.word (.sleepUntil (low32 9))], by decide⟩
  #[{ Agent.fresh 0 plan 2 (low16 7) with seats := ⟨2, 1, Table.empty.insert 3 [1]⟩ },
    .fresh 1 ⟨#[], by decide⟩ 0 (low16 8)]

/-- Whether the act ends well. -/
def endsWell {ε σ α : Type} (act : EStateM ε σ α) (t : σ) : Bool :=
  match act.run t with
  | .ok .. => true
  | .error .. => false

theorem exists_of_endsWell {ε σ : Type} {act : EStateM ε σ Unit} {t : σ} (h : endsWell act t = true) :
    ∃ t', act.run t = .ok () t' := by
  unfold endsWell at h
  split at h
  · rename_i u t' run
    exact ⟨t', run⟩
  · cases h

/-- The bus and its two partitions, which are neighbors, come back from a compressed file, and two agents from a text.
For three partitions, links which belong to two others are as good as the ones that belonged to nobody. -/
theorem split_anew_bus : ∃ s t' r u', build 2 .modulo bus.links bus.stops bus.agents = .ok s ∧
    (s.save ⟨"saved/world.bin.gz"⟩).run ⟨[], []⟩ = .ok () t' ∧ load t' ⟨"saved/world.bin.gz"⟩ = .ok s ∧
    s.neighborsOf 0 = [1] ∧ s.links ≠ bus.links ∧
    s.repartition 3 .modulo = build 3 .modulo bus.links bus.stops bus.agents ∧
    build 3 .none #[] #[] dozers = .ok r ∧ r.TextReads ∧
    (r.save ⟨"world.json"⟩).run ⟨[], []⟩ = .ok () u' ∧ load u' ⟨"world.json"⟩ = .ok r := by
  have splits : ((build 2 .modulo bus.links bus.stops bus.agents).toOption.any fun s =>
      s.Storable ∧ s.stops = bus.stops ∧ s.agents = bus.agents ∧ s.neighborsOf 0 = [1] ∧ s.links ≠ bus.links ∧
        bus.links.map LinkSpec.unowned = s.links.map LinkSpec.unowned ∧
        endsWell (s.save ⟨"saved/world.bin.gz"⟩) ⟨[], []⟩ = true) = true := by decide +kernel
  have reads : ((build 3 .none #[] #[] dozers).toOption.any fun r =>
      r.Storable ∧ r.TextReads ∧ endsWell (r.save ⟨"world.json"⟩) ⟨[], []⟩ = true) = true := by decide +kernel
  obtain ⟨s, built, hc⟩ := (Option.any_eq_true _ _).1 splits
  obtain ⟨fits, stops, agents, neighbors, apart, same, saves⟩ := of_decide_eq_true hc
  obtain ⟨r, made, hc⟩ := (Option.any_eq_true _ _).1 reads
  obtain ⟨fits', legible, saves'⟩ := of_decide_eq_true hc
  have built := eq_ok_of_toOption built
  have made := eq_ok_of_toOption made
  obtain ⟨t', saved⟩ := exists_of_endsWell saves
  obtain ⟨u', saved'⟩ := exists_of_endsWell saves'
  have binary : (FilePath.mk "saved/world.bin.gz").snapshotForm? = some .binary := by decide +kernel
  have text : (FilePath.mk "world.json").snapshotForm? = some .text := by decide +kernel
  obtain ⟨-, anew, comesBack, loads⟩ := split_anew
  refine ⟨s, t', r, u', built, saved, ?_, neighbors, apart, ?_, made, legible, saved', ?_⟩
  · exact comesBack .standard s _ .binary _ t' (.inl ⟨_, _, _, _, _, built⟩) binary (lossless_standard fits nofun) saved
  · rw [anew s bus.links 3 .modulo nofun same, stops, agents]
  · exact loads r _ .text _ u' (.inl ⟨_, _, _, _, _, made⟩) text fits' (fun _ => legible) saved'

end Scenario

end Mobility
