import Mobility.Proofs.Files
import Mobility.Proofs.Outcomes
import Mobility.Snapshot.File

/-!
# What a refused snapshot leaves behind

A snapshot is read only from a file whose ending is supported, and no other file is looked at. When a snapshot is
written, the ending is looked at too late: the directories are made and the file is created or emptied before it turns
out that there is nothing to write into it (`Scenario.emptied_by_save`). Nothing else changes
(`Scenario.save_refused`).
-/

set_option autoImplicit false

namespace Mobility

variable {α β : Type}

/-! ## Directories which are made -/

namespace FileTree

/-- `t'` is `t` with some directories that were missing. -/
structure Grown (t t' : FileTree) : Prop where
  here : t'.here = t.here
  nodes : ∀ l, t'.node? l = t.node? l ∨ t.node? l = none ∧ t'.node? l = some .directory

variable {t t' t'' : FileTree} {l : Location}

theorem Grown.refl (t : FileTree) : Grown t t := ⟨rfl, fun _ => .inl rfl⟩

theorem Grown.trans (h : Grown t t') (h' : Grown t' t'') : Grown t t'' where
  here := h'.here.trans h.here
  nodes l := by
    rcases h.nodes l with same | ⟨missing, made⟩
    · rcases h'.nodes l with same' | ⟨missing', made'⟩
      · exact .inl (same'.trans same)
      · exact .inr ⟨same ▸ missing', made'⟩
    · rcases h'.nodes l with same' | ⟨missing', -⟩
      · exact .inr ⟨missing, same'.trans made⟩
      · exact nomatch made.symm.trans missing'

theorem Grown.put (missing : t.node? l = none) : Grown t (t.put l .directory) where
  here := here_put
  nodes l' := by
    have inside : l ≠ [] := by
      rintro rfl
      cases missing
    rw [node?_put inside]
    by_cases asked : l' = l
    · subst asked
      exact .inr ⟨missing, if_pos rfl⟩
    · exact .inl (if_neg asked)

end FileTree

namespace Disk

open FileTree

variable {p : FilePath} {act : Disk α} {next : α → Disk β}

/-- The files after an act, however it ended. -/
def left (act : Disk α) (t : FileTree) : FileTree :=
  match act.run t with
  | .ok _ t' => t'
  | .error _ t' => t'

/-- The act does nothing but to make directories which are missing. -/
def Grows (act : Disk α) : Prop := ∀ t, Grown t (act.left t)

namespace Grows

theorem pure (a : α) : Grows (pure a) := fun t => .refl t

theorem throw (e : FileError) : Grows (throw e : Disk α) := fun t => .refl t

theorem get : Grows (MonadState.get : Disk FileTree) := fun t => .refl t

theorem look (query : FileTree → Except FileError α) : Grows (look query) := fun t => by
  have unchanged : (Disk.look query).left t = t := by
    unfold Disk.look left
    cases asked : query t <;> simp only [EStateM.run_bind, EStateM.run_get, asked] <;> rfl
  rw [unchanged]
  exact .refl t

theorem bind (h : Grows act) (later : ∀ a, Grows (next a)) : Grows (act >>= next) := fun t => by
  have first := h t
  unfold left at first ⊢
  rw [EStateM.run_bind]
  cases run : act.run t with
  | error e t' =>
    rw [run] at first
    exact first
  | ok a t' =>
    rw [run] at first
    exact first.trans (later a t')

theorem createDirectory (p : FilePath) : Grows (createDirectory p) := by
  refine (look _).bind fun l t => ?_
  unfold left
  rw [EStateM.run_bind, EStateM.run_get]
  cases there : t.node? l with
  | some node =>
    simp only [there]
    exact .refl t
  | none =>
    simp only [there]
    exact .put there

theorem attempt (p : FilePath) : Grows (createWithin.attempt p) := fun t => by
  have made := createDirectory p t
  unfold left EStateM.run at made
  unfold left createWithin.attempt
  rw [EStateM.run_bind, EStateM.run_get]
  cases run : Disk.createDirectory p t with
  | ok u t' =>
    rw [run] at made
    simp only [run]
    exact made
  | error e t' =>
    rw [run] at made
    simp only [run]
    exact made

theorem unlessDirectory (p : FilePath) (e : FileError) : Grows (createWithin.unlessDirectory p e) := by
  refine get.bind fun t => ?_
  split
  · exact pure ()
  · exact throw e

/-- However far the directories around a path were made, nothing else has changed. -/
theorem createWithin (paths : List FilePath) : Grows (createWithin paths) := by
  induction paths with
  | nil => exact throw _
  | cons p outer ih =>
    unfold Disk.createWithin
    split
    · exact pure ()
    · refine (attempt p).bind fun failed => ?_
      split
      · exact pure ()
      · refine ih.bind fun _ => (attempt p).bind fun failed => ?_
        split
        · exact pure ()
        · exact unlessDirectory p _
      · exact unlessDirectory p _

theorem createDirectories (p : FilePath) : Grows (createDirectories p) := createWithin _

end Grows

end Disk

namespace FilePath

variable {p : FilePath}

/-- A form is found exactly for the two supported endings. -/
theorem snapshotForm?_eq_none : p.snapshotForm? = none ↔ p.format ≠ some "bin" ∧ p.format ≠ some "json" := by
  unfold snapshotForm?
  split
  · exact ⟨nofun, fun h => absurd ‹_› h.1⟩
  · exact ⟨nofun, fun h => absurd ‹_› h.2⟩
  · exact ⟨fun _ => ⟨‹_›, ‹_›⟩, fun _ => rfl⟩

end FilePath

namespace Scenario

open FileTree

variable {codecs : Codecs} {s : Scenario} {p q : FilePath} {t t' : FileTree}

theorem opened_ne_unsupported : opened t p ≠ .error (.unsupported q) := by
  unfold opened
  split <;> nofun

theorem exists_of_mapError {ε ε' : Type} {x : Except ε α} {f : ε → ε'} {e : ε'} (h : x.mapError f = .error e) :
    ∃ cause, e = f cause := by
  cases x with
  | error cause => exact ⟨cause, (Except.error.inj h).symm⟩
  | ok a => cases h

/-- What is refused when it's read depends on its ending alone. -/
theorem loadWith_eq_unsupported :
    loadWith codecs t p = .error (.unsupported q) ↔ q = p ∧ p.snapshotForm? = none := by
  unfold loadWith
  split
  next none =>
    exact ⟨fun h => ⟨by cases h; rfl, none⟩, fun h => by rw [h.1]; rfl⟩
  next form some =>
    refine ⟨fun h => ?_, fun h => absurd (h.2.symm.trans some) nofun⟩
    exfalso
    cases read : opened t p with
    | error e =>
      rw [read] at h
      cases h
      exact opened_ne_unsupported read
    | ok bytes =>
      rw [read] at h
      have rest : (codecs.decode form (p.unpackWith codecs.decompress bytes)).mapError SnapshotError.malformed >>=
          (fun value => ((ofStored value).repartition (ofStored value).numParts .precomputed).mapError .scenario) =
            .error (.unsupported q) := h
      cases decoded : codecs.decode form (p.unpackWith codecs.decompress bytes) with
      | error place =>
        rw [decoded] at rest
        cases rest
      | ok value =>
        rw [decoded] at rest
        obtain ⟨cause, clash⟩ := exists_of_mapError rest
        cases clash

theorem adaptExcept_run {ε ε' σ : Type} (f : ε → ε') (x : EStateM ε σ α) (s : σ) :
    (x.adaptExcept f).run s =
      match x.run s with
      | .ok a s' => .ok a s'
      | .error e s' => .error (f e) s' := by
  cases ended : x s <;> simp only [EStateM.adaptExcept, EStateM.run, ended]

/-- How saving ends for an ending which isn't supported, once the directories are `made`. -/
def Refuses (codecs : Codecs) (p : FilePath) (act : EStateM SnapshotError FileTree Unit) (t made : FileTree) : Prop :=
  (∃ cause, act.run t = .error (.file cause) made) ∨
    ∃ l, made.locate p p.names = .ok l ∧ made.node? l ≠ some .directory ∧
      act.run t = .error (.unsupported p) (made.put l (.file (p.packWith codecs.compress [])))

theorem refuses_write (codecs : Codecs) (p : FilePath) (made : FileTree) :
    Refuses codecs p (do
      (Disk.write p (p.packWith codecs.compress [])).adaptExcept SnapshotError.file
      throw (.unsupported p)) made made := by
  unfold Refuses
  rw [EStateM.run_bind, adaptExcept_run, Disk.write_run]
  cases way : made.locate p p.names with
  | error e => exact .inl ⟨e, rfl⟩
  | ok l =>
    cases there : made.node? l with
    | none => exact .inr ⟨l, rfl, there ▸ nofun, by simp only [there]; rfl⟩
    | some node =>
      cases node with
      | directory => exact .inl ⟨.isDirectory, by simp only [there]⟩
      | file content => exact .inr ⟨l, rfl, there ▸ nofun, by simp only [there]; rfl⟩

theorem refuses_save (codecs : Codecs) (none : p.snapshotForm? = none) (s : Scenario) (t : FileTree) :
    ∃ made : FileTree, Grown t made ∧ Refuses codecs p (s.saveWith codecs p) t made := by
  unfold saveWith
  simp only [none]
  split
  next directory _ =>
    have grown := Disk.Grows.createDirectories directory t
    unfold Disk.left at grown
    cases run : (Disk.createDirectories directory).run t with
    | error e made =>
      rw [run] at grown
      refine ⟨made, grown, .inl ⟨e, ?_⟩⟩
      rw [EStateM.run_bind, adaptExcept_run, run]
    | ok u made =>
      rw [run] at grown
      refine ⟨made, grown, ?_⟩
      have rest := refuses_write codecs p made
      unfold Refuses at rest ⊢
      rw [EStateM.run_bind, adaptExcept_run, run]
      exact rest
  next => exact ⟨t, .refl t, refuses_write codecs p t⟩

/-- The act fails only because of a file. -/
def FileFails (act : EStateM SnapshotError FileTree α) : Prop :=
  ∀ t e t', act.run t = .error e t' → ∃ cause, e = .file cause

namespace FileFails

theorem disk (act : Disk α) : FileFails (act.adaptExcept SnapshotError.file) := fun t e t' h => by
  rw [adaptExcept_run] at h
  cases run : act.run t with
  | ok a r =>
    rw [run] at h
    cases h
  | error cause r =>
    rw [run] at h
    cases h
    exact ⟨cause, rfl⟩

theorem bind {act : EStateM SnapshotError FileTree α} {next : α → EStateM SnapshotError FileTree β}
    (first : FileFails act) (later : ∀ a, FileFails (next a)) : FileFails (act >>= next) := fun t e t' h => by
  rw [EStateM.run_bind] at h
  cases run : act.run t with
  | ok a r =>
    rw [run] at h
    exact later a r e t' h
  | error cause r =>
    rw [run] at h
    cases h
    exact first t e _ run

/-- A snapshot whose ending is supported isn't refused for its ending. -/
theorem saveWith {form : SnapshotForm} (some : p.snapshotForm? = some form) (s : Scenario) :
    FileFails (s.saveWith codecs p) := by
  unfold Scenario.saveWith
  simp only [some]
  have writes : FileFails (do
      (Disk.write p (p.packWith codecs.compress [])).adaptExcept SnapshotError.file
      (Disk.write p (p.packWith codecs.compress (codecs.encode form s.stored))).adaptExcept SnapshotError.file) :=
    (disk _).bind fun _ => disk _
  split
  · exact (disk _).bind fun _ => writes
  · exact writes

end FileFails

theorem saveWith_eq_unsupported (h : (s.saveWith codecs p).run t = .error (.unsupported q) t') :
    q = p ∧ p.snapshotForm? = none := by
  cases form : p.snapshotForm? with
  | some form =>
    obtain ⟨cause, file⟩ := FileFails.saveWith form s t _ t' h
    cases file
  | none =>
    obtain ⟨made, -, ⟨cause, file⟩ | ⟨l, -, -, refused⟩⟩ := refuses_save codecs form s t
    · cases file.symm.trans h
    · cases refused.symm.trans h
      exact ⟨rfl, rfl⟩

/-- Reading and writing refuse the same endings, and reading does so whatever files there are. Writing a snapshot with
such an ending always fails, whatever the codecs. Either a file can't be used, and then nothing has changed except that
directories which were missing may be there; or the ending is refused, and then the file is there as well and what it
held is gone: it holds what the codecs make of nothing. -/
theorem save_refused (codecs : Codecs) (s : Scenario) (p : FilePath) (t : FileTree) :
    (∀ q, loadWith codecs t p = .error (.unsupported q) ↔ q = p ∧ p.format ≠ some "bin" ∧ p.format ≠ some "json") ∧
    (∀ q t', (s.saveWith codecs p).run t = .error (.unsupported q) t' →
      q = p ∧ p.format ≠ some "bin" ∧ p.format ≠ some "json") ∧
    (p.format ≠ some "bin" → p.format ≠ some "json" → ∃ made : FileTree, Grown t made ∧
      ((∃ cause, (s.saveWith codecs p).run t = .error (.file cause) made) ∨
        ∃ l, made.locate p p.names = .ok l ∧ made.node? l ≠ some .directory ∧
          (s.saveWith codecs p).run t =
            .error (.unsupported p) (made.put l (.file (p.packWith codecs.compress []))) ∧
          (made.put l (.file (p.packWith codecs.compress []))).read p = .ok (p.packWith codecs.compress []))) := by
  refine ⟨fun q => ?_, fun q t' h => ?_, fun binary text => ?_⟩
  · rw [loadWith_eq_unsupported, FilePath.snapshotForm?_eq_none]
  · rw [← FilePath.snapshotForm?_eq_none]
    exact saveWith_eq_unsupported h
  · obtain ⟨made, grown, failed | ⟨l, way, free, refused⟩⟩ :=
      refuses_save codecs (FilePath.snapshotForm?_eq_none.2 ⟨binary, text⟩) s t
    · exact ⟨made, grown, .inl failed⟩
    · have written : (Disk.write p (p.packWith codecs.compress [])).run made =
          .ok () (made.put l (.file (p.packWith codecs.compress []))) := by
        rw [Disk.write_run, way]
        simp only
      exact ⟨made, grown, .inr ⟨l, way, free, refused, Disk.read_write written⟩⟩

/-- One link of a hundred metres. -/
def lane : Array LinkSpec := #[⟨0, 0, 1, ⟨0x42c80000⟩, ⟨0x41200000⟩, 1, 0⟩]

deriving instance DecidableEq for EStateM.Result

/-- A snapshot is refused, and there are a new directory and an empty file in it. -/
theorem save_refused_lane : ∃ s made l, build 1 .none lane #[] #[] = .ok s ∧
    load ⟨[], []⟩ ⟨"a/w.xml"⟩ = .error (.unsupported ⟨"a/w.xml"⟩) ∧ Grown ⟨[], []⟩ made ∧
    (s.save ⟨"a/w.xml"⟩).run ⟨[], []⟩ = .error (.unsupported ⟨"a/w.xml"⟩) (made.put l (.file [])) ∧
    (made.put l (.file [])).read ⟨"a/w.xml"⟩ = .ok [] := by
  have saved : ((build 1 .none lane #[] #[]).toOption.any fun s =>
      (s.save ⟨"a/w.xml"⟩).run ⟨[], []⟩ =
        .error (.unsupported ⟨"a/w.xml"⟩) ⟨[(["a"], .directory), (["a", "w.xml"], .file [])], []⟩) = true := by
    decide +kernel
  obtain ⟨s, built, saved⟩ := (Option.any_eq_true _ _).1 saved
  have saved := of_decide_eq_true saved
  have plain : (FilePath.mk "a/w.xml").packWith Codecs.standard.compress [] = [] := by decide +kernel
  have binary : (FilePath.mk "a/w.xml").format ≠ some "bin" := by decide +kernel
  have text : (FilePath.mk "a/w.xml").format ≠ some "json" := by decide +kernel
  obtain ⟨reads, -, writes⟩ := save_refused .standard s ⟨"a/w.xml"⟩ ⟨[], []⟩
  obtain ⟨made, grown, ⟨cause, failed⟩ | ⟨l, -, -, refused, read⟩⟩ := writes binary text
  · cases failed.symm.trans saved
  · rw [plain] at refused read
    exact ⟨s, made, l, eq_ok_of_toOption built, (reads _).2 ⟨rfl, binary, text⟩, grown, refused, read⟩

/-- A snapshot is refused, and there is a new file, or a file that held something is empty. -/
theorem emptied_by_save : ∃ s, build 1 .none lane #[] #[] = .ok s ∧
    (FilePath.mk "w").format = none ∧ load ⟨[], []⟩ ⟨"w"⟩ = .error (.unsupported ⟨"w"⟩) ∧
    (s.save ⟨"w"⟩).run ⟨[], []⟩ = .error (.unsupported ⟨"w"⟩) ⟨[(["w"], .file [])], []⟩ ∧
    (s.save ⟨"w"⟩).run ⟨[(["w"], .file [42])], []⟩ =
      .error (.unsupported ⟨"w"⟩) ⟨[(["w"], .file [])], []⟩ := by
  have saved : ((build 1 .none lane #[] #[]).toOption.any fun s =>
      (s.save ⟨"w"⟩).run ⟨[], []⟩ = .error (.unsupported ⟨"w"⟩) ⟨[(["w"], .file [])], []⟩ ∧
      (s.save ⟨"w"⟩).run ⟨[(["w"], .file [42])], []⟩ =
        .error (.unsupported ⟨"w"⟩) ⟨[(["w"], .file [])], []⟩) = true := by decide +kernel
  obtain ⟨s, built, saved⟩ := (Option.any_eq_true _ _).1 saved
  obtain ⟨new, old⟩ := of_decide_eq_true saved
  have unsupported : (FilePath.mk "w").format = none := by decide +kernel
  exact ⟨s, eq_ok_of_toOption built, unsupported, loadWith_eq_unsupported.2 ⟨rfl, by decide +kernel⟩, new, old⟩

end Scenario

end Mobility
