import Mobility.FileTree

/-!
# Reading what was written

A file which was written is there with its content, and the way to it is the same as before (`Disk.read_write`): the
directories on the way aren't the file.
-/

set_option autoImplicit false

namespace Mobility

namespace FileTree

variable {t : FileTree} {l l' next : Location} {node : Node}

/-- What is put at a location is listed there, and nothing changes elsewhere. -/
theorem find?_put : ((t.put l node).nodes.find? fun n => n.1 = l').map (·.2) =
    if l' = l then some node else (t.nodes.find? fun n => n.1 = l').map (·.2) := by
  have replaced : ∀ nodes : List (Location × Node),
      ((nodes.map fun n => if n.1 = l then (l, node) else n).find? fun n => n.1 = l').map (·.2) =
        if l' = l then (nodes.find? fun n => n.1 = l).map fun _ => node
        else (nodes.find? fun n => n.1 = l').map (·.2) := by
    intro nodes
    induction nodes with
    | nil => split <;> rfl
    | cons n rest ih =>
      rw [List.map_cons, List.find?_cons, List.find?_cons, List.find?_cons]
      by_cases there : n.1 = l
      · by_cases asked : l' = l
        · simp [there, asked]
        · simpa [there, asked, Ne.symm asked] using ih
      · by_cases asked : l' = l
        · subst asked
          simpa [there] using ih
        · by_cases other : n.1 = l' <;> simp [there, asked, other] at ih ⊢
          exact ih
  unfold put
  split
  · rename_i known
    obtain ⟨n, hn, same⟩ := List.any_eq_true.1 known
    have found : (t.nodes.find? fun n => n.1 = l).isSome = true := List.find?_isSome.2 ⟨n, hn, same⟩
    obtain ⟨m, hm⟩ := Option.isSome_iff_exists.1 found
    rw [replaced, hm]
    rfl
  · rename_i unknown
    have absent : t.nodes.find? (fun n => n.1 = l) = none := by
      rw [List.find?_eq_none]
      intro n hn same
      exact unknown (List.any_eq_true.2 ⟨n, hn, same⟩)
    rw [List.find?_append]
    by_cases asked : l' = l
    · subst asked
      simp [absent]
    · simp [asked, Ne.symm asked]

theorem node?_put (inside : l ≠ []) : (t.put l node).node? l' = if l' = l then some node else t.node? l' := by
  unfold node?
  rw [find?_put]
  by_cases root : l' = []
  · subst root
    simp [Ne.symm inside]
  · simp [root]

@[simp] theorem here_put : (t.put l node).here = t.here := by
  unfold put
  split <;> rfl

/-- A way leads on as before if no directory is replaced. -/
theorem enter_put (inside : l ≠ []) (free : t.node? l ≠ some .directory) {name : String}
    (h : t.enter l' name = .ok next) : (t.put l node).enter l' name = .ok next := by
  have other : l' ≠ l := by
    rintro rfl
    unfold enter at h
    split at h
    · cases h
    · cases h
    · rename_i directory
      exact free directory
  have same : (t.put l node).node? l' = t.node? l' := by
    rw [node?_put inside, if_neg other]
  unfold enter
  rw [same]
  exact h

theorem locate_put (inside : l ≠ []) (free : t.node? l ≠ some .directory) {p : FilePath} {names : List String}
    (h : t.locate p names = .ok next) : (t.put l node).locate p names = .ok next := by
  have along : ∀ (names : List String) (from' : Location), names.foldlM t.enter from' = .ok next →
      names.foldlM (t.put l node).enter from' = .ok next := by
    intro names
    induction names with
    | nil =>
      intro from' h
      exact h
    | cons name rest ih =>
      intro from' h
      rw [List.foldlM_cons] at h ⊢
      cases step : t.enter from' name with
      | error e =>
        rw [step] at h
        cases h
      | ok l' =>
        rw [step] at h
        rw [enter_put inside free step]
        exact ih l' h
  unfold locate at h ⊢
  rw [here_put]
  split at h
  · cases h
  split at h
  · cases h
  split at h
  · cases h
  rename_i text usable short
  rw [if_neg text, if_neg usable, if_neg short]
  exact along names _ h

end FileTree

namespace Disk

open FileTree

variable {t t' : FileTree} {p : FilePath} {content : List UInt8}

/-- Writing puts a file where its path leads, unless a directory is there. -/
theorem write_run (p : FilePath) (content : List UInt8) (t : FileTree) : (write p content).run t =
    match t.locate p p.names with
    | .error e => .error e t
    | .ok l => match t.node? l with
      | some .directory => .error .isDirectory t
      | _ => .ok () (t.put l (.file content)) := by
  have looked : (write p content).run t =
      match t.locate p p.names with
      | .error e => .error e t
      | .ok l => (match t.node? l with
        | some .directory => throw FileError.isDirectory
        | _ => modify fun t => t.put l (.file content) : Disk Unit).run t := by
    unfold write look
    cases way : t.locate p p.names <;> simp only [EStateM.run_bind, EStateM.run_get, way] <;> rfl
  rw [looked]
  cases t.locate p p.names with
  | error e => rfl
  | ok l =>
    cases there : t.node? l with
    | none => simp only [there]; rfl
    | some node => cases node <;> simp only [there] <;> rfl

theorem write_eq_ok (h : (write p content).run t = .ok () t') :
    ∃ l, t.locate p p.names = .ok l ∧ t.node? l ≠ some .directory ∧ t' = t.put l (.file content) := by
  rw [write_run] at h
  split at h
  · cases h
  · rename_i l way
    split at h
    · cases h
    · rename_i free
      cases h
      exact ⟨l, way, free, rfl⟩

/-- A file which was written is read with its content. -/
theorem read_write (h : (write p content).run t = .ok () t') : t'.read p = .ok content := by
  obtain ⟨l, way, free, rfl⟩ := write_eq_ok h
  have inside : l ≠ [] := by
    rintro rfl
    exact free rfl
  unfold FileTree.read
  rw [locate_put inside free way]
  simp only [bind, Except.bind]
  rw [node?_put inside, if_pos rfl]

end Disk

end Mobility
