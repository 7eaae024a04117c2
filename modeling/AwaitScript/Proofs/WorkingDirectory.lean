import AwaitScript.Command.Directory
import Mathlib

/-!
A file that has been written is read back as it was written, and all other files and folders are what they
were. Where a path leads does not change either.
-/

namespace AwaitScript.Directory

/-! ### Paths lead from folder to folder -/

section
variable {d d' : Directory} {path : Text} {here location : Location} {names : List Text}

theorem isFolder_iff : d.isFolder here ↔
    (∀ name ∈ here, name = Text.ofString ".." ∨ name = Text.ofString "/") ∨
      (∃ folder ∈ d.folders, here <+: folder) ∨ ∃ file ∈ d.files, here <+: file.1 ∧ here ≠ file.1 := by
  simp [isFolder, or_assoc]

theorem isFolder_of_isPrefix {q : Location} (h : here <+: q) (hq : d.isFolder q) : d.isFolder here := by
  rw [isFolder_iff] at hq ⊢
  rcases hq with hq | ⟨folder, hfolder, hq⟩ | ⟨file, hfile, hq, hne⟩
  · exact .inl fun name hname => hq name (h.subset hname)
  · exact .inr (.inl ⟨folder, hfolder, h.trans hq⟩)
  · refine .inr (.inr ⟨file, hfile, h.trans hq, ?_⟩)
    rintro rfl
    exact hne (hq.eq_of_length (le_antisymm hq.length_le h.length_le))

/-- A dot stays in a folder, two dots lead to a folder, and any other name leads to something in it. -/
theorem isFolder_enter (hhere : d.isFolder here) (name : Text) :
    d.isFolder (here.enter name) ∨ here.enter name = here ++ [name] := by
  unfold Location.enter
  split
  · exact .inl hhere
  split
  · next hname =>
    left
    split
    · next hdots =>
      simp only [List.all_eq_true, decide_eq_true_eq] at hdots
      rw [isFolder_iff, hname]
      refine .inl fun part hpart => .inl ?_
      rcases List.mem_append.1 hpart with hpart | hpart
      · exact hdots part hpart
      · exact List.mem_singleton.1 hpart
    split
    · exact hhere
    · exact isFolder_of_isPrefix (List.dropLast_prefix here) hhere
  · exact .inr rfl

theorem follow_cons_eq_ok {name : Text} :
    d.follow path here (name :: names) = .ok location ↔
      d.isFolder here ∧ d.follow path (here.enter name) names = .ok location := by
  rw [follow]
  split
  · simp_all
  · split <;> simp_all

theorem isFolder_follow (hhere : d.isFolder here ∨ ∃ parent name, here = parent ++ [name] ∧ d.isFolder parent)
    (h : d.follow path here names = .ok location) :
    d.isFolder location ∨ ∃ parent name, location = parent ++ [name] ∧ d.isFolder parent := by
  induction names generalizing here with
  | nil =>
    cases h
    exact hhere
  | cons name names ih =>
    obtain ⟨hfolder, h⟩ := follow_cons_eq_ok.1 h
    refine ih ?_ h
    rcases isFolder_enter hfolder name with hnext | hnext
    · exact .inl hnext
    · exact .inr ⟨here, name, hnext, hfolder⟩

theorem isFolder_resolve (h : d.resolve path = .ok location) :
    d.isFolder location ∨ ∃ parent name, location = parent ++ [name] ∧ d.isFolder parent := by
  unfold resolve at h
  split at h
  · cases h
  · refine isFolder_follow (.inl ?_) h
    rw [isFolder_iff]
    left
    split <;> simp [Location.root]

/-- A path leads to the same place in every directory with the same folders. -/
theorem follow_congr (hfolders : ∀ q, d'.isFolder q = d.isFolder q)
    (h : d.follow path here names = .ok location) : d'.follow path here names = .ok location := by
  induction names generalizing here with
  | nil => exact h
  | cons name names ih =>
    rw [follow_cons_eq_ok] at h ⊢
    exact ⟨(hfolders here).trans h.1, ih h.2⟩

theorem resolve_congr (hfolders : ∀ q, d'.isFolder q = d.isFolder q)
    (h : d.resolve path = .ok location) : d'.resolve path = .ok location := by
  unfold resolve at h ⊢
  split at h
  · cases h
  · rw [if_neg (by assumption)]
    exact follow_congr hfolders h

end

/-! ### One file is put in place -/

theorem find?_put (d : Directory) (location q : Location) (bytes : Bytes) :
    (d.put location bytes).find? q = if q = location then some bytes else d.find? q := by
  unfold put
  cases hfind : d.files.find? fun file => file.1 = location with
  | some file =>
    have hfile : file.1 = location := by simpa using List.find?_some hfind
    simp only [find?, hfind, Option.map_some, Option.isSome_some, if_true, List.find?_map,
      Function.comp_def]
    split
    · next hq => simp [hq, hfind, hfile]
    · next hq =>
      cases hother : d.files.find? fun file => file.1 = q with
      | none => rfl
      | some other =>
        have hne : other.1 ≠ location := by
          rw [show other.1 = q by simpa using List.find?_some hother]
          exact hq
        simp [hne]
  | none =>
    simp only [find?, hfind, Option.map_none, Option.isSome_none, Bool.false_eq_true, if_false,
      List.find?_append]
    split
    · next hq => simp [hq, hfind]
    · next hq => simp [Ne.symm hq]

theorem isFolder_put {d : Directory} {parent : Location} (h : d.isFolder parent) (name : Text)
    (bytes : Bytes) (q : Location) :
    (d.put (parent ++ [name]) bytes).isFolder q = d.isFolder q := by
  unfold put
  split
  · simp [isFolder, Function.comp_def]
  · rw [Bool.eq_iff_iff]
    constructor
    · intro hq
      rw [isFolder_iff] at hq
      rcases hq with hq | hq | ⟨file, hfile, hq, hne⟩
      · exact isFolder_iff.2 (.inl hq)
      · exact isFolder_iff.2 (.inr (.inl hq))
      · rcases List.mem_append.1 hfile with hfile | hfile
        · exact isFolder_iff.2 (.inr (.inr ⟨file, hfile, hq, hne⟩))
        · -- a folder on the way to the new file is one on the way to where it is put
          obtain rfl := List.mem_singleton.1 hfile
          rcases List.prefix_concat_iff.1 hq with heq | hq
          · exact absurd heq hne
          · exact isFolder_of_isPrefix hq h
    · intro hq
      rw [isFolder_iff] at hq ⊢
      rcases hq with hq | hq | ⟨file, hfile, hq⟩
      · exact .inl hq
      · exact .inr (.inl hq)
      · exact .inr (.inr ⟨file, List.mem_append_left _ hfile, hq⟩)

theorem put_put (d : Directory) (location : Location) (old bytes : Bytes) :
    (d.put location old).put location bytes = d.put location bytes := by
  have hfound : ((d.put location old).find? location).isSome := by rw [find?_put, if_pos rfl]; rfl
  rw [put, if_pos hfound]
  unfold put
  split
  · simp only [List.map_map]
    congr 1
    refine List.map_congr_left fun file _ => ?_
    by_cases hfile : file.1 = location <;> simp [hfile]
  · next hnone =>
    have hother : ∀ file ∈ d.files, file.1 ≠ location := by
      rintro ⟨_, x⟩ hfile rfl
      simp only [find?, Option.isSome_map, List.find?_isSome, not_exists, not_and] at hnone
      exact hnone _ hfile (by simp)
    have hsame : d.files.map (fun file => (file.1, if file.1 = location then bytes else file.2)) = d.files := by
      refine (List.map_congr_left fun file hfile => ?_).trans (List.map_id d.files)
      rw [if_neg (hother file hfile)]
      rfl
    simp [hsame]

theorem changes_self (d : Directory) : d.changes d = [] := by
  simp [changes]

theorem location_of_mem_changes_put {d : Directory} {location : Location} {bytes : Bytes}
    {file : Location × Bytes} (h : file ∈ d.changes (d.put location bytes)) : file.1 = location := by
  simp only [changes, List.mem_filter, Bool.not_eq_true', List.contains_eq_mem,
    decide_eq_false_iff_not] at h
  obtain ⟨hmem, hnew⟩ := h
  unfold put at hmem
  split at hmem
  · obtain ⟨old, hold, rfl⟩ := List.mem_map.1 hmem
    by_contra hne
    exact hnew (by simpa [hne] using hold)
  · rcases List.mem_append.1 hmem with hmem | hmem
    · exact absurd hmem hnew
    · rw [List.mem_singleton.1 hmem]

/-! ### A file is written -/

variable {d d' : Directory} {path : Text} {bytes : Bytes}

theorem write_eq_ok_iff : d.write path bytes = .ok d' ↔
    ∃ location, d.resolve path = .ok location ∧ d.isFolder location = false ∧
      endsInSlash path = false ∧ d.put location bytes = d' := by
  unfold write
  cases d.resolve path with
  | error e => simp [bind, Except.bind]
  | ok location =>
    simp only [bind, Except.bind, Except.ok.injEq, exists_eq_left']
    cases d.isFolder location <;> cases endsInSlash path <;> simp [throw, throwThe, MonadExceptOf.throw, pure, Except.pure]

theorem isFolder_write (h : d.write path bytes = .ok d') (q : Location) :
    d'.isFolder q = d.isFolder q := by
  obtain ⟨location, hresolve, hfile, -, rfl⟩ := write_eq_ok_iff.1 h
  rcases isFolder_resolve hresolve with hfolder | ⟨parent, name, rfl, hparent⟩
  · rw [hfile] at hfolder
    cases hfolder
  · exact isFolder_put hparent name bytes q

theorem resolve_write (h : d.write path bytes = .ok d') {q : Text} {location : Location}
    (hq : d.resolve q = .ok location) : d'.resolve q = .ok location :=
  resolve_congr (isFolder_write h) hq

theorem read_write (h : d.write path bytes = .ok d') : d'.read path = .ok bytes := by
  have hfolders := isFolder_write h
  obtain ⟨location, hresolve, hfile, hslash, rfl⟩ := write_eq_ok_iff.1 h
  rw [read, resolve_write h hresolve]
  simp [bind, Except.bind, hfolders, hfile, find?_put, hslash, pure, Except.pure]

theorem find?_write (h : d.write path bytes = .ok d') {q : Location} (hq : d.resolve path ≠ .ok q) :
    d'.find? q = d.find? q := by
  obtain ⟨location, hresolve, -, -, rfl⟩ := write_eq_ok_iff.1 h
  rw [find?_put, if_neg]
  rintro rfl
  exact hq hresolve

theorem location_of_mem_changes (h : d.write path bytes = .ok d') {file : Location × Bytes}
    (hfile : file ∈ d.changes d') : d.resolve path = .ok file.1 := by
  obtain ⟨location, hresolve, -, -, rfl⟩ := write_eq_ok_iff.1 h
  rw [location_of_mem_changes_put hfile, hresolve]

/-- Once a file can be written, it can be written again, and what was there does not matter. -/
theorem write_write {old : Bytes} (h : d.write path old = .ok d') :
    ∃ after, d'.write path bytes = .ok after ∧ d.write path bytes = .ok after := by
  have hfolders := isFolder_write h
  obtain ⟨location, hresolve, hfile, hslash, rfl⟩ := write_eq_ok_iff.1 h
  refine ⟨d.put location bytes, write_eq_ok_iff.2 ?_, write_eq_ok_iff.2 ⟨_, hresolve, hfile, hslash, rfl⟩⟩
  exact ⟨location, resolve_write h hresolve, (hfolders location).trans hfile, hslash,
    put_put d location old bytes⟩

theorem ne_nil_of_read (h : d.read path = .ok bytes) : path ≠ [] := by
  rintro rfl
  cases h

theorem ne_nil_of_write (h : d.write path bytes = .ok d') : path ≠ [] := by
  rintro rfl
  cases h

end AwaitScript.Directory
