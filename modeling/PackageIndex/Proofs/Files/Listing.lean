import Mathlib.Data.List.Nodup
import PackageIndex.Files.Basic

/-!
# What a directory lists

The names that a directory lists are distinct, since each stands for another location.
-/

namespace PackageIndex

theorem EntryName.text_injective : Function.Injective EntryName.text := by
  intro m n h
  cases m
  cases n
  cases h
  rfl

namespace FileSystem

variable {fs : FileSystem} {dir : Location} {path : String} {names : List String}

theorem nodup_childrenOf : (fs.childrenOf dir).Nodup := by
  have hmap : fs.childrenOf dir = (fs.entries.map Prod.fst).filterMap dir.nameIn? := by
    unfold childrenOf
    rw [List.filterMap_map]
    rfl
  rw [hmap]
  refine fs.distinct.filterMap fun l l' name h h' => ?_
  rw [Location.nameIn?_eq_some_iff.1 h, Location.nameIn?_eq_some_iff.1 h']

theorem nodup_of_list (h : fs.list path = .ok names) : names.Nodup := by
  unfold list at h
  cases hl : fs.locate path with
  | error fault =>
    rw [hl] at h
    cases h
  | ok loc =>
    rw [hl] at h
    dsimp only [bind, Except.bind] at h
    split at h
    · cases h
      exact nodup_childrenOf.map EntryName.text_injective
    · cases h
    · cases h

/-- The files with one more at a path; the directory that it is in is made if it is missing. -/
def withFile (fs : FileSystem) (path : String) (content : List UInt8) : FileSystem :=
  ((fs.makeDirectories (Path.directoryOf path)).2.replaceFile path content 0).toOption.getD fs

end FileSystem

end PackageIndex
