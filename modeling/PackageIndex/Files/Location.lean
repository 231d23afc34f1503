import PackageIndex.Files.Path

/-!
# Locations

Where a file or directory is, whatever path led there. A location is reached from a starting
directory by names alone; the way up is taken off while a path is followed. So two locations are
equal iff they are the same place, as far as that can be told: what the directories above the
working directory are called is not known.
-/

namespace PackageIndex

/-- A directory from which names lead on. -/
inductive Origin where
  /-- The root of all directories. -/
  | root
  /-- The directory so many levels above the working directory. -/
  | above (levels : Nat)
  deriving DecidableEq, Repr

/-- Where a file or directory is. The depth comes first, since that is what tells most locations
apart. -/
structure Location where
  /-- The number of names. -/
  depth : Nat
  /-- Where the names start. -/
  origin : Origin
  /-- The names that lead there, the last one first. -/
  names : List EntryName
  /-- The depth is that of the names. -/
  length_names : names.length = depth
  deriving DecidableEq

namespace Location

/-- The directory from which names lead on, as a location. -/
def ofOrigin (origin : Origin) : Location := ⟨0, origin, [], rfl⟩

/-- The working directory. -/
def here : Location := ofOrigin (.above 0)

/-- The root of all directories. -/
def root : Location := ofOrigin .root

/-- Whether no names lead to the location, so that it is a directory that is always there. -/
def isOrigin (loc : Location) : Bool :=
  loc.names.isEmpty

/-- The location of something in a directory. -/
def child (dir : Location) (name : EntryName) : Location :=
  ⟨dir.depth + 1, dir.origin, name :: dir.names, by simp [dir.length_names]⟩

/-- The directory that a location is in. The root is in itself. -/
def parent (loc : Location) : Location :=
  match loc with
  | ⟨depth, origin, _ :: names, h⟩ => ⟨depth - 1, origin, names, by simp [← h]⟩
  | ⟨_, .above levels, [], _⟩ => ofOrigin (.above (levels + 1))
  | ⟨_, .root, [], _⟩ => root

/-- The name of something, if it is in the given directory. -/
def nameIn? (dir loc : Location) : Option EntryName :=
  match loc.names with
  | name :: _ => if dir.child name = loc then some name else none
  | [] => none

/-! ## Laws -/

@[simp] theorem isOrigin_child (dir : Location) (name : EntryName) :
    (dir.child name).isOrigin = false := rfl

/-- What is in a directory is there under its name. -/
theorem nameIn?_eq_some_iff {dir loc : Location} {name : EntryName} :
    dir.nameIn? loc = some name ↔ loc = dir.child name := by
  constructor
  · intro h
    rw [nameIn?] at h
    split at h
    next m ns hm =>
      split at h
      next hc =>
        obtain rfl := Option.some.inj h
        exact hc.symm
      next => cases h
    next => cases h
  · rintro rfl
    simp [nameIn?, child]

end Location

end PackageIndex
