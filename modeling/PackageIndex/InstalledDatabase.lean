import PackageIndex.Installed
import PackageIndex.Files.Basic
import PackageIndex.Version.Name

/-!
# The database of installed packages

What is installed is told by a directory tree: `root/category/name-version` for every installed
version, with the SLOT value of the version in a file of that name. Entries whose name does not end
in a valid version belong to no package.
-/

namespace PackageIndex

/-- The version of an entry of a category's directory, if it is an entry of the named package. -/
def installedVersion? (packageName entry : String) : Option Version :=
  match splitNameVersion entry with
  | some (name, version) => if name = packageName then Version.ofString? version else none
  | none => none

/-- The file that records the slot of an installed version. -/
def slotFile (root : String) (p : Package) (v : Version) : String :=
  Path.join (Path.join (Path.join root p.category) (p.name ++ "-" ++ toString v)) "SLOT"

/-- The installed versions that the directory tree below `root` tells. A directory that cannot be
read tells none, and a SLOT file that cannot be read records nothing. -/
def InstalledSource.ofDirectory (fs : FileSystem) (root : String) : InstalledSource where
  installed p :=
    match fs.list (Path.join root p.category) with
    | .error _ => []
    | .ok entries =>
      ((entries.filterMap (installedVersion? p.name)).mergeSort fun a b => decide (a ≤ b)).map
        fun version => { version }
  recordedSlot? p v :=
    match fs.text (slotFile root p v) with
    | .ok text => some (Slot.parse text)
    | .error _ => none

end PackageIndex
