import PackageIndex.Package.Releases
import PackageIndex.WordSet

/-!
# Packages

A package is a category, a name, metadata that all its versions share, and its releases.
-/

namespace PackageIndex

/-- A package of the index. -/
structure Package where
  /-- The category, such as `app-misc`. -/
  category : String
  /-- The name within the category. -/
  name : String
  /-- The DESCRIPTION value. -/
  description : String := ""
  /-- The HOMEPAGE value. -/
  homepage : String := ""
  /-- The LICENSE value. -/
  license : String := ""
  /-- The PROVIDE value. -/
  provide : String := ""
  /-- The USE flags of all versions together. -/
  useFlags : WordSet := .empty
  /-- The releases. -/
  releases : Releases := .empty
  deriving DecidableEq

namespace Package

/-- The ebuilds in ascending version order. -/
def ebuilds (p : Package) : List Ebuild :=
  p.releases.toList

/-- The name with the category in front, `category/name`. -/
def fullName (p : Package) : String :=
  p.category ++ "/" ++ p.name

/-- The package with one more ebuild. -/
def add (p : Package) (e : Ebuild) : Package :=
  { p with releases := p.releases.insert e }

/-- The package with more USE flags. -/
def addUseFlags (p : Package) (flags : List String) : Package :=
  { p with useFlags := p.useFlags.insertAll flags }

/-- The last of the ebuilds with the highest version. -/
def latest (p : Package) : Option Ebuild :=
  p.ebuilds.getLast?

/-- Whether a version is not below any that the package has. -/
def isNewest (p : Package) (v : Version) : Bool :=
  p.latest.all fun e => decide (e.version ≤ v)

/-- The slot of the first ebuild whose version is alike. -/
def slotOfVersion (p : Package) (v : Version) : Option String :=
  (p.ebuilds.find? fun e => e.version.alike v).map fun e => e.slot.name

/-- The sub-slot that all ebuilds have, if there is exactly one. -/
def commonSubslot (p : Package) : Option String :=
  match p.ebuilds with
  | [] => none
  | e :: es => if es.all fun o => o.slot.sub == e.slot.sub then e.slot.sub else none

/-- The same package, except that the versions need only be alike. -/
def same (p q : Package) : Bool :=
  { p with releases := .empty } == { q with releases := .empty } &&
    p.ebuilds.length == q.ebuilds.length &&
    (p.ebuilds.zip q.ebuilds).all fun (a, b) => a.same b

end Package

end PackageIndex
