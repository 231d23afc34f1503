import PackageIndex.Advice.Verdict
import PackageIndex.Tree.Basic

/-!
# Changes between trees

What has changed from an older to a newer tree: packages that were added or removed, and packages
whose best versions differ. The packages of the newer tree come first, in its order, then those that
only the older tree has.
-/

namespace PackageIndex

/-- What has happened to a package. -/
inductive ChangeKind where
  /-- Only the newer tree has the package. -/
  | added
  /-- Only the older tree has the package. -/
  | removed
  /-- The best versions compare as stated, the newer tree against the older. -/
  | compared (verdict : Verdict)
  deriving DecidableEq, Repr

/-- The word for a change. -/
def ChangeKind.label : ChangeKind → String
  | added => "added"
  | removed => "removed"
  | compared verdict => verdict.label

/-- A change of one package. -/
structure Change where
  /-- The full name of the package. -/
  name : String
  /-- What has happened. -/
  kind : ChangeKind
  /-- The best stable version in the older tree. -/
  old : Option Version
  /-- The best stable version in the newer tree. -/
  new : Option Version
  deriving DecidableEq, Repr

/-- The best stable version of a package. -/
def Package.bestVersion (p : Package) : Option Version :=
  (p.best false).map Ebuild.version

namespace Change

/-- The change of a package of the newer tree, if there is one. -/
def ofNew? (old : Tree) (slots : Bool) (p : Package) : Option Change :=
  match old.find? p.category p.name with
  | none => some ⟨p.fullName, .added, none, p.bestVersion⟩
  | some before =>
    let verdict := if slots then p.compareSlots before else p.compareBest before false
    if verdict = .equal then none
    else some ⟨p.fullName, .compared verdict, before.bestVersion, p.bestVersion⟩

/-- The change of a package of the older tree, if only that has it. -/
def ofOld? (new : Tree) (p : Package) : Option Change :=
  match new.find? p.category p.name with
  | none => some ⟨p.fullName, .removed, p.bestVersion, none⟩
  | some _ => none

end Change

/-- The changes from an older to a newer tree; with slots, the best versions are compared slot by
slot. -/
def Tree.changes (old new : Tree) (slots : Bool) : List Change :=
  new.packages.filterMap (Change.ofNew? old slots) ++ old.packages.filterMap (Change.ofOld? new)

end PackageIndex
