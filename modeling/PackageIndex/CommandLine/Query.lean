import PackageIndex.Advice.Changes
import PackageIndex.CommandLine.Command
import PackageIndex.InstalledDatabase
import PackageIndex.Report.Release
import PackageIndex.Text.Lowercase

/-!
# Queries

What the commands that only read a database answer, before it is put into words.
-/

namespace PackageIndex

/-! ## Searching -/

/-- A package that was found. -/
structure SearchHit where
  /-- The full name. -/
  name : String
  /-- The description, where descriptions were searched. -/
  description : String
  /-- The homepage, where descriptions were searched. -/
  homepage : String
  deriving DecidableEq, Repr

namespace SearchHit

/-- Whether a text contains another, which is in lower case, in any case. -/
def containsLower (needle text : String) : Bool :=
  Text.occursIn needle.toList (Text.lower text).toList

/-- The hit that a package is, if it is one. -/
def ofPackage? (needle : String) (descriptions : Bool) (p : Package) : Option SearchHit :=
  if containsLower needle p.fullName || (descriptions && containsLower needle p.description) then
    some ⟨p.fullName, p.description, p.homepage⟩
  else none

/-- The packages of a database whose name, or description where those count, contains a text. -/
def search (fs : FileSystem) (database pattern : String) (descriptions : Bool) :
    Except Error (List SearchHit) := do
  let cursor ← Database.openCursor fs database (if descriptions then .metadata else .names)
  let packages ← cursor.packages
  return packages.filterMap (ofPackage? (Text.lower pattern) descriptions)

end SearchHit

/-- Whether a package is meant: a text with a slash means one package, another text all packages of
that name. -/
def Package.isNamedBy (p : Package) (atom : String) : Bool :=
  match Text.cut '/' atom.toList with
  | some (category, name) =>
    p.category == String.ofList category && p.name == String.ofList name
  | none => p.name == atom

/-! ## Best versions -/

/-- The best versions of a package. -/
structure BestReport where
  /-- The full name. -/
  name : String
  /-- The best release. -/
  best : Option ReleaseReport
  /-- The best release of every slot that has one. -/
  slots : List ReleaseReport
  deriving DecidableEq, Repr

namespace BestReport

/-- The best versions of a package. -/
def ofPackage (overlays : List String) (unstable : Bool) (p : Package) : BestReport where
  name := p.fullName
  best := (p.best unstable).map (.ofEbuild overlays)
  slots := (p.bestOfSlots unstable).map (.ofEbuild overlays)

/-- The best versions of the packages of a database that a text means. -/
def query (fs : FileSystem) (database atom : String) (unstable : Bool) :
    Except Error (List BestReport) := do
  let cursor ← Database.openCursor fs database .full
  let packages ← cursor.packages
  return (packages.filter fun p => p.isNamedBy atom).map
    (ofPackage cursor.header.overlayNames unstable)

end BestReport

/-! ## Upgrades -/

/-- The upgrades of a package. -/
structure UpgradeReport where
  /-- The full name. -/
  name : String
  /-- How what is installed stands to the best stable versions. -/
  status : Verdict
  /-- The releases worth installing. -/
  candidates : List ReleaseReport
  deriving DecidableEq, Repr

namespace UpgradeReport

/-- The upgrades of a package, if there are any. -/
def ofPackage? (overlays : List String) (source : InstalledSource) (policy : SlotPolicy)
    (unstable : Bool) (p : Package) : Option UpgradeReport :=
  let candidates := p.upgrades source policy unstable
  if candidates.isEmpty then none
  else some ⟨p.fullName, p.checkSlots (some source) true,
    candidates.map (.ofEbuild overlays)⟩

/-- The upgrades of the packages of a database, or of those that a text means. -/
def query (fs : FileSystem) (atom : Option String) (database installed : String)
    (unstable slots : Bool) : Except Error (List UpgradeReport) := do
  let cursor ← Database.openCursor fs database .full
  let packages ← cursor.packages
  let source := InstalledSource.ofDirectory fs installed
  let policy := SlotPolicy.withExceptions slots []
  return (packages.filter fun p => atom.all p.isNamedBy).filterMap
    (ofPackage? cursor.header.overlayNames source policy unstable)

end UpgradeReport

end PackageIndex
