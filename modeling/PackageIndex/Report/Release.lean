import PackageIndex.Ebuild
import PackageIndex.Report.Json

/-!
# Reports on releases

What the commands tell about one ebuild: its version, its slot, and the layer that it comes from.
-/

namespace PackageIndex

/-- What is told about an ebuild. -/
structure ReleaseReport where
  /-- The version. -/
  version : String
  /-- The slot with its sub-slot. -/
  slot : String
  /-- The name of the layer, or its key if it has no name. -/
  overlay : String
  deriving DecidableEq, Repr

namespace ReleaseReport

/-- What is told about an ebuild, given the names of the layers in the order of their keys. -/
def ofEbuild (overlays : List String) (e : Ebuild) : ReleaseReport where
  version := toString e.version
  slot := toString e.slot
  overlay := overlays[e.overlay.toNat]?.getD (toString e.overlay)

/-- The report in JSON. -/
def toJson (r : ReleaseReport) : Json :=
  .object [("version", .text r.version), ("slot", .text r.slot), ("overlay", .text r.overlay)]

end ReleaseReport

end PackageIndex
