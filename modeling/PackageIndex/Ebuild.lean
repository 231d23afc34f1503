import PackageIndex.Version.Order
import PackageIndex.Slot
import PackageIndex.Keywords
import PackageIndex.Flags
import PackageIndex.Dependencies

/-!
# Ebuilds

An ebuild is one version of a package that a repository offers, with what the index keeps about it.
-/

namespace PackageIndex

/-- The number of a repository layer within one index. -/
abbrev OverlayKey := UInt32

/-- One available version of a package. -/
structure Ebuild where
  /-- The version. -/
  version : Version
  /-- The EAPI value. -/
  eapi : String := ""
  /-- The slot and sub-slot. -/
  slot : Slot := Slot.main
  /-- The layer that the ebuild comes from. -/
  overlay : OverlayKey := 0
  /-- The stability on the indexed architecture. -/
  stability : Stability := .absent
  /-- The reasons for which the version is masked. -/
  mask : FlagSet := .empty
  /-- The flags of RESTRICT. -/
  restrict : FlagSet := .empty
  /-- The flags of PROPERTIES. -/
  properties : FlagSet := .empty
  /-- The USE flags, without their defaults. -/
  iuse : List String := []
  /-- The dependencies, if they are kept. -/
  depend : Option Dependencies := none
  deriving DecidableEq, Repr

namespace Ebuild

/-- Masked ebuilds are never selected, whatever the reason. -/
def isMasked (e : Ebuild) : Bool :=
  !e.mask.isEmpty

/-- The ebuild in the slot that a SLOT value names. -/
def withSlot (e : Ebuild) (fullSlot : String) : Ebuild :=
  { e with slot := Slot.parse fullSlot }

/-- The form in which a package keeps an ebuild: no empty sub-slot, dependencies collapsed. -/
def normalize (e : Ebuild) : Ebuild :=
  { e with slot := e.slot.normalize, depend := Dependencies.normalize e.depend }

@[simp] theorem normalize_normalize (e : Ebuild) : e.normalize.normalize = e.normalize := by
  simp [normalize]

@[simp] theorem version_normalize (e : Ebuild) : e.normalize.version = e.version := rfl

/-- The same ebuild, except that the versions need only be alike. -/
def same (a b : Ebuild) : Bool :=
  a.version.alike b.version && { a with version := b.version } == b

end Ebuild

end PackageIndex
