import PackageIndex.Package.Slots

/-!
# The best version

A version is eligible if it is not masked and is stable, or unstable where that is accepted. The
best version of a package, or of one of its slots, is the last eligible one of its releases: no
eligible version is higher, and of versions that are alike the one added last is taken.
-/

namespace PackageIndex

/-- Whether an ebuild may be selected. -/
def Ebuild.eligible (unstable : Bool) (e : Ebuild) : Bool :=
  !e.isMasked && (e.stability == .stable || unstable && e.stability == .unstable)

namespace Package

/-- Whether there is an eligible ebuild at a place. -/
def eligibleAt (p : Package) (unstable : Bool) (i : Nat) : Bool :=
  p.ebuilds[i]?.any (Ebuild.eligible unstable)

/-- The last of the given places that has an eligible ebuild. -/
def bestAmong (p : Package) (unstable : Bool) (places : List Nat) : Option Nat :=
  places.reverse.find? (p.eligibleAt unstable)

/-- The place of the best ebuild. -/
def bestPlace (p : Package) (unstable : Bool) : Option Nat :=
  p.bestAmong unstable (List.range p.ebuilds.length)

/-- The place of the best ebuild in a slot. -/
def bestPlaceIn (p : Package) (slot : String) (unstable : Bool) : Option Nat :=
  (p.placesIn? slot).bind (p.bestAmong unstable)

/-- The best ebuild. -/
def best (p : Package) (unstable : Bool) : Option Ebuild :=
  (p.bestPlace unstable).bind fun i => p.ebuilds[i]?

/-- The best ebuild in a slot. -/
def bestIn (p : Package) (slot : String) (unstable : Bool) : Option Ebuild :=
  (p.bestPlaceIn slot unstable).bind fun i => p.ebuilds[i]?

/-- The best ebuild of every slot that has one, in the order of the slots. -/
def bestOfSlots (p : Package) (unstable : Bool) : List Ebuild :=
  p.slotGroups.filterMap fun g => (p.bestAmong unstable g.places).bind fun i => p.ebuilds[i]?

end Package

end PackageIndex
