import PackageIndex.Advice.Upgrade

/-!
# Packages that remember their slots

The groups of the slots of a package, and the sub-slot that its ebuilds share, are worked out when
they are first asked for, each on its own, and are then kept with the package. A copy of the package
has what the package has kept. Another ebuild makes the package forget both.
-/

namespace PackageIndex

/-- A package with what it has kept about its slots. -/
structure MemoPackage where
  /-- The package. -/
  package : Package
  /-- The groups of the slots, once they have been worked out. -/
  groups? : Option (List SlotGroup) := none
  /-- The sub-slot that all ebuilds have, once it has been worked out; there may be none. -/
  subslot? : Option (Option String) := none
  deriving DecidableEq

namespace MemoPackage

/-- A package without ebuilds, of which nothing has been asked. -/
def new (category name : String) : MemoPackage where
  package := { category, name }

/-- The package with one more ebuild. Nothing is kept. -/
def add (m : MemoPackage) (e : Ebuild) : MemoPackage where
  package := m.package.add e

/-- The package itself. -/
def current : StateM MemoPackage Package := fun m =>
  (m.package, m)

/-- The groups of the slots: those that were kept, or else those that are worked out now. -/
def slotGroups : StateM MemoPackage (List SlotGroup) := fun m =>
  match m.groups? with
  | some groups => (groups, m)
  | none => (m.package.slotGroups, { m with groups? := some m.package.slotGroups })

/-- The sub-slot that all ebuilds have: the one that was kept, or else worked out now. -/
def commonSubslot : StateM MemoPackage (Option String) := fun m =>
  match m.subslot? with
  | some sub => (sub, m)
  | none => (m.package.commonSubslot, { m with subslot? := some m.package.commonSubslot })

/-- Whether there are several slots, or one that is not the slot `0`. -/
def hasSlots : StateM MemoPackage Bool := do
  let groups ← slotGroups
  return groups.length > 1 || groups.any fun g => g.slot != "0"

/-- The best ebuild in a slot. -/
def bestIn (slot : String) (unstable : Bool) : StateM MemoPackage (Option Ebuild) := do
  let groups ← slotGroups
  let p ← current
  return ((SlotGroup.placesOf? slot groups).bind (p.bestAmong unstable)).bind fun i => p.ebuilds[i]?

/-- The best ebuild of every slot that has one, in the order of the slots. -/
def bestOfSlots (unstable : Bool) : StateM MemoPackage (List Ebuild) := do
  let groups ← slotGroups
  let p ← current
  return groups.filterMap fun g => (p.bestAmong unstable g.places).bind fun i => p.ebuilds[i]?

/-- The slot of a package all of whose ebuilds are in one slot, with the sub-slot they share. The
sub-slot is asked for only if there is one slot. -/
def onlySlot? : StateM MemoPackage (Option Slot) := do
  match ← slotGroups with
  | [g] =>
    let sub ← commonSubslot
    return some ⟨g.slot, sub⟩
  | _ => return none

/-- The slot that a source tells of an installed version: the one recorded there, or that of the
first ebuild with the version, and then the sub-slot stays. -/
def slotFromSource? (p : Package) (source : Option InstalledSource) (i : Installed) :
    Option Slot :=
  source.bind fun source =>
    match source.recordedSlot? p i.version with
    | some slot => some slot
    | none => (p.slotOfVersion i.version).map fun slot => ⟨slot, i.sub⟩

/-- The slot of an installed version. The groups are asked for only if the slot is not known and no
source tells it. -/
def resolveSlot? (source : Option InstalledSource) (i : Installed) :
    StateM MemoPackage (Option Slot) := do
  match i.slot with
  | some slot => return some slot
  | none =>
    let p ← current
    match slotFromSource? p source i with
    | some slot => return some slot
    | none => onlySlot?

/-- The installed version with its slot, and whether the slot could be told; if it could not, the
slot that the forced SLOT value names is taken, if one is given. -/
def guessSlot (source : Option InstalledSource) (forced : Option String) (i : Installed) :
    StateM MemoPackage (Bool × Installed) := do
  match ← resolveSlot? source i with
  | some slot => return (true, i.inSlot slot)
  | none =>
    match forced with
    | some fullSlot => return (false, i.withSlot fullSlot)
    | none => return (false, i)

end MemoPackage

end PackageIndex
