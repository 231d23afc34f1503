import PackageIndex.Advice.Best
import PackageIndex.Installed

/-!
# Upgrades

Which ebuilds are worth installing over what is installed. Every installed version contributes the
best ebuild of its slot. The best ebuild of all is added if the slot of some installed version
cannot be told, or if the package may move to another slot. What is installed already is left out.
-/

namespace PackageIndex.Package

/-- The slot of a package all of whose ebuilds are in one slot, with the sub-slot they share. -/
def onlySlot? (p : Package) : Option Slot :=
  match p.slotGroups with
  | [g] => some ⟨g.slot, p.commonSubslot⟩
  | _ => none

/-- The slot of an installed version. It is, in this order, the one already known; the one recorded
in the source, if there is a source; the slot of the first ebuild with the version, again only if
there is a source, and then the sub-slot stays; the only slot of the package. -/
def resolveSlot? (p : Package) (source : Option InstalledSource) (i : Installed) : Option Slot :=
  match i.slot with
  | some slot => some slot
  | none =>
    match source with
    | none => p.onlySlot?
    | some source =>
      match source.recordedSlot? p i.version with
      | some slot => some slot
      | none =>
        match p.slotOfVersion i.version with
        | some slot => some ⟨slot, i.sub⟩
        | none => p.onlySlot?

theorem resolveSlot?_of_slot {p : Package} {i : Installed} {slot : Slot} (h : i.slot = some slot)
    (source : Option InstalledSource) : p.resolveSlot? source i = some slot := by
  unfold resolveSlot?
  rw [h]

/-- The installed version with its slot, and whether the slot could be told; if it could not, the
slot that the forced SLOT value names is taken, if one is given. -/
def guessSlot (p : Package) (source : Option InstalledSource) (forced : Option String)
    (i : Installed) : Bool × Installed :=
  match p.resolveSlot? source i with
  | some slot => (true, i.inSlot slot)
  | none =>
    match forced with
    | some fullSlot => (false, i.withSlot fullSlot)
    | none => (false, i)

/-- The place of the best ebuild in the slot of an installed version, unless it has the version. -/
def upgradeFor (p : Package) (source : InstalledSource) (unstable : Bool) (i : Installed) :
    Option Nat := do
  let slot ← p.resolveSlot? (some source) i
  let place ← p.bestPlaceIn slot.name unstable
  let e ← p.ebuilds[place]?
  if e.version.alike i.version then none else some place

/-- Whether the best ebuild of all is a candidate. -/
def wantsBest (p : Package) (source : InstalledSource) (policy : SlotPolicy)
    (installed : List Installed) : Bool :=
  installed.any (fun i => (p.resolveSlot? (some source) i).isNone) || policy p

/-- The places of the candidates, before what is installed is left out. -/
def candidates (p : Package) (source : InstalledSource) (policy : SlotPolicy) (unstable : Bool)
    (installed : List Installed) : List Nat :=
  installed.filterMap (p.upgradeFor source unstable) ++
    if p.wantsBest source policy installed then (p.bestPlace unstable).toList else []

/-- Whether a version like that of the ebuild at a place is installed. -/
def installedAt (p : Package) (installed : List Installed) (place : Nat) : Bool :=
  p.ebuilds[place]?.any fun e => installed.any fun i => i.version.alike e.version

/-- The places of the ebuilds worth installing over what is installed, in ascending order. -/
def upgradePlaces (p : Package) (source : InstalledSource) (policy : SlotPolicy)
    (unstable : Bool) : List Nat :=
  let installed := source.installed p
  if installed.isEmpty then []
  else
    let places := p.candidates source policy unstable installed
    (List.range p.ebuilds.length).filter fun place =>
      places.contains place && !p.installedAt installed place

/-- The ebuilds worth installing over what is installed, in ascending order. -/
def upgrades (p : Package) (source : InstalledSource) (policy : SlotPolicy) (unstable : Bool) :
    List Ebuild :=
  (p.upgradePlaces source policy unstable).filterMap (p.ebuilds[·]?)

/-- Whether the best ebuild in the slot of an installed version is at the given place. -/
def isUpgradeFor (p : Package) (source : InstalledSource) (unstable : Bool) (place : Option Nat)
    (i : Installed) : Bool :=
  match p.resolveSlot? (some source) i with
  | none => false
  | some slot => (p.bestPlaceIn slot.name unstable).any fun best => place == some best

/-- Whether the ebuild at a place is a target of upgrades. An ebuild without a place among the
package's own is none. Unless slots count, only the best ebuild of all is a target. -/
def isUpgrade (p : Package) (slotsCount : Bool) (place : Option Nat) (source : InstalledSource)
    (policy : SlotPolicy) (unstable : Bool) : Bool :=
  let installed := source.installed p
  let isBest := (p.bestPlace unstable).any fun best => place == some best
  if slotsCount then
    installed.any (p.isUpgradeFor source unstable place) ||
      (p.wantsBest source policy installed && isBest)
  else isBest

end PackageIndex.Package
