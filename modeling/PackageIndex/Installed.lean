import PackageIndex.Package.Basic

/-!
# Installed versions

What the advice about a package needs to know of the system: which versions of it are installed, in
which slot each was installed if that was recorded, and whether the package may move to another
slot.
-/

namespace PackageIndex

/-- An installed version of a package. Slot and sub-slot are known or unknown each on its own. -/
structure Installed where
  /-- The version. -/
  version : Version
  /-- The name of the slot, once it is known. -/
  slotName : Option String := none
  /-- The sub-slot, if one is known. -/
  sub : Option String := none
  deriving DecidableEq, Repr

namespace Installed

/-- Whether the slot is known. -/
def knowsSlot (i : Installed) : Bool :=
  i.slotName.isSome

/-- The slot with its sub-slot, once the slot is known. -/
def slot (i : Installed) : Option Slot :=
  i.slotName.map fun name => ⟨name, i.sub⟩

/-- The installed version in a slot. -/
def inSlot (i : Installed) (s : Slot) : Installed :=
  { i with slotName := some s.name, sub := s.sub }

/-- The installed version in the slot that a SLOT value names. -/
def withSlot (i : Installed) (fullSlot : String) : Installed :=
  i.inSlot (Slot.parse fullSlot)

/-! ## Laws -/

@[simp] theorem slot_inSlot (i : Installed) (s : Slot) : (i.inSlot s).slot = some s := rfl

@[simp] theorem version_inSlot (i : Installed) (s : Slot) : (i.inSlot s).version = i.version := rfl

@[simp] theorem slot_withSlot (i : Installed) (fullSlot : String) :
    (i.withSlot fullSlot).slot = some (Slot.parse fullSlot) :=
  i.slot_inSlot (Slot.parse fullSlot)

theorem inSlot_inj {i : Installed} {s t : Slot} : i.inSlot s = i.inSlot t ↔ s = t := by
  constructor
  · intro h
    have hslot := congrArg slot h
    rw [slot_inSlot, slot_inSlot] at hslot
    exact Option.some.inj hslot
  · exact congrArg i.inSlot

theorem inSlot_of_slot {i : Installed} {s : Slot} (h : i.slot = some s) : i.inSlot s = i := by
  obtain ⟨version, slotName, sub⟩ := i
  obtain ⟨name, rfl, rfl⟩ := Option.map_eq_some_iff.1 h
  rfl

theorem knowsSlot_iff {i : Installed} : i.knowsSlot = true ↔ ∃ s, i.slot = some s := by
  rw [knowsSlot, ← Option.isSome_map, ← slot, Option.isSome_iff_exists]

end Installed

/-- A source of installed versions. -/
structure InstalledSource where
  /-- The installed versions of a package in ascending order. -/
  installed : Package → List Installed
  /-- The slot that was recorded when a version of a package was installed. -/
  recordedSlot? : Package → Version → Option Slot

/-- Whether a package may be upgraded into another slot. -/
abbrev SlotPolicy := Package → Bool

namespace SlotPolicy

/-- The same answer for all packages. -/
def always (answer : Bool) : SlotPolicy :=
  fun _ => answer

/-- One answer for the packages with the given full names, the opposite for all others. -/
def withExceptions (default : Bool) (exceptions : List String) : SlotPolicy :=
  fun p => default != exceptions.contains p.fullName

end SlotPolicy

end PackageIndex
