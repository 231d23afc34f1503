import PackageIndex.Package.Basic

/-!
# The slots of a package

The releases of a package, grouped by slot. A group holds the places of its ebuilds among the
releases in ascending order, and groups stand in the order in which their slots first occur.
-/

namespace PackageIndex

/-- The ebuilds of one slot, by their places among the releases. -/
structure SlotGroup where
  /-- The name of the slot. -/
  slot : String
  /-- The places of its ebuilds. -/
  places : List Nat
  deriving DecidableEq, Repr

namespace SlotGroup

/-- Enters a place under its slot, as a new last group if the slot is new. -/
def enter (slot : String) (i : Nat) : List SlotGroup → List SlotGroup
  | [] => [⟨slot, [i]⟩]
  | g :: gs => if g.slot = slot then { g with places := g.places ++ [i] } :: gs
    else g :: enter slot i gs

/-- The groups of ebuilds whose first has place `i`, entered into groups of the ebuilds before. -/
def collect (gs : List SlotGroup) (i : Nat) : List Ebuild → List SlotGroup
  | [] => gs
  | e :: es => collect (enter e.slot.name i gs) (i + 1) es

/-- The places of the ebuilds in a slot, where the first ebuild has place `i`. -/
def placesFrom (slot : String) (i : Nat) : List Ebuild → List Nat
  | [] => []
  | e :: es =>
    if e.slot.name = slot then i :: placesFrom slot (i + 1) es else placesFrom slot (i + 1) es

/-- The places in the group of a slot, if it has one. -/
def placesOf? (slot : String) (gs : List SlotGroup) : Option (List Nat) :=
  (gs.find? fun g => g.slot == slot).map places

/-- Entering a place changes the group of its slot only. -/
theorem placesOf?_enter {slot s : String} {i : Nat} {gs : List SlotGroup} :
    placesOf? slot (enter s i gs) =
      if s = slot then some ((placesOf? slot gs).getD [] ++ [i]) else placesOf? slot gs := by
  induction gs with
  | nil => by_cases h : s = slot <;> simp [placesOf?, enter, h]
  | cons g gs ih =>
    simp only [placesOf?] at ih ⊢
    rw [enter]
    by_cases hg : g.slot = s
    · subst hg
      by_cases h : g.slot = slot <;> simp [h]
    · rw [if_neg hg, List.find?_cons, List.find?_cons]
      by_cases h : g.slot = slot
      · have : s ≠ slot := fun hs => hg (h.trans hs.symm)
        simp [h, this]
      · have hb : (g.slot == slot) = false := by simp [h]
        simp only [hb, ih]

/-- Collecting appends the places of the ebuilds in a slot to those already in its group. -/
theorem placesOf?_collect {slot : String} {gs : List SlotGroup} {i : Nat} {es : List Ebuild} :
    placesOf? slot (collect gs i es) =
      if placesFrom slot i es = [] then placesOf? slot gs
      else some ((placesOf? slot gs).getD [] ++ placesFrom slot i es) := by
  induction es generalizing gs i with
  | nil => rfl
  | cons e es ih =>
    rw [collect, ih, placesOf?_enter, placesFrom]
    by_cases h : e.slot.name = slot
    · by_cases hr : placesFrom slot (i + 1) es = [] <;> simp [h, hr]
    · simp [h]

end SlotGroup

namespace Package

/-- The groups of the package's releases. -/
def slotGroups (p : Package) : List SlotGroup :=
  SlotGroup.collect [] 0 p.ebuilds

/-- The places of the ebuilds in a slot, if there are any. -/
def placesIn? (p : Package) (slot : String) : Option (List Nat) :=
  match SlotGroup.placesFrom slot 0 p.ebuilds with
  | [] => none
  | places => some places

/-- The ebuilds in a slot are those of its group. -/
theorem placesIn?_eq_placesOf? (p : Package) (slot : String) :
    p.placesIn? slot = SlotGroup.placesOf? slot p.slotGroups := by
  rw [placesIn?, slotGroups, SlotGroup.placesOf?_collect]
  split
  next h => rw [if_pos h]; rfl
  next h => rw [if_neg h]; rfl

/-- Whether there are several slots, or one that is not the slot `0`. -/
def hasSlots (p : Package) : Bool :=
  p.slotGroups.length > 1 || p.slotGroups.any fun g => g.slot != "0"

/-- The slot of the ebuild at a place. -/
def slotAt (p : Package) (i : Nat) : Option String :=
  p.ebuilds[i]?.map fun e => e.slot.name

end Package

end PackageIndex
