import PackageIndex.Text.Blank

/-!
# Slots

Versions of a package can be installed side by side if they are in different slots. A SLOT value is
written `slot` or `slot/sub-slot`; the sub-slot tells dependants when to be rebuilt.
-/

namespace PackageIndex

/-- A slot with its sub-slot. -/
structure Slot where
  /-- The name of the slot. -/
  name : String
  /-- The sub-slot, if there is one. -/
  sub : Option String
  deriving DecidableEq, Repr

namespace Slot

/-- The slot of a version that names none. -/
def main : Slot := ⟨"0", none⟩

/-- Reads a SLOT value: blanks around it do not count, the slot ends at the first slash, an empty
slot is `0`, and an empty sub-slot is none. -/
def parse (text : String) : Slot :=
  let text := (Text.trim text).toList
  let (name, sub) := (Text.cut '/' text).getD (text, [])
  ⟨if name.isEmpty then "0" else String.ofList name,
    if sub.isEmpty then none else some (String.ofList sub)⟩

/-- The SLOT value of a slot. -/
protected def toString (s : Slot) : String :=
  match s.sub with
  | none => s.name
  | some sub => s.name ++ "/" ++ sub

instance : ToString Slot := ⟨Slot.toString⟩

/-- The sub-slot, with an empty text for none. -/
def subText (s : Slot) : String :=
  s.sub.getD ""

/-- The slot with an empty sub-slot taken for none. -/
def normalize (s : Slot) : Slot :=
  if s.sub = some "" then { s with sub := none } else s

@[simp] theorem normalize_normalize (s : Slot) : s.normalize.normalize = s.normalize := by
  unfold normalize
  split <;> simp_all

end Slot

end PackageIndex
