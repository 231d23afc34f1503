import PackageIndex.Error

/-!
# Attempts

A repository is read into a tree piece by piece. If that fails, the pieces read before stay in the
tree, so the outcome is a value together with the error, if there is one.
-/

namespace PackageIndex

/-- A value as far as it was built, and what stopped the building. -/
structure Attempt (α : Type) where
  /-- The value. -/
  value : α
  /-- The error, unless the building came to its end. -/
  error? : Option Error := none
  deriving DecidableEq

namespace Attempt

variable {α β : Type}

/-- Builds on with each member of a list, up to the first failure. -/
def each (step : α → β → Attempt α) (a : α) : List β → Attempt α
  | [] => { value := a }
  | b :: bs =>
    match step a b with
    | ⟨a, none⟩ => each step a bs
    | stopped => stopped

/-- The value if nothing stopped the building. -/
def toExcept (a : Attempt α) : Except Error α :=
  match a.error? with
  | none => .ok a.value
  | some e => .error e

end Attempt

end PackageIndex
