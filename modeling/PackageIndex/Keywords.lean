import PackageIndex.Text.Blank

/-!
# Keywords

A KEYWORDS value says for which architectures a version is known to work. For one architecture the
value comes down to a stability, and the strongest word decides, wherever it stands.
-/

namespace PackageIndex

/-- How far a version is trusted on one architecture. -/
inductive Stability where
  | stable
  | unstable
  /-- The version has no keyword for the architecture. -/
  | absent
  deriving DecidableEq, Repr, Inhabited

namespace Stability

/-- The number that stands for a stability in a database. -/
def code : Stability → UInt64
  | absent => 0
  | stable => 1
  | unstable => 2

/-- The stability with the given number. -/
def ofCode? (n : UInt64) : Option Stability :=
  if n = 0 then some absent else if n = 1 then some stable else if n = 2 then some unstable
  else none

@[simp] theorem ofCode?_code (s : Stability) : ofCode? s.code = some s := by
  cases s <;> rfl

/-- The name of a stability. -/
def name : Stability → String
  | stable => "stable"
  | unstable => "unstable"
  | absent => "absent"

/-- The place of a stability in the order absent, unstable, stable. -/
def rank : Stability → Nat
  | absent => 0
  | unstable => 1
  | stable => 2

/-- The stronger of two stabilities. -/
def max (a b : Stability) : Stability :=
  if a.rank < b.rank then b else a

/-- What one keyword says about an architecture: the name of the architecture or `*` makes a version
stable, the same after a tilde unstable; all else, such as `-arch`, says nothing. -/
def ofKeyword (arch word : String) : Stability :=
  if word = arch ∨ word = "*" then stable
  else match word.toList with
    | '~' :: cs => if cs = arch.toList ∨ cs = ['*'] then unstable else absent
    | _ => absent

/-- What a KEYWORDS value says about an architecture. -/
def ofKeywords (keywords arch : String) : Stability :=
  (Text.words keywords).foldl (fun s word => s.max (ofKeyword arch word)) absent

end Stability

end PackageIndex
