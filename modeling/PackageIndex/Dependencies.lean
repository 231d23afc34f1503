import PackageIndex.Text.Blank

/-!
# Dependencies

The four dependency values of a version, as texts whose words are separated by single spaces.
-/

namespace PackageIndex

/-- The dependency values of a version. -/
structure Dependencies where
  /-- DEPEND: needed to build. -/
  depend : String
  /-- RDEPEND: needed to run. -/
  rdepend : String
  /-- PDEPEND: needed after the installation. -/
  pdepend : String
  /-- BDEPEND: needed to build, on the building machine. -/
  bdepend : String
  deriving DecidableEq, Repr

namespace Dependencies

/-- No dependencies. -/
def none : Dependencies := ⟨"", "", "", ""⟩

/-- The four values in order. -/
def fields (d : Dependencies) : List String :=
  [d.depend, d.rdepend, d.pdepend, d.bdepend]

/-- The values with single spaces between their words. -/
def collapse (d : Dependencies) : Dependencies :=
  ⟨Text.collapse d.depend, Text.collapse d.rdepend, Text.collapse d.pdepend,
    Text.collapse d.bdepend⟩

/-- Whether all four values are empty. -/
def isEmpty (d : Dependencies) : Bool :=
  d.depend.isEmpty && d.rdepend.isEmpty && d.pdepend.isEmpty && d.bdepend.isEmpty

/-- The dependencies, unless all are empty. -/
def nonempty? (d : Dependencies) : Option Dependencies :=
  if d.isEmpty then .none else some d

/-- The normal form of a version's dependencies: collapsed, and absent if all are empty. -/
def normalize (d : Option Dependencies) : Option Dependencies :=
  d.bind fun d => d.collapse.nonempty?

@[simp] theorem collapse_collapse (d : Dependencies) : d.collapse.collapse = d.collapse := by
  simp [collapse]

@[simp] theorem normalize_normalize (d : Option Dependencies) :
    normalize (normalize d) = normalize d := by
  cases d with
  | none => rfl
  | some d =>
    simp only [normalize, Option.bind_some, nonempty?]
    split
    · rfl
    · simp_all

end Dependencies

end PackageIndex
