import PackageIndex.Database.Record

/-!
# Cursors

A cursor goes through the packages of a database one by one and reads each to the detail that it was
opened with. It yields the packages in order, then at most one error, and then nothing more. The
counts of the header and of the categories bound its steps.
-/

namespace PackageIndex

/-- A place between two packages of a database. -/
structure Cursor where
  /-- The bytes after the place. -/
  input : Input
  /-- The header of the database. -/
  header : Header
  /-- How much of each package is read. -/
  detail : Detail
  /-- The number of categories that start after the place. -/
  categoriesLeft : Nat
  /-- The number of packages after the place in its category. -/
  packagesLeft : Nat := 0
  /-- The category of the place. -/
  category : String := ""
  /-- Whether reading has failed. -/
  failed : Bool := false

namespace Cursor

/-- The cursor before the first package of a database, which is named `name` in error messages. -/
def ofBytes (bytes : List UInt8) (name : String) (detail : Detail) : Except Error Cursor := do
  let (header, input) ← (Header.read name).run (.ofBytes bytes)
  return { input, header, detail, categoriesLeft := header.categoryCount.toNat }

/-- Reads the next package and moves behind it. Categories without packages are passed over. -/
def step (c : Cursor) : Except Error (Option (Package × Cursor)) :=
  match c.packagesLeft with
  | packages + 1 => do
    let (p, input) ← (Record.readPackage c.header c.category c.detail).run c.input
    return some (p, { c with input, packagesLeft := packages })
  | 0 =>
    match _ : c.categoriesLeft with
    | 0 => return none
    | categories + 1 =>
      match Record.readCategoryHeader.run c.input with
      | .error e => throw e
      | .ok ((category, count), input) =>
        step { c with
          input, category, categoriesLeft := categories, packagesLeft := count.toNat }
termination_by c.categoriesLeft

/-- What the cursor yields, and the cursor after that. -/
def next (c : Cursor) : Option (Except Error Package) × Cursor :=
  if c.failed then (none, c)
  else match c.step with
    | .ok (some (p, c)) => (some (.ok p), c)
    | .ok none => (none, { c with categoriesLeft := 0, packagesLeft := 0 })
    | .error e => (some (.error e), { c with failed := true })

/-- A step that reads a package uses up a package or a category. -/
theorem step_decreases {c c' : Cursor} {p : Package} (h : c.step = .ok (some (p, c'))) :
    Prod.Lex (· < ·) (· < ·) (c'.categoriesLeft, c'.packagesLeft)
      (c.categoriesLeft, c.packagesLeft) := by
  fun_induction step c with
  | case1 c n hn =>
    simp only [bind, Except.bind, pure, Except.pure] at h
    split at h
    · cases h
    · obtain ⟨rfl, rfl⟩ : _ ∧ _ = c' := by simpa using h
      rw [hn]
      exact .right _ (Nat.lt_succ_self n)
  | case2 => cases h
  | case3 => cases h
  | case4 c h0 k hk category count input hr ih =>
    have := ih h
    rw [hk]
    cases this with
    | left _ _ hlt => exact .left _ _ (Nat.lt_succ_of_lt hlt)
    | right _ hlt => exact .left _ _ (Nat.lt_succ_self _)

/-- All that a cursor that has not failed yields: packages, and the error if one stops it. -/
def items (c : Cursor) : List (Except Error Package) :=
  match h : c.step with
  | .ok (some (p, c')) =>
    have := step_decreases h
    .ok p :: items c'
  | .ok none => []
  | .error e => [.error e]
termination_by (c.categoriesLeft, c.packagesLeft)
decreasing_by exact this

/-- The packages after the place, unless an error stops the cursor. -/
def packages (c : Cursor) : Except Error (List Package) :=
  c.items.mapM id

end Cursor

end PackageIndex
