import PackageIndex.Package.Basic
import PackageIndex.Tree.Named

/-!
# Package trees

A snapshot of the available packages: categories in order, each with its packages in order. Names
are unique as long as categories and packages are added through `Tree.update` and `Category.update`.
-/

namespace PackageIndex

/-- A category and its packages. -/
structure Category where
  /-- The name. -/
  name : String
  /-- The packages in order. -/
  packages : List Package := []
  deriving DecidableEq

namespace Category

/-- The package with a name. -/
def find? (c : Category) (name : String) : Option Package :=
  Named.find? Package.name name c.packages

/-- Changes the package with a name, which is added without any metadata if it is missing. -/
def update (c : Category) (name : String) (f : Package → Package) : Category :=
  { c with packages := Named.upsert Package.name name { category := c.name, name } f c.packages }

/-- Changes the package with a name, if there is one. -/
def modify (c : Category) (name : String) (f : Package → Package) : Category :=
  { c with packages := Named.modify Package.name name f c.packages }

/-- The category without the packages of a name. -/
def remove (c : Category) (name : String) : Category :=
  { c with packages := c.packages.filter fun p => p.name != name }

/-- The same category, except that versions need only be alike. -/
def same (a b : Category) : Bool :=
  a.name == b.name && a.packages.length == b.packages.length &&
    (a.packages.zip b.packages).all fun (p, q) => p.same q

end Category

/-- All categories of a snapshot. -/
structure Tree where
  /-- The categories in order. -/
  categories : List Category := []
  deriving DecidableEq

namespace Tree

/-- The category with a name. -/
def findCategory? (t : Tree) (name : String) : Option Category :=
  Named.find? Category.name name t.categories

/-- The package with a name in the category with a name. -/
def find? (t : Tree) (category name : String) : Option Package :=
  (t.findCategory? category).bind fun c => c.find? name

/-- Changes the category with a name, which is added without packages if it is missing. -/
def update (t : Tree) (name : String) (f : Category → Category) : Tree :=
  { t with categories := Named.upsert Category.name name { name } f t.categories }

/-- All packages in order. -/
def packages (t : Tree) : List Package :=
  t.categories.flatMap Category.packages

/-- The number of packages. -/
def packageCount (t : Tree) : Nat :=
  t.categories.foldl (fun n c => n + c.packages.length) 0

theorem packageCount_eq (t : Tree) : t.packageCount = t.packages.length := by
  have hfold : ∀ (cs : List Category) (n : Nat),
      cs.foldl (fun n c => n + c.packages.length) n =
        n + (cs.flatMap Category.packages).length := by
    intro cs
    induction cs with
    | nil => exact fun n => rfl
    | cons c cs ih =>
      intro n
      rw [List.foldl_cons, ih, List.flatMap_cons, List.length_append, Nat.add_assoc]
  exact (hfold t.categories 0).trans (Nat.zero_add _)

/-- The tree with its categories in the order of their names; those of one name keep theirs. -/
def sortCategories (t : Tree) : Tree :=
  { t with categories := t.categories.mergeSort fun a b => decide (a.name ≤ b.name) }

/-- The same tree, except that versions need only be alike. -/
def same (a b : Tree) : Bool :=
  a.categories.length == b.categories.length &&
    (a.categories.zip b.categories).all fun (c, d) => c.same d

end Tree

end PackageIndex
