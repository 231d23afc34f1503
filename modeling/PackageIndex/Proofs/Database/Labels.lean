import PackageIndex.Database.Basic
import PackageIndex.Proofs.Database.Content

/-!
# The category of a package is where it stands

A database does not store the category that a package names: a package is read as one of the
category that it stands in. So a tree is written like the tree whose packages are labelled with
their categories (`encode_labelled`).
-/

namespace PackageIndex

/-- The package as one of the category with the given name. -/
def Package.labelled (p : Package) (category : String) : Package :=
  { p with category }

/-- The category with its name on all of its packages. -/
def Category.labelled (c : Category) : Category :=
  { c with packages := c.packages.map fun p => p.labelled c.name }

/-- The tree with the names of its categories on their packages. -/
def Tree.labelled (t : Tree) : Tree :=
  { categories := t.categories.map Category.labelled }

theorem Tree.category_of_mem_labelled {t : Tree} :
    ∀ c ∈ t.labelled.categories, ∀ p ∈ c.packages, p.category = c.name := by
  intro c hc p hp
  obtain ⟨k, -, rfl⟩ := List.mem_map.1 hc
  obtain ⟨q, -, rfl⟩ := List.mem_map.1 hp
  rfl

theorem Tree.packages_labelled (t : Tree) :
    t.labelled.packages = t.categories.flatMap fun c => c.packages.map fun p => p.labelled c.name :=
  List.flatMap_map Category.labelled Category.packages t.categories

/-- The texts of a package do not include its category. -/
theorem Dictionaries.addPackage_labelled (dependencies : Bool) (d : Dictionaries) (p : Package)
    (category : String) :
    d.addPackage dependencies (p.labelled category) = d.addPackage dependencies p :=
  rfl

theorem Header.prepare_labelled (h : Header) (t : Tree) : h.prepare t.labelled = h.prepare t := by
  have hcount : t.labelled.packageCount = t.packageCount := by
    rw [Tree.packageCount_eq, Tree.packageCount_eq, Tree.packages_labelled, Tree.packages,
      List.length_flatMap, List.length_flatMap]
    simp only [List.length_map]
  have hfold : t.labelled.packages.foldl (Dictionaries.addPackage h.storesDependencies) {} =
      t.packages.foldl (Dictionaries.addPackage h.storesDependencies) {} := by
    rw [Tree.packages_labelled, Tree.packages, List.foldl_flatMap, List.foldl_flatMap]
    simp only [List.foldl_map, Dictionaries.addPackage_labelled]
  have hlength : t.labelled.categories.length = t.categories.length := List.length_map _
  rw [prepare, prepare, hcount, hfold, hlength]

theorem Record.encodeCategory_labelled (h : Header) (c : Category) :
    encodeCategory h c.labelled = encodeCategory h c := by
  have hpackages : c.labelled.packages.mapM (encodePackage h) = c.packages.mapM (encodePackage h) :=
    List.mapM_map
  have hlength : c.labelled.packages.length = c.packages.length := List.length_map _
  rw [encodeCategory, encodeCategory, hpackages, hlength]
  rfl

/-- What packages say about their category does not matter to the writer. -/
theorem Database.encode_labelled (h : Header) (t : Tree) : encode h t.labelled = encode h t := by
  have hcategories : ∀ k : Header, t.labelled.categories.mapM (Record.encodeCategory k) =
      t.categories.mapM (Record.encodeCategory k) := by
    intro k
    rw [Tree.labelled, List.mapM_map]
    simp only [Function.comp_def, Record.encodeCategory_labelled]
  rw [encode, encode, Header.prepare_labelled, encodePrepared, encodePrepared, hcategories]

end PackageIndex
