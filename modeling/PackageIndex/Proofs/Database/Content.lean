import PackageIndex.Database.Record
import PackageIndex.Proofs.Package.Releases

/-!
# What a database keeps of a tree

A database keeps a tree as it is, or without its dependencies if they are not stored; a reader that
wants less than everything gets packages reduced to its detail. Sets are put together again from the
list of their members, as packages are from the list of their ebuilds.
-/

namespace PackageIndex

/-! ## Sets are what their lists make -/

namespace WordSet

theorem eq_of_toList {s s' : WordSet} (h : s.toList = s'.toList) : s = s' := by
  cases s
  cases s'
  cases h
  rfl

theorem insertInto_of_lt {w : String} {vs : List String} (h : ∀ v ∈ vs, v < w) :
    insertInto w vs = vs ++ [w] := by
  induction vs with
  | nil => rfl
  | cons v vs ih =>
    have hv : v < w := h v List.mem_cons_self
    have hne : w ≠ v := by
      rintro rfl
      exact String.lt_irrefl w hv
    rw [insertInto, if_neg (String.lt_asymm hv), if_neg hne,
      ih fun u hu => h u (List.mem_cons_of_mem v hu)]
    rfl

theorem toList_insertAll_of_ascending {s : WordSet} {ws : List String}
    (h : (s.toList ++ ws).Pairwise (· < ·)) : (s.insertAll ws).toList = s.toList ++ ws := by
  induction ws generalizing s with
  | nil => exact (List.append_nil s.toList).symm
  | cons w ws ih =>
    have hw : ∀ v ∈ s.toList, v < w := fun v hv =>
      (List.pairwise_append.1 h).2.2 v hv w List.mem_cons_self
    have he : (s.insert w).toList = s.toList ++ [w] := insertInto_of_lt hw
    have hi : (s.insert w).toList ++ ws = s.toList ++ w :: ws := by
      rw [he, List.append_assoc, List.singleton_append]
    exact (ih (hi ▸ h)).trans hi

theorem ofList_toList (s : WordSet) : ofList s.toList = s :=
  eq_of_toList (toList_insertAll_of_ascending s.ascending)

end WordSet

/-! ## Without dependencies -/

/-- The ebuild without its dependencies. -/
def Ebuild.withoutDependencies (e : Ebuild) : Ebuild :=
  { e with depend := none }

/-- The releases without their dependencies. -/
def Releases.withoutDependencies (r : Releases) : Releases where
  toList := r.toList.map Ebuild.withoutDependencies
  ascending := List.pairwise_map.2 r.ascending
  normal := by
    intro u hu
    obtain ⟨e, he, rfl⟩ := List.mem_map.1 hu
    have h := congrArg Ebuild.withoutDependencies (r.normal e he)
    exact h

/-- The package without the dependencies of its releases. -/
def Package.withoutDependencies (p : Package) : Package :=
  { p with releases := p.releases.withoutDependencies }

/-- The category without the dependencies of its packages. -/
def Category.withoutDependencies (c : Category) : Category :=
  { c with packages := c.packages.map Package.withoutDependencies }

/-- The tree without the dependencies of its packages. -/
def Tree.withoutDependencies (t : Tree) : Tree :=
  { categories := t.categories.map Category.withoutDependencies }

/-- What is kept of an ebuild: everything, or all but the dependencies. -/
def Ebuild.asStored (dependencies : Bool) (e : Ebuild) : Ebuild :=
  if dependencies then e else e.withoutDependencies

/-- What is kept of a package: everything, or all but the dependencies. -/
def Package.asStored (dependencies : Bool) (p : Package) : Package :=
  if dependencies then p else p.withoutDependencies

/-- What is kept of a category: everything, or all but the dependencies. -/
def Category.asStored (dependencies : Bool) (c : Category) : Category :=
  if dependencies then c else c.withoutDependencies

/-- What is kept of a tree: everything, or all but the dependencies. -/
def Tree.asStored (dependencies : Bool) (t : Tree) : Tree :=
  if dependencies then t else t.withoutDependencies

variable (dependencies : Bool)

theorem Package.ofList_asStored (p : Package) :
    Releases.ofList (p.ebuilds.map (Ebuild.asStored dependencies)) =
      (p.asStored dependencies).releases := by
  cases dependencies with
  | false => exact Releases.ofList_toList p.releases.withoutDependencies
  | true =>
    have hid : Ebuild.asStored true = id := rfl
    rw [hid, List.map_id]
    exact Releases.ofList_toList p.releases

theorem Category.packages_asStored (c : Category) :
    (c.asStored dependencies).packages = c.packages.map (Package.asStored dependencies) := by
  cases dependencies with
  | false => rfl
  | true => exact (List.map_id c.packages).symm

theorem Tree.categories_asStored (t : Tree) :
    (t.asStored dependencies).categories = t.categories.map (Category.asStored dependencies) := by
  cases dependencies with
  | false => rfl
  | true => exact (List.map_id t.categories).symm

theorem Tree.packages_asStored (t : Tree) :
    (t.asStored dependencies).packages = t.packages.map (Package.asStored dependencies) := by
  rw [packages, categories_asStored, List.flatMap_map, packages, List.map_flatMap]
  exact congrArg t.categories.flatMap (funext (Category.packages_asStored dependencies))

/-! ### Nothing to leave out -/

section

variable {dependencies}

theorem map_eq_self {α : Type} {f : α → α} {as : List α} (h : ∀ a ∈ as, f a = a) :
    as.map f = as :=
  (List.map_congr_left h).trans (List.map_id as)

theorem Package.asStored_eq_self {p : Package}
    (h : dependencies = false → ∀ e ∈ p.ebuilds, e.depend = none) :
    p.asStored dependencies = p := by
  cases dependencies with
  | true => rfl
  | false =>
    have he : ∀ e ∈ p.ebuilds, e.withoutDependencies = e := by
      intro e he
      rw [Ebuild.withoutDependencies, ← h rfl e he]
    have hr : p.releases.withoutDependencies = p.releases := Releases.eq_of_toList (map_eq_self he)
    show { p with releases := p.releases.withoutDependencies } = p
    rw [hr]

theorem Category.asStored_eq_self {c : Category}
    (h : ∀ p ∈ c.packages, p.asStored dependencies = p) : c.asStored dependencies = c := by
  cases dependencies with
  | true => rfl
  | false =>
    have hp : c.packages.map Package.withoutDependencies = c.packages := map_eq_self h
    show { c with packages := c.packages.map Package.withoutDependencies } = c
    rw [hp]

theorem Tree.asStored_eq_self {t : Tree}
    (h : ∀ c ∈ t.categories, c.asStored dependencies = c) : t.asStored dependencies = t := by
  cases dependencies with
  | true => rfl
  | false =>
    have hc : t.categories.map Category.withoutDependencies = t.categories := map_eq_self h
    show { categories := t.categories.map Category.withoutDependencies } = t
    rw [hc]

end

/-! ## Reduced to a detail -/

/-- What a reader of the given detail gets of a package. -/
def Detail.reduce : Detail → Package → Package
  | .names, p => { category := p.category, name := p.name }
  | .metadata, p => { p with releases := .empty }
  | .full, p => p

end PackageIndex
