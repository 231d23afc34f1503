import PackageIndex.Proofs.Tree.Growth

/-!
# The addresses of packages

A package is addressed by its category and its name. If no two categories have one name, and no two
packages of a category, and if every package names the category that it stands in, then what is
found under an address is the one package that has it (`find?_eq_some_iff`), and no address occurs
twice (`nodup_addresses`). A change of one category or package is found under its name, and what is
found under other names stays.
-/

namespace PackageIndex

/-- The category and the name of a package. -/
def Package.address (p : Package) : String × String :=
  (p.category, p.name)

/-! ## What is found after a change -/

section

variable {category name other : String}

theorem Category.find?_update_self {f : Package → Package}
    (hf : ∀ p, p.name = name → (f p).name = name) (c : Category) :
    (c.update name f).find? name = some (f ((c.find? name).getD { category := c.name, name })) :=
  Named.find?_upsert_self hf (by rfl) c.packages

theorem Category.find?_update_of_ne {f : Package → Package}
    (hf : ∀ p, p.name = name → (f p).name = name) (hne : other ≠ name) (c : Category) :
    (c.update name f).find? other = c.find? other :=
  Named.find?_upsert_of_ne hf (by rfl) hne c.packages

namespace Tree

/-- In a category that is missing no package is found, and neither in the empty one made for it. -/
theorem find?_findCategory?_getD (t : Tree) (category name : String) :
    ((t.findCategory? category).getD { name := category }).find? name = t.find? category name := by
  unfold Tree.find?
  cases t.findCategory? category with
  | none => rfl
  | some c => rfl

theorem find?_update_self {f : Category → Category}
    (hf : ∀ c, c.name = category → (f c).name = category) (t : Tree) (name : String) :
    (t.update category f).find? category name =
      (f ((t.findCategory? category).getD { name := category })).find? name := by
  unfold Tree.find? findCategory? update
  rw [Named.find?_upsert_self hf (by rfl)]
  rfl

theorem find?_update_of_ne {f : Category → Category}
    (hf : ∀ c, c.name = category → (f c).name = category) (hne : other ≠ category) (t : Tree)
    (name : String) : (t.update category f).find? other name = t.find? other name := by
  unfold Tree.find? findCategory? update
  rw [Named.find?_upsert_of_ne hf (by rfl) hne]

end Tree

end

/-! ## The addresses of a tree -/

namespace Tree

/-- The addresses of the packages in order. -/
def addresses (t : Tree) : List (String × String) :=
  t.packages.map Package.address

/-- Names are distinct, and every package names the category that it stands in. -/
structure Addressed (t : Tree) : Prop extends t.NamesDistinct where
  category_eq : ∀ c ∈ t.categories, ∀ p ∈ c.packages, p.category = c.name

variable {t : Tree} {p : Package} {category name : String}

theorem find?_eq_some_iff (ht : t.Addressed) :
    t.find? category name = some p ↔ p ∈ t.packages ∧ p.address = (category, name) := by
  unfold find? findCategory?
  constructor
  · intro h
    obtain ⟨c, hfind, hp⟩ := Option.bind_eq_some_iff.1 h
    obtain ⟨hc, hcategory⟩ := (Named.find?_eq_some_iff ht.categories).1 hfind
    obtain ⟨hmem, hname⟩ := (Named.find?_eq_some_iff (ht.packages c hc)).1 hp
    refine ⟨List.mem_flatMap.2 ⟨c, hc, hmem⟩, ?_⟩
    exact Prod.ext ((ht.category_eq c hc p hmem).trans hcategory) hname
  · rintro ⟨hp, haddress⟩
    obtain ⟨c, hc, hmem⟩ := List.mem_flatMap.1 hp
    obtain ⟨hcategory, hname⟩ := Prod.mk.inj haddress
    have hfind : Named.find? Category.name category t.categories = some c :=
      (Named.find?_eq_some_iff ht.categories).2
        ⟨hc, (ht.category_eq c hc p hmem).symm.trans hcategory⟩
    rw [hfind]
    exact (Named.find?_eq_some_iff (ht.packages c hc)).2 ⟨hmem, hname⟩

theorem find?_of_mem_packages (ht : t.Addressed) (hp : p ∈ t.packages) :
    t.find? p.category p.name = some p :=
  (find?_eq_some_iff ht).2 ⟨hp, rfl⟩

theorem find?_eq_none_iff (ht : t.Addressed) :
    t.find? category name = none ↔ (category, name) ∉ t.addresses := by
  rw [Option.eq_none_iff_forall_not_mem]
  constructor
  · intro h hmem
    obtain ⟨p, hp, haddress⟩ := List.mem_map.1 hmem
    exact h p ((find?_eq_some_iff ht).2 ⟨hp, haddress⟩)
  · intro h p hfind
    obtain ⟨hp, haddress⟩ := (find?_eq_some_iff ht).1 hfind
    exact h (haddress ▸ List.mem_map_of_mem hp)

theorem nodup_addresses (ht : t.Addressed) : t.addresses.Nodup := by
  unfold addresses packages
  rw [List.map_flatMap]
  refine List.nodup_flatMap.2 ⟨?_, ?_⟩
  · intro c hc
    have hnames : ((c.packages.map Package.address).map Prod.snd).Nodup := by
      rw [List.map_map]
      exact ht.packages c hc
    exact hnames.of_map
  · have hne := List.pairwise_map.1 ht.categories
    refine hne.imp_of_mem ?_
    intro c d hc hd hcd a hac had
    obtain ⟨p, hp, rfl⟩ := List.mem_map.1 hac
    obtain ⟨q, hq, hpq⟩ := List.mem_map.1 had
    have hcategory : q.category = p.category := (Prod.mk.inj hpq).1
    rw [ht.category_eq c hc p hp, ht.category_eq d hd q hq] at hcategory
    exact hcd hcategory.symm

theorem exists_category_of_mem_addresses (ht : t.Addressed) (h : (category, name) ∈ t.addresses) :
    ∃ c ∈ t.categories, c.name = category := by
  obtain ⟨p, hp, haddress⟩ := List.mem_map.1 h
  obtain ⟨c, hc, hmem⟩ := List.mem_flatMap.1 hp
  exact ⟨c, hc, (ht.category_eq c hc p hmem).symm.trans (Prod.mk.inj haddress).1⟩

end Tree

end PackageIndex
