import Mathlib.Data.List.Induction
import PackageIndex.Proofs.Tree.Addresses

/-!
# Trees that are edited

Categories and packages of a tree are asked for by name and added if they are missing; a package that
was asked for gets ebuilds, and packages are removed again. Whatever was done, names are distinct and
every package names the category that it stands in (`addressed_ofEdits`). What is found under an
address is what was added there since the address was last empty (`find?_ofEdits_eq_some_iff`), and
an edit under one address leaves all other packages and their order (`filter_packages_edit`).
-/

namespace PackageIndex

/-- A change of a tree under the name of a category. -/
inductive Tree.Edit where
  /-- Asks for the category. -/
  | askCategory (category : String)
  /-- Asks for a package of the category. -/
  | askPackage (category name : String)
  /-- Asks for a package of the category and adds an ebuild to it. -/
  | addEbuild (category name : String) (e : Ebuild)
  /-- Asks for the category and removes a package from it. -/
  | removePackage (category name : String)

namespace Tree

namespace Edit

/-- The category that is asked for. -/
def inCategory : Edit → String
  | askCategory category => category
  | askPackage category _ => category
  | addEbuild category _ _ => category
  | removePackage category _ => category

/-- The package that is meant, unless it is the category alone. -/
def address? : Edit → Option (String × String)
  | askCategory _ => none
  | askPackage category name => some (category, name)
  | addEbuild category name _ => some (category, name)
  | removePackage category name => some (category, name)

/-- What is done to the category. -/
def change : Edit → Category → Category
  | askCategory _, c => c
  | askPackage _ name, c => c.update name id
  | addEbuild _ name e, c => c.update name fun p => p.add e
  | removePackage _ name, c => c.remove name

/-- The package is asked for, so it is there afterwards. -/
def Selects (category name : String) : Edit → Prop
  | askPackage c n => c = category ∧ n = name
  | addEbuild c n _ => c = category ∧ n = name
  | _ => False

/-- The ebuild that is added to the package. -/
def ebuildFor? (category name : String) : Edit → Option Ebuild
  | addEbuild c n e => if c = category ∧ n = name then some e else none
  | _ => none

end Edit

/-- The tree after an edit. -/
def edit (t : Tree) (d : Edit) : Tree :=
  t.update d.inCategory d.change

/-- The tree that the edits make, one after the other, of an empty one. -/
def ofEdits (ds : List Edit) : Tree :=
  ds.foldl edit {}

theorem ofEdits_concat (ds : List Edit) (d : Edit) : ofEdits (ds ++ [d]) = (ofEdits ds).edit d :=
  List.foldl_concat edit {} d ds

theorem Edit.name_change (d : Edit) (c : Category) : (d.change c).name = c.name := by
  cases d <;> rfl

end Tree

/-- The package of an address with ebuilds that were added one by one, and nothing else. -/
def Package.ofEbuilds (category name : String) (es : List Ebuild) : Package :=
  { category, name, releases := .ofList es }

theorem Package.foldl_add_ofEbuilds (category name : String) (es us : List Ebuild) :
    us.foldl add (ofEbuilds category name es) = ofEbuilds category name (es ++ us) := by
  rw [foldl_add]
  unfold ofEbuilds Releases.ofList
  rw [Releases.insertAll_append]

/-! ## Names and categories -/

/-- Names are distinct, and every package names the category. -/
structure Category.Addressed (c : Category) : Prop where
  names : (c.packages.map Package.name).Nodup
  category_eq : ∀ p ∈ c.packages, p.category = c.name

namespace Category.Addressed

variable {c : Category} {name : String} {f : Package → Package}

theorem update (h : c.Addressed) (hcategory : ∀ p, (f p).category = p.category)
    (hname : ∀ p, (f p).name = p.name) : (c.update name f).Addressed where
  names := Named.nodup_map_upsert (fun p hp => (hname p).trans hp) (by rfl) h.names
  category_eq := by
    refine Named.forall_upsert (P := fun p : Package => p.category = c.name) rfl ?_ h.category_eq
    intro p hp
    exact (hcategory p).trans hp

theorem remove (h : c.Addressed) : (c.remove name).Addressed where
  names := h.names.sublist (List.filter_sublist.map _)
  category_eq p hp := h.category_eq p (List.mem_of_mem_filter hp)

theorem change (h : c.Addressed) (d : Tree.Edit) : (d.change c).Addressed := by
  cases d with
  | askCategory => exact h
  | askPackage => exact h.update (fun _ => rfl) (fun _ => rfl)
  | addEbuild => exact h.update (fun _ => rfl) (fun _ => rfl)
  | removePackage => exact h.remove

end Category.Addressed

namespace Tree

variable {t : Tree}

theorem Addressed.toCategory (ht : t.Addressed) {c : Category} (hc : c ∈ t.categories) :
    c.Addressed :=
  ⟨ht.packages c hc, ht.category_eq c hc⟩

theorem Addressed.edit (ht : t.Addressed) (d : Edit) : (t.edit d).Addressed := by
  have hcategories : ∀ c ∈ (t.edit d).categories, c.Addressed := by
    refine Named.forall_upsert (P := Category.Addressed) ⟨.nil, nofun⟩ ?_ ?_
    · intro c hc
      exact hc.change d
    · intro c hc
      exact ht.toCategory hc
  have hnames : ((t.edit d).categories.map Category.name).Nodup :=
    Named.nodup_map_upsert (fun c hc => (d.name_change c).trans hc) (by rfl) ht.categories
  exact ⟨⟨hnames, fun c hc => (hcategories c hc).names⟩, fun c hc => (hcategories c hc).category_eq⟩

theorem addressed_ofEdits (ds : List Edit) : (ofEdits ds).Addressed := by
  induction ds using List.reverseRecOn with
  | nil => exact ⟨⟨.nil, nofun⟩, nofun⟩
  | append_singleton ds d ih =>
    rw [ofEdits_concat]
    exact ih.edit d

/-! ## What an edit leaves -/

/-- Packages under other addresses stay what they are and where they are. -/
theorem filter_packages_edit (ht : t.Addressed) (d : Edit) :
    ((t.edit d).packages.filter fun p => some p.address ≠ d.address?) =
      t.packages.filter fun p => some p.address ≠ d.address? := by
  unfold packages
  rw [List.filter_flatMap, List.filter_flatMap]
  refine Named.flatMap_upsert rfl t.categories ?_
  -- The category under the name, which may be added.
  generalize hfind : (Named.find? Category.name d.inCategory t.categories).getD
    { name := d.inCategory } = c
  have hname : c.name = d.inCategory := by
    rw [← hfind]
    exact Named.nameOf_find?_getD (by rfl) t.categories
  have hc : ∀ p ∈ c.packages, p.category = d.inCategory := by
    cases hsome : Named.find? Category.name d.inCategory t.categories with
    | none =>
      rw [hsome] at hfind
      subst hfind
      exact nofun
    | some c' =>
      rw [hsome] at hfind
      subst hfind
      rw [← hname]
      exact ht.category_eq _ (List.mem_of_find?_eq_some hsome)
  have hupdate : ∀ (name : String) (f : Package → Package), (∀ p, (f p).address = p.address) →
      d.address? = some (d.inCategory, name) →
      ((c.update name f).packages.filter fun p => some p.address ≠ d.address?) =
        c.packages.filter fun p => some p.address ≠ d.address? := by
    intro name f hf haddress
    have hexcluded : ∀ p : Package, p.category = d.inCategory → p.name = name →
        decide (some p.address ≠ d.address?) = false := by
      intro p hcategory hpname
      rw [haddress, ← hcategory, ← hpname]
      simp [Package.address]
    refine Named.filter_upsert_of_excluded (fun p hp hpname => ?_) ?_
    · rw [hf p]
      exact ⟨hexcluded p (hc p hp) hpname, hexcluded p (hc p hp) hpname⟩
    · rw [hf]
      exact hexcluded _ hname rfl
  cases d with
  | askCategory => rfl
  | askPackage category name => exact hupdate name id (fun _ => rfl) rfl
  | addEbuild category name e => exact hupdate name _ (fun _ => rfl) rfl
  | removePackage category name =>
    show ((c.packages.filter fun p => p.name != name).filter _) = _
    rw [List.filter_filter]
    refine List.filter_congr fun p hp => ?_
    have hcategory : p.category = category := hc p hp
    by_cases hpname : p.name = name
    · simp [Edit.address?, Package.address, hcategory, hpname]
    · simp [hpname]

theorem categories_prefix_edit (t : Tree) (d : Edit) :
    t.categories.map Category.name <+: (t.edit d).categories.map Category.name := by
  have hmap : (t.edit d).categories.map Category.name = _ :=
    Named.map_upsert (fun c hc => (d.name_change c).trans hc) (by rfl) t.categories
  rw [hmap]
  split
  · exact List.prefix_rfl
  · exact List.prefix_append _ _

/-! ## What is found after an edit -/

variable {d : Edit} {ds : List Edit} {category name : String} {es : List Ebuild} {p : Package}

theorem find?_edit_of_ne (h : d.address? ≠ some (category, name)) :
    (t.edit d).find? category name = t.find? category name := by
  have hkeep : ∀ c : Category, c.name = d.inCategory → (d.change c).name = d.inCategory :=
    fun c hc => (d.name_change c).trans hc
  unfold edit
  by_cases hcategory : d.inCategory = category
  · subst hcategory
    rw [find?_update_self hkeep, ← find?_findCategory?_getD]
    generalize (t.findCategory? d.inCategory).getD { name := d.inCategory } = c
    cases d with
    | askCategory => rfl
    | askPackage category n =>
      have hne : name ≠ n := fun heq => h (heq ▸ rfl)
      exact Category.find?_update_of_ne (fun _ hp => hp) hne c
    | addEbuild category n e =>
      have hne : name ≠ n := fun heq => h (heq ▸ rfl)
      exact Category.find?_update_of_ne (f := fun p => p.add e) (fun _ hp => hp) hne c
    | removePackage category n =>
      have hne : name ≠ n := fun heq => h (heq ▸ rfl)
      show List.find? _ (c.packages.filter _) = List.find? _ c.packages
      rw [List.find?_filter]
      refine congrArg (List.find? · c.packages) (funext fun p => ?_)
      by_cases hp : p.name = name
      · simp [hp, hne]
      · simp [hp]
  · exact find?_update_of_ne hkeep (Ne.symm hcategory) t name

theorem find?_edit_remove (t : Tree) (category name : String) :
    (t.edit (.removePackage category name)).find? category name = none := by
  have hkeep : ∀ c : Category, c.name = category → (c.remove name).name = category :=
    fun c hc => hc
  have hfind := find?_update_self hkeep t name
  refine hfind.trans (Named.find?_eq_none_iff.2 fun hmem => ?_)
  obtain ⟨p, hp, hname⟩ := List.mem_map.1 hmem
  have hne := (List.mem_filter.1 hp).2
  simp [hname] at hne

theorem find?_edit_of_selects (h : d.Selects category name) (t : Tree) :
    (t.edit d).find? category name =
      some ((d.ebuildFor? category name).toList.foldl Package.add
        ((t.find? category name).getD (Package.ofEbuilds category name []))) := by
  have hupdate : ∀ f : Package → Package, (∀ p, (f p).name = p.name) →
      (t.update category fun c => c.update name f).find? category name =
        some (f ((t.find? category name).getD (Package.ofEbuilds category name []))) := by
    intro f hf
    have hkeep : ∀ c : Category, c.name = category → (c.update name f).name = category :=
      fun c hc => hc
    rw [find?_update_self hkeep, Category.find?_update_self fun p hp => (hf p).trans hp,
      find?_findCategory?_getD]
    have hname : ((t.findCategory? category).getD { name := category }).name = category :=
      Named.nameOf_find?_getD (by rfl) t.categories
    rw [hname]
    rfl
  cases d with
  | askCategory => exact h.elim
  | removePackage => exact h.elim
  | askPackage c n =>
    obtain ⟨rfl, rfl⟩ := h
    exact hupdate id fun _ => rfl
  | addEbuild c n e =>
    obtain ⟨rfl, rfl⟩ := h
    have hebuild : (Edit.addEbuild c n e).ebuildFor? c n = some e := if_pos ⟨rfl, rfl⟩
    rw [hebuild]
    exact hupdate (fun p => p.add e) fun _ => rfl

/-! ## What is found after all edits -/

/-- An edit that found nothing under the address added the package, none behind it removed the
package, and these are the ebuilds that it has got from then on. -/
def Keeps (category name : String) (ds : List Edit) (es : List Ebuild) : Prop :=
  ∃ before d after, ds = before ++ d :: after ∧ d.Selects category name ∧
    (ofEdits before).find? category name = none ∧ Edit.removePackage category name ∉ after ∧
    es = (d :: after).filterMap (Edit.ebuildFor? category name)

theorem not_keeps_removePackage :
    ¬ Keeps category name (ds ++ [.removePackage category name]) es := by
  rintro ⟨before, d, after, hds, hselects, -, hkept, -⟩
  rcases after.eq_nil_or_concat' with rfl | ⟨after, d', rfl⟩
  · obtain ⟨-, hd⟩ := List.append_inj' hds rfl
    cases hd
    exact hselects
  · rw [← List.cons_append, ← List.append_assoc] at hds
    obtain ⟨-, hd⟩ := List.append_inj' hds rfl
    cases hd
    exact hkept (List.mem_append_right after List.mem_cons_self)

/-- An edit that removes nothing goes on from what was kept, or is the one that adds the package. -/
theorem keeps_concat_iff (hd : d ≠ .removePackage category name) :
    Keeps category name (ds ++ [d]) es ↔
      (∃ es', Keeps category name ds es' ∧
        es = es' ++ (d.ebuildFor? category name).toList) ∨
      d.Selects category name ∧ (ofEdits ds).find? category name = none ∧
        es = (d.ebuildFor? category name).toList := by
  have hlast : [d].filterMap (Edit.ebuildFor? category name) =
      (d.ebuildFor? category name).toList := by
    cases h : d.ebuildFor? category name <;> simp [h]
  constructor
  · rintro ⟨before, d₀, after, hds, hselects, hnone, hkept, rfl⟩
    rcases after.eq_nil_or_concat' with rfl | ⟨after, d', rfl⟩
    · obtain ⟨rfl, hd₀⟩ := List.append_inj' hds rfl
      cases hd₀
      exact .inr ⟨hselects, hnone, hlast⟩
    · rw [← List.cons_append, ← List.append_assoc] at hds
      obtain ⟨rfl, hd'⟩ := List.append_inj' hds rfl
      cases hd'
      refine .inl ⟨_, ⟨before, d₀, after, rfl, hselects, hnone, ?_, rfl⟩, ?_⟩
      · exact fun hmem => hkept (List.mem_append_left _ hmem)
      · rw [← hlast, ← List.filterMap_append]
        rfl
  · rintro (⟨es', ⟨before, d₀, after, rfl, hselects, hnone, hkept, rfl⟩, rfl⟩ | ⟨hselects, hnone, rfl⟩)
    · refine ⟨before, d₀, after ++ [d], ?_, hselects, hnone, ?_, ?_⟩
      · rw [List.append_assoc]
        rfl
      · intro hmem
        rcases List.mem_append.1 hmem with hmem | hmem
        · exact hkept hmem
        · exact hd (List.mem_singleton.1 hmem).symm
      · rw [← hlast, ← List.filterMap_append]
        rfl
    · exact ⟨ds, d, [], rfl, hselects, hnone, List.not_mem_nil, hlast.symm⟩

theorem find?_edit_of_not_selects (hd : d ≠ .removePackage category name)
    (hselects : ¬ d.Selects category name) (t : Tree) :
    (t.edit d).find? category name = t.find? category name := by
  refine find?_edit_of_ne fun haddress => ?_
  cases d with
  | askCategory => cases haddress
  | askPackage c n =>
    cases haddress
    exact hselects ⟨rfl, rfl⟩
  | addEbuild c n e =>
    cases haddress
    exact hselects ⟨rfl, rfl⟩
  | removePackage c n =>
    cases haddress
    exact hd rfl

theorem ebuildFor?_of_not_selects (hselects : ¬ d.Selects category name) :
    d.ebuildFor? category name = none := by
  cases d with
  | addEbuild c n e => exact if_neg hselects
  | _ => rfl

/-- The package that is found has the ebuilds that it got since it was added. -/
theorem find?_ofEdits_eq_some_iff :
    (ofEdits ds).find? category name = some p ↔
      ∃ es, Keeps category name ds es ∧ p = .ofEbuilds category name es := by
  induction ds using List.reverseRecOn generalizing p with
  | nil =>
    constructor
    · intro h
      cases h
    · rintro ⟨es, ⟨before, d, after, hds, -⟩, -⟩
      exact absurd hds.symm (List.append_ne_nil_of_right_ne_nil _ (List.cons_ne_nil _ _))
  | append_singleton ds d ih =>
    rw [ofEdits_concat]
    by_cases hd : d = .removePackage category name
    · subst hd
      rw [find?_edit_remove]
      constructor
      · intro h
        cases h
      · rintro ⟨es, hkeeps, -⟩
        exact absurd hkeeps not_keeps_removePackage
    · simp only [keeps_concat_iff hd]
      by_cases hselects : d.Selects category name
      · rw [find?_edit_of_selects hselects]
        cases hfind : (ofEdits ds).find? category name with
        | none =>
          rw [Option.getD_none, Package.foldl_add_ofEbuilds, List.nil_append, Option.some_inj]
          constructor
          · rintro rfl
            exact ⟨_, .inr ⟨hselects, rfl, rfl⟩, rfl⟩
          · rintro ⟨es, ⟨es', hkeeps, -⟩ | ⟨-, -, rfl⟩, rfl⟩
            · have hsome := ih.2 ⟨es', hkeeps, rfl⟩
              rw [hfind] at hsome
              cases hsome
            · rfl
        | some q =>
          obtain ⟨es₀, hkeeps₀, rfl⟩ := ih.1 hfind
          rw [Option.getD_some, Package.foldl_add_ofEbuilds, Option.some_inj]
          constructor
          · rintro rfl
            exact ⟨_, .inl ⟨es₀, hkeeps₀, rfl⟩, rfl⟩
          · rintro ⟨es, ⟨es', hkeeps, rfl⟩ | ⟨-, hnone, -⟩, rfl⟩
            · have hsome := ih.2 ⟨es', hkeeps, rfl⟩
              rw [hfind, Option.some_inj] at hsome
              rw [← Package.foldl_add_ofEbuilds, hsome, Package.foldl_add_ofEbuilds]
            · cases hnone
      · rw [find?_edit_of_not_selects hd hselects, ih]
        simp [hselects, ebuildFor?_of_not_selects hselects]

/-- A package is found if an edit asked for it and none behind that edit removed it. -/
theorem exists_find?_ofEdits_iff :
    (∃ p, (ofEdits ds).find? category name = some p) ↔
      ∃ before d after, ds = before ++ d :: after ∧ d.Selects category name ∧
        Edit.removePackage category name ∉ after := by
  constructor
  · rintro ⟨p, hp⟩
    obtain ⟨es, ⟨before, d, after, hds, hselects, -, hkept, -⟩, -⟩ := find?_ofEdits_eq_some_iff.1 hp
    exact ⟨before, d, after, hds, hselects, hkept⟩
  · rintro ⟨before, d, after, rfl, hselects, hkept⟩
    -- By the edits behind the one that asked for the package, from the last to the first.
    induction after using List.reverseRecOn with
    | nil =>
      rw [ofEdits_concat, find?_edit_of_selects hselects]
      exact ⟨_, rfl⟩
    | append_singleton after d' ih =>
      rw [← List.cons_append, ← List.append_assoc, ofEdits_concat]
      by_cases hselects' : d'.Selects category name
      · rw [find?_edit_of_selects hselects']
        exact ⟨_, rfl⟩
      · have hd' : d' ≠ .removePackage category name := by
          rintro rfl
          exact hkept (List.mem_append_right after List.mem_cons_self)
        rw [find?_edit_of_not_selects hd' hselects']
        exact ih fun hmem => hkept (List.mem_append_left _ hmem)

/-- **The tree is a map by addresses that keeps the order of what was added.** After any edits of an
empty tree names are distinct, every package names its category, and a package is found exactly
if it was asked for and not removed since. It has then exactly the ebuilds that it got since it was
added. A further edit leaves every package under another address, with their order, and the order of
the categories. The number of packages is that of the list of all packages. -/
theorem ofEdits_faithful (ds : List Edit) :
    ((ofEdits ds).categories.map Category.name).Nodup ∧
      (∀ c ∈ (ofEdits ds).categories, (c.packages.map Package.name).Nodup ∧
        ∀ p ∈ c.packages, p.category = c.name) ∧
      (∀ category name, (∃ p, (ofEdits ds).find? category name = some p) ↔
        ∃ before d after, ds = before ++ d :: after ∧ d.Selects category name ∧
          Edit.removePackage category name ∉ after) ∧
      (∀ category name p, (ofEdits ds).find? category name = some p ↔
        ∃ es, Keeps category name ds es ∧ p = .ofEbuilds category name es ∧
          p.ebuilds.Perm (es.map Ebuild.normalize)) ∧
      (∀ d : Edit,
        (((ofEdits ds).edit d).packages.filter fun p => some p.address ≠ d.address?) =
          ((ofEdits ds).packages.filter fun p => some p.address ≠ d.address?) ∧
        (ofEdits ds).categories.map Category.name <+:
          ((ofEdits ds).edit d).categories.map Category.name) ∧
      (ofEdits ds).packageCount = (ofEdits ds).packages.length := by
  have haddressed : (ofEdits ds).Addressed := addressed_ofEdits ds
  refine ⟨haddressed.categories, ?_, fun _ _ => exists_find?_ofEdits_iff, ?_, ?_, ?_⟩
  · intro c hc
    have hcategory : c.Addressed := haddressed.toCategory hc
    exact ⟨hcategory.names, hcategory.category_eq⟩
  · intro category name p
    rw [find?_ofEdits_eq_some_iff]
    constructor
    · rintro ⟨es, hkeeps, rfl⟩
      refine ⟨es, hkeeps, rfl, ?_⟩
      have hperm := Releases.perm_insertAll es .empty
      exact hperm.trans (by simp [Releases.empty])
    · rintro ⟨es, hkeeps, hp, -⟩
      exact ⟨es, hkeeps, hp⟩
  · intro d
    exact ⟨filter_packages_edit haddressed d, categories_prefix_edit _ d⟩
  · exact packageCount_eq _

end Tree

end PackageIndex
