import PackageIndex.Proofs.Files.Listing
import PackageIndex.Proofs.Repository.Loops
import PackageIndex.Proofs.Tree.Growth
import PackageIndex.Repository.Build

/-!
# What a tree holds

A tree holds its ebuilds, each under the names of its category and package. Whatever is read into a
tree adds to what it holds and takes nothing away: a file of a metadata cache adds one ebuild or
none, and a cache that is read without an error adds what its categories list, once for each time
that it is listed (`perm_readCategories`).
-/

namespace PackageIndex

/-- An ebuild of a tree with the names under which it stands there. -/
structure Holding where
  /-- The name of the category. -/
  category : String
  /-- The name of the package. -/
  package : String
  /-- The ebuild. -/
  ebuild : Ebuild

def Category.holdings (c : Category) : List Holding :=
  c.packages.flatMap fun p => p.ebuilds.map (Holding.mk c.name p.name)

def Tree.holdings (t : Tree) : List Holding :=
  t.categories.flatMap Category.holdings

/-! ## Changes that only add -/

/-- A package that gets ebuilds adds them to what its category holds. -/
theorem Category.perm_holdings_update {f : Package → Package} {es : List Ebuild}
    (hf : Package.Adds es f) (c : Category) (name : String) :
    (c.update name f).holdings.Perm
      (es.map (fun e => ⟨c.name, name, e.normalize⟩) ++ c.holdings) := by
  refine Named.perm_flatMap_upsert rfl c.packages ?_
  -- The package under the name, which may have been added.
  generalize hp : (Named.find? Package.name name c.packages).getD { category := c.name, name } = p
  have hname : p.name = name := by
    rw [← hp]
    exact Named.nameOf_find?_getD (by rfl) c.packages
  have hperm := (Releases.perm_insertAll es p.releases).map (Holding.mk c.name name)
  rw [List.map_append, List.map_map] at hperm
  rw [Category.update, hf.name, hname, Package.ebuilds, hf.releases]
  exact hperm

/-- What a category adds to what it holds, it adds to what the tree holds. -/
theorem Tree.perm_holdings_update {g : Category → Category} {name : String} {added : List Holding}
    (hg : ∀ c, c.name = name → (g c).holdings.Perm (added ++ c.holdings)) (t : Tree) :
    (t.update name g).holdings.Perm (added ++ t.holdings) := by
  refine Named.perm_flatMap_upsert rfl t.categories ?_
  exact hg _ (Named.nameOf_find?_getD (by rfl) t.categories)

namespace Source

/-- To read a category and put it in the place of the old one is to change the category. -/
theorem value_addCategory (s : Source) (fs : FileSystem) (t : Tree) (name : String) :
    (s.addCategory fs t name).value = t.update name fun c => (s.readCategory fs c).value := by
  unfold addCategory Tree.update Tree.findCategory?
  dsimp only
  rw [Named.upsert_congr (g := fun c => (s.readCategory fs c).value) rfl]

end Source

/-! ## The files of a metadata cache -/

namespace MetadataCache

variable {cache : MetadataCache} {fs : FileSystem} {category file : String} {c : Category}
  {t : Tree} {held : Holding}

/-- What a file of a category's directory adds to the category, if it is an entry of a version that
can be read. -/
def holdingOf? (cache : MetadataCache) (fs : FileSystem) (category file : String) :
    Option Holding := do
  let (name, text) ← splitNameVersion file
  let version ← Version.ofString? text
  let entry ← (cache.readEntry fs (category ++ "/" ++ name) text).toOption
  return ⟨category, name, (cache.ebuild entry version).normalize⟩

/-- What the directory of a category adds to the category. -/
def holdingsIn (cache : MetadataCache) (fs : FileSystem) (category : String) : List Holding :=
  ((visibleNames fs (Path.join cache.directory category)).toOption.getD []).filterMap
    (cache.holdingOf? fs category)

/-- What the cache adds to a tree, category by category as they are listed, some perhaps twice. -/
def holdings (cache : MetadataCache) (fs : FileSystem) : List Holding :=
  ((cache.categoryNames fs).toOption.getD []).flatMap (cache.holdingsIn fs)

theorem adds_addEntry (cache : MetadataCache) (entry : CacheEntry) (version : Version) :
    Package.Adds [cache.ebuild entry version] (cache.addEntry entry version) := by
  have hdescribe : Package.Adds [] entry.describe := ⟨fun _ => rfl, fun _ => rfl, fun _ => rfl⟩
  exact ((hdescribe.ite .refl).trans (.addUseFlags _)).trans (.add _)

theorem addFile_eq (cache : MetadataCache) (fs : FileSystem) (c : Category) (file : String) :
    cache.addFile fs c file = c ∧ cache.holdingOf? fs c.name file = none ∨
    ∃ name entry version, cache.addFile fs c file = c.update name (cache.addEntry entry version) ∧
      cache.holdingOf? fs c.name file =
        some ⟨c.name, name, (cache.ebuild entry version).normalize⟩ := by
  unfold addFile holdingOf?
  cases splitNameVersion file with
  | none => exact .inl ⟨rfl, rfl⟩
  | some parts =>
    obtain ⟨name, text⟩ := parts
    dsimp only
    cases hv : Version.ofString? text with
    | none => exact .inl ⟨rfl, by simp [hv]⟩
    | some version =>
      dsimp only
      cases hr : cache.readEntry fs (c.name ++ "/" ++ name) text with
      | error e => exact .inl ⟨rfl, by simp [hv, hr, Except.toOption]⟩
      | ok entry => exact .inr ⟨name, entry, version, rfl, by simp [hv, hr, Except.toOption]⟩

theorem name_addFile : (cache.addFile fs c file).name = c.name := by
  rcases addFile_eq cache fs c file with ⟨h, -⟩ | ⟨name, entry, version, h, -⟩
  · rw [h]
  · rw [h]
    rfl

theorem perm_addFile : (cache.addFile fs c file).holdings.Perm
    ((cache.holdingOf? fs c.name file).toList ++ c.holdings) := by
  rcases addFile_eq cache fs c file with ⟨h, hnone⟩ | ⟨name, entry, version, h, hsome⟩
  · rw [h, hnone]
    exact .refl _
  · rw [h, hsome]
    exact Category.perm_holdings_update (adds_addEntry cache entry version) c name

theorem foldl_addFile (files : List String) : ∀ c : Category,
    (files.foldl (cache.addFile fs) c).name = c.name ∧
      (files.foldl (cache.addFile fs) c).holdings.Perm
        (files.filterMap (cache.holdingOf? fs c.name) ++ c.holdings) := by
  induction files with
  | nil =>
    intro c
    exact ⟨rfl, .refl _⟩
  | cons file files ih =>
    intro c
    obtain ⟨hname, hperm⟩ := ih (cache.addFile fs c file)
    rw [name_addFile] at hname hperm
    refine ⟨hname, (hperm.trans (perm_addFile.append_left _)).trans ?_⟩
    have hcons : (file :: files).filterMap (cache.holdingOf? fs c.name) =
        (cache.holdingOf? fs c.name file).toList ++
          files.filterMap (cache.holdingOf? fs c.name) := by
      cases h : cache.holdingOf? fs c.name file with
      | none => simp [h]
      | some held => simp [h]
    rw [hcons, List.append_assoc]
    exact List.perm_append_comm_assoc _ _ _

/-! ## Categories and whole caches -/

theorem readCategory_adds (cache : MetadataCache) (fs : FileSystem) (c : Category) :
    (cache.readCategory fs c).value.name = c.name ∧
    (cache.readCategory fs c).value.holdings.Perm
      (cache.holdingsIn fs c.name ++ c.holdings) := by
  unfold readCategory holdingsIn
  cases visibleNames fs (Path.join cache.directory c.name) with
  | ok files => exact foldl_addFile files c
  | error fault => cases fault <;> exact ⟨rfl, .refl _⟩

theorem perm_addCategory (name : String) :
    ((Source.cache cache).addCategory fs t name).value.holdings.Perm
      (cache.holdingsIn fs name ++ t.holdings) := by
  rw [Source.value_addCategory]
  refine Tree.perm_holdings_update (fun c hname => ?_) t
  have hperm := (readCategory_adds cache fs c).2
  rw [hname] at hperm
  exact hperm

/-- A cache that is read without an error adds what its categories add. -/
theorem perm_readCategories (h : ((Source.cache cache).readCategories fs t).error? = none) :
    ((Source.cache cache).readCategories fs t).value.holdings.Perm
      (cache.holdings fs ++ t.holdings) := by
  unfold Source.readCategories Source.readEachCategory at h ⊢
  unfold holdings
  have hnames : (Source.cache cache).categoryNames fs = cache.categoryNames fs := rfl
  dsimp only at h ⊢
  rw [hnames] at h ⊢
  cases hc : cache.categoryNames fs with
  | error e =>
    rw [hc] at h
    cases h
  | ok names =>
    rw [hc] at h
    exact Attempt.perm_each (fun a name _ => perm_addCategory name) names t h

end MetadataCache

end PackageIndex
