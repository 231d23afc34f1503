import PackageIndex.Proofs.Package.Latest
import PackageIndex.Proofs.Repository.CacheEntries
import PackageIndex.Proofs.Tree.Addresses

/-!
# What describes a package

Categories are read from caches one after the other, of one repository or of several. An entry
describes its package if its version is the newest of those that were read by then, and its ebuild
goes to the end of the package under the same condition. So what a package says of all its versions
comes from the entry that its latest ebuild comes from (`latest_entry_describes`), however the entries
come in.
-/

namespace PackageIndex

/-! ## What an entry says -/

namespace CacheEntry

/-- The ebuild is the latest, and what the package says of all its versions is what the entry says. -/
structure Describes (entry : CacheEntry) (e : Ebuild) (p : Package) : Prop where
  latest : p.latest = some e
  description : p.description = entry.get "DESCRIPTION"
  homepage : p.homepage = entry.get "HOMEPAGE"
  license : p.license = entry.get "LICENSE"
  provide : p.provide = entry.get "PROVIDE"

variable {entry : CacheEntry} {p : Package} {e u : Ebuild}

theorem describes_add (entry : CacheEntry) (flags : List String) (h : p.isNewest e.version = true) :
    entry.Describes e.normalize (((entry.describe p).addUseFlags flags).add e) :=
  ⟨Package.latest_add_of_isNewest h, rfl, rfl, rfl, rfl⟩

/-- An ebuild that is not the newest changes nothing of what describes the package. -/
theorem Describes.add (hp : entry.Describes e p) (flags : List String)
    (h : ¬ p.isNewest u.version = true) : entry.Describes e ((p.addUseFlags flags).add u) := by
  rw [← Package.isNewest_addUseFlags p flags] at h
  have hlatest := Package.latest_add_of_not_isNewest h
  exact ⟨hlatest.trans hp.latest, hp.description, hp.homepage, hp.license, hp.provide⟩

end CacheEntry

/-! ## Entries that are read -/

/-- An entry and the cache that it is read from. -/
structure ReadEntry where
  /-- The cache. -/
  cache : MetadataCache
  /-- The file of the entry. -/
  file : CacheFile

namespace ReadEntry

/-- The version that the name of the file tells. -/
def version (x : ReadEntry) : Version :=
  x.file.version

/-- The keys and values. -/
def values (x : ReadEntry) : CacheEntry :=
  .parse x.file.content

/-- The ebuild that the entry describes. -/
def ebuild (x : ReadEntry) : Ebuild :=
  x.cache.ebuildOf x.file

/-- The package with the ebuild of the entry. -/
def addTo (x : ReadEntry) (p : Package) : Package :=
  x.cache.addEntry x.values x.version p

/-- The latest ebuild is that of the entry, and so is what the package says of all its versions. -/
def Describes (x : ReadEntry) (p : Package) : Prop :=
  x.values.Describes x.ebuild p

variable {x y : ReadEntry} {p : Package}

theorem version_ebuild (x : ReadEntry) : x.ebuild.version = x.version :=
  rfl

theorem normalize_ebuild (x : ReadEntry) : x.ebuild.normalize = x.ebuild :=
  MetadataCache.normalize_ebuild x.values x.version

theorem addTo_eq (x : ReadEntry) (p : Package) :
    x.addTo p = ((if p.isNewest x.version then x.values.describe p else p).addUseFlags
      x.ebuild.iuse).add x.ebuild :=
  rfl

theorem releases_addTo (x : ReadEntry) (p : Package) :
    (x.addTo p).releases = p.releases.insert x.ebuild := by
  rw [addTo_eq]
  split
  · rfl
  · rfl

theorem useFlags_addTo (x : ReadEntry) (p : Package) :
    (x.addTo p).useFlags = p.useFlags.insertAll x.ebuild.iuse := by
  have hadded : ∀ (q : Package) (e : Ebuild),
      ((q.addUseFlags e.iuse).add e).useFlags = q.useFlags.insertAll e.iuse :=
    fun _ _ => rfl
  rw [addTo_eq, hadded]
  split
  · rfl
  · rfl

theorem describes_addTo (h : p.isNewest x.version = true) : x.Describes (x.addTo p) := by
  rw [addTo_eq, if_pos h]
  rw [← version_ebuild] at h
  have hadd := x.values.describes_add x.ebuild.iuse h
  rw [normalize_ebuild] at hadd
  exact hadd

theorem Describes.addTo (hy : y.Describes p) (h : ¬ p.isNewest x.version = true) :
    y.Describes (x.addTo p) := by
  rw [addTo_eq, if_neg h]
  rw [← version_ebuild] at h
  exact hy.add x.ebuild.iuse h

end ReadEntry

/-! ## One package -/

/-- The package of an address with the ebuilds of entries that were added one by one. -/
def Package.ofEntries (category name : String) (xs : List ReadEntry) : Package :=
  xs.foldl (fun p x => x.addTo p) { category, name }

namespace Package

variable {category name : String} {xs : List ReadEntry} {e : Ebuild} {flag : String}

theorem ofEntries_concat (category name : String) (xs : List ReadEntry) (x : ReadEntry) :
    ofEntries category name (xs ++ [x]) = x.addTo (ofEntries category name xs) :=
  List.foldl_concat _ _ _ _

theorem releases_ofEntries (category name : String) (xs : List ReadEntry) :
    (ofEntries category name xs).releases = .ofList (xs.map ReadEntry.ebuild) := by
  induction xs using List.reverseRecOn with
  | nil => rfl
  | append_singleton xs x ih =>
    rw [ofEntries_concat, ReadEntry.releases_addTo, ih, List.map_append, List.map_singleton,
      Releases.ofList_concat]

theorem mem_ebuilds_ofEntries :
    e ∈ (ofEntries category name xs).ebuilds ↔ ∃ x ∈ xs, e = x.ebuild := by
  unfold ebuilds
  rw [releases_ofEntries, Releases.mem_ofList]
  simp [ReadEntry.normalize_ebuild]

theorem mem_useFlags_ofEntries :
    flag ∈ (ofEntries category name xs).useFlags.toList ↔ ∃ x ∈ xs, flag ∈ x.ebuild.iuse := by
  induction xs using List.reverseRecOn with
  | nil =>
    refine iff_of_false List.not_mem_nil ?_
    rintro ⟨x, hx, -⟩
    cases hx
  | append_singleton xs x ih =>
    rw [ofEntries_concat, ReadEntry.useFlags_addTo, WordSet.mem_insertAll, ih]
    simp [or_and_right, exists_or]

/-- Some entry describes the package. No version before it is higher, and all behind it are lower. -/
theorem exists_describes_ofEntries (category name : String) (hne : xs ≠ []) :
    ∃ before x after, xs = before ++ x :: after ∧
      (∀ y ∈ before, y.version ≤ x.version) ∧ (∀ y ∈ after, ¬ x.version ≤ y.version) ∧
      x.Describes (ofEntries category name xs) := by
  induction xs using List.reverseRecOn with
  | nil => exact absurd rfl hne
  | append_singleton xs z ih =>
    rw [ofEntries_concat]
    by_cases hnewest : (ofEntries category name xs).isNewest z.version = true
    · have hle : ∀ y ∈ xs, y.version ≤ z.version := by
        intro y hy
        have hmem : y.ebuild ∈ (ofEntries category name xs).ebuilds :=
          mem_ebuilds_ofEntries.2 ⟨y, hy, rfl⟩
        exact isNewest_iff.1 hnewest y.ebuild hmem
      exact ⟨xs, z, [], rfl, hle, nofun, ReadEntry.describes_addTo hnewest⟩
    · have hxs : xs ≠ [] := by
        rintro rfl
        exact hnewest rfl
      obtain ⟨before, x, after, rfl, hbefore, hafter, hdescribes⟩ := ih hxs
      have hlower : ¬ x.version ≤ z.version := by
        rw [isNewest_iff_of_latest hdescribes.latest] at hnewest
        exact hnewest
      refine ⟨before, x, after ++ [z], ?_, hbefore, ?_, hdescribes.addTo hnewest⟩
      · rw [List.append_assoc]
        rfl
      · intro y hy
        rcases List.mem_append.1 hy with hy | hy
        · exact hafter y hy
        · rw [List.mem_singleton.1 hy]
          exact hlower

/-- What is found under an address after entries were read into what was found before. -/
def afterEntries (category name : String) (p? : Option Package) (xs : List ReadEntry) :
    Option Package :=
  xs.foldl (fun p? x => some (x.addTo (p?.getD { category, name }))) p?

theorem afterEntries_append (category name : String) (p? : Option Package)
    (xs ys : List ReadEntry) :
    afterEntries category name p? (xs ++ ys) =
      afterEntries category name (afterEntries category name p? xs) ys :=
  List.foldl_append

theorem afterEntries_none (category name : String) (xs : List ReadEntry) :
    afterEntries category name none xs = if xs = [] then none else some (ofEntries category name xs) := by
  induction xs using List.reverseRecOn with
  | nil => rfl
  | append_singleton xs x ih =>
    rw [afterEntries_append, ih, ofEntries_concat, if_neg (List.concat_ne_nil x xs)]
    split
    next hxs =>
      rw [hxs]
      rfl
    next => rfl

end Package

/-! ## Categories that are read -/

/-- A cache is asked for a category. -/
structure CategoryReading where
  /-- The cache. -/
  cache : MetadataCache
  /-- The files at that time. -/
  files : FileSystem
  /-- The category. -/
  category : String

namespace CategoryReading

/-- The entries of a package that are read, in order. -/
def entriesOf (r : CategoryReading) (category name : String) : List ReadEntry :=
  if r.category = category then
    ((r.cache.entriesIn r.files category).filter fun x => x.package = name).map
      (ReadEntry.mk r.cache)
  else []

end CategoryReading

theorem MetadataCache.find?_foldl_enter (cache : MetadataCache) (name : String)
    (xs : List CacheFile) : ∀ c : Category, (xs.foldl cache.enter c).find? name =
      Package.afterEntries c.name name (c.find? name)
        ((xs.filter fun x => x.package = name).map (ReadEntry.mk cache)) := by
  induction xs with
  | nil => exact fun c => rfl
  | cons x xs ih =>
    intro c
    have hadds := adds_addEntry cache (.parse x.content) x.version
    have hkeep : ∀ p : Package, p.name = x.package →
        (cache.addEntry (.parse x.content) x.version p).name = x.package :=
      fun p hp => (hadds.name p).trans hp
    rw [List.foldl_cons, ih]
    by_cases hx : x.package = name
    · subst hx
      have hfind : (cache.enter c x).find? x.package = _ := Category.find?_update_self hkeep c
      rw [hfind, List.filter_cons_of_pos (by simp)]
      rfl
    · have hfind : (cache.enter c x).find? name = _ :=
        Category.find?_update_of_ne hkeep (Ne.symm hx) c
      rw [hfind, List.filter_cons_of_neg (by simpa using hx)]
      rfl

namespace Tree

/-- The tree after a reading. -/
def read (t : Tree) (r : CategoryReading) : Tree :=
  t.update r.category fun c => (r.cache.readCategory r.files c).value

/-- The tree that comes from an empty one by readings. -/
def ofReadings (rs : List CategoryReading) : Tree :=
  rs.foldl read {}

theorem ofReadings_concat (rs : List CategoryReading) (r : CategoryReading) :
    ofReadings (rs ++ [r]) = (ofReadings rs).read r :=
  List.foldl_concat _ _ _ _

theorem grows_read (t : Tree) (r : CategoryReading) : Grows r.cache.key t (t.read r) :=
  .single ⟨r.category, _, MetadataCache.grows_readCategory r.files, rfl⟩

theorem addressed_ofReadings (rs : List CategoryReading) : (ofReadings rs).Addressed := by
  have hall : (ofReadings rs).NamesDistinct ∧ ∀ c ∈ (ofReadings rs).categories, c.Occupied := by
    induction rs using List.reverseRecOn with
    | nil => exact ⟨⟨.nil, nofun⟩, nofun⟩
    | append_singleton rs r ih =>
      obtain ⟨hnames, hoccupied⟩ := ih
      have hgrows := grows_read (ofReadings rs) r
      rw [ofReadings_concat]
      refine ⟨hgrows.namesDistinct hnames, ?_⟩
      exact hgrows.forall_categories (fun _ => nofun) (fun _ _ h hc => h.occupied hc) hoccupied
  exact ⟨hall.1, fun c hc p hp => (hall.2 c hc p hp).1⟩

theorem find?_read (t : Tree) (r : CategoryReading) (category name : String) :
    (t.read r).find? category name =
      Package.afterEntries category name (t.find? category name) (r.entriesOf category name) := by
  have hkeep : ∀ c : Category, c.name = r.category →
      (r.cache.readCategory r.files c).value.name = r.category :=
    fun c hc => (MetadataCache.grows_readCategory r.files c).name.trans hc
  unfold read CategoryReading.entriesOf
  by_cases hcategory : r.category = category
  · subst hcategory
    have hname : ((t.findCategory? r.category).getD { name := r.category }).name = r.category :=
      Named.nameOf_find?_getD (by rfl) t.categories
    rw [find?_update_self hkeep, MetadataCache.value_readCategory,
      MetadataCache.find?_foldl_enter, hname, find?_findCategory?_getD, if_pos rfl]
  · rw [if_neg hcategory]
    exact find?_update_of_ne hkeep (Ne.symm hcategory) t name

theorem find?_ofReadings (rs : List CategoryReading) (category name : String) :
    (ofReadings rs).find? category name =
      Package.afterEntries category name none (rs.flatMap fun r => r.entriesOf category name) := by
  induction rs using List.reverseRecOn with
  | nil => rfl
  | append_singleton rs r ih =>
    rw [ofReadings_concat, find?_read, ih, ← Package.afterEntries_append, List.flatMap_append,
      List.flatMap_singleton]

/-- **The entry of the latest ebuild describes the package.** Whatever categories are read from whatever
caches, the description, the homepage, the license and what is provided come from the entry of the
latest ebuild: the last one among those with the highest version. The ebuilds are those of all entries
of the package, and the USE flags are those of the ebuilds together. -/
theorem latest_entry_describes (rs : List CategoryReading) {p : Package}
    (hp : p ∈ (ofReadings rs).packages) :
    (∃ before x after, (rs.flatMap fun r => r.entriesOf p.category p.name) = before ++ x :: after ∧
      (∀ y ∈ before, y.version ≤ x.version) ∧ (∀ y ∈ after, ¬ x.version ≤ y.version) ∧
      x.Describes p) ∧
    p.releases = .ofList
      ((rs.flatMap fun r => r.entriesOf p.category p.name).map ReadEntry.ebuild) ∧
    ∀ flag, flag ∈ p.useFlags.toList ↔ ∃ e ∈ p.ebuilds, flag ∈ e.iuse := by
  have hfind := find?_of_mem_packages (addressed_ofReadings rs) hp
  rw [find?_ofReadings, Package.afterEntries_none] at hfind
  generalize (rs.flatMap fun r => r.entriesOf p.category p.name) = xs at hfind ⊢
  split at hfind
  next => cases hfind
  next hne =>
    have hofEntries : Package.ofEntries p.category p.name xs = p := Option.some_inj.1 hfind
    have hdescribes := Package.exists_describes_ofEntries p.category p.name hne
    have hreleases := Package.releases_ofEntries p.category p.name xs
    have hmem : ∀ e, e ∈ p.ebuilds ↔ ∃ x ∈ xs, e = x.ebuild := by
      intro e
      rw [← hofEntries]
      exact Package.mem_ebuilds_ofEntries
    have hflags : ∀ flag, flag ∈ p.useFlags.toList ↔ ∃ x ∈ xs, flag ∈ x.ebuild.iuse := by
      intro flag
      rw [← hofEntries]
      exact Package.mem_useFlags_ofEntries
    rw [hofEntries] at hdescribes hreleases
    refine ⟨hdescribes, hreleases, fun flag => ?_⟩
    rw [hflags]
    constructor
    · rintro ⟨x, hx, hflag⟩
      exact ⟨x.ebuild, (hmem _).2 ⟨x, hx, rfl⟩, hflag⟩
    · rintro ⟨e, he, hflag⟩
      obtain ⟨x, hx, rfl⟩ := (hmem e).1 he
      exact ⟨x, hx, hflag⟩

-- The directories from the category up to the repository, as they are below another one.
def oakDirectories (root : EntryName) : List Location :=
  let dir := MetadataCache.yewDirectory.names.dropLast.foldr (fun name dir => dir.child name)
    (Location.here.child root)
  [dir, dir.parent, dir.parent.parent, dir.parent.parent.parent]

def oakFile (root name : EntryName) (content : String) : Location × Node :=
  (((oakDirectories root).headD .here).child name, .file (Utf8.encode content) 0)

-- Version 10, the same version in another spelling, and a lower one.
def oakFiles : FileSystem where
  entries :=
    [oakFile ⟨"park", by decide⟩ ⟨"oak-10", by decide⟩ "DESCRIPTION=tall\nIUSE=+acorn\n",
      oakFile ⟨"grove", by decide⟩ ⟨"oak-10-r0", by decide⟩ "DESCRIPTION=old\nLICENSE=GPL-2\n",
      oakFile ⟨"lane", by decide⟩ ⟨"oak-9", by decide⟩ "DESCRIPTION=small\nIUSE=bark\n"] ++
    ([⟨"park", by decide⟩, ⟨"grove", by decide⟩, ⟨"lane", by decide⟩].flatMap
      oakDirectories).map fun dir => (dir, .directory 0)
  distinct := by decide +kernel

def oakReading (root : String) (key : OverlayKey) : CategoryReading where
  cache := { root, key, arch := "amd64" }
  files := oakFiles
  category := "c"

def oakReadings : List CategoryReading :=
  [oakReading "park" 0, oakReading "grove" 1, oakReading "lane" 2]

def oak : Package :=
  ((ofReadings oakReadings).find? "c" "oak").getD { category := "c", name := "oak" }

/-- The last entry of the highest version describes the package; the lower version came too late. -/
theorem latest_entry_describes_oak :
    oak ∈ (ofReadings oakReadings).packages ∧ (∃ x : ReadEntry, x.Describes oak) ∧
      (∀ flag, flag ∈ oak.useFlags.toList ↔ ∃ e ∈ oak.ebuilds, flag ∈ e.iuse) ∧
      oak.description = "old" ∧ oak.useFlags.toList = ["acorn", "bark"] ∧
      oak.ebuilds.map (fun e => toString e.version) = ["9", "10", "10-r0"] := by
  have hmem : oak ∈ (ofReadings oakReadings).packages := by decide +kernel
  obtain ⟨⟨before, x, after, -, -, -, hdescribes⟩, -, hflags⟩ :=
    latest_entry_describes oakReadings hmem
  exact ⟨hmem, ⟨x, hdescribes⟩, hflags, by decide +kernel⟩

end Tree

end PackageIndex
