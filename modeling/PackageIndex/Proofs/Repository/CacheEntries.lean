import Mathlib.Data.List.Sort
import PackageIndex.Proofs.Files.Entries
import PackageIndex.Proofs.Repository.Growth
import PackageIndex.Proofs.Slot
import PackageIndex.Proofs.Text.ByteOrder
import PackageIndex.Proofs.Version.Names

/-!
# Entries of a category

What is read of a category are its entries: the files of its directory that are not hidden, are named
after a package and a version, and hold a text. Each is read once, under the path that is put together
again from its name (`mem_entriesIn_iff`), and the packages come in the order of their first files
(`firstFilesAscend_foldl`). The other files leave no trace, since the category is what comes from
adding the entries alone (`value_readCategory`).
-/

namespace PackageIndex

/-- A file of a cache: the package and the version that its name tells, and its content. -/
structure CacheFile where
  /-- The name of the package. -/
  package : String
  /-- The version. -/
  version : Version
  /-- The content. -/
  content : String

/-- The name of the file. -/
def CacheFile.name (x : CacheFile) : String :=
  x.package ++ "-" ++ toString x.version

/-! ## Values -/

/-- The last line that gives a key a value decides. -/
theorem CacheEntry.get?_parse_eq_some_iff {content key value : String} :
    (parse content).get? key = some value ↔
      ∃ before line after, Text.lines content = before ++ line :: after ∧
        ofLine? line = some (key, value) ∧ ∀ l ∈ after, ∀ v, ofLine? l ≠ some (key, v) := by
  unfold get? parse
  rw [List.lookup_eq_some_iff]
  constructor
  · rintro ⟨later, earlier, hreverse, hlater⟩
    have hentry := congrArg List.reverse hreverse
    rw [List.reverse_reverse, List.reverse_append, List.reverse_cons, List.append_assoc,
      List.singleton_append] at hentry
    obtain ⟨before, rest, hlines, -, hrest⟩ := List.filterMap_eq_append_iff.1 hentry
    obtain ⟨skipped, line, after, rfl, -, hline, hafter⟩ := List.filterMap_eq_cons_iff.1 hrest
    refine ⟨before ++ skipped, line, after, ?_, hline, ?_⟩
    · rw [hlines, List.append_assoc]
    · intro l hl v hv
      have hmem : (key, v) ∈ after.filterMap ofLine? := List.mem_filterMap.2 ⟨l, hl, hv⟩
      rw [hafter, List.mem_reverse] at hmem
      exact absurd rfl (bne_iff_ne.1 (hlater _ hmem))
  · rintro ⟨before, line, after, hlines, hline, hafter⟩
    refine ⟨(after.filterMap ofLine?).reverse, (before.filterMap ofLine?).reverse, ?_, ?_⟩
    · rw [hlines, List.filterMap_append, List.filterMap_cons, hline]
      simp
    · intro told htold
      obtain ⟨l, hl, htold⟩ := List.mem_filterMap.1 (List.mem_reverse.1 htold)
      refine bne_iff_ne.2 ?_
      rintro rfl
      exact hafter l hl told.2 htold

namespace MetadataCache

variable {cache : MetadataCache} {fs fs' : FileSystem} {category : String} {x y : CacheFile}
  {dir : Location} {name : EntryName}

/-- The ebuild that a file describes. -/
def ebuildOf (cache : MetadataCache) (x : CacheFile) : Ebuild :=
  cache.ebuild (.parse x.content) x.version

theorem normalize_ebuild (entry : CacheEntry) (version : Version) :
    (cache.ebuild entry version).normalize = cache.ebuild entry version := by
  have hdepend : Dependencies.normalize (cache.ebuild entry version).depend =
      (cache.ebuild entry version).depend := by
    unfold ebuild CacheEntry.fill
    dsimp only
    split
    · exact Dependencies.normalize_normalize _
    · rfl
  have hslot : (cache.ebuild entry version).slot = Slot.parse (entry.get "SLOT") := rfl
  unfold Ebuild.normalize
  rw [hdepend, hslot, Slot.normalize_parse, ← hslot]

/-! ## Entries -/

/-- The directory of a category. -/
def categoryDirectory (cache : MetadataCache) (category : String) : String :=
  Path.join cache.directory category

/-- A file of the directory of a category is an entry of the cache. -/
structure IsEntryAt (cache : MetadataCache) (fs : FileSystem) (category : String) (dir : Location)
    (name : EntryName) (x : CacheFile) : Prop where
  /-- The directory is that of the category. -/
  locate : fs.locate (cache.categoryDirectory category) = .ok dir
  /-- The file is named after the package and the version. -/
  text : name.text = x.name
  /-- It is not hidden. -/
  visible : name.text.toList.head? ≠ some '.'
  /-- Its path is one that the system takes. -/
  path : Path.fault? (Path.join (cache.categoryDirectory category) name.text) = none
  /-- Its name is, too. -/
  short : name.isTooLong = false
  /-- It holds the content as a text. -/
  content : fs.textIn? dir name = some x.content

/-- The cache has an entry of a category. -/
def IsEntry (cache : MetadataCache) (fs : FileSystem) (category : String) (x : CacheFile) : Prop :=
  ∃ dir name, cache.IsEntryAt fs category dir name x

/-- What a file of the directory of a category is read as, if it is an entry. -/
def entryOf? (cache : MetadataCache) (fs : FileSystem) (category file : String) :
    Option CacheFile := do
  let (package, text) ← splitNameVersion file
  let version ← Version.ofString? text
  let content ← (fs.text (cache.entryPath (category ++ "/" ++ package) text)).toOption
  return ⟨package, version, content⟩

/-- The entries of a category in the order in which they are read. -/
def entriesIn (cache : MetadataCache) (fs : FileSystem) (category : String) : List CacheFile :=
  ((visibleNames fs (cache.categoryDirectory category)).toOption.getD []).filterMap
    (cache.entryOf? fs category)

/-! ## Names of files -/

theorem mem_visibleNames_iff {path file : String} :
    file ∈ (visibleNames fs path).toOption.getD [] ↔
      ∃ dir name, fs.locate path = .ok dir ∧ fs.IsDirectoryAt dir ∧ name ∈ fs.childrenOf dir ∧
        name.text = file ∧ name.text.toList.head? ≠ some '.' := by
  unfold visibleNames
  cases hlist : fs.list path with
  | error fault =>
    refine iff_of_false List.not_mem_nil ?_
    rintro ⟨dir, name, hlocate, hdir, -, -, -⟩
    exact FileSystem.not_isDirectoryAt_of_list hlist hlocate hdir
  | ok names =>
    obtain ⟨dir, hlocate, hdir, rfl⟩ := FileSystem.list_eq_ok_iff.1 hlist
    show file ∈ List.mergeSort _ _ ↔ _
    rw [List.mem_mergeSort, List.mem_filter, List.mem_map, bne_iff_ne]
    constructor
    · rintro ⟨⟨name, hname, rfl⟩, hvisible⟩
      exact ⟨dir, name, hlocate, hdir, hname, rfl, hvisible⟩
    · rintro ⟨dir', name, hlocate', -, hname, rfl, hvisible⟩
      obtain rfl : dir = dir' := Except.ok.inj (hlocate.symm.trans hlocate')
      exact ⟨⟨name, hname, rfl⟩, hvisible⟩

theorem pairwise_visibleNames (path : String) :
    ((visibleNames fs path).toOption.getD []).Pairwise fun a b => a < b := by
  unfold visibleNames
  cases hlist : fs.list path with
  | error fault => exact List.Pairwise.nil
  | ok names =>
    have hle := List.pairwise_mergeSort' (fun a b : String => a ≤ b)
      (names.filter fun n => n.toList.head? != some '.')
    have hne := (List.mergeSort_perm _ fun a b : String => decide (a ≤ b)).nodup_iff.2
      ((FileSystem.nodup_of_list hlist).filter fun n => n.toList.head? != some '.')
    -- The names are distinct, so no two are alike.
    refine (hle.and hne).imp fun {a b} h => ?_
    exact String.not_le.1 fun hba => h.2 (String.le_antisymm h.1 hba)

/-! ## Paths of files -/

/-- The path that is put together from the parts of a name is that of the file. -/
theorem entryPath_eq (hne : category ≠ "") (hslash : '/' ∉ category.toList) {package text : String}
    (hname : name.text = package ++ "-" ++ text) :
    cache.entryPath (category ++ "/" ++ package) text =
      Path.join (cache.categoryDirectory category) name.text := by
  have hsuffix : "metadata/md5-cache" ≠ "" := by decide
  have hdirectory : cache.directory ≠ "" := Path.join_ne_empty hsuffix
  have hend : Path.endsInSlash cache.directory = false := Path.endsInSlash_join hsuffix
  have hcategory : Path.isAbsolute category = false := by
    refine beq_eq_false_iff_ne.2 fun h => hslash ?_
    exact List.mem_of_mem_head? h
  have hcategory' : Path.endsInSlash category = false := by
    refine beq_eq_false_iff_ne.2 fun h => hslash ?_
    exact List.mem_of_getLast? h
  have hrel : Path.isAbsolute (category ++ "/" ++ package ++ "-" ++ text) = false := by
    simp only [String.append_assoc]
    rw [Path.isAbsolute_append hne]
    exact hcategory
  unfold entryPath categoryDirectory
  rw [Path.join_eq_append hdirectory hend hrel,
    Path.join_eq_append (Path.join_ne_empty hne)
      ((Path.endsInSlash_join hne).trans hcategory') name.isAbsolute_text,
    Path.join_eq_append hdirectory hend hcategory, hname]
  simp only [String.append_assoc]

theorem entryOf?_eq_some_iff {file : String} :
    cache.entryOf? fs category file = some x ↔ file = x.name ∧
      fs.text (cache.entryPath (category ++ "/" ++ x.package) (toString x.version)) =
        .ok x.content := by
  unfold entryOf?
  constructor
  · intro h
    obtain ⟨⟨package, text⟩, hsplit, h⟩ := Option.bind_eq_some_iff.1 h
    obtain ⟨version, hversion, h⟩ := Option.bind_eq_some_iff.1 h
    obtain ⟨content, hcontent, h⟩ := Option.bind_eq_some_iff.1 h
    cases h
    obtain rfl : toString version = text := Version.ofString?_eq_some_iff.1 hversion
    refine ⟨eq_of_splitNameVersion hsplit, ?_⟩
    dsimp only at hcontent ⊢
    cases htext : fs.text (cache.entryPath (category ++ "/" ++ package) (toString version)) with
    | ok content' =>
      rw [htext] at hcontent
      exact congrArg Except.ok (Option.some_inj.1 hcontent)
    | error fault =>
      rw [htext] at hcontent
      cases hcontent
  · rintro ⟨rfl, hcontent⟩
    have hsplit : splitNameVersion x.name = some (x.package, toString x.version) :=
      splitNameVersion_toString x.package x.version
    have hversion : Version.ofString? (toString x.version) = some x.version :=
      Version.ofString?_eq_some_iff.2 rfl
    rw [hsplit, Option.bind_eq_bind, Option.bind_some]
    dsimp only
    rw [hversion, Option.bind_eq_bind, Option.bind_some, hcontent]
    rfl

/-! ## What is read -/

/-- The entries that are read are those that the cache has. -/
theorem mem_entriesIn_iff (hne : category ≠ "") (hslash : '/' ∉ category.toList) :
    x ∈ cache.entriesIn fs category ↔ cache.IsEntry fs category x := by
  unfold entriesIn
  rw [List.mem_filterMap]
  constructor
  · rintro ⟨file, hfile, hentry⟩
    obtain ⟨dir, name, hlocate, -, -, rfl, hvisible⟩ := mem_visibleNames_iff.1 hfile
    obtain ⟨hname, htext⟩ := entryOf?_eq_some_iff.1 hentry
    rw [entryPath_eq hne hslash hname] at htext
    obtain ⟨hpath, hshort, dir', hwalk, hcontent⟩ := FileSystem.text_join_eq_ok_iff.1 htext
    have hwalk' := (FileSystem.locate_eq_ok_iff.1 hlocate).2
    obtain rfl : dir = dir' := Except.ok.inj (hwalk'.symm.trans hwalk)
    exact ⟨dir, name, hlocate, hname, hvisible, hpath, hshort, hcontent⟩
  · rintro ⟨dir, name, h⟩
    obtain ⟨hdir, bytes, modified, hfile, -⟩ := FileSystem.textIn?_eq_some_iff.1 h.content
    have hmem : name ∈ fs.childrenOf dir := by
      rw [FileSystem.mem_childrenOf, hfile]
      rfl
    have hwalk := (FileSystem.locate_eq_ok_iff.1 h.locate).2
    refine ⟨name.text, mem_visibleNames_iff.2 ⟨dir, name, h.locate, hdir, hmem, rfl, h.visible⟩, ?_⟩
    refine entryOf?_eq_some_iff.2 ⟨h.text, ?_⟩
    rw [entryPath_eq hne hslash h.text]
    exact FileSystem.text_join_eq_ok_iff.2 ⟨h.path, h.short, dir, hwalk, h.content⟩

theorem fillEbuild_of_mem_entriesIn (hx : x ∈ cache.entriesIn fs category) :
    cache.fillEbuild fs (category ++ "/" ++ x.package) (toString x.version)
      { version := x.version } = .ok (cache.ebuildOf x) := by
  obtain ⟨file, -, hentry⟩ := List.mem_filterMap.1 hx
  unfold fillEbuild readEntry
  dsimp only
  rw [(entryOf?_eq_some_iff.1 hentry).2]
  rfl

/-- The entries are read in the order of their names. -/
theorem pairwise_entriesIn (cache : MetadataCache) (fs : FileSystem) (category : String) :
    (cache.entriesIn fs category).Pairwise fun x y => x.name < y.name := by
  refine List.pairwise_filterMap.2 ((pairwise_visibleNames _).imp ?_)
  intro file file' hlt x hx y hy
  rwa [(entryOf?_eq_some_iff.1 hx).1, (entryOf?_eq_some_iff.1 hy).1] at hlt

theorem nodup_names_entriesIn (cache : MetadataCache) (fs : FileSystem) (category : String) :
    ((cache.entriesIn fs category).map CacheFile.name).Nodup := by
  refine List.pairwise_map.2 ((pairwise_entriesIn cache fs category).imp ?_)
  exact fun hlt heq => String.lt_irrefl _ (heq ▸ hlt)

/-- The entries of a category depend on nothing but which entries the cache has. -/
theorem entriesIn_congr (hne : category ≠ "") (hslash : '/' ∉ category.toList)
    (h : ∀ x, cache.IsEntry fs category x ↔ cache.IsEntry fs' category x) :
    cache.entriesIn fs category = cache.entriesIn fs' category := by
  have hperm : (cache.entriesIn fs category).Perm (cache.entriesIn fs' category) := by
    refine (List.perm_ext_iff_of_nodup ?_ ?_).2 fun x => ?_
    · exact (nodup_names_entriesIn cache fs category).of_map
    · exact (nodup_names_entriesIn cache fs' category).of_map
    · rw [mem_entriesIn_iff hne hslash, mem_entriesIn_iff hne hslash, h]
  refine hperm.eq_of_pairwise ?_ (pairwise_entriesIn cache fs category)
    (pairwise_entriesIn cache fs' category)
  intro a b _ _ hab hba
  exact absurd hba (String.lt_asymm hab)

/-- Adds the ebuild of an entry to its package. -/
def enter (cache : MetadataCache) (c : Category) (x : CacheFile) : Category :=
  c.update x.package (cache.addEntry (.parse x.content) x.version)

theorem addFile_eq_enter (cache : MetadataCache) (fs : FileSystem) (c : Category) (file : String) :
    cache.addFile fs c file = (cache.entryOf? fs c.name file).elim c (cache.enter c) := by
  unfold addFile entryOf? readEntry
  cases splitNameVersion file with
  | none => rfl
  | some parts =>
    obtain ⟨package, text⟩ := parts
    dsimp only
    cases hv : Version.ofString? text with
    | none => simp [hv]
    | some version =>
      dsimp only
      cases ht : fs.text (cache.entryPath (c.name ++ "/" ++ package) text) with
      | error fault => simp [hv, ht, Except.toOption]
      | ok content => simp [hv, ht, Except.toOption, enter]

theorem holdingOf?_eq_map (cache : MetadataCache) (fs : FileSystem) (category file : String) :
    cache.holdingOf? fs category file = (cache.entryOf? fs category file).map fun x =>
      ⟨category, x.package, cache.ebuildOf x⟩ := by
  unfold holdingOf? entryOf? readEntry
  cases splitNameVersion file with
  | none => rfl
  | some parts =>
    obtain ⟨package, text⟩ := parts
    cases hv : Version.ofString? text with
    | none => simp [hv]
    | some version =>
      cases ht : fs.text (cache.entryPath (category ++ "/" ++ package) text) with
      | error fault => simp [hv, ht, Except.toOption]
      | ok content => simp [hv, ht, Except.toOption, normalize_ebuild, ebuildOf]

/-- To read a category is to add its entries alone. -/
theorem value_readCategory (cache : MetadataCache) (fs : FileSystem) (c : Category) :
    (cache.readCategory fs c).value = (cache.entriesIn fs c.name).foldl cache.enter c := by
  have hfold : ∀ (files : List String) (c : Category), files.foldl (cache.addFile fs) c =
      (files.filterMap (cache.entryOf? fs c.name)).foldl cache.enter c := by
    intro files
    induction files with
    | nil => exact fun c => rfl
    | cons file files ih =>
      intro c
      rw [List.foldl_cons, ih, name_addFile, addFile_eq_enter]
      cases hx : cache.entryOf? fs c.name file with
      | none => rw [List.filterMap_cons_none hx, Option.elim_none]
      | some x => rw [List.filterMap_cons_some hx, Option.elim_some, List.foldl_cons]
  unfold readCategory entriesIn categoryDirectory
  cases visibleNames fs (Path.join cache.directory c.name) with
  | ok files => exact hfold files c
  | error fault => cases fault <;> rfl

/-! ## What a category holds then -/

theorem holdingsIn_eq_map (cache : MetadataCache) (fs : FileSystem) (category : String) :
    cache.holdingsIn fs category =
      (cache.entriesIn fs category).map fun x => ⟨category, x.package, cache.ebuildOf x⟩ := by
  unfold holdingsIn entriesIn categoryDirectory
  rw [List.map_filterMap]
  exact List.filterMap_congr fun file _ => holdingOf?_eq_map cache fs category file

section

variable {c : Category}

theorem perm_holdings_readCategory (h : cache.readCategory fs { name := category } = { value := c }) :
    c.name = category ∧ c.holdings.Perm ((cache.entriesIn fs category).map fun x =>
      ⟨category, x.package, cache.ebuildOf x⟩) := by
  obtain ⟨hname, hperm⟩ := readCategory_adds cache fs { name := category }
  rw [h] at hname hperm
  refine ⟨hname, ?_⟩
  rw [← holdingsIn_eq_map]
  exact hperm.trans (.of_eq (List.append_nil _))

theorem exists_mem_ebuilds_iff (h : cache.readCategory fs { name := category } = { value := c })
    {package : String} {e : Ebuild} :
    (∃ p ∈ c.packages, p.name = package ∧ e ∈ p.ebuilds) ↔
      ∃ x ∈ cache.entriesIn fs category, x.package = package ∧ e = cache.ebuildOf x := by
  obtain ⟨hname, hperm⟩ := perm_holdings_readCategory h
  have hheld : (∃ p ∈ c.packages, p.name = package ∧ e ∈ p.ebuilds) ↔
      Holding.mk category package e ∈ c.holdings := by
    unfold Category.holdings
    simp [hname, and_comm]
  rw [hheld, hperm.mem_iff, List.mem_map]
  simp [eq_comm]

theorem nodup_ebuilds (h : cache.readCategory fs { name := category } = { value := c })
    {p : Package} (hp : p ∈ c.packages) : p.ebuilds.Nodup := by
  have hentries : ((cache.entriesIn fs category).map fun x =>
      Holding.mk category x.package (cache.ebuildOf x)).Nodup := by
    -- What is held tells the name of the file.
    refine List.Nodup.of_map (fun held => held.package ++ "-" ++ toString held.ebuild.version) ?_
    rw [List.map_map]
    exact nodup_names_entriesIn cache fs category
  have hnodup := (perm_holdings_readCategory h).2.nodup_iff.2 hentries
  exact ((List.nodup_flatMap.1 hnodup).1 p hp).of_map

/-- The ebuilds of a package with the text of a version are the one of its entry. -/
theorem filter_ebuilds (h : cache.readCategory fs { name := category } = { value := c })
    (hx : x ∈ cache.entriesIn fs category) {p : Package} (hp : p ∈ c.packages)
    (hnames : (c.packages.map Package.name).Nodup) (hpackage : p.name = x.package) :
    p.ebuilds.filter (fun e => toString e.version = toString x.version) = [cache.ebuildOf x] := by
  have hmem : ∀ e, e ∈ p.ebuilds ↔
      ∃ y ∈ cache.entriesIn fs category, y.package = p.name ∧ e = cache.ebuildOf y := by
    intro e
    rw [← exists_mem_ebuilds_iff h]
    constructor
    · exact fun he => ⟨p, hp, rfl, he⟩
    · rintro ⟨q, hq, hname, he⟩
      rwa [List.inj_on_of_nodup_map hnames hq hp hname] at he
  have hself : cache.ebuildOf x ∈ p.ebuilds := (hmem _).2 ⟨x, hx, hpackage.symm, rfl⟩
  have hfilter : p.ebuilds.filter (fun e => toString e.version = toString x.version) =
      p.ebuilds.filter (· == cache.ebuildOf x) := by
    refine List.filter_congr fun e he => ?_
    rw [Bool.eq_iff_iff, decide_eq_true_eq, beq_iff_eq]
    constructor
    · intro hversion
      obtain ⟨y, hy, hname, rfl⟩ := (hmem e).1 he
      have hfile : y.name = x.name := by
        unfold CacheFile.name
        rw [hname, hpackage]
        exact congrArg _ hversion
      rw [List.inj_on_of_nodup_map (nodup_names_entriesIn cache fs category) hy hx hfile]
    · rintro rfl
      rfl
  rw [hfilter, List.filter_beq, List.count_eq_one_of_mem (nodup_ebuilds h hp) hself]
  rfl

/-! ## The order of the packages -/

theorem names_enter (cache : MetadataCache) (c : Category) (x : CacheFile) :
    (cache.enter c x).packages.map Package.name =
      if x.package ∈ c.packages.map Package.name then c.packages.map Package.name
      else c.packages.map Package.name ++ [x.package] := by
  have hadds := adds_addEntry cache (.parse x.content) x.version
  exact Named.map_upsert (fun p hp => (hadds.name p).trans hp) (by rfl) c.packages

/-- A package comes before another if it has a file before all files of the other. -/
theorem firstFilesAscend_foldl (cache : MetadataCache) (c : Category) (hc : c.packages = [])
    (xs : List CacheFile) (hxs : xs.Pairwise fun x y => x.name < y.name) :
    (∀ n, n ∈ (xs.foldl cache.enter c).packages.map Package.name ↔ ∃ x ∈ xs, x.package = n) ∧
    ((xs.foldl cache.enter c).packages.map Package.name).Pairwise fun m n =>
      ∃ x ∈ xs, x.package = m ∧ ∀ y ∈ xs, y.package = n → x.name < y.name := by
  induction xs using List.reverseRecOn with
  | nil =>
    rw [List.foldl_nil, hc]
    exact ⟨by simp, .nil⟩
  | append_singleton xs z ih =>
    obtain ⟨hbefore, -, hlast⟩ := List.pairwise_append.1 hxs
    have hz : ∀ x ∈ xs, x.name < z.name := fun x hx => hlast x hx z (List.mem_singleton_self z)
    obtain ⟨hmem, hpairwise⟩ := ih hbefore
    have hkeep : ((xs.foldl cache.enter c).packages.map Package.name).Pairwise fun m n =>
        ∃ x ∈ xs ++ [z], x.package = m ∧ ∀ y ∈ xs ++ [z], y.package = n → x.name < y.name := by
      refine hpairwise.imp ?_
      rintro m n ⟨x, hx, hm, hall⟩
      refine ⟨x, List.mem_append_left _ hx, hm, fun y hy hn => ?_⟩
      rcases List.mem_append.1 hy with hy | hy
      · exact hall y hy hn
      · rw [List.mem_singleton.1 hy]
        exact hz x hx
    rw [List.foldl_concat, names_enter]
    by_cases hnew : z.package ∈ (xs.foldl cache.enter c).packages.map Package.name
    · rw [if_pos hnew]
      refine ⟨fun n => ?_, hkeep⟩
      constructor
      · intro hn
        obtain ⟨x, hx, hpackage⟩ := (hmem n).1 hn
        exact ⟨x, List.mem_append_left _ hx, hpackage⟩
      · rintro ⟨x, hx, rfl⟩
        rcases List.mem_append.1 hx with hx | hx
        · exact (hmem _).2 ⟨x, hx, rfl⟩
        · rw [List.mem_singleton.1 hx]
          exact hnew
    · rw [if_neg hnew]
      refine ⟨fun n => ?_, ?_⟩
      · rw [List.mem_append, hmem, List.mem_singleton]
        simp [or_and_right, exists_or, eq_comm]
      · refine List.pairwise_append.2 ⟨hkeep, List.pairwise_singleton _ _, ?_⟩
        intro m hm n hn
        obtain rfl := List.mem_singleton.1 hn
        obtain ⟨x, hx, rfl⟩ := (hmem m).1 hm
        refine ⟨x, List.mem_append_left _ hx, rfl, fun y hy hpackage => ?_⟩
        rcases List.mem_append.1 hy with hy | hy
        · exact absurd ((hmem _).2 ⟨y, hy, hpackage⟩) hnew
        · rw [List.mem_singleton.1 hy]
          exact hz x hx

/-- Where a category is read without an error, every entry of it is held once, in its own package, as
the ebuild that is filled from the entry, and the last line with a key counts. There are no other
packages and ebuilds. The packages are in the order of the bytes of their first files. What is read
depends on the entries alone, so no other file makes a difference. -/
theorem readCategory_exact (cache : MetadataCache) (fs : FileSystem) (hne : category ≠ "")
    (hslash : '/' ∉ category.toList)
    (h : cache.readCategory fs { name := category } = { value := c }) :
    (∀ x, cache.IsEntry fs category x → ∃ p ∈ c.packages, p.name = x.package ∧
      p.ebuilds.filter (fun e => toString e.version = toString x.version) = [cache.ebuildOf x] ∧
      cache.fillEbuild fs (category ++ "/" ++ x.package) (toString x.version)
        { version := x.version } = .ok (cache.ebuildOf x)) ∧
    (∀ p ∈ c.packages, p.category = category ∧ p.ebuilds ≠ [] ∧ ∀ e ∈ p.ebuilds,
      e.overlay = cache.key ∧
        ∃ x, cache.IsEntry fs category x ∧ x.package = p.name ∧ e = cache.ebuildOf x) ∧
    c.name = category ∧ (c.packages.map Package.name).Nodup ∧
    (c.packages.Pairwise fun p q => ∃ x, cache.IsEntry fs category x ∧ x.package = p.name ∧
      ∀ y, cache.IsEntry fs category y → y.package = q.name →
        Utf8.encode x.name < Utf8.encode y.name) ∧
    (∀ content key value, (CacheEntry.parse content).get? key = some value ↔
      ∃ before line after, Text.lines content = before ++ line :: after ∧
        CacheEntry.ofLine? line = some (key, value) ∧
          ∀ l ∈ after, ∀ v, CacheEntry.ofLine? l ≠ some (key, v)) ∧
    ∀ fs' c', cache.readCategory fs' { name := category } = { value := c' } →
      (∀ x, cache.IsEntry fs category x ↔ cache.IsEntry fs' category x) → c' = c := by
  have hvalue := value_readCategory cache fs { name := category }
  rw [h] at hvalue
  dsimp only at hvalue
  have hgrows : Category.Grows cache.key { name := category }
      (cache.readCategory fs { name := category }).value := grows_readCategory fs _
  rw [h] at hgrows
  have hname : c.name = category := hgrows.name
  have hnames : (c.packages.map Package.name).Nodup := hgrows.nodup_packages .nil
  have hoccupied : c.Occupied := hgrows.occupied nofun
  refine ⟨?_, ?_, hname, hnames, ?_, ?_, ?_⟩
  · intro x hentry
    have hx := (mem_entriesIn_iff hne hslash).2 hentry
    obtain ⟨p, hp, hpackage, -⟩ := (exists_mem_ebuilds_iff h).2 ⟨x, hx, rfl, rfl⟩
    exact ⟨p, hp, hpackage, filter_ebuilds h hx hp hnames hpackage, fillEbuild_of_mem_entriesIn hx⟩
  · intro p hp
    obtain ⟨hcategory, hebuilds⟩ := hoccupied p hp
    refine ⟨hcategory.trans hname, hebuilds, fun e he => ?_⟩
    obtain ⟨x, hx, hpackage, rfl⟩ := (exists_mem_ebuilds_iff h).1 ⟨p, hp, rfl, he⟩
    exact ⟨rfl, x, (mem_entriesIn_iff hne hslash).1 hx, hpackage, rfl⟩
  · have horder := (firstFilesAscend_foldl cache { name := category } rfl _
      (pairwise_entriesIn cache fs category)).2
    rw [← hvalue] at horder
    refine (List.pairwise_map.1 horder).imp ?_
    rintro p q ⟨x, hx, hpackage, hall⟩
    refine ⟨x, (mem_entriesIn_iff hne hslash).1 hx, hpackage, fun y hy hq => ?_⟩
    exact Utf8.encode_lt_encode.2 (hall y ((mem_entriesIn_iff hne hslash).2 hy) hq)
  · exact fun content key value => CacheEntry.get?_parse_eq_some_iff
  · intro fs' c' h' hentries
    have hvalue' := value_readCategory cache fs' { name := category }
    rw [h'] at hvalue'
    dsimp only at hvalue'
    rw [hvalue', hvalue, entriesIn_congr hne hslash hentries]

end

def yewCache : MetadataCache where
  root := "r"
  key := 2
  arch := "amd64"

def yewFile : CacheFile where
  package := "yew-1"
  version := ⟨⟨2, []⟩, [⟨0, []⟩], none, [], []⟩
  content := "SLOT=1\nSLOT=3/4\n"

def yewDirectories : List Location :=
  let root := Location.here.child ⟨"r", by decide⟩
  let metadata := root.child ⟨"metadata", by decide⟩
  let cache := metadata.child ⟨"md5-cache", by decide⟩
  [cache.child ⟨"c", by decide⟩, cache, metadata, root]

def yewDirectory : Location :=
  yewDirectories.head (by decide)

-- An entry of a package whose name ends like a version, a hidden file, and a file that is no text.
def yewFiles : FileSystem where
  entries := [(yewDirectory.child ⟨"yew-1-2.0", by decide⟩, .file (Utf8.encode yewFile.content) 0),
    (yewDirectory.child ⟨".yew-3", by decide⟩, .file (Utf8.encode "SLOT=5\n") 0),
    (yewDirectory.child ⟨"yew-1", by decide⟩, .file [0xFF] 0)] ++
      yewDirectories.map fun dir => (dir, .directory 0)
  distinct := by decide +kernel

def yewCategory : Category :=
  (yewCache.readCategory yewFiles { name := "c" }).value

theorem isEntry_yew : yewCache.IsEntry yewFiles "c" yewFile :=
  ⟨yewDirectory, ⟨"yew-1-2.0", by decide⟩,
    { locate := by decide +kernel
      text := by decide +kernel
      visible := by decide +kernel
      path := by decide +kernel
      short := by decide +kernel
      content := by decide +kernel }⟩

/-- The entry is held, with the last of its slots. -/
theorem readCategory_exact_yew :
    (∃ p ∈ yewCategory.packages, p.name = "yew-1" ∧
      p.ebuilds.filter (fun e => toString e.version = toString yewFile.version) =
        [yewCache.ebuildOf yewFile]) ∧
      (yewCache.ebuildOf yewFile).slot = ⟨"3", some "4"⟩ := by
  have hne : "c" ≠ "" := by decide
  have hslash : '/' ∉ "c".toList := by decide
  have herror : (yewCache.readCategory yewFiles { name := "c" }).error? = none := by
    decide +kernel
  have hread : yewCache.readCategory yewFiles { name := "c" } = { value := yewCategory } :=
    Attempt.eq_of_error?_eq_none herror
  obtain ⟨p, hp, hname, hebuilds, -⟩ :=
    (readCategory_exact yewCache yewFiles hne hslash hread).1 yewFile isEntry_yew
  exact ⟨⟨p, hp, hname, hebuilds⟩, by decide +kernel⟩

end MetadataCache

end PackageIndex
