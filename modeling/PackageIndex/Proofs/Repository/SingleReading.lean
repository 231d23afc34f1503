import PackageIndex.Proofs.Repository.Sources
import PackageIndex.Proofs.Version.Names

/-!
# Every entry is read once

A build that succeeds holds exactly what its repositories add, one after the other and category by
category (`holdings_perm_of_build`). An entry is told from others by its category, its package, the
text of its version and its layer. If no repository is named twice and no list of categories repeats
a category, no entry is read twice (`build_reads_once`). Nothing takes care of repetitions: a
repository that is named twice, or a category that is listed twice, is read twice
(`build_reads_repetitions_again`).
-/

namespace PackageIndex

namespace BuildConfig

variable {config : BuildConfig} {fs : FileSystem} {t : Tree} {h : Header}

/-- Without imports there are no more layers than repositories. -/
theorem length_overlays_of_sources {sources : List Source} (hi : config.imports = [])
    (hs : config.sources fs = .ok (h, sources)) :
    h.overlays.length ≤ config.repositories.length := by
  obtain ⟨h₀, h₁, caches, imports, hnone, hreg, himports, -⟩ := sources_eq_ok hs
  rw [hi] at himports
  cases himports
  have hle := hreg.length_le
  rwa [hnone, List.length_nil, Nat.zero_add] at hle

/-- Without imports the sources of a build are the caches of the repositories. -/
theorem sources_eq_caches {sources : List Source} (hi : config.imports = [])
    (hs : config.sources fs = .ok (h, sources)) :
    sources = config.repositories.map fun root => .cache (config.cacheOf h root) := by
  obtain ⟨h₀, h₁, caches, imports, -, hreg, himports, rfl⟩ := sources_eq_ok hs
  rw [hi] at himports
  cases himports
  rw [hreg.sources_eq, List.append_nil]

/-- The tree of a build that succeeds holds what the caches of the repositories add to it. -/
theorem holdings_perm_of_build (hi : config.imports = []) (hb : config.build fs = .ok (t, h)) :
    t.holdings.Perm
      (config.repositories.flatMap fun root => (config.cacheOf h root).holdings fs) := by
  obtain ⟨sources, hs, herror, rfl⟩ := build_eq_ok hb
  have hsources : sources.flatMap (Source.holdings fs) =
      config.repositories.flatMap fun root => (config.cacheOf h root).holdings fs := by
    rw [sources_eq_caches hi hs, List.flatMap_map]
    rfl
  rw [← hsources]
  exact holdings_perm_of_sources herror

end BuildConfig

/-! ## What tells entries apart -/

/-- What tells an entry from the others of an index: its category, its package, the text of its
version, and its layer. -/
def Holding.stamp (held : Holding) : String × String × String × OverlayKey :=
  (held.category, held.package, toString held.ebuild.version, held.ebuild.overlay)

namespace MetadataCache

variable {cache : MetadataCache} {fs : FileSystem} {category file : String} {held : Holding}

/-- An entry has the category and layer that it is read for, and its file is named by its package
and the text of its version. -/
theorem holdingOf?_spec (h : cache.holdingOf? fs category file = some held) :
    held.category = category ∧ held.ebuild.overlay = cache.key ∧
      file = held.package ++ "-" ++ toString held.ebuild.version := by
  unfold holdingOf? at h
  obtain ⟨⟨name, text⟩, hsplit, h⟩ := Option.bind_eq_some_iff.1 h
  obtain ⟨version, hversion, h⟩ := Option.bind_eq_some_iff.1 h
  obtain ⟨entry, -, h⟩ := Option.bind_eq_some_iff.1 h
  cases h
  refine ⟨rfl, rfl, ?_⟩
  have htext : toString version = text := Version.ofString?_eq_some_iff.1 hversion
  exact (eq_of_splitNameVersion hsplit).trans (by rw [← htext]; rfl)

theorem nodup_visibleNames {path : String} {names : List String}
    (h : visibleNames fs path = .ok names) : names.Nodup := by
  unfold visibleNames at h
  cases hl : fs.list path with
  | error fault =>
    rw [hl] at h
    cases h
  | ok all =>
    rw [hl] at h
    cases h
    exact (List.mergeSort_perm _ _).nodup_iff.2 ((FileSystem.nodup_of_list hl).filter _)

/-- The directory of a category gives no entry twice. -/
theorem nodup_holdingsIn : ((cache.holdingsIn fs category).map Holding.stamp).Nodup := by
  unfold holdingsIn
  rw [List.map_filterMap]
  have hnodup :
      ((visibleNames fs (Path.join cache.directory category)).toOption.getD []).Nodup := by
    cases h : visibleNames fs (Path.join cache.directory category) with
    | ok names => exact nodup_visibleNames h
    | error fault => exact .nil
  refine hnodup.filterMap fun file file' stamp h h' => ?_
  -- Package and version give the name of the file back.
  obtain ⟨held, hheld, rfl⟩ := Option.map_eq_some_iff.1 h
  obtain ⟨held', hheld', hstamp⟩ := Option.map_eq_some_iff.1 h'
  obtain ⟨-, hpackage, hversion, -⟩ : held'.category = held.category ∧
      held'.package = held.package ∧
      toString held'.ebuild.version = toString held.ebuild.version ∧ _ := by
    simpa [Holding.stamp] using hstamp
  rw [(holdingOf?_spec hheld).2.2, (holdingOf?_spec hheld').2.2, hpackage, hversion]

theorem holding_of_mem_holdingsIn (h : held ∈ cache.holdingsIn fs category) :
    held.category = category ∧ held.ebuild.overlay = cache.key := by
  obtain ⟨file, -, hfile⟩ := List.mem_filterMap.1 h
  exact ⟨(holdingOf?_spec hfile).1, (holdingOf?_spec hfile).2.1⟩

/-- Where the list of categories, if there is one, repeats none, no category is read twice. -/
theorem nodup_categoryNames {names : List String}
    (hlist : ∀ content, fs.text cache.categoryList = .ok content →
      (categoriesOfList content).Nodup)
    (h : cache.categoryNames fs = .ok names) : names.Nodup := by
  unfold categoryNames at h
  cases ht : fs.text cache.categoryList with
  | ok content =>
    rw [ht] at h
    cases h
    exact hlist content ht
  | error fault =>
    rw [ht] at h
    cases fault <;> try cases h
    -- There is no list, so the categories are the directories.
    unfold categoriesOfDirectory at h
    dsimp only at h
    cases hv : visibleNames fs cache.directory with
    | ok all =>
      rw [hv] at h
      cases h
      exact (nodup_visibleNames hv).filter _
    | error fault =>
      rw [hv] at h
      cases fault <;> cases h
      exact .nil

/-- A repository without repetitions gives no entry twice. -/
theorem nodup_holdings
    (hlist : ∀ content, fs.text cache.categoryList = .ok content →
      (categoriesOfList content).Nodup) :
    ((cache.holdings fs).map Holding.stamp).Nodup := by
  unfold holdings
  rw [List.map_flatMap]
  refine List.nodup_flatMap.2 ⟨fun category _ => nodup_holdingsIn, ?_⟩
  have hnames : ((cache.categoryNames fs).toOption.getD []).Nodup := by
    cases h : cache.categoryNames fs with
    | ok names => exact nodup_categoryNames hlist h
    | error e => exact .nil
  refine hnames.imp fun {c c'} hne stamp h h' => ?_
  obtain ⟨held, hheld, rfl⟩ := List.mem_map.1 h
  obtain ⟨held', hheld', hstamp⟩ := List.mem_map.1 h'
  refine hne ?_
  rw [← (holding_of_mem_holdingsIn hheld).1, ← (holding_of_mem_holdingsIn hheld').1]
  exact (congrArg Prod.fst hstamp).symm

theorem overlay_of_mem_holdings (h : held ∈ cache.holdings fs) :
    held.ebuild.overlay = cache.key := by
  obtain ⟨category, -, h⟩ := List.mem_flatMap.1 h
  exact (holding_of_mem_holdingsIn h).2

end MetadataCache

theorem Tree.nodup_of_mem_packages {t : Tree} {p : Package}
    (h : (t.holdings.map Holding.stamp).Nodup) (hp : p ∈ t.packages) :
    (p.ebuilds.map fun e => (toString e.version, e.overlay)).Nodup := by
  obtain ⟨c, hc, hp⟩ := List.mem_flatMap.1 hp
  unfold holdings Category.holdings at h
  rw [List.map_flatMap] at h
  have hcategory := (List.nodup_flatMap.1 h).1 c hc
  rw [List.map_flatMap] at hcategory
  have hpackage := (List.nodup_flatMap.1 hcategory).1 p hp
  -- Within the package only the version and the layer tell stamps apart.
  rw [show (p.ebuilds.map (Holding.mk c.name p.name)).map Holding.stamp =
    (p.ebuilds.map fun e => (toString e.version, e.overlay)).map
      fun told => (c.name, p.name, told) by rw [List.map_map, List.map_map]; rfl] at hpackage
  exact hpackage.of_map

namespace BuildConfig

variable {config : BuildConfig} {fs : FileSystem} {t : Tree} {h : Header}

/-- Different repositories give different entries, since they are in different layers. -/
theorem nodup_flatMap_holdings (hroots : config.repositories.Nodup)
    (hsize : h.overlays.length ≤ UInt32.size) (hknows : ∀ root ∈ config.repositories, h.Knows root)
    (hlists : ∀ root ∈ config.repositories, ∀ content,
      fs.text (Path.join root "profiles/categories") = .ok content →
        (MetadataCache.categoriesOfList content).Nodup) :
    ((config.repositories.flatMap fun root => (config.cacheOf h root).holdings fs).map
      Holding.stamp).Nodup := by
  rw [List.map_flatMap]
  refine List.nodup_flatMap.2 ⟨fun root hroot => ?_, ?_⟩
  · exact MetadataCache.nodup_holdings (hlists root hroot)
  · refine hroots.imp_of_mem fun {root root'} hroot hroot' hne stamp hs hs' => ?_
    obtain ⟨held, hheld, rfl⟩ := List.mem_map.1 hs
    obtain ⟨held', hheld', hstamp⟩ := List.mem_map.1 hs'
    have hlayer : held.ebuild.overlay = held'.ebuild.overlay :=
      (congrArg (fun stamp => stamp.2.2.2) hstamp).symm
    rw [MetadataCache.overlay_of_mem_holdings hheld, MetadataCache.overlay_of_mem_holdings hheld']
      at hlayer
    exact hne (Header.keyOf_injOn hsize (hknows root hroot) (hknows root' hroot') hlayer)

/-- If the repositories are distinct, and the lists of their categories repeat none, no package has
two ebuilds with one version text in one layer. -/
theorem build_reads_once (config : BuildConfig) (fs : FileSystem) (t : Tree) (h : Header)
    (hi : config.imports = []) (hb : config.build fs = .ok (t, h))
    (hroots : config.repositories.Nodup) (hsize : config.repositories.length ≤ UInt32.size)
    (hlists : ∀ root ∈ config.repositories, ∀ content,
      fs.text (Path.join root "profiles/categories") = .ok content →
        (MetadataCache.categoriesOfList content).Nodup) :
    ∀ p ∈ t.packages, (p.ebuilds.map fun e => (toString e.version, e.overlay)).Nodup := by
  intro p hp
  obtain ⟨sources, hs, -, -⟩ := build_eq_ok hb
  have hlength : h.overlays.length ≤ UInt32.size :=
    Nat.le_trans (length_overlays_of_sources hi hs) hsize
  have hperm := (holdings_perm_of_build hi hb).map Holding.stamp
  exact Tree.nodup_of_mem_packages
    (hperm.nodup_iff.2
      (nodup_flatMap_holdings hroots hlength (caches_of_sources hs).1 hlists)) hp

-- Version 1 of a package, once from every layer of a list.
def ash (layers : List OverlayKey) : Package where
  category := "a"
  name := "ash"
  releases := .ofList (layers.map fun overlay =>
    { version := ⟨⟨1, []⟩, [], none, [], []⟩, eapi := "0", overlay })

def ashTree (layers : List OverlayKey) : Tree :=
  ⟨[⟨"a", [ash layers]⟩]⟩

-- A repository that has the package and lists its category, as often as told.
def ashFiles (list : String) : FileSystem :=
  let files := FileSystem.withFile default "r/metadata/md5-cache/a/ash-1" (Utf8.encode "SLOT=0")
  files.withFile "r/profiles/categories" (Utf8.encode list)

-- The repository under two paths.
def ashConfig : BuildConfig where
  mainRepository := "r"
  overlays := ["./r"]

theorem build_ashFiles : ashConfig.build (ashFiles "a") =
    .ok (ashTree [0, 1], { Header.new with overlays := [⟨"r", ""⟩, ⟨"./r", ""⟩] }) := by
  decide +kernel

theorem lists_ashFiles : ∀ root ∈ ashConfig.repositories,
    (ashFiles "a").text (Path.join root "profiles/categories") = .ok "a" := by
  decide +kernel

/-- Under another path the repository is another layer, so the version is held once for each. -/
theorem build_reads_once_ash :
    (∃ h, ashConfig.build (ashFiles "a") = .ok (ashTree [0, 1], h)) ∧
      ashConfig.repositories.Nodup ∧
      ((ash [0, 1]).ebuilds.map fun e => (toString e.version, e.overlay)).Nodup := by
  have hroots : ashConfig.repositories.Nodup := by decide
  have hsize : ashConfig.repositories.length ≤ UInt32.size := by decide
  have hlists : ∀ root ∈ ashConfig.repositories, ∀ content,
      (ashFiles "a").text (Path.join root "profiles/categories") = .ok content →
        (MetadataCache.categoriesOfList content).Nodup := by
    intro root hroot content hc
    rw [lists_ashFiles root hroot, Except.ok.injEq] at hc
    subst hc
    decide +kernel
  have hmem : ash [0, 1] ∈ (ashTree [0, 1]).packages := List.mem_singleton_self _
  have honce := build_reads_once ashConfig (ashFiles "a") _ _ rfl build_ashFiles hroots hsize hlists
  exact ⟨⟨_, build_ashFiles⟩, hroots, honce _ hmem⟩

/-- A repository that is named twice is read twice into one layer, and so is a category that is
listed twice. -/
theorem build_reads_repetitions_again :
    let named : BuildConfig := { mainRepository := "r", overlays := ["r"] }
    let listed : BuildConfig := { mainRepository := "r" }
    (named.build (ashFiles "a")).map Prod.fst = .ok (ashTree [0, 0]) ∧
      (listed.build (ashFiles "a\na")).map Prod.fst = .ok (ashTree [0, 0]) ∧
      ¬((ash [0, 0]).ebuilds.map fun e => (toString e.version, e.overlay)).Nodup := by
  refine ⟨?_, ?_, ?_⟩
  · decide +kernel
  · decide +kernel
  · decide +kernel

end BuildConfig

end PackageIndex
