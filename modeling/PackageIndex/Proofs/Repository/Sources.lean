import PackageIndex.Proofs.Repository.Layers
import PackageIndex.Proofs.Repository.Merging

/-!
# The sources of a build

A build that succeeds has registered its sources under one header, the metadata caches of the
repositories first, and has read one after the other without an error. So the tree holds exactly
what the sources hold (`holdings_perm_of_sources`), and what it holds from a cache has the key of
the repository's path.
-/

namespace PackageIndex

theorem Tree.perm_holdings_sortCategories (t : Tree) : t.sortCategories.holdings.Perm t.holdings :=
  (List.mergeSort_perm _ _).flatMap_right _

namespace Source

variable {fs : FileSystem} {t : Tree}

/-- The layer that the ebuilds of a source are in. -/
def key : Source → OverlayKey
  | cache repository => repository.key
  | database file => file.key

/-- What a source adds to a tree. -/
def holdings (fs : FileSystem) : Source → List Holding
  | cache repository => repository.holdings fs
  | database file => file.holdings fs

theorem perm_readCategories (s : Source) (h : (s.readCategories fs t).error? = none) :
    (s.readCategories fs t).value.holdings.Perm (s.holdings fs ++ t.holdings) := by
  cases s with
  | cache repository => exact MetadataCache.perm_readCategories h
  | database file => exact DatabaseImport.perm_readCategories h

end Source

/-- All sources read into an empty tree, one after the other. -/
def Source.readAll (fs : FileSystem) (sources : List Source) : Attempt Tree :=
  .each (fun t (s : Source) => s.readCategories fs t) {} sources

namespace BuildConfig

variable {config : BuildConfig} {fs : FileSystem} {t : Tree} {h : Header} {sources : List Source}

theorem build_eq_ok (hb : config.build fs = .ok (t, h)) :
    ∃ sources, config.sources fs = .ok (h, sources) ∧
      (Source.readAll fs sources).error? = none ∧
      t = (Source.readAll fs sources).value.sortCategories := by
  obtain ⟨⟨h', sources⟩, hs, hb⟩ := Decoder.bind_eq_ok hb
  obtain ⟨built, hbuilt, hb⟩ := Decoder.bind_eq_ok hb
  cases hb
  obtain ⟨herror, rfl⟩ := Attempt.toExcept_eq_ok hbuilt
  exact ⟨sources, hs, herror, rfl⟩

theorem build_of_readAll (hs : config.sources fs = .ok (h, sources))
    (hread : Source.readAll fs sources = { value := t }) :
    config.build fs = .ok (t.sortCategories, h) := by
  unfold Source.readAll at hread
  unfold build
  rw [hs]
  dsimp only [bind, Except.bind]
  rw [hread]
  rfl

theorem sources_eq_ok (hs : config.sources fs = .ok (h, sources)) :
    ∃ (h₀ h₁ : Header) (caches imports : List Source), h₀.overlays = [] ∧
      config.Registers config.repositories h₀ h₁ caches ∧
      addImports fs h₁ config.imports = .ok (h, imports) ∧ sources = caches ++ imports := by
  let h₀ : Header := { Header.new with storesDependencies := config.withDependencies }
  have hreg := registers_addRepositories config fs config.repositories h₀
  have hs : (addImports fs (config.addRepositories fs h₀ config.repositories).1 config.imports >>=
      fun r => .ok (r.1, (config.addRepositories fs h₀ config.repositories).2 ++ r.2)) =
        .ok (h, sources) := hs
  obtain ⟨⟨h', imports⟩, himports, hs⟩ := Decoder.bind_eq_ok hs
  cases hs
  exact ⟨h₀, _, _, imports, rfl, hreg, himports, rfl⟩

/-- The sources of a build are the caches of its repositories, with the keys that their paths have
in the header, and behind them the imports. -/
theorem caches_of_sources (hs : config.sources fs = .ok (h, sources)) :
    (∀ root ∈ config.repositories, h.Knows root) ∧
      ∃ imports, sources =
          (config.repositories.map fun root => .cache (config.cacheOf h root)) ++ imports ∧
        ∀ s ∈ imports, ∃ file : DatabaseImport,
          s = .database file ∧ file.key.toNat < h.overlays.length := by
  obtain ⟨h₀, h₁, caches, imports, -, hreg, himports, rfl⟩ := sources_eq_ok hs
  obtain ⟨hkeeps, hkeys⟩ := addImports_spec fs config.imports h₁ h imports himports
  refine ⟨fun root hroot => (hreg.knows root hroot).mono hkeeps, imports, ?_, hkeys⟩
  rw [hreg.sources_eq]
  congr 1
  refine List.map_congr_left fun root hroot => ?_
  unfold cacheOf
  rw [Header.keyOf_of_extends hkeeps (hreg.knows root hroot)]

/-- The key of every source is one of the header's table. -/
theorem key_lt_of_sources (hs : config.sources fs = .ok (h, sources)) {s : Source}
    (hmem : s ∈ sources) : s.key.toNat < h.overlays.length := by
  obtain ⟨hknows, imports, rfl, hkeys⟩ := caches_of_sources hs
  rcases List.mem_append.1 hmem with hmem | hmem
  · obtain ⟨root, hroot, rfl⟩ := List.mem_map.1 hmem
    exact Header.toNat_keyOf_lt (hknows root hroot)
  · obtain ⟨file, rfl, hlt⟩ := hkeys s hmem
    exact hlt

/-- The tree of a build that succeeds holds what its sources add to it. -/
theorem holdings_perm_of_sources (herror : (Source.readAll fs sources).error? = none) :
    (Source.readAll fs sources).value.sortCategories.holdings.Perm
      (sources.flatMap (Source.holdings fs)) := by
  have hadds := Attempt.perm_each (fun _ s hread => Source.perm_readCategories s hread) sources {}
    herror
  refine (Tree.perm_holdings_sortCategories _).trans (hadds.trans ?_)
  rw [show ({} : Tree).holdings = [] from rfl, List.append_nil]

end BuildConfig

end PackageIndex
