import PackageIndex.Proofs.Repository.Growth
import PackageIndex.Proofs.Repository.SinglePass
import PackageIndex.Proofs.Repository.SingleReading

/-!
# The tree of a build is well formed

Whatever layers are read, and whatever they hold, the tree in the end is in order
(`build_wellFormed`): every source only lets the tree grow by ebuilds of its layer, which keeps all
but the order of the categories, and these are sorted at the end. Where an ebuild was read from a
repository, its key is that of a layer with the path of the repository.
-/

namespace PackageIndex

variable {key : OverlayKey} {layers : Nat} {c c' : Category} {t t' : Tree}

/-- The packages of a category have names of their own and are of the category, and each has
ebuilds, in ascending order and of layers that there are. -/
structure Category.WellFormed (layers : Nat) (c : Category) : Prop where
  names : (c.packages.map Package.name).Nodup
  category_eq : ∀ p ∈ c.packages, p.category = c.name
  ebuilds_ne_nil : ∀ p ∈ c.packages, p.ebuilds ≠ []
  ascending : ∀ p ∈ c.packages, p.ebuilds.Pairwise fun e u => e.version ≤ u.version
  overlay_lt : ∀ p ∈ c.packages, ∀ e ∈ p.ebuilds, e.overlay.toNat < layers

/-- The categories are in strictly ascending order of their names and well formed. -/
structure Tree.WellFormed (layers : Nat) (t : Tree) : Prop where
  ascending : t.categories.Pairwise fun c d => c.name < d.name
  categories : ∀ c ∈ t.categories, c.WellFormed layers

/-! ## Growing and sorting -/

theorem Category.wellFormed_empty (name : String) : Category.WellFormed layers { name } :=
  ⟨.nil, nofun, nofun, nofun, nofun⟩

theorem Category.Grows.wellFormed (hkey : key.toNat < layers) (h : Grows key c c')
    (hc : c.WellFormed layers) : c'.WellFormed layers := by
  have hoccupied : c'.Occupied :=
    h.occupied fun p hp => ⟨hc.category_eq p hp, hc.ebuilds_ne_nil p hp⟩
  have hinsert : ∀ (r : Releases) (e : Ebuild), e.overlay = key →
      (∀ u ∈ r.toList, u.overlay.toNat < layers) →
        ∀ u ∈ (r.insert e).toList, u.overlay.toNat < layers := by
    intro r e he hr u hu
    rcases Releases.mem_place.1 hu with rfl | hu
    · show e.overlay.toNat < layers
      rw [he]
      exact hkey
    · exact hr u hu
  exact {
    names := h.nodup_packages hc.names
    category_eq := fun p hp => (hoccupied p hp).1
    ebuilds_ne_nil := fun p hp => (hoccupied p hp).2
    ascending := fun p _ => p.releases.ascending
    overlay_lt := h.forall_releases nofun hinsert hc.overlay_lt }

theorem Tree.wellFormed_sortCategories (hnames : (t.categories.map Category.name).Nodup)
    (hcs : ∀ c ∈ t.categories, c.WellFormed layers) : t.sortCategories.WellFormed layers := by
  have hperm : t.sortCategories.categories.Perm t.categories := List.mergeSort_perm _ _
  have hle : t.sortCategories.categories.Pairwise fun c d => c.name ≤ d.name := by
    refine (List.pairwise_mergeSort ?_ ?_ t.categories).imp of_decide_eq_true
    · intro c d e hcd hde
      exact decide_eq_true (String.le_trans (of_decide_eq_true hcd) (of_decide_eq_true hde))
    · intro c d
      rw [Bool.or_eq_true, decide_eq_true_eq, decide_eq_true_eq]
      exact String.le_total c.name d.name
  refine ⟨?_, fun c hc => hcs c (hperm.subset hc)⟩
  have hne := List.pairwise_map.1 ((hperm.map Category.name).nodup_iff.2 hnames)
  refine (hle.and hne).imp fun {c d} h => ?_
  exact String.not_le.1 fun hdc => h.2 (String.le_antisymm h.1 hdc)

/-! ## Builds -/

theorem Source.wellFormed_readAll (fs : FileSystem) {sources : List Source}
    (hkeys : ∀ s ∈ sources, s.key.toNat < layers) :
    ((readAll fs sources).value.categories.map Category.name).Nodup ∧
      ∀ c ∈ (readAll fs sources).value.categories, c.WellFormed layers := by
  refine Attempt.each_induction (P := fun t : Tree => (t.categories.map Category.name).Nodup ∧
    ∀ c ∈ t.categories, c.WellFormed layers) sources _ ?_ ⟨.nil, nofun⟩
  rintro t s hs ⟨hnames, hcs⟩
  have hgrows := s.grows_readCategories fs t
  refine ⟨hgrows.nodup_categories hnames, ?_⟩
  exact hgrows.forall_categories Category.wellFormed_empty
    (fun c c' hc => hc.wellFormed (hkeys s hs)) hcs

namespace BuildConfig

open DatabaseImport (stocked stockTree stockHeader)

/-- The tree of a build is well formed, with layers of its header. It holds what the sources add,
and what a metadata cache adds is, unless there are more layers than keys, of a layer with the path
of its repository. -/
theorem build_wellFormed (config : BuildConfig) (fs : FileSystem) (t : Tree) (h : Header)
    (hb : config.build fs = .ok (t, h)) :
    t.WellFormed h.overlays.length ∧
    ∃ sources, config.sources fs = .ok (h, sources) ∧
      t.holdings.Perm (sources.flatMap (Source.holdings fs)) ∧
      ∀ cache, .cache cache ∈ sources → cache.root ∈ config.repositories ∧
        (h.overlays.length ≤ UInt32.size → ∀ held ∈ cache.holdings fs,
          ∃ o, h.overlay? held.ebuild.overlay = some o ∧ o.path = cache.root) := by
  obtain ⟨sources, hs, herror, rfl⟩ := build_eq_ok hb
  have hkeys : ∀ s ∈ sources, s.key.toNat < h.overlays.length :=
    fun s hmem => key_lt_of_sources hs hmem
  obtain ⟨hnames, hcs⟩ := Source.wellFormed_readAll fs hkeys
  refine ⟨Tree.wellFormed_sortCategories hnames hcs, sources, hs,
    holdings_perm_of_sources herror, fun cache hmem => ?_⟩
  obtain ⟨hknows, imports, rfl, himports⟩ := caches_of_sources hs
  rcases List.mem_append.1 hmem with hmem | hmem
  · obtain ⟨root, hroot, hcache⟩ := List.mem_map.1 hmem
    cases hcache
    refine ⟨hroot, fun hsize held hheld => ?_⟩
    rw [MetadataCache.overlay_of_mem_holdings hheld]
    exact Header.overlay?_keyOf hsize (hknows root hroot)
  · obtain ⟨file, hfile, -⟩ := himports _ hmem
    cases hfile

-- A repository that has `a/ash`, beside a database to import from.
def mixedFiles : FileSystem :=
  DatabaseImport.stockFiles.withFile "r/metadata/md5-cache/a/ash-1" (Utf8.encode "SLOT=0")

def mixedConfig : BuildConfig where
  mainRepository := "r"
  imports := [⟨"stock.db", some "y"⟩]

def mixedHeader : Header :=
  { Header.new with overlays := [⟨"r", ""⟩, ⟨"y", ""⟩] }

def mixedCache : Source :=
  .cache (mixedConfig.cacheOf mixedHeader "r")

def mixedImport : DatabaseImport where
  request := ⟨"stock.db", some "y"⟩
  key := 1

theorem sources_mixedFiles : mixedConfig.sources mixedFiles =
    .ok (mixedHeader, [mixedCache, .database mixedImport]) := by
  decide +kernel

theorem holds_mixedFiles : Database.Holds mixedFiles mixedImport.request.path stockHeader
    (stockTree [0, 1] [1]).categories := by
  have hload : Database.load mixedFiles mixedImport.request.path =
      .ok (stockHeader, stockTree [0, 1] [1]) := by
    decide +kernel
  exact Database.holds_of_load hload

theorem readAll_mixedFiles : Source.readAll mixedFiles [mixedCache, .database mixedImport] =
    { value := stockTree [0, 1] [1] } := by
  have hcache : mixedCache.readCategories mixedFiles {} =
      { value := ⟨[⟨"a", [stocked "a" "ash" [0]]⟩]⟩ } := by
    decide +kernel
  have hselection : DatabaseImport.selection mixedImport.request stockHeader = .ok (some 1) := by
    decide +kernel
  have hmerged : DatabaseImport.mergeAll mixedImport.key (some 1)
      ⟨[⟨"a", [stocked "a" "ash" [0]]⟩]⟩
      ((stockTree [0, 1] [1]).categories.flatMap Category.packages) = stockTree [0, 1] [1] := by
    decide +kernel
  have himport := DatabaseImport.readCategories_of_holds holds_mixedFiles hselection
    ⟨[⟨"a", [stocked "a" "ash" [0]]⟩]⟩
  rw [hmerged] at himport
  have hdatabase : ∀ t, (Source.database mixedImport).readCategories mixedFiles t =
      mixedImport.readCategories mixedFiles t := fun t => rfl
  unfold Source.readAll
  rw [Attempt.each_cons, hcache]
  dsimp only
  rw [if_pos rfl, Attempt.each_cons, hdatabase, himport]
  dsimp only
  rw [if_pos rfl, Attempt.each]

theorem build_mixedFiles :
    mixedConfig.build mixedFiles = .ok (stockTree [0, 1] [1], mixedHeader) := by
  have hsort : (stockTree [0, 1] [1]).sortCategories = stockTree [0, 1] [1] :=
    congrArg Tree.mk (List.mergeSort_of_pairwise (by decide +kernel))
  rw [build_of_readAll sources_mixedFiles readAll_mixedFiles, hsort]

/-- The ebuild from the repository and those from the imported layer make a tree of two layers. -/
theorem build_wellFormed_mixed :
    mixedConfig.build mixedFiles = .ok (stockTree [0, 1] [1], mixedHeader) ∧
      (stockTree [0, 1] [1]).WellFormed 2 :=
  ⟨build_mixedFiles, (build_wellFormed _ _ _ _ build_mixedFiles).1⟩

end BuildConfig

end PackageIndex
