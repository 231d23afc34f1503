import PackageIndex.Proofs.Advice.Best
import PackageIndex.Proofs.Repository.Growth
import PackageIndex.Proofs.Repository.SingleReading

/-!
# Later layers win ties

Layers are read in the order of their keys, and an ebuild is placed behind all whose versions are
alike to its own. So ebuilds with versions that are alike stand in the order of their layers, and
the best one, which is the last eligible one, is of the last layer that has one
(`later_layers_win`).
-/

namespace PackageIndex

variable {key key' : OverlayKey} {t t' : Tree}

/-! ## The order of the layers -/

/-- No ebuild is of a layer behind the one with the key, and ebuilds with versions that are alike
are in the order of their layers. -/
structure Releases.LayeredUpTo (key : OverlayKey) (r : Releases) : Prop where
  overlay_le : ∀ e ∈ r.toList, e.overlay ≤ key
  ordered : ∀ v, (alikeTo v r.toList).Pairwise fun e u => e.overlay ≤ u.overlay

namespace Releases.LayeredUpTo

variable {r : Releases} {e : Ebuild}

theorem empty (key : OverlayKey) : LayeredUpTo key .empty :=
  ⟨nofun, fun _ => .nil⟩

theorem mono (hle : key ≤ key') (h : r.LayeredUpTo key) : r.LayeredUpTo key' :=
  ⟨fun e he => UInt32.le_trans (h.overlay_le e he) hle, h.ordered⟩

theorem insert (he : e.overlay = key) (h : r.LayeredUpTo key) : (r.insert e).LayeredUpTo key := by
  have hkey : e.normalize.overlay = key := he
  refine ⟨fun u hu => ?_, fun v => ?_⟩
  · rcases mem_place.1 hu with rfl | hu
    · exact UInt32.le_of_eq hkey
    · exact h.overlay_le u hu
  · have hplace : alikeTo v (r.insert e).toList = alikeTo v r.toList ++ alikeTo v [e.normalize] :=
      alikeTo_place v e.normalize r.ascending
    have hsingle : (alikeTo v [e.normalize]).Pairwise fun e u => e.overlay ≤ u.overlay :=
      (List.pairwise_singleton _ _).filter _
    rw [hplace]
    refine List.pairwise_append.2 ⟨h.ordered v, hsingle, fun u hu w hw => ?_⟩
    have hwe : w = e.normalize := List.mem_singleton.1 (mem_alikeTo.1 hw).1
    rw [hwe, hkey]
    exact h.overlay_le u (mem_alikeTo.1 hu).1

/-- The order within each kind of versions is an order of all ebuilds. -/
theorem pairwise (h : r.LayeredUpTo key) :
    r.toList.Pairwise fun e u => e.version.alike u.version = true → e.overlay ≤ u.overlay := by
  refine List.pairwise_iff_getElem.2 fun i j hi hj hij halike => ?_
  have hordered := List.pairwise_filter.1 (h.ordered r.toList[j].version)
  exact List.pairwise_iff_getElem.1 hordered i j hi hj hij halike (Version.alike_refl _)

end Releases.LayeredUpTo

/-- The releases of all packages are in the order of layers up to the one with the key. -/
def Tree.LayeredUpTo (key : OverlayKey) (t : Tree) : Prop :=
  ∀ c ∈ t.categories, ∀ p ∈ c.packages, p.releases.LayeredUpTo key

theorem Tree.Grows.layeredUpTo (h : Grows key t t') (ht : t.LayeredUpTo key) :
    t'.LayeredUpTo key :=
  h.forall_releases (.empty key) (fun _ _ he hr => hr.insert he) ht

/-- Sources that are read in the order of their layers leave a tree in this order. -/
theorem Source.layeredUpTo_each (fs : FileSystem) (sources : List Source) :
    ∀ (t : Tree) (key : OverlayKey), (key :: sources.map Source.key).Pairwise (· ≤ ·) →
      t.LayeredUpTo key → ∃ last,
        (Attempt.each (fun t (s : Source) => s.readCategories fs t) t sources).value.LayeredUpTo
          last := by
  -- The bound moves up to the key of each source that has been read.
  induction sources with
  | nil => exact fun t key _ ht => ⟨key, ht⟩
  | cons s sources ih =>
    intro t key hkeys ht
    obtain ⟨hle, hkeys⟩ := List.pairwise_cons.1 hkeys
    have hs : (s.readCategories fs t).value.LayeredUpTo s.key :=
      (s.grows_readCategories fs t).layeredUpTo
        fun c hc p hp => (ht c hc p hp).mono (hle s.key List.mem_cons_self)
    rw [Attempt.each_cons]
    split
    · exact ih _ s.key hkeys hs
    · exact ⟨s.key, hs⟩

/-! ## The choice among ebuilds -/

/-- The ebuild is of the highest version among some, and of the last layer among those of them
whose versions are alike to its own. -/
structure Ebuild.TopOf (es : List Ebuild) (e : Ebuild) : Prop where
  mem : e ∈ es
  version_le : ∀ u ∈ es, u.version ≤ e.version
  overlay_le : ∀ u ∈ es, u.version.alike e.version = true → u.overlay ≤ e.overlay

/-- If there are any ebuilds to choose from, one on top is chosen. -/
def Ebuild.TopChoice (es : List Ebuild) : Option Ebuild → Prop
  | none => es = []
  | some e => TopOf es e

namespace Package

variable {p : Package} {f : Ebuild → Bool} {unstable : Bool} {i : Nat} {e : Ebuild}

theorem topOf_of_isGreatest
    (hp : p.ebuilds.Pairwise fun e u => e.version.alike u.version = true → e.overlay ≤ u.overlay)
    (hi : IsGreatest {j | ∃ u, p.ebuilds[j]? = some u ∧ f u = true} i)
    (he : p.ebuilds[i]? = some e) : Ebuild.TopOf (p.ebuilds.filter f) e := by
  have hfe : f e = true := by
    obtain ⟨u, hu, hfu⟩ := hi.1
    rw [he] at hu
    cases hu
    exact hfu
  -- All others that can be chosen stand before the greatest place.
  have hbelow : ∀ u ∈ p.ebuilds.filter f, u.version ≤ e.version ∧
      (u.version.alike e.version = true → u.overlay ≤ e.overlay) := by
    intro u hu
    obtain ⟨hmem, hfu⟩ := List.mem_filter.1 hu
    obtain ⟨j, hj⟩ := List.mem_iff_getElem?.1 hmem
    rcases Nat.lt_or_eq_of_le (hi.2 ⟨u, hj, hfu⟩) with hlt | rfl
    · obtain ⟨hjl, rfl⟩ := List.getElem?_eq_some_iff.1 hj
      obtain ⟨hil, rfl⟩ := List.getElem?_eq_some_iff.1 he
      exact List.pairwise_iff_getElem.1 (p.releases.ascending.and hp) j i hjl hil hlt
    · rw [he] at hj
      cases hj
      exact ⟨Version.le_refl _, fun _ => UInt32.le_refl _⟩
  have hmem : e ∈ p.ebuilds.filter f :=
    List.mem_filter.2 ⟨List.mem_iff_getElem?.2 ⟨i, he⟩, hfe⟩
  exact ⟨hmem, fun u hu => (hbelow u hu).1, fun u hu => (hbelow u hu).2⟩

theorem topChoice_of_bestAmong {places : List Nat}
    (hp : p.ebuilds.Pairwise fun e u => e.version.alike u.version = true → e.overlay ≤ u.overlay)
    (hplaces : places.Pairwise (· < ·))
    (hf : ∀ j, j ∈ places ∧ p.eligibleAt unstable j = true ↔
      ∃ u, p.ebuilds[j]? = some u ∧ f u = true) :
    Ebuild.TopChoice (p.ebuilds.filter f)
      ((p.bestAmong unstable places).bind fun i => p.ebuilds[i]?) := by
  cases hb : p.bestAmong unstable places with
  | none =>
    refine List.filter_eq_nil_iff.2 fun u hu hfu => ?_
    obtain ⟨j, hj⟩ := List.mem_iff_getElem?.1 hu
    obtain ⟨hmem, hel⟩ := (hf j).2 ⟨u, hj, hfu⟩
    exact List.find?_eq_none.1 hb j (List.mem_reverse.2 hmem) hel
  | some i =>
    have hi := isGreatest_of_bestAmong hplaces hb
    obtain ⟨e, he, -⟩ := (hf i).1 hi.1
    simp only [hf] at hi
    rw [Option.bind_some, he]
    exact topOf_of_isGreatest hp hi he

theorem topChoice_best
    (hp : p.ebuilds.Pairwise fun e u => e.version.alike u.version = true → e.overlay ≤ u.overlay)
    (unstable : Bool) :
    Ebuild.TopChoice (p.ebuilds.filter (Ebuild.eligible unstable)) (p.best unstable) := by
  refine topChoice_of_bestAmong hp List.pairwise_lt_range fun j => ?_
  rw [eligibleAt_iff, List.mem_range]
  refine ⟨And.right, fun hj => ⟨?_, hj⟩⟩
  obtain ⟨e, he, -⟩ := hj
  exact (List.getElem?_eq_some_iff.1 he).1

theorem topChoice_bestIn
    (hp : p.ebuilds.Pairwise fun e u => e.version.alike u.version = true → e.overlay ≤ u.overlay)
    (slot : String) (unstable : Bool) :
    Ebuild.TopChoice (p.ebuilds.filter fun e => e.slot.name == slot && e.eligible unstable)
      (p.bestIn slot unstable) := by
  unfold bestIn
  rw [bestPlaceIn_eq]
  refine topChoice_of_bestAmong hp SlotGroup.pairwise_placesFrom fun j => ?_
  rw [eligibleAt_iff, mem_placesFrom_iff_slotAt, slotAt_eq_some_iff]
  constructor
  · rintro ⟨⟨e, he, hslot⟩, u, hu, hel⟩
    rw [he] at hu
    cases hu
    exact ⟨e, he, by rw [hslot, hel, beq_self_eq_true, Bool.and_self]⟩
  · rintro ⟨u, hu, hf⟩
    obtain ⟨hslot, hel⟩ := Bool.and_eq_true_iff.1 hf
    exact ⟨⟨u, hu, beq_iff_eq.1 hslot⟩, u, hu, hel⟩

end Package

namespace BuildConfig

variable {config : BuildConfig} {fs : FileSystem} {h : Header} {sources : List Source}

/-- Distinct repositories are the layers of a build without imports. -/
theorem paths_of_sources (hi : config.imports = []) (hroots : config.repositories.Nodup)
    (hs : config.sources fs = .ok (h, sources)) :
    h.overlays.map Overlay.path = config.repositories := by
  obtain ⟨h₀, h₁, caches, imports, hnone, hreg, himports, -⟩ := sources_eq_ok hs
  rw [hi] at himports
  cases himports
  have hpaths := hreg.paths_eq
  rw [hnone] at hpaths
  exact hpaths hroots

theorem pairwise_keys (hi : config.imports = []) (hroots : config.repositories.Nodup)
    (hsize : config.repositories.length ≤ UInt32.size)
    (hs : config.sources fs = .ok (h, sources)) :
    (sources.map Source.key).Pairwise (· ≤ ·) := by
  have hpaths := paths_of_sources hi hroots hs
  have hlength : h.overlays.length ≤ UInt32.size :=
    Nat.le_trans (length_overlays_of_sources hi hs) hsize
  rw [sources_eq_caches hi hs, List.map_map, List.pairwise_map, ← hpaths]
  rw [← hpaths] at hroots
  exact Header.pairwise_keyOf hlength hroots

/-- If there are no imports, and the repositories are distinct and not more than there are keys,
they are the layers, in their order. In every package ebuilds with versions that are alike are in
this order, and the best ebuild, of all or of a slot, is of the last layer that has one of such a
version to choose. -/
theorem later_layers_win (config : BuildConfig) (fs : FileSystem) (t : Tree) (h : Header)
    (hb : config.build fs = .ok (t, h)) (hi : config.imports = [])
    (hroots : config.repositories.Nodup) (hsize : config.repositories.length ≤ UInt32.size) :
    h.overlays.map Overlay.path = config.repositories ∧
    ∀ p ∈ t.packages,
      (p.ebuilds.Pairwise fun e u =>
        e.version.alike u.version = true → e.overlay ≤ u.overlay) ∧
      (∀ unstable,
        Ebuild.TopChoice (p.ebuilds.filter (Ebuild.eligible unstable)) (p.best unstable)) ∧
      ∀ slot unstable,
        Ebuild.TopChoice (p.ebuilds.filter fun e => e.slot.name == slot && e.eligible unstable)
          (p.bestIn slot unstable) := by
  obtain ⟨sources, hs, -, rfl⟩ := build_eq_ok hb
  refine ⟨paths_of_sources hi hroots hs, fun p hp => ?_⟩
  have hkeys : ((0 : OverlayKey) :: sources.map Source.key).Pairwise (· ≤ ·) :=
    List.pairwise_cons.2 ⟨fun _ _ => UInt32.zero_le, pairwise_keys hi hroots hsize hs⟩
  obtain ⟨last, hlayered⟩ := Source.layeredUpTo_each fs sources {} 0 hkeys nofun
  obtain ⟨c, hc, hp⟩ := List.mem_flatMap.1 hp
  have hc : c ∈ (Source.readAll fs sources).value.categories :=
    (List.mergeSort_perm _ _).subset hc
  have hordered := (hlayered c hc p hp).pairwise
  exact ⟨hordered, Package.topChoice_best hordered, Package.topChoice_bestIn hordered⟩

-- One version, spelled in two ways, from two repositories.
def oak : Package where
  category := "a"
  name := "oak"
  releases := .ofList [
    { version := ⟨⟨1, []⟩, [⟨0, []⟩], none, [], []⟩, eapi := "0", stability := .stable },
    { version := ⟨⟨1, []⟩, [⟨0, [0]⟩], none, [], []⟩, eapi := "0", stability := .stable,
      overlay := 1 }]

def oakFiles : FileSystem :=
  let entry := Utf8.encode "SLOT=0\nKEYWORDS=amd64"
  let files := FileSystem.withFile default "main/metadata/md5-cache/a/oak-1.0" entry
  files.withFile "local/metadata/md5-cache/a/oak-1.00" entry

def oakConfig : BuildConfig where
  mainRepository := "main"
  overlays := ["local"]

theorem build_oakFiles : oakConfig.build oakFiles =
    .ok (⟨[⟨"a", [oak]⟩]⟩, { Header.new with overlays := [⟨"main", ""⟩, ⟨"local", ""⟩] }) := by
  decide +kernel

/-- The best ebuild is the one from the overlay, which has the key 1. -/
theorem later_layers_win_oak :
    (∃ h, oakConfig.build oakFiles = .ok (⟨[⟨"a", [oak]⟩]⟩, h) ∧
      h.overlays.map Overlay.path = ["main", "local"]) ∧
    Ebuild.TopChoice (oak.ebuilds.filter (Ebuild.eligible false)) (oak.best false) ∧
    (oak.best false).map Ebuild.overlay = some 1 := by
  obtain ⟨hpaths, hwin⟩ := later_layers_win oakConfig oakFiles _ _ build_oakFiles rfl (by decide)
    (by decide)
  obtain ⟨-, hbest, -⟩ := hwin oak (List.mem_singleton_self _)
  exact ⟨⟨_, build_oakFiles, hpaths⟩, hbest false, by decide +kernel⟩

end BuildConfig

end PackageIndex
