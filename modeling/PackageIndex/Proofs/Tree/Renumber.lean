import PackageIndex.Advice.Changes

/-!
# Renumbered layers

A key stands for a layer within one index only. A tree whose layers have got other keys differs from
the tree in nothing but the keys of its ebuilds, so it has the same best versions, in the same
slots, and what is found in it is what is found in the tree, with the other keys.
-/

namespace PackageIndex

variable {f : OverlayKey → OverlayKey}

/-- The ebuild with the key that its layer has got. -/
def Ebuild.renumber (f : OverlayKey → OverlayKey) (e : Ebuild) : Ebuild :=
  { e with overlay := f e.overlay }

def Releases.renumber (f : OverlayKey → OverlayKey) (r : Releases) : Releases where
  toList := r.toList.map (.renumber f)
  ascending := List.pairwise_map.2 r.ascending
  normal := by
    intro e he
    obtain ⟨u, hu, rfl⟩ := List.mem_map.1 he
    exact congrArg (Ebuild.renumber f) (r.normal u hu)

def Package.renumber (f : OverlayKey → OverlayKey) (p : Package) : Package :=
  { p with releases := p.releases.renumber f }

def Category.renumber (f : OverlayKey → OverlayKey) (c : Category) : Category :=
  { c with packages := c.packages.map (.renumber f) }

def Tree.renumber (f : OverlayKey → OverlayKey) (t : Tree) : Tree where
  categories := t.categories.map (.renumber f)

/-- The keys of the ebuilds of a tree. -/
def Tree.keys (t : Tree) : List OverlayKey :=
  t.packages.flatMap fun p => p.ebuilds.map Ebuild.overlay

/-! ## Slots -/

namespace SlotGroup

theorem placesFrom_renumber (slot : String) (es : List Ebuild) :
    ∀ i, placesFrom slot i (es.map (.renumber f)) = placesFrom slot i es := by
  induction es with
  | nil =>
    intro i
    rfl
  | cons e es ih =>
    intro i
    rw [List.map_cons, placesFrom, placesFrom, ih]
    rfl

theorem collect_renumber (es : List Ebuild) :
    ∀ gs i, collect gs i (es.map (.renumber f)) = collect gs i es := by
  induction es with
  | nil =>
    intro gs i
    rfl
  | cons e es ih =>
    intro gs i
    rw [List.map_cons, collect, collect, ih]
    rfl

end SlotGroup

/-! ## The best versions of packages -/

namespace Package

theorem ebuilds_renumber (p : Package) : (p.renumber f).ebuilds = p.ebuilds.map (.renumber f) :=
  rfl

theorem getElem?_ebuilds_renumber (p : Package) (i : Nat) :
    (p.renumber f).ebuilds[i]? = p.ebuilds[i]?.map (.renumber f) :=
  List.getElem?_map

theorem slotGroups_renumber (p : Package) : (p.renumber f).slotGroups = p.slotGroups :=
  SlotGroup.collect_renumber p.ebuilds [] 0

theorem placesIn?_renumber (p : Package) (slot : String) :
    (p.renumber f).placesIn? slot = p.placesIn? slot := by
  unfold placesIn?
  rw [ebuilds_renumber, SlotGroup.placesFrom_renumber]

theorem bestAmong_renumber (p : Package) (unstable : Bool) :
    (p.renumber f).bestAmong unstable = p.bestAmong unstable := by
  have heligible : (p.renumber f).eligibleAt unstable = p.eligibleAt unstable := by
    funext i
    unfold eligibleAt
    rw [getElem?_ebuilds_renumber, Option.any_map]
    rfl
  funext places
  unfold bestAmong
  rw [heligible]

theorem best_renumber (p : Package) (unstable : Bool) :
    (p.renumber f).best unstable = (p.best unstable).map (.renumber f) := by
  have hplace : (p.renumber f).bestPlace unstable = p.bestPlace unstable := by
    unfold bestPlace
    rw [bestAmong_renumber, ebuilds_renumber, List.length_map]
  unfold best
  rw [hplace, Option.map_bind]
  exact congrArg (Option.bind _) (funext (getElem?_ebuilds_renumber p))

theorem bestIn_renumber (p : Package) (slot : String) (unstable : Bool) :
    (p.renumber f).bestIn slot unstable = (p.bestIn slot unstable).map (.renumber f) := by
  have hplace : (p.renumber f).bestPlaceIn slot unstable = p.bestPlaceIn slot unstable := by
    unfold bestPlaceIn
    rw [placesIn?_renumber, bestAmong_renumber]
  unfold bestIn
  rw [hplace, Option.map_bind]
  exact congrArg (Option.bind _) (funext (getElem?_ebuilds_renumber p))

theorem bestVersion_renumber (p : Package) : (p.renumber f).bestVersion = p.bestVersion := by
  unfold bestVersion
  rw [best_renumber, Option.map_map]
  rfl

end Package

/-! ## Trees -/

namespace Tree

variable {t : Tree} {p : Package} {e : Ebuild} {category name : String}

theorem packages_renumber (t : Tree) : (t.renumber f).packages = t.packages.map (.renumber f) := by
  unfold packages renumber
  rw [List.flatMap_map, List.map_flatMap]
  rfl

theorem keys_renumber (t : Tree) : (t.renumber f).keys = t.keys.map f := by
  unfold keys
  rw [packages_renumber, List.flatMap_map, List.map_flatMap]
  refine congrArg (t.packages.flatMap ·) (funext fun p => ?_)
  rw [Package.ebuilds_renumber, List.map_map, List.map_map]
  rfl

theorem mem_keys (hp : p ∈ t.packages) (he : e ∈ p.ebuilds) : e.overlay ∈ t.keys :=
  List.mem_flatMap.2 ⟨p, hp, List.mem_map_of_mem he⟩

theorem find?_renumber (t : Tree) (category name : String) :
    (t.renumber f).find? category name = (t.find? category name).map (.renumber f) := by
  have hcategory : (t.renumber f).findCategory? category =
      (t.findCategory? category).map (.renumber f) :=
    List.find?_map
  have hpackage : ∀ c : Category, (c.renumber f).find? name = (c.find? name).map (.renumber f) :=
    fun c => List.find?_map
  unfold find?
  rw [hcategory, Option.bind_map, Option.map_bind]
  exact congrArg (Option.bind _) (funext hpackage)

theorem mem_packages_of_find? (h : t.find? category name = some p) : p ∈ t.packages := by
  obtain ⟨c, hc, hp⟩ := Option.bind_eq_some_iff.1 h
  exact List.mem_flatMap.2 ⟨c, List.mem_of_find?_eq_some hc, List.mem_of_find?_eq_some hp⟩

theorem renumber_id (t : Tree) : t.renumber id = t := by
  have hreleases : ∀ r : Releases, r.renumber id = r := by
    intro r
    cases r
    unfold Releases.renumber
    congr 1
    exact List.map_id _
  have hpackage : ∀ p : Package, p.renumber id = p := by
    intro p
    unfold Package.renumber
    rw [hreleases]
  have hcategory : ∀ c : Category, c.renumber id = c := by
    intro c
    unfold Category.renumber
    rw [List.map_congr_left fun p _ => hpackage p, List.map_id']
  unfold renumber
  rw [List.map_congr_left fun c _ => hcategory c, List.map_id']

end Tree

end PackageIndex
