import PackageIndex.Proofs.Repository.Growth
import PackageIndex.Proofs.Repository.SinglePass
import PackageIndex.Proofs.Tree.Addresses

/-!
# What an import brings

After an import every package has the ebuilds that it had, and those that the database has of it in
the selected layer, merged one after the other in the order of the database
(`import_merges_selected`). The database may have several packages of one name, in one category or
in several of one name; all of them count. Nothing else changes: what was there stays in its place,
and a package without any ebuild to be brought is not made.
-/

namespace PackageIndex

/-- The releases of the package with a name in the category with a name; empty if there is none. -/
def Tree.releasesOf (t : Tree) (category name : String) : Releases :=
  (t.find? category name).elim .empty Package.releases

namespace DatabaseImport

variable {key : OverlayKey} {selected : Option OverlayKey} {category name : String}

/-- The ebuilds that packages of a database bring for a package: those of the selected layer, or of
all, in the order of the database, with the key of the importing layer. -/
def arrivals (key : OverlayKey) (selected : Option OverlayKey) (ps : List Package)
    (category name : String) : List Ebuild :=
  let offered := (ps.filter fun p => p.category = category ∧ p.name = name).flatMap Package.ebuilds
  (offered.filter fun e => selected.all fun layer => e.overlay == layer).map
    fun e => { e with overlay := key }

theorem arrivals_cons (p : Package) (ps : List Package) :
    arrivals key selected (p :: ps) category name =
      (if p.category = category ∧ p.name = name then imported key selected p else []) ++
        arrivals key selected ps category name := by
  unfold arrivals
  dsimp only
  rw [List.filter_cons]
  split
  next h =>
    rw [if_pos (of_decide_eq_true h), List.flatMap_cons, List.filter_append, List.map_append]
    rfl
  next h =>
    rw [if_neg (mt decide_eq_true h)]
    rfl

theorem normalize_of_mem_arrivals {ps : List Package} {e : Ebuild}
    (h : e ∈ arrivals key selected ps category name) : e.normalize = e := by
  induction ps with
  | nil => cases h
  | cons p ps ih =>
    rw [arrivals_cons] at h
    rcases List.mem_append.1 h with h | h
    · split at h
      next => exact normalize_of_mem_imported h
      next => cases h
    · exact ih h

/-! ## One package and all -/

/-- A package, which may be missing before and after, has got ebuilds: it is there if it was there
or there are any, and they are added to its releases. -/
structure Received (es : List Ebuild) (before after : Option Package) : Prop where
  eq_none_iff : after = none ↔ before = none ∧ es = []
  releases : after.elim .empty Package.releases =
    (before.elim .empty Package.releases).insertAll es

namespace Received

variable {es us : List Ebuild} {a b c : Option Package}

theorem refl (a : Option Package) : Received [] a a :=
  ⟨⟨fun h => ⟨h, rfl⟩, And.left⟩, rfl⟩

theorem trans (h : Received es a b) (h' : Received us b c) : Received (es ++ us) a c := by
  constructor
  · rw [h'.eq_none_iff, h.eq_none_iff, List.append_eq_nil_iff, and_assoc]
  · rw [h'.releases, h.releases, Releases.insertAll_append]

end Received

theorem received_merge (key : OverlayKey) (selected : Option OverlayKey) (c : Category)
    (p : Package) (name : String) :
    Received (if p.name = name then imported key selected p else []) (c.find? name)
      ((merge key selected c p).find? name) := by
  have hadds := adds_receive key selected p
  have hname : ∀ q : Package, q.name = p.name → (receive key selected p q).name = p.name :=
    fun q hq => (hadds.name q).trans hq
  rw [merge_eq]
  by_cases h : imported key selected p = [] ∧ c.find? p.name = none
  · rw [if_pos h, h.1, ite_self]
    exact .refl _
  · rw [if_neg h]
    by_cases hn : p.name = name
    · subst hn
      rw [if_pos rfl, Category.find?_update_self hname]
      refine ⟨⟨nofun, fun ⟨hnone, hnil⟩ => absurd ⟨hnil, hnone⟩ h⟩, ?_⟩
      refine (hadds.releases _).trans ?_
      cases c.find? p.name with
      | none => rfl
      | some q => rfl
    · rw [if_neg hn, Category.find?_update_of_ne hname (Ne.symm hn)]
      exact .refl _

theorem received_update (key : OverlayKey) (selected : Option OverlayKey) (t : Tree) (p : Package)
    (category name : String) :
    Received (if p.category = category ∧ p.name = name then imported key selected p else [])
      (t.find? category name)
      ((t.update p.category fun c => merge key selected c p).find? category name) := by
  have hname : ∀ c : Category, c.name = p.category → (merge key selected c p).name = p.category :=
    fun c hc => (name_merge key selected c p).trans hc
  by_cases hc : p.category = category
  · subst hc
    have hmerge := received_merge key selected
      ((t.findCategory? p.category).getD { name := p.category }) p name
    rw [Tree.find?_findCategory?_getD] at hmerge
    rw [Tree.find?_update_self hname]
    simpa using hmerge
  · rw [Tree.find?_update_of_ne hname (Ne.symm hc), if_neg (fun h => hc h.1)]
    exact .refl _

theorem received_mergeAll (key : OverlayKey) (selected : Option OverlayKey) (ps : List Package)
    (category name : String) : ∀ t : Tree,
    Received (arrivals key selected ps category name) (t.find? category name)
      ((mergeAll key selected t ps).find? category name) := by
  induction ps with
  | nil => exact fun t => .refl _
  | cons p ps ih =>
    intro t
    rw [arrivals_cons]
    exact (received_update key selected t p category name).trans (ih _)

/-- If a database is read without an error and has the selected layer, its import succeeds. Every
package has then what it had and what the database brings for it, merged stably, and is there only
if it was there or anything is brought; all that was there before keeps its place. -/
theorem import_merges_selected (file : DatabaseImport) (fs : FileSystem) (t : Tree) (h : Header)
    (cs : List Category) (selected : Option OverlayKey)
    (hr : Database.Holds fs file.request.path h cs)
    (hs : selection file.request h = .ok selected) :
    ∃ t', file.readCategories fs t = { value := t' } ∧
      (∀ category name,
        let es := arrivals file.key selected (cs.flatMap Category.packages) category name
        (t'.find? category name = none ↔ t.find? category name = none ∧ es = []) ∧
        t'.releasesOf category name = (t.releasesOf category name).insertAll es ∧
        (t'.releasesOf category name).toList.Perm (es ++ (t.releasesOf category name).toList) ∧
        ∀ v, Releases.alikeTo v (t'.releasesOf category name).toList =
          Releases.alikeTo v (t.releasesOf category name).toList ++ Releases.alikeTo v es) ∧
      t.KeptIn t' ∧ (t.NamesDistinct → t'.NamesDistinct) ∧
      t'.holdings.Perm
        (((cs.flatMap Category.packages).flatMap fun p =>
          (imported file.key selected p).map (Holding.mk p.category p.name)) ++ t.holdings) := by
  have hread := readCategories_of_holds hr hs t
  have hgrows := file.grows_readCategories fs t
  rw [hread] at hgrows
  refine ⟨_, hread, fun category name => ?_, hgrows.keptIn, hgrows.namesDistinct,
    perm_mergeAll _ t⟩
  obtain ⟨hnone, hreleases⟩ := received_mergeAll file.key selected
    (cs.flatMap Category.packages) category name t
  have hnormal : (arrivals file.key selected (cs.flatMap Category.packages) category name).map
      Ebuild.normalize =
        arrivals file.key selected (cs.flatMap Category.packages) category name :=
    (List.map_congr_left fun e he => normalize_of_mem_arrivals he).trans (List.map_id' _)
  dsimp only
  unfold Tree.releasesOf
  generalize arrivals file.key selected (cs.flatMap Category.packages) category name = es at *
  generalize (t.find? category name).elim .empty Package.releases = r at *
  refine ⟨hnone, hreleases, ?_, fun v => ?_⟩
  · have hperm := Releases.perm_insertAll es r
    rwa [hnormal, ← hreleases] at hperm
  · have halike := Releases.alikeTo_insertAll v es r
    rwa [hnormal, ← hreleases] at halike

/-- Of the layer `x` the package `a/ash` gets an ebuild, behind the one that it has, and `b/elm`
none, so it is not made. -/
theorem import_merges_selected_stock :
    ∃ t', readCategories ⟨⟨"stock.db", some "x"⟩, 7⟩ stockFiles
        ⟨[⟨"a", [stocked "a" "ash" [3]]⟩]⟩ = { value := t' } ∧
      t'.releasesOf "a" "ash" = (stocked "a" "ash" [3, 7]).releases ∧
      t'.find? "b" "elm" = none := by
  have hs : selection ⟨"stock.db", some "x"⟩ stockHeader = .ok (some 0) := by decide +kernel
  obtain ⟨t', hread, heach, -⟩ := import_merges_selected ⟨⟨"stock.db", some "x"⟩, 7⟩ stockFiles
    ⟨[⟨"a", [stocked "a" "ash" [3]]⟩]⟩ _ _ _ holds_stockFiles hs
  refine ⟨t', hread, ?_, ?_⟩
  · exact (heach "a" "ash").2.1.trans (by decide +kernel)
  · exact (heach "b" "elm").1.2 ⟨by decide +kernel, by decide +kernel⟩

end DatabaseImport

end PackageIndex
