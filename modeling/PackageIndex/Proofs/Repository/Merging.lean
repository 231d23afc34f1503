import PackageIndex.Proofs.Database.Reading
import PackageIndex.Proofs.Repository.Holdings

/-!
# Merging packages of a database

A package of a database is merged by adding it, if it is missing, and removing it again if it has
got no ebuild. In the end this is the same as not to add it at all (`merge_eq`). So what an import
that meets no error adds to a tree are the ebuilds of the selected layer (`perm_readCategories`).
-/

namespace PackageIndex.DatabaseImport

variable {key : OverlayKey} {selected : Option OverlayKey} {source : Package}

/-- What merging does to a package that is there: it adds the imported ebuilds and the USE flags. -/
def receive (key : OverlayKey) (selected : Option OverlayKey) (source p : Package) : Package :=
  ((imported key selected source).foldl (addEbuild source) p).addUseFlags source.useFlags.toList

theorem adds_foldl_addEbuild (source : Package) (es : List Ebuild) :
    Package.Adds es fun p => es.foldl (addEbuild source) p := by
  have hdescribe : Package.Adds [] (describe source) := ⟨fun _ => rfl, fun _ => rfl, fun _ => rfl⟩
  have hadd : ∀ e, Package.Adds [e] fun p => addEbuild source p e :=
    fun e => (hdescribe.ite .refl).trans (.add e)
  induction es with
  | nil => exact .refl
  | cons e es ih => exact (hadd e).trans ih

theorem adds_receive (key : OverlayKey) (selected : Option OverlayKey) (source : Package) :
    Package.Adds (imported key selected source) (receive key selected source) := by
  have hadds := (adds_foldl_addEbuild source (imported key selected source)).trans
    (.addUseFlags source.useFlags.toList)
  rwa [List.append_nil] at hadds

theorem overlay_of_mem_imported {e : Ebuild} (h : e ∈ imported key selected source) :
    e.overlay = key := by
  obtain ⟨u, -, rfl⟩ := List.mem_map.1 h
  rfl

theorem merge_eq (key : OverlayKey) (selected : Option OverlayKey) (c : Category)
    (source : Package) :
    merge key selected c source =
      if imported key selected source = [] ∧ c.find? source.name = none then c
      else c.update source.name (receive key selected source) := by
  have hname : ∀ p : Package, p.name = source.name →
      ((imported key selected source).foldl (addEbuild source) p).name = source.name := by
    intro p hp
    exact ((adds_foldl_addEbuild source _).name p).trans hp
  unfold merge
  dsimp only
  by_cases h : imported key selected source = [] ∧ c.find? source.name = none
  · have hcond : ((c.find? source.name).isSome || !(imported key selected source).isEmpty) =
        false := by
      rw [h.1, h.2]
      rfl
    rw [if_pos h, hcond, if_neg Bool.false_ne_true]
    unfold Category.remove Category.update
    dsimp only
    rw [Named.filter_upsert hname (by rfl) (Named.find?_eq_none_iff.1 h.2)]
  · have hcond : ((c.find? source.name).isSome || !(imported key selected source).isEmpty) =
        true := by
      rw [Bool.or_eq_true, Option.isSome_iff_ne_none, Bool.not_eq_true', List.isEmpty_eq_false_iff]
      exact (not_and_or.1 h).symm
    rw [if_neg h, hcond, if_pos rfl]
    unfold Category.modify Category.update
    dsimp only
    rw [Named.modify_upsert hname (by rfl)]
    rfl

theorem name_merge (key : OverlayKey) (selected : Option OverlayKey) (c : Category)
    (source : Package) : (merge key selected c source).name = c.name := by
  rw [merge_eq]
  split
  · rfl
  · rfl

theorem grows_merge (key : OverlayKey) (selected : Option OverlayKey) (c : Category)
    (source : Package) : c.Grows key (merge key selected c source) := by
  rw [merge_eq]
  split
  next => exact .refl
  next h =>
    refine .single ⟨_, _, _, adds_receive key selected source, ?_, ?_, rfl⟩
    · intro e he
      exact overlay_of_mem_imported he
    · intro hnil hnone
      exact h ⟨hnil, hnone⟩

/-! ## Databases that are read without an error -/

/-- Merges packages one after the other, each into its category, which is added if it is missing. -/
def mergeAll (key : OverlayKey) (selected : Option OverlayKey) (t : Tree) (ps : List Package) :
    Tree :=
  ps.foldl (fun t p => t.update p.category fun c => merge key selected c p) t

section

variable {file : DatabaseImport} {fs : FileSystem} {h : Header} {cs : List Category} {e : Error}

theorem openCursor_of_holds (hr : Database.Holds fs file.request.path h cs) (d : Detail)
    (hs : selection file.request h = .ok selected) :
    ∃ c, file.openCursor fs d = .ok (c, selected) ∧
      c.items = (cs.flatMap Category.packages).map fun p => .ok (d.reduce p) := by
  obtain ⟨c, hc, rfl, hi⟩ := hr.openCursor d
  refine ⟨c, ?_, hi⟩
  unfold openCursor
  rw [hc]
  dsimp only [bind, Except.bind]
  rw [hs]
  rfl

theorem openCursor_of_holds_error (hr : Database.Holds fs file.request.path h cs) (d : Detail)
    (hs : selection file.request h = .error e) : file.openCursor fs d = .error e := by
  obtain ⟨c, hc, rfl, -⟩ := hr.openCursor d
  unfold openCursor
  rw [hc]
  dsimp only [bind, Except.bind]
  rw [hs]

theorem readCategories_of_holds (hr : Database.Holds fs file.request.path h cs)
    (hs : selection file.request h = .ok selected) (t : Tree) :
    file.readCategories fs t =
      { value := mergeAll file.key selected t (cs.flatMap Category.packages) } := by
  obtain ⟨c, hc, hi⟩ := openCursor_of_holds hr .full hs
  unfold readCategories
  rw [hc]
  dsimp only
  rw [hi]
  refine Attempt.each_map ?_ _ t
  intro t p
  rfl

end

/-! ## What an import adds -/

/-- The ebuilds of a database are in their normal form, and another layer leaves them in it. -/
theorem normalize_of_mem_imported {e : Ebuild} (h : e ∈ imported key selected source) :
    e.normalize = e := by
  obtain ⟨u, hu, rfl⟩ := List.mem_map.1 h
  have hnormal := source.releases.normal u (List.mem_of_mem_filter hu)
  exact congrArg (fun u : Ebuild => { u with overlay := key }) hnormal

/-- What an item of the cursor adds to a tree. -/
def holdingsOf (key : OverlayKey) (selected : Option OverlayKey) :
    Except Error Package → List Holding
  | .error _ => []
  | .ok p => (imported key selected p).map (Holding.mk p.category p.name)

/-- What the database adds to a tree. -/
def holdings (file : DatabaseImport) (fs : FileSystem) : List Holding :=
  match file.openCursor fs .full with
  | .error _ => []
  | .ok (cursor, selected) => cursor.items.flatMap (holdingsOf file.key selected)

theorem perm_merge (key : OverlayKey) (selected : Option OverlayKey) (c : Category)
    (source : Package) : (merge key selected c source).holdings.Perm
      ((imported key selected source).map (Holding.mk c.name source.name) ++ c.holdings) := by
  rw [merge_eq]
  split
  next h =>
    rw [h.1]
    exact .refl _
  next =>
    have hperm := Category.perm_holdings_update (adds_receive key selected source) c source.name
    rwa [List.map_congr_left fun e he => by rw [normalize_of_mem_imported he]] at hperm

theorem perm_update_merge (key : OverlayKey) (selected : Option OverlayKey) (t : Tree)
    (p : Package) : (t.update p.category fun c => merge key selected c p).holdings.Perm
      ((imported key selected p).map (Holding.mk p.category p.name) ++ t.holdings) := by
  refine Tree.perm_holdings_update (fun c hname => ?_) t
  have hperm := perm_merge key selected c p
  rwa [hname] at hperm

theorem perm_mergeAll (ps : List Package) : ∀ t : Tree,
    (mergeAll key selected t ps).holdings.Perm
      ((ps.flatMap fun p => (imported key selected p).map (Holding.mk p.category p.name)) ++
        t.holdings) := by
  induction ps with
  | nil => exact fun t => .refl _
  | cons p ps ih =>
    intro t
    have hrest := (ih _).trans ((perm_update_merge key selected t p).append_left _)
    rw [List.flatMap_cons, List.append_assoc]
    exact hrest.trans (List.perm_append_comm_assoc _ _ _)

/-- A database that is imported without an error adds what its packages add. -/
theorem perm_readCategories {file : DatabaseImport} {fs : FileSystem} {t : Tree}
    (h : (file.readCategories fs t).error? = none) :
    (file.readCategories fs t).value.holdings.Perm (file.holdings fs ++ t.holdings) := by
  unfold readCategories holdings at *
  cases ho : file.openCursor fs .full with
  | error e =>
    rw [ho] at h
    cases h
  | ok opened =>
    obtain ⟨cursor, selected⟩ := opened
    rw [ho] at h
    dsimp only at h ⊢
    refine Attempt.perm_each (fun t item herror => ?_) cursor.items t h
    cases item with
    | error e => cases herror
    | ok p => exact perm_update_merge file.key selected t p

end PackageIndex.DatabaseImport
