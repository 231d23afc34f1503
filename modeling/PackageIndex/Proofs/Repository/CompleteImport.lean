import PackageIndex.Proofs.CommandLine.Update
import PackageIndex.Proofs.Database.RoundTrip
import PackageIndex.Proofs.Package.Latest
import PackageIndex.Proofs.Repository.SinglePass
import PackageIndex.Proofs.Tree.Renumber

/-!
# Nothing is lost by an import of everything

A tree that is written and then imported as a whole into an empty one comes out as it was, except
that all its ebuilds have the key of the importing layer (`import_restores_tree`). The ebuilds of a
package come in ascending order, so each of them is the newest when it is added and goes to the end
(`foldl_addEbuild_of_ascending`); packages and categories have names of their own and go to the end
as well.
-/

namespace PackageIndex

namespace DatabaseImport

variable {key : OverlayKey} {source p : Package} {es : List Ebuild}

/-! ## One package -/

/-- Ebuilds that ascend from those that are there describe the package, be it one by one. -/
theorem foldl_addEbuild_of_ascending
    (h : (p.ebuilds ++ es).Pairwise fun a b => a.version ≤ b.version)
    (hn : ∀ e ∈ es, e.normalize = e) (hne : es ≠ []) :
    es.foldl (addEbuild source) p =
      { describe source p with releases := p.releases.insertAll es } := by
  induction es generalizing p with
  | nil => exact absurd rfl hne
  | cons e es ih =>
    have hle : ∀ o ∈ p.ebuilds, o.version ≤ e.version := fun o ho =>
      (List.pairwise_append.1 h).2.2 o ho e List.mem_cons_self
    have hadd : addEbuild source p e = (describe source p).add e := by
      unfold addEbuild
      rw [if_pos (Package.isNewest_of_forall_le hle)]
    rw [List.foldl_cons, hadd]
    by_cases hes : es = []
    · rw [hes]
      rfl
    · have hlast : ((describe source p).add e).ebuilds = p.ebuilds ++ [e] := by
        show Releases.place e.normalize p.ebuilds = _
        rw [hn e List.mem_cons_self, Releases.place_of_le hle]
      have hrest : (((describe source p).add e).ebuilds ++ es).Pairwise
          fun a b => a.version ≤ b.version := by
        rw [hlast, List.append_assoc]
        exact h
      rw [ih hrest (fun u hu => hn u (List.mem_cons_of_mem e hu)) hes]
      rfl

theorem imported_none (key : OverlayKey) (source : Package) :
    imported key none source = (source.renumber fun _ => key).ebuilds := by
  have hall : source.ebuilds.filter (wanted none) = source.ebuilds :=
    List.filter_eq_self.2 fun _ _ => rfl
  unfold imported
  rw [hall]
  rfl

theorem receive_new (hne : source.ebuilds ≠ []) :
    receive key none source { category := source.category, name := source.name } =
      source.renumber fun _ => key := by
  -- To the package without ebuilds the new ones need only ascend among themselves.
  generalize hr : source.renumber (fun _ => key) = renumbered
  have hrenumbered : renumbered.ebuilds ≠ [] := by
    subst hr
    exact mt List.map_eq_nil_iff.1 hne
  have hfold : renumbered.ebuilds.foldl (addEbuild source)
      { category := source.category, name := source.name } =
        { describe source { category := source.category, name := source.name } with
          releases := Releases.empty.insertAll renumbered.ebuilds } :=
    foldl_addEbuild_of_ascending renumbered.releases.ascending renumbered.releases.normal
      hrenumbered
  have hreleases : Releases.empty.insertAll renumbered.ebuilds = renumbered.releases :=
    Releases.ofList_toList renumbered.releases
  have hflags : WordSet.empty.insertAll source.useFlags.toList = source.useFlags :=
    WordSet.ofList_toList source.useFlags
  unfold receive
  rw [imported_none, hr, hfold, hreleases]
  unfold describe Package.addUseFlags
  dsimp only
  rw [hflags, ← hr]
  rfl

/-! ## Packages and categories that are new -/

theorem merge_new {name : String} {ps : List Package} (hcategory : source.category = name)
    (hne : source.ebuilds ≠ []) (hname : source.name ∉ ps.map Package.name) :
    merge key none ⟨name, ps⟩ source = ⟨name, ps ++ [source.renumber fun _ => key]⟩ := by
  subst hcategory
  have himported : imported key none source ≠ [] := by
    rw [imported_none]
    exact mt List.map_eq_nil_iff.1 hne
  rw [merge_eq, if_neg fun h => himported h.1]
  unfold Category.update
  rw [Named.upsert_of_notMem hname, receive_new hne]

theorem foldl_merge_new {c : Category} (hc : c.Occupied)
    (hnames : (c.packages.map Package.name).Nodup) :
    c.packages.foldl (merge key none) { name := c.name } = c.renumber fun _ => key := by
  have hstep : ∀ p ∈ c.packages, ∀ ps, (p.renumber fun _ => key).name ∉ ps.map Package.name →
      merge key none ⟨c.name, ps⟩ p = ⟨c.name, ps ++ [p.renumber fun _ => key]⟩ := by
    intro p hp ps hname
    exact merge_new (hc p hp).1 (hc p hp).2 hname
  refine Named.foldl_eq_append (m := Category.mk c.name) hstep [] ?_
  rw [List.nil_append, List.map_map]
  exact hnames

theorem mergeAll_new {t : Tree} (hnames : t.NamesDistinct)
    (ht : ∀ c ∈ t.categories, c.packages ≠ [] ∧ c.Occupied) :
    mergeAll key none {} t.packages = t.renumber fun _ => key := by
  have hstep : ∀ c ∈ t.categories, ∀ cs,
      (c.renumber fun _ => key).name ∉ cs.map Category.name →
        (Tree.mk cs).update c.name (fun d => c.packages.foldl (merge key none) d) =
          ⟨cs ++ [c.renumber fun _ => key]⟩ := by
    intro c hc cs hname
    have hnew : c.name ∉ cs.map Category.name := hname
    unfold Tree.update
    rw [Named.upsert_of_notMem hnew, foldl_merge_new (ht c hc).2 (hnames.packages c hc)]
  have hfilter : (t.categories.filter fun c => !c.packages.isEmpty) = t.categories := by
    refine List.filter_eq_self.2 fun c hc => ?_
    rw [List.isEmpty_eq_false_iff.2 (ht c hc).1]
    rfl
  unfold Tree.packages
  rw [mergeAll_flatMap fun c hc p hp => ((ht c hc).2 p hp).1, hfilter]
  refine Named.foldl_eq_append (m := Tree.mk) hstep [] ?_
  rw [List.nil_append, List.map_map]
  exact hnames.categories

/-! ## Writing and importing -/

/-- A tree of the current format with its dependencies can be written. Where the bytes are found,
be it that they have been written there, an import of everything into an empty tree gives the tree:
every category, package and ebuild in its place with all that it holds, except that the ebuilds have
the key of the importing layer. -/
theorem import_restores_tree (h : Header) (t : Tree) (key : OverlayKey)
    (hv : h.version = Header.currentVersion) (hd : h.storesDependencies = true)
    (hnames : t.NamesDistinct) (ht : ∀ c ∈ t.categories, c.packages ≠ [] ∧ c.Occupied) :
    ∃ bytes, Database.encode h t = .ok bytes ∧
      (bytes.length < UInt64.size →
        (∀ fs path, Database.fileContent fs path = .ok bytes →
          readCategories ⟨⟨path, none⟩, key⟩ fs {} = { value := t.renumber fun _ => key }) ∧
        ∀ fs path now, (Database.store fs path now h t).outcome.isOk = true →
          readCategories ⟨⟨path, none⟩, key⟩ (Database.store fs path now h t).files {} =
            { value := t.renumber fun _ => key }) := by
  have hcategory : ∀ c ∈ t.categories, ∀ p ∈ c.packages, p.category = c.name :=
    fun c hc p hp => ((ht c hc).2 p hp).1
  obtain ⟨bytes, hbytes, -⟩ := Database.tree_round_trip h t "" hv hcategory
  refine ⟨bytes, hbytes, fun hlt => ?_⟩
  have hread : ∀ fs path, Database.fileContent fs path = .ok bytes →
      readCategories ⟨⟨path, none⟩, key⟩ fs {} = { value := t.renumber fun _ => key } := by
    intro fs path hcontent
    obtain ⟨bytes', hbytes', hdecode⟩ := Database.tree_round_trip h t path hv hcategory
    obtain rfl : bytes = bytes' := Except.ok.inj (hbytes.symm.trans hbytes')
    have hload : Database.load fs path = .ok (h.prepare t, t) := by
      unfold Database.load
      rw [hcontent]
      have hdecode := hdecode hlt
      rw [hd] at hdecode
      exact hdecode
    let file : DatabaseImport := ⟨⟨path, none⟩, key⟩
    have hholds : Database.Holds fs file.request.path (h.prepare t) t.categories :=
      Database.holds_of_load hload
    have hselection : selection file.request (h.prepare t) = .ok none := rfl
    refine (readCategories_of_holds hholds hselection {}).trans ?_
    exact congrArg (Attempt.mk · none) (mergeAll_new hnames ht)
  refine ⟨hread, fun fs path now hok => hread _ path ?_⟩
  rcases Database.store_spec fs path now h t none with
    ⟨e, he, -⟩ | ⟨written, target, -, hw, -, hfile, -⟩
  · rw [he] at hok
    cases hok
  · obtain rfl : bytes = written := Except.ok.inj (hbytes.symm.trans hw)
    unfold Database.fileContent
    rw [hfile]

-- Two spellings of one version from two layers, with flags and dependencies, and another package.
def hazelTree : Tree :=
  let old : Ebuild := { version := ⟨⟨1, []⟩, [⟨0, []⟩], none, [], []⟩, eapi := "8", overlay := 1 }
  let new : Ebuild :=
    { version := ⟨⟨1, []⟩, [⟨0, [0]⟩], none, [], []⟩
      slot := ⟨"2", some "a"⟩
      iuse := ["ssl", "gtk"]
      depend := some ⟨"dev-libs/ivy", "", "", ""⟩ }
  { categories := [
      { name := "dev-libs"
        packages := [
          { category := "dev-libs", name := "hazel", description := "A nut", license := "MIT"
            useFlags := .ofList ["ssl", "gtk", "nls"]
            releases := .ofList [old, new] }] },
      { name := "app-misc"
        packages := [
          { category := "app-misc", name := "hazel"
            releases := .ofList [old] }] }] }

/-- Both spellings are the newest when they come, so the first one stays first. -/
theorem import_restores_tree_hazel :
    let written := Database.store default "hazel.db" 0 { Header.new with storesDependencies := true }
      hazelTree
    written.outcome.isOk = true ∧
      readCategories ⟨⟨"hazel.db", none⟩, 7⟩ written.files {} =
        { value := hazelTree.renumber fun _ => 7 } := by
  intro written
  have hnames : hazelTree.NamesDistinct := ⟨by decide, by decide⟩
  have ht : ∀ c ∈ hazelTree.categories, c.packages ≠ [] ∧ c.Occupied := by
    unfold Category.Occupied
    decide +kernel
  have hok : written.outcome.isOk = true := by decide +kernel
  have hl : (Database.encode { Header.new with storesDependencies := true }
      hazelTree).toOption.all (fun b => b.length < UInt64.size) = true := by
    decide +kernel
  obtain ⟨bytes, hbytes, hread⟩ := import_restores_tree { Header.new with storesDependencies := true }
    hazelTree 7 rfl rfl hnames ht
  rw [hbytes] at hl
  have hlt : bytes.length < UInt64.size := of_decide_eq_true hl
  exact ⟨hok, (hread hlt).2 default "hazel.db" 0 hok⟩

end DatabaseImport

end PackageIndex
