import PackageIndex.Proofs.Repository.Merging

/-!
# One pass or one scan for each category

An import goes through the database once and merges each package into its category. It could also
ask for the names of the categories, and scan the whole database for each of them. If no two
categories of the database have one name, both come to the same tree in the same order, or to the
same error (`readCategories_eq_readEachCategory`): the packages of a category stand in a row, so
their merging can be made in one change of the category, and the scan for a name finds just these.
-/

namespace PackageIndex

variable {key : OverlayKey} {selected : Option OverlayKey} {name : String} {cs : List Category}
  {ps : List Package}

/-! ## Changes of one category -/

theorem Tree.update_update {f g : Category → Category} (hf : ∀ c, (f c).name = c.name) (t : Tree) :
    (t.update name f).update name g = t.update name fun c => g (f c) := by
  unfold update
  dsimp only
  rw [Named.upsert_upsert (fun c hc => (hf c).trans hc) (by rfl)]

theorem Tree.update_congr {f g : Category → Category} (h : ∀ c, c.name = name → f c = g c)
    (t : Tree) : t.update name f = t.update name g := by
  unfold update
  rw [Named.upsert_congr (h _ (Named.nameOf_find?_getD (by rfl) t.categories))]

namespace DatabaseImport

/-- Packages of one category that are merged one after the other change the category once. -/
theorem mergeAll_of_category_eq (hne : ps ≠ []) (h : ∀ p ∈ ps, p.category = name) (t : Tree) :
    mergeAll key selected t ps = t.update name fun c => ps.foldl (merge key selected) c := by
  induction ps generalizing t with
  | nil => exact absurd rfl hne
  | cons p ps ih =>
    have hp : p.category = name := h p List.mem_cons_self
    have hcons : mergeAll key selected t (p :: ps) =
        mergeAll key selected (t.update name fun c => merge key selected c p) ps := by
      rw [← hp]
      rfl
    rw [hcons]
    by_cases hps : ps = []
    · rw [hps]
      rfl
    · -- The change for the others follows on that for `p`, and finds the category by its name.
      rw [ih hps (fun q hq => h q (List.mem_cons_of_mem p hq))]
      exact Tree.update_update (fun c => name_merge key selected c p) t

theorem mergeAll_flatMap (hcs : ∀ c ∈ cs, ∀ p ∈ c.packages, p.category = c.name) (t : Tree) :
    mergeAll key selected t (cs.flatMap Category.packages) =
      (cs.filter fun c => !c.packages.isEmpty).foldl
        (fun t c => t.update c.name fun d => c.packages.foldl (merge key selected) d) t := by
  induction cs generalizing t with
  | nil => rfl
  | cons c cs ih =>
    have hrest := ih fun d hd => hcs d (List.mem_cons_of_mem c hd)
    have happend : mergeAll key selected t (c.packages ++ cs.flatMap Category.packages) =
        mergeAll key selected (mergeAll key selected t c.packages)
          (cs.flatMap Category.packages) := List.foldl_append
    rw [List.flatMap_cons, happend, hrest, List.filter_cons]
    by_cases hps : c.packages = []
    · rw [hps]
      rfl
    · rw [mergeAll_of_category_eq hps (hcs c List.mem_cons_self), if_pos (by simpa using hps)]
      rfl

/-! ## The packages of a category among all -/

theorem category_mem_of_mem_flatMap (hcs : ∀ c ∈ cs, ∀ p ∈ c.packages, p.category = c.name)
    {p : Package} (hp : p ∈ cs.flatMap Category.packages) : p.category ∈ cs.map Category.name := by
  obtain ⟨c, hc, hp⟩ := List.mem_flatMap.1 hp
  rw [hcs c hc p hp]
  exact List.mem_map_of_mem hc

/-- The packages of the category with a name, in order. -/
def packagesOf (name : String) (ps : List Package) : List Package :=
  ps.filter fun p => p.category = name

theorem packagesOf_packages {c : Category} (hc : ∀ p ∈ c.packages, p.category = c.name)
    (name : String) : packagesOf name c.packages = if c.name = name then c.packages else [] := by
  unfold packagesOf
  split
  next h => exact List.filter_eq_self.2 fun p hp => decide_eq_true ((hc p hp).trans h)
  next h =>
    refine List.filter_eq_nil_iff.2 fun p hp => ?_
    rw [hc p hp, decide_eq_true_eq]
    exact h

theorem packagesOf_flatMap_of_notMem (hcs : ∀ c ∈ cs, ∀ p ∈ c.packages, p.category = c.name)
    (hname : name ∉ cs.map Category.name) : packagesOf name (cs.flatMap Category.packages) = [] := by
  refine List.filter_eq_nil_iff.2 fun p hp hcategory => hname ?_
  rw [← of_decide_eq_true hcategory]
  exact category_mem_of_mem_flatMap hcs hp

theorem packagesOf_flatMap (hnames : (cs.map Category.name).Nodup)
    (hcs : ∀ c ∈ cs, ∀ p ∈ c.packages, p.category = c.name) :
    ∀ c ∈ cs, packagesOf c.name (cs.flatMap Category.packages) = c.packages := by
  induction cs with
  | nil => exact nofun
  | cons d cs ih =>
    obtain ⟨hd, hnames⟩ := List.nodup_cons.1 hnames
    have hrest : ∀ c ∈ cs, ∀ p ∈ c.packages, p.category = c.name :=
      fun c hc => hcs c (List.mem_cons_of_mem d hc)
    have hcons : ∀ name, packagesOf name ((d :: cs).flatMap Category.packages) =
        (if d.name = name then d.packages else []) ++
          packagesOf name (cs.flatMap Category.packages) := by
      intro name
      rw [← packagesOf_packages (hcs d List.mem_cons_self), List.flatMap_cons]
      exact List.filter_append _ _
    intro c hc
    rw [hcons]
    rcases List.mem_cons.1 hc with rfl | hc
    · rw [if_pos rfl, packagesOf_flatMap_of_notMem hrest hd, List.append_nil]
    · have hne : d.name ≠ c.name := fun heq => hd (heq ▸ List.mem_map_of_mem hc)
      rw [if_neg hne, ih hnames hrest c hc]
      rfl

theorem runNames_replicate_append {names : List String} (h : name ∉ names) (n : Nat) :
    runNames (List.replicate (n + 1) name ++ names) = name :: runNames names := by
  induction n with
  | zero =>
    cases names with
    | nil => rfl
    | cons m names =>
      have hne : name ≠ m := fun heq => h (heq ▸ List.mem_cons_self)
      exact if_neg hne
  | succ n ih => exact (if_pos rfl).trans ih

/-- Every category with packages is named once. -/
theorem runNames_flatMap (hnames : (cs.map Category.name).Nodup)
    (hcs : ∀ c ∈ cs, ∀ p ∈ c.packages, p.category = c.name) :
    runNames ((cs.flatMap Category.packages).map Package.category) =
      (cs.filter fun c => !c.packages.isEmpty).map Category.name := by
  induction cs with
  | nil => rfl
  | cons c cs ih =>
    obtain ⟨hc, hnames⟩ := List.nodup_cons.1 hnames
    have hrest := ih hnames fun d hd => hcs d (List.mem_cons_of_mem c hd)
    have hmap : c.packages.map Package.category = List.replicate c.packages.length c.name := by
      refine List.eq_replicate_iff.2 ⟨List.length_map _, fun n hn => ?_⟩
      obtain ⟨p, hp, rfl⟩ := List.mem_map.1 hn
      exact hcs c List.mem_cons_self p hp
    rw [List.flatMap_cons, List.map_append, hmap, List.filter_cons]
    cases hps : c.packages with
    | nil => exact hrest
    | cons p ps =>
      have hnot : c.name ∉ (cs.flatMap Category.packages).map Package.category := by
        intro hmem
        obtain ⟨q, hq, hcategory⟩ := List.mem_map.1 hmem
        rw [← hcategory] at hc
        exact hc (category_mem_of_mem_flatMap (fun d hd => hcs d (List.mem_cons_of_mem c hd)) hq)
      rw [List.length_cons, runNames_replicate_append hnot, hrest]
      rfl

/-! ## Both ways -/

section

variable {file : DatabaseImport} {fs : FileSystem} {h : Header}

theorem categoryNames_of_holds (hr : Database.Holds fs file.request.path h cs)
    (hs : selection file.request h = .ok selected) :
    file.categoryNames fs = .ok (runNames ((cs.flatMap Category.packages).map Package.category)) := by
  obtain ⟨c, hc, hi⟩ := openCursor_of_holds hr .names hs
  have hp : c.packages = .ok ((cs.flatMap Category.packages).map Detail.names.reduce) := by
    refine Cursor.packages_of_items ?_
    rw [hi, List.map_map]
    rfl
  unfold categoryNames
  rw [hc]
  dsimp only [bind, Except.bind]
  rw [hp]
  dsimp only
  rw [List.map_map]
  rfl

/-- A scan for a category merges the packages of the category. -/
theorem readCategory_of_holds (hr : Database.Holds fs file.request.path h cs)
    (hs : selection file.request h = .ok selected) (c : Category) :
    file.readCategory fs c =
      { value := (packagesOf c.name (cs.flatMap Category.packages)).foldl
          (merge file.key selected) c } := by
  obtain ⟨cursor, ho, hi⟩ := openCursor_of_holds hr .full hs
  have hfilter : ∀ (ps : List Package) (c : Category),
      ps.foldl (fun c p => if p.category = c.name then merge file.key selected c p else c) c =
        (packagesOf c.name ps).foldl (merge file.key selected) c := by
    intro ps
    induction ps with
    | nil => exact fun c => rfl
    | cons p ps ih =>
      intro c
      unfold packagesOf
      rw [List.foldl_cons, List.filter_cons, ih]
      by_cases hp : p.category = c.name
      · rw [if_pos hp, if_pos (decide_eq_true hp), name_merge]
        rfl
      · rw [if_neg hp, if_neg (by simpa using hp)]
        rfl
  rw [← hfilter]
  unfold readCategory
  rw [ho]
  dsimp only
  rw [hi]
  refine Attempt.each_map ?_ _ c
  intro c p
  rfl

theorem addCategory_of_holds (hr : Database.Holds fs file.request.path h cs)
    (hs : selection file.request h = .ok selected) (t : Tree) (name : String) :
    (Source.database file).addCategory fs t name =
      { value := t.update name fun c =>
          (packagesOf name (cs.flatMap Category.packages)).foldl (merge file.key selected) c } := by
  have hread : ∀ c, (Source.database file).readCategory fs c = file.readCategory fs c :=
    fun c => rfl
  have hvalue := Source.value_addCategory (.database file) fs t name
  have herror : ((Source.database file).addCategory fs t name).error? = none := by
    unfold Source.addCategory
    dsimp only
    rw [hread, readCategory_of_holds hr hs]
  refine (congrArg₂ Attempt.mk hvalue herror).trans (congrArg (Attempt.mk · none) ?_)
  refine Tree.update_congr (fun c hc => ?_) t
  rw [hread, readCategory_of_holds hr hs, hc]

theorem readEachCategory_of_holds (hr : Database.Holds fs file.request.path h cs)
    (hs : selection file.request h = .ok selected) (hnames : (cs.map Category.name).Nodup)
    (t : Tree) :
    (Source.database file).readEachCategory fs t =
      { value := mergeAll file.key selected t (cs.flatMap Category.packages) } := by
  have hcategories : (Source.database file).categoryNames fs =
      .ok ((cs.filter fun c => !c.packages.isEmpty).map Category.name) := by
    rw [← runNames_flatMap hnames hr.category_eq]
    exact categoryNames_of_holds hr hs
  have hstep := fun (t : Tree) (c : Category) => addCategory_of_holds hr hs t c.name
  unfold Source.readEachCategory
  rw [hcategories]
  dsimp only
  rw [Attempt.each_map hstep, mergeAll_flatMap hr.category_eq]
  refine congrArg (Attempt.mk · none) (List.foldl_ext _ _ t fun u c hc => ?_)
  rw [packagesOf_flatMap hnames hr.category_eq c (List.mem_of_mem_filter hc)]

/-- If a database is read without an error and no two of its categories have one name, the single
pass gives what the scans for each of its categories give, be it a tree or an error. -/
theorem readCategories_eq_readEachCategory (file : DatabaseImport) (fs : FileSystem) (t : Tree)
    (h : Header) (cs : List Category) (hr : Database.Holds fs file.request.path h cs)
    (hnames : (cs.map Category.name).Nodup) :
    file.readCategories fs t = (Source.database file).readEachCategory fs t := by
  cases hs : selection file.request h with
  | ok selected =>
    rw [readCategories_of_holds hr hs, readEachCategory_of_holds hr hs hnames]
  | error e =>
    have hnone : (Source.database file).categoryNames fs = .error e := by
      show file.categoryNames fs = .error e
      unfold categoryNames
      rw [openCursor_of_holds_error hr .names hs]
      rfl
    unfold readCategories Source.readEachCategory
    rw [openCursor_of_holds_error hr .full hs, hnone]

end

-- Version 1 of a package, once from every layer of a list.
def stocked (category name : String) (layers : List OverlayKey) : Package where
  category
  name
  releases := .ofList (layers.map fun overlay =>
    { version := ⟨⟨1, []⟩, [], none, [], []⟩, eapi := "0", overlay })

def stockTree (ash elm : List OverlayKey) : Tree :=
  ⟨[⟨"a", [stocked "a" "ash" ash]⟩, ⟨"b", [stocked "b" "elm" elm]⟩]⟩

def stockHeader : Header :=
  Header.prepare { Header.new with overlays := [⟨"x", ""⟩, ⟨"y", ""⟩] } (stockTree [0, 1] [1])

-- A database that holds one of the packages in both layers and the other only in the second.
def stockFiles : FileSystem :=
  FileSystem.withFile default "stock.db"
    ((Database.encode stockHeader (stockTree [0, 1] [1])).toOption.getD [])

theorem holds_stockFiles :
    Database.Holds stockFiles "stock.db" stockHeader (stockTree [0, 1] [1]).categories := by
  refine Database.holds_of_load ?_
  decide +kernel

/-- The first layer is read into a tree that has one of its packages already. The other package is
not in the layer, so only its category is left. -/
theorem readCategories_eq_readEachCategory_stock :
    (Source.database ⟨⟨"stock.db", some "x"⟩, 7⟩).readEachCategory stockFiles
        ⟨[⟨"a", [stocked "a" "ash" [3]]⟩]⟩ =
      { value := ⟨[⟨"a", [stocked "a" "ash" [3, 7]]⟩, ⟨"b", []⟩]⟩ } := by
  have hs : selection ⟨"stock.db", some "x"⟩ stockHeader = .ok (some 0) := by decide +kernel
  have hnames : ((stockTree [0, 1] [1]).categories.map Category.name).Nodup := by decide
  rw [← readCategories_eq_readEachCategory _ _ _ _ _ holds_stockFiles hnames,
    readCategories_of_holds holds_stockFiles hs]
  refine congrArg (Attempt.mk · none) ?_
  decide +kernel

end DatabaseImport

end PackageIndex
