import PackageIndex.Proofs.Repository.SinglePass
import PackageIndex.Proofs.Tree.Addresses

/-!
# What an import does to packages of which it takes nothing

Of many packages of a database no ebuild is in the selected layer. If such a package is missing, it
stays missing. If it is there, it gets the USE flags that the database has for it, although they are
those of ebuilds which are not taken; all else is left as it was (`import_of_nothing`). So it is left
alone just if it has these flags already, and there are packages that have not
(`import_of_nothing_brings_flags`).
-/

namespace PackageIndex

/-! ## Flags that are there already -/

namespace WordSet

variable {s : WordSet} {ws : List String} {w : String}

theorem insertInto_of_mem {vs : List String} (h : vs.Pairwise (· < ·)) (hw : w ∈ vs) :
    insertInto w vs = vs := by
  induction vs with
  | nil => cases hw
  | cons v vs ih =>
    obtain ⟨hv, hvs⟩ := List.pairwise_cons.1 h
    rw [insertInto]
    rcases List.mem_cons.1 hw with rfl | hw
    · rw [if_neg (String.lt_irrefl w), if_pos rfl]
    · have hlt : v < w := hv w hw
      have hne : w ≠ v := by
        rintro rfl
        exact String.lt_irrefl w hlt
      rw [if_neg (String.lt_asymm hlt), if_neg hne, ih hvs hw]

theorem insertAll_eq_self_iff : s.insertAll ws = s ↔ ∀ w ∈ ws, w ∈ s.toList := by
  constructor
  · intro h w hw
    rw [← h]
    exact mem_insertAll.2 (.inr hw)
  · intro h
    induction ws with
    | nil => rfl
    | cons w ws ih =>
      have hw : s.insert w = s := by
        unfold insert
        congr 1
        exact insertInto_of_mem s.ascending (h w List.mem_cons_self)
      have hrest := ih fun u hu => h u (List.mem_cons_of_mem w hu)
      exact (congrArg (fun s => insertAll s ws) hw).trans hrest

end WordSet

namespace Package

variable {p : Package} {flags : List String}

theorem map_addUseFlags_nil (o : Option Package) : o.map (·.addUseFlags []) = o :=
  Option.map_id_apply

theorem map_addUseFlags_append (o : Option Package) (us vs : List String) :
    o.map (·.addUseFlags (us ++ vs)) = (o.map (·.addUseFlags us)).map (·.addUseFlags vs) := by
  have happend : ∀ p : Package, p.addUseFlags (us ++ vs) = (p.addUseFlags us).addUseFlags vs := by
    intro p
    unfold addUseFlags WordSet.insertAll
    rw [List.foldl_append]
  rw [Option.map_map]
  exact congrArg (Option.map · o) (funext happend)

theorem addUseFlags_eq_self_iff :
    p.addUseFlags flags = p ↔ ∀ w ∈ flags, w ∈ p.useFlags.toList := by
  rw [← WordSet.insertAll_eq_self_iff]
  constructor
  · intro h
    exact congrArg useFlags h
  · intro h
    unfold addUseFlags
    rw [h]

end Package

namespace DatabaseImport

variable {key : OverlayKey} {selected : Option OverlayKey} {category name : String} {p : Package}
  {ps : List Package}

/-- The packages of a database have no ebuild to be imported for an address. -/
def Lacks (selected : Option OverlayKey) (ps : List Package) (category name : String) : Prop :=
  ∀ p ∈ ps, p.address = (category, name) → ∀ e ∈ p.ebuilds, wanted selected e = false

/-- The USE flags that packages of a database have under an address. -/
def offeredFlags (ps : List Package) (category name : String) : List String :=
  (ps.filter fun p => p.address = (category, name)).flatMap fun p => p.useFlags.toList

theorem imported_eq_nil (h : ∀ e ∈ p.ebuilds, wanted selected e = false) :
    imported key selected p = [] := by
  refine List.map_eq_nil_iff.2 (List.filter_eq_nil_iff.2 fun e he => ?_)
  rw [h e he]
  exact Bool.false_ne_true

/-! ## One package and all -/

theorem offeredFlags_cons (p : Package) (ps : List Package) :
    offeredFlags (p :: ps) category name =
      (if p.address = (category, name) then p.useFlags.toList else []) ++
        offeredFlags ps category name := by
  unfold offeredFlags
  rw [List.filter_cons]
  by_cases h : p.address = (category, name)
  · rw [if_pos h, if_pos (decide_eq_true h), List.flatMap_cons]
  · rw [if_neg h, if_neg (by simpa using h), List.nil_append]

theorem find?_merge {c : Category} (h : p.name = name → imported key selected p = []) :
    (merge key selected c p).find? name =
      (c.find? name).map (·.addUseFlags (if p.name = name then p.useFlags.toList else [])) := by
  have hname : ∀ q : Package, q.name = p.name → (receive key selected p q).name = p.name :=
    fun q hq => ((adds_receive key selected p).name q).trans hq
  rw [merge_eq]
  by_cases hp : p.name = name
  · subst hp
    have hnil := h rfl
    rw [if_pos rfl]
    cases hfind : c.find? p.name with
    | none =>
      rw [if_pos ⟨hnil, rfl⟩, hfind]
      rfl
    | some q =>
      -- The package is there, so it stays, and nothing but the flags is added.
      rw [if_neg (fun hnone => nomatch hnone.2), Category.find?_update_self hname, hfind]
      unfold receive
      rw [hnil]
      rfl
  · rw [if_neg hp, Package.map_addUseFlags_nil]
    split
    · rfl
    · exact Category.find?_update_of_ne hname (Ne.symm hp) c

theorem find?_foldl_merge {c : Category} (hps : ∀ p ∈ ps, p.category = category)
    (h : Lacks selected ps category name) :
    (ps.foldl (merge key selected) c).find? name =
      (c.find? name).map (·.addUseFlags (offeredFlags ps category name)) := by
  induction ps generalizing c with
  | nil => exact (Package.map_addUseFlags_nil _).symm
  | cons p ps ih =>
    have haddress : p.address = (category, name) ↔ p.name = name := by
      unfold Package.address
      rw [hps p List.mem_cons_self, Prod.mk.injEq]
      exact and_iff_right rfl
    have himported : p.name = name → imported key selected p = [] := fun hp =>
      imported_eq_nil (h p List.mem_cons_self (haddress.2 hp))
    have hrest := ih (c := merge key selected c p) (fun q hq => hps q (List.mem_cons_of_mem p hq))
      fun q hq => h q (List.mem_cons_of_mem p hq)
    rw [List.foldl_cons, hrest, find?_merge himported, offeredFlags_cons,
      Package.map_addUseFlags_append, if_congr haddress rfl rfl]

theorem find?_update_merge {t : Tree}
    (h : p.address = (category, name) → imported key selected p = []) :
    (t.update p.category fun c => merge key selected c p).find? category name =
      (t.find? category name).map
        (·.addUseFlags (if p.address = (category, name) then p.useFlags.toList else [])) := by
  have hname : ∀ c : Category, c.name = p.category → (merge key selected c p).name = p.category :=
    fun c hc => (name_merge key selected c p).trans hc
  by_cases hc : p.category = category
  · subst hc
    have haddress : p.address = (p.category, name) ↔ p.name = name := by
      unfold Package.address
      rw [Prod.mk.injEq]
      exact and_iff_right rfl
    rw [Tree.find?_update_self hname, find?_merge fun hp => h (haddress.2 hp),
      Tree.find?_findCategory?_getD, if_congr haddress rfl rfl]
  · have haddress : p.address ≠ (category, name) := fun ha => hc (Prod.mk.inj ha).1
    rw [Tree.find?_update_of_ne hname (Ne.symm hc), if_neg haddress, Package.map_addUseFlags_nil]

theorem find?_mergeAll {t : Tree} (h : Lacks selected ps category name) :
    (mergeAll key selected t ps).find? category name =
      (t.find? category name).map (·.addUseFlags (offeredFlags ps category name)) := by
  induction ps generalizing t with
  | nil => exact (Package.map_addUseFlags_nil _).symm
  | cons p ps ih =>
    have himported : p.address = (category, name) → imported key selected p = [] := fun hp =>
      imported_eq_nil (h p List.mem_cons_self hp)
    refine (ih fun q hq => h q (List.mem_cons_of_mem p hq)).trans ?_
    rw [find?_update_merge himported, offeredFlags_cons, Package.map_addUseFlags_append]

/-! ## Whole imports -/

theorem lacks_packagesOf (h : Lacks selected ps category name) :
    Lacks selected (packagesOf category ps) category name :=
  fun p hp => h p (List.mem_of_mem_filter hp)

theorem offeredFlags_packagesOf (ps : List Package) (category name : String) :
    offeredFlags (packagesOf category ps) category name = offeredFlags ps category name := by
  unfold offeredFlags packagesOf
  rw [List.filter_filter]
  refine congrArg (List.flatMap _) (List.filter_congr fun p _ => ?_)
  rw [Bool.and_eq_left_iff_imp]
  intro hp
  exact decide_eq_true (Prod.mk.inj (of_decide_eq_true hp)).1

/-- If a database is read without an error and has no ebuild to be imported for a package, be it
read as a whole or for the category of the package, the package stays missing if it is missing, and
otherwise gets the flags that the database has for it and nothing else. So it stays as it is just if
it has these flags. -/
theorem import_of_nothing (file : DatabaseImport) (fs : FileSystem) (h : Header)
    (cs : List Category) (selected : Option OverlayKey) (category name : String)
    (hr : Database.Holds fs file.request.path h cs)
    (hs : selection file.request h = .ok selected)
    (hlacks : Lacks selected (cs.flatMap Category.packages) category name) :
    let flags := offeredFlags (cs.flatMap Category.packages) category name
    (∀ t, ∃ t', file.readCategories fs t = { value := t' } ∧
      t'.find? category name = (t.find? category name).map (·.addUseFlags flags)) ∧
    (∀ c, c.name = category → ∃ c', file.readCategory fs c = { value := c' } ∧
      c'.find? name = (c.find? name).map (·.addUseFlags flags)) ∧
    ∀ p : Package, p.addUseFlags flags = p ↔ ∀ w ∈ flags, w ∈ p.useFlags.toList := by
  intro flags
  refine ⟨fun t => ⟨_, readCategories_of_holds hr hs t, find?_mergeAll hlacks⟩, ?_,
    fun p => Package.addUseFlags_eq_self_iff⟩
  rintro c rfl
  refine ⟨_, readCategory_of_holds hr hs c, ?_⟩
  have hps : ∀ p ∈ packagesOf c.name (cs.flatMap Category.packages), p.category = c.name :=
    fun p hp => of_decide_eq_true (List.mem_filter.1 hp).2
  rw [find?_foldl_merge hps (lacks_packagesOf hlacks), offeredFlags_packagesOf]

-- Version 1 of a package, once from every layer of a list, with USE flags of its own.
def spruce (flags : List String) (layers : List OverlayKey) : Package :=
  { stocked "a" "spruce" layers with useFlags := .ofList flags }

-- The package is only in the second of the two layers of the database.
def spruceHeader : Header :=
  Header.prepare { Header.new with overlays := [⟨"x", ""⟩, ⟨"y", ""⟩] }
    ⟨[⟨"a", [spruce ["doc"] [1]]⟩]⟩

def spruceFiles : FileSystem :=
  FileSystem.withFile default "spruce.db"
    ((Database.encode spruceHeader ⟨[⟨"a", [spruce ["doc"] [1]]⟩]⟩).toOption.getD [])

theorem holds_spruceFiles :
    Database.Holds spruceFiles "spruce.db" spruceHeader [⟨"a", [spruce ["doc"] [1]]⟩] := by
  refine Database.holds_of_load (t := ⟨[⟨"a", [spruce ["doc"] [1]]⟩]⟩) ?_
  decide +kernel

theorem lacks_spruce : Lacks (some 0) [spruce ["doc"] [1]] "a" "spruce" := by
  unfold Lacks
  decide +kernel

/-- Of the first layer nothing is there for the package, and it has the flag already. -/
theorem import_of_nothing_spruce :
    ∃ t', readCategories ⟨⟨"spruce.db", some "x"⟩, 7⟩ spruceFiles
        ⟨[⟨"a", [spruce ["doc", "ssl"] [3]]⟩]⟩ = { value := t' } ∧
      t'.find? "a" "spruce" = some (spruce ["doc", "ssl"] [3]) := by
  have hs : selection ⟨"spruce.db", some "x"⟩ spruceHeader = .ok (some 0) := by decide +kernel
  obtain ⟨htree, -, hsame⟩ := import_of_nothing ⟨⟨"spruce.db", some "x"⟩, 7⟩ spruceFiles _ _ _ "a"
    "spruce" holds_spruceFiles hs lacks_spruce
  obtain ⟨t', hread, hfind⟩ := htree ⟨[⟨"a", [spruce ["doc", "ssl"] [3]]⟩]⟩
  have hflags : (spruce ["doc", "ssl"] [3]).addUseFlags ["doc"] = spruce ["doc", "ssl"] [3] :=
    (hsame _).2 (by decide +kernel)
  refine ⟨t', hread, hfind.trans ?_⟩
  exact congrArg some hflags

/-- Where it has not, it gets a flag that none of its ebuilds has. -/
theorem import_of_nothing_brings_flags :
    selection ⟨"spruce.db", some "x"⟩ spruceHeader = .ok (some 0) ∧
      Lacks (some 0) [spruce ["doc"] [1]] "a" "spruce" ∧
      (readCategories ⟨⟨"spruce.db", some "x"⟩, 7⟩ spruceFiles
        ⟨[⟨"a", [spruce ["ssl"] [3]]⟩]⟩).value.find? "a" "spruce" =
          some (spruce ["doc", "ssl"] [3]) ∧
      spruce ["doc", "ssl"] [3] ≠ spruce ["ssl"] [3] := by
  have hs : selection ⟨"spruce.db", some "x"⟩ spruceHeader = .ok (some 0) := by decide +kernel
  refine ⟨hs, lacks_spruce, ?_, by decide +kernel⟩
  rw [readCategories_of_holds holds_spruceFiles hs]
  decide +kernel

end DatabaseImport

end PackageIndex
