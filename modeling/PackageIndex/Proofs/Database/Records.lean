import PackageIndex.Proofs.Database.Content
import PackageIndex.Proofs.Database.Fields
import PackageIndex.Proofs.Database.Preparation

/-!
# Records are read back

Under a header that has the texts of a record, the record is written, and it is read back wherever
it stands: an ebuild with its dependencies or without them, a package to any detail, a category.
A reader that leaves a package record in its middle finds the record's end by its length, so it ends
where a reader of the whole record does.
-/

namespace PackageIndex

open Decoder (ReadsAt Reads)
open PackageIndex.Field (Kept)

/-- The indices of all dictionaries fit 64 bits. -/
structure Dictionaries.Sized (d : Dictionaries) : Prop where
  eapi : d.eapi.size < UInt64.size
  license : d.license.size < UInt64.size
  slot : d.slot.size < UInt64.size
  iuse : d.iuse.size < UInt64.size
  depend : d.depend.size < UInt64.size

namespace Record

variable {h : Header}

/-! ## Dependencies -/

theorem ite_bind_eq {α β : Type} {c : Prop} [Decidable c] {x y : Except Error α} {a : α}
    (hx : (if c then x else y) = .ok a) (k : α → Except Error β) :
    (if c then x >>= k else y >>= k) = k a := by
  split at hx <;> rw [hx] <;> simp_all <;> rfl

theorem kept_dependency {s : String} (hs : ∀ w ∈ Text.words s, w ∈ h.dictionaries.depend.entries) :
    Kept h.dictionaries.Sized (Field.encodeEntries h.dictionaries.depend (Text.words s))
      (readDependency h) (Text.collapse s) := by
  obtain ⟨form, hf, hr⟩ := Field.kept_entries hs
  refine ⟨form, hf, fun hP => ?_⟩
  have hm : readDependency h = Field.readEntries h.dictionaries.depend >>= fun ws =>
      pure (Text.unwords ws) := map_eq_pure_bind _ _
  rw [hm]
  exact (hr hP.depend).andThen (Reads.pure _)

theorem kept_dependencies {d : Dependencies}
    (hd : ∀ f ∈ d.fields, ∀ w ∈ Text.words f, w ∈ h.dictionaries.depend.entries) :
    Kept h.dictionaries.Sized (encodeDependencies h d) (readDependencies h)
      (Dependencies.normalize (some d)) := by
  obtain ⟨f₁, h₁, r₁⟩ := kept_dependency (hd d.depend (by simp [Dependencies.fields]))
  obtain ⟨f₂, h₂, r₂⟩ := kept_dependency (hd d.rdepend (by simp [Dependencies.fields]))
  obtain ⟨f₃, h₃, r₃⟩ := kept_dependency (hd d.pdepend (by simp [Dependencies.fields]))
  obtain ⟨f₄, h₄, r₄⟩ := kept_dependency (hd d.bdepend (by simp [Dependencies.fields]))
  refine ⟨measured (f₁ ++ (f₂ ++ (f₃ ++ f₄))), ?_, fun hP => ?_⟩
  · have hf : [f₁, f₂, f₃, f₄].flatten = f₁ ++ (f₂ ++ (f₃ ++ f₄)) := by simp
    simp only [encodeDependencies, Dependencies.fields, List.mapM_cons, List.mapM_nil, h₁, h₂, h₃,
      h₄]
    rw [← hf]
    rfl
  · intro offset hlt
    have hl : (f₁ ++ (f₂ ++ (f₃ ++ f₄))).length =
        f₁.length + (f₂.length + (f₃.length + f₄.length)) := by simp
    rw [measured, List.length_append, Field.encodeNat] at hlt
    refine (Number.reads_encode _ offset (by omega)).bind (ReadsAt.position_bind ?_)
    refine (r₁ hP _ (by omega)).bind ((r₂ hP _ (by omega)).bind ((r₃ hP _ (by omega)).bind ?_))
    refine (r₄ hP _ (by omega)).andThen (ReadsAt.position_bind ?_)
    rw [Number.toNat_toUInt64 (by omega), if_pos (by omega)]
    have hn : Dependencies.normalize (some d) = Dependencies.normalize (some d.collapse) := by
      simp [Dependencies.normalize]
    rw [hn]
    exact ReadsAt.pure _

/-! ## Ebuilds -/

theorem reads_version (v : Version) :
    readVersion.Reads (Field.encodeText (toString v)) v := by
  refine (Field.reads_encodeText _).andThen (Reads.require ?_)
  show Version.ofList? (String.ofList v.toList).toList = some v
  rw [String.toList_ofList, Version.ofList?_toList]

theorem reads_stability (s : Stability) :
    readStability.Reads (Number.encode s.code) s :=
  (Number.reads_encode _).andThen (Reads.require (Stability.ofCode?_code s))

theorem reads_overlayKey (key : OverlayKey) :
    readOverlayKey.Reads (Number.encode key.toUInt64) key := by
  refine (Number.reads_encode _).andThen ?_
  have hlt : key.toUInt64.toNat < UInt32.size := key.toNat_lt
  rw [if_pos hlt, UInt32.toUInt32_toUInt64]
  exact Reads.pure key

theorem slot_of_subText {s : Slot} (hs : s.normalize = s) :
    (⟨s.name, if s.subText.isEmpty then none else some s.subText⟩ : Slot) = s := by
  obtain ⟨name, sub⟩ := s
  cases sub with
  | none => rfl
  | some sub =>
    have hne : sub ≠ "" := by
      rintro rfl
      cases hs
    simp [Slot.subText, hne]

theorem normalize_depend {e : Ebuild} (he : e.normalize = e) :
    Dependencies.normalize e.depend = e.depend :=
  congrArg Ebuild.depend he

theorem collapse_empty : Text.collapse "" = "" := by
  simp [Text.collapse, Text.words, Text.wordLists, Text.pieces, Text.unwords, Text.join]

/-- What the dependency block of an ebuild in normal form says is what the ebuild has. -/
theorem normalize_getD_depend {e : Ebuild} (he : e.normalize = e) :
    Dependencies.normalize (some (e.depend.getD .none)) = e.depend := by
  have hn := normalize_depend he
  cases hd : e.depend with
  | none =>
    simp [Dependencies.none, Dependencies.normalize, Dependencies.collapse, collapse_empty,
      Dependencies.nonempty?, Dependencies.isEmpty]
  | some d =>
    rw [hd] at hn
    exact hn

theorem kept_depend {e : Ebuild} (he : e.normalize = e)
    (hc : h.dictionaries.CoversEbuild h.storesDependencies e) :
    Kept h.dictionaries.Sized
      (if h.storesDependencies then encodeDependencies h (e.depend.getD .none) else pure [])
      (if h.storesDependencies then readDependencies h else pure none)
      (e.asStored h.storesDependencies).depend := by
  cases hs : h.storesDependencies with
  | false => exact ⟨[], rfl, fun _ => Reads.pure none⟩
  | true =>
    have hk := kept_dependencies (hc.depend hs)
    rw [normalize_getD_depend he] at hk
    exact hk

theorem kept_ebuild {e : Ebuild} (he : e.normalize = e)
    (hc : h.dictionaries.CoversEbuild h.storesDependencies e) :
    Kept h.dictionaries.Sized (encodeEbuild h e) (readEbuild h)
      (e.asStored h.storesDependencies) := by
  obtain ⟨eapi, h₁, r₁⟩ := Field.kept_entry hc.eapi
  obtain ⟨slot, h₂, r₂⟩ := Field.kept_entry hc.slot
  obtain ⟨subslot, h₃, r₃⟩ := Field.kept_entry hc.subslot
  obtain ⟨iuse, h₄, r₄⟩ := Field.kept_entries hc.iuse
  obtain ⟨depend, h₅, r₅⟩ := kept_depend he hc
  rw [Kept, encodeEbuild, h₁, h₂, h₃, h₄]
  refine ⟨_, ite_bind_eq h₅ _, fun hP => ?_⟩
  rw [readEbuild]
  simp only [List.append_assoc]
  refine (reads_version e.version).bind ((r₁ hP.eapi).bind ((reads_stability e.stability).bind ?_))
  refine (Number.reads_encode _).bind ((Number.reads_encode _).bind ?_)
  refine (Number.reads_encode _).bind ((r₂ hP.slot).bind ((r₃ hP.slot).bind ?_))
  refine (r₄ hP.iuse).bind ((reads_overlayKey e.overlay).bind ((r₅ hP).ite_bind ?_))
  rw [slot_of_subText (congrArg Ebuild.slot he)]
  have hstored : e.asStored h.storesDependencies =
      { e with depend := (e.asStored h.storesDependencies).depend } := by
    cases h.storesDependencies <;> rfl
  rw [hstored]
  exact Reads.pure _

/-! ## Packages -/

/-- The record of a package is its name, its other metadata and its releases. -/
theorem encodePackageFields_eq {p : Package}
    (hc : h.dictionaries.CoversPackage h.storesDependencies p) :
    ∃ metadata releases,
      encodePackageFields h p = .ok (Field.encodeText p.name ++ (metadata ++ releases)) ∧
      (h.dictionaries.Sized →
        (∀ q : Package, (readMetadata h q).Reads metadata
          { p with category := q.category, name := q.name, releases := q.releases }) ∧
        (∀ q : Package, (readReleases h q).Reads releases
          { q with releases := (p.asStored h.storesDependencies).releases })) := by
  have hk : ∀ e ∈ p.ebuilds, Kept h.dictionaries.Sized (encodeEbuild h e) (readEbuild h)
      (e.asStored h.storesDependencies) := fun e he =>
    kept_ebuild (p.releases.normal e he) (hc.ebuilds e he)
  obtain ⟨license, h₁, r₁⟩ := Field.kept_entry hc.license
  obtain ⟨useFlags, h₂, r₂⟩ := Field.kept_entries hc.useFlags
  obtain ⟨ebuilds, h₃, r₃⟩ := Kept.mapM hk
  refine ⟨Field.encodeText p.description ++ (Field.encodeText p.homepage ++ (license ++
    (Field.encodeText p.provide ++ useFlags))), Field.encodeNat p.ebuilds.length ++ ebuilds.flatten,
    ?_, fun hP => ⟨fun q => ?_, fun q => ?_⟩⟩
  · rw [encodePackageFields, h₁, h₂, h₃]
    simp only [List.append_assoc]
    rfl
  · refine (Field.reads_encodeText _).bind ((Field.reads_encodeText _).bind ?_)
    refine (r₁ hP.license).bind ((Field.reads_encodeText _).bind ((r₂ hP.iuse).andThen ?_))
    rw [WordSet.ofList_toList]
    exact Reads.pure _
  · have he : (readEbuild h).run ⟨0, []⟩ = .error (.truncated .endOfInput) := rfl
    have hr := Reads.counted (r₃ hP) he
    rw [List.length_map] at hr
    rw [readReleases, ← bind_assoc]
    refine hr.andThen ?_
    rw [Package.ofList_asStored]
    exact Reads.pure _

theorem readsAt_stop {offset length : Nat}
    (hlt : offset + (Field.encodeNat length).length + length < UInt64.size) :
    readStop.ReadsAt offset (Field.encodeNat length)
      (offset + (Field.encodeNat length).length + length) := by
  refine (Number.reads_encode _ offset (by rw [Field.encodeNat] at hlt; omega)).andThen ?_
  refine ReadsAt.position_bind ?_
  rw [Number.toNat_toUInt64 (by omega)]
  exact (if_pos hlt).symm ▸ ReadsAt.pure _

theorem kept_package {p : Package} (hc : h.dictionaries.CoversPackage h.storesDependencies p)
    (detail : Detail) :
    Kept h.dictionaries.Sized (encodePackage h p) (readPackage h p.category detail)
      (detail.reduce (p.asStored h.storesDependencies)) := by
  obtain ⟨metadata, releases, hf, hr⟩ := encodePackageFields_eq hc
  refine ⟨measured (Field.encodeText p.name ++ (metadata ++ releases)), ?_, fun hP => ?_⟩
  · rw [encodePackage, hf]
    rfl
  · obtain ⟨hm, hr⟩ := hr hP
    have hv : detail.reduce (p.asStored h.storesDependencies) = detail.reduce
        { p with releases := (p.asStored h.storesDependencies).releases } := by
      cases h.storesDependencies <;> rfl
    rw [hv]
    intro offset hlt
    rw [measured, List.length_append] at hlt
    have hl : (Field.encodeText p.name ++ (metadata ++ releases)).length =
        (Field.encodeText p.name).length + (metadata.length + releases.length) := by
      simp only [List.length_append]
    refine (readsAt_stop (by omega)).bind ((Field.reads_encodeText p.name _ (by omega)).bind ?_)
    cases detail with
    | names =>
      refine (ReadsAt.skipTo ?_).andThen (ReadsAt.pure _)
      rw [List.length_append]
      omega
    | metadata =>
      refine (hm _ _ (by omega)).bind ((ReadsAt.skipTo ?_).andThen (ReadsAt.pure _))
      omega
    | full =>
      refine (hm _ _ (by omega)).bind ((hr _ _ (by omega)).andThen (ReadsAt.position_bind ?_))
      rw [if_pos (by omega)]
      exact ReadsAt.pure _

/-! ## Categories -/

theorem reads_categoryHeader (name : String) (count : Nat) :
    readCategoryHeader.Reads (encodeCategoryHeader name count) (name, count.toUInt64) :=
  (Field.reads_encodeText name).bind ((Number.reads_encode _).andThen (Reads.pure _))

/-- The bytes are the name and the count of the category and, behind them, its packages, which are
read one by one to the detail. -/
def HoldsCategory (h : Header) (d : Detail) (form : List UInt8) (c : Category) : Prop :=
  ∃ forms, form = encodeCategoryHeader c.name c.packages.length ++ forms.flatten ∧
    List.Forall₂ (readPackage h c.name d).Reads forms (c.packages.map d.reduce)

theorem holdsCategory_encode {c : Category} (hn : ∀ p ∈ c.packages, p.category = c.name)
    (hc : ∀ p ∈ c.packages, h.dictionaries.CoversPackage h.storesDependencies p) (d : Detail) :
    ∃ form, encodeCategory h c = .ok form ∧
      (h.dictionaries.Sized → HoldsCategory h d form (c.asStored h.storesDependencies)) := by
  have hk : ∀ p ∈ c.packages, Kept h.dictionaries.Sized (encodePackage h p)
      (readPackage h c.name d) (d.reduce (p.asStored h.storesDependencies)) := fun p hp =>
    hn p hp ▸ kept_package (hc p hp) d
  obtain ⟨forms, hf, hr⟩ := Kept.mapM hk
  have hname : (c.asStored h.storesDependencies).name = c.name := by
    cases h.storesDependencies <;> rfl
  have hpackages := Category.packages_asStored h.storesDependencies c
  refine ⟨encodeCategoryHeader c.name c.packages.length ++ forms.flatten, ?_,
    fun hP => ⟨forms, ?_, ?_⟩⟩
  · rw [encodeCategory, hf]
    rfl
  · rw [hname, hpackages, List.length_map]
  · rw [hname, hpackages, List.map_map]
    exact hr hP

namespace HoldsCategory

variable {d : Detail} {form : List UInt8} {c : Category}

/-- The count in front of the packages is theirs: they are no more than their bytes. -/
theorem toNat_count (hc : HoldsCategory h d form c) (hlt : form.length < UInt64.size) :
    c.packages.length.toUInt64.toNat = c.packages.length := by
  obtain ⟨forms, rfl, hr⟩ := hc
  have he : (readPackage h c.name d).run ⟨0, []⟩ = .error (.truncated .endOfInput) := rfl
  have hle := Reads.length_le_flatten hr he
  rw [List.length_map] at hle
  rw [List.length_append] at hlt
  exact Number.toNat_toUInt64 (by omega)

theorem reads (hc : HoldsCategory h .full form c) : (readCategory h).Reads form c := by
  intro offset hlt
  have hcount := hc.toNat_count (by omega)
  obtain ⟨forms, rfl, hr⟩ := hc
  rw [List.length_append] at hlt
  have hp := Reads.repeated hr
  rw [show c.packages.map Detail.full.reduce = c.packages from List.map_id _] at hp
  refine (reads_categoryHeader _ _ _ (by omega)).bind ?_
  dsimp only
  rw [hcount]
  exact (hp _ (by omega)).andThen (ReadsAt.pure _)

end HoldsCategory

end Record

end PackageIndex
