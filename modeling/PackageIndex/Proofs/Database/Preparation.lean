import PackageIndex.Database.Header
import PackageIndex.Proofs.Database.Dictionary

/-!
# What a prepared header holds

A header that is prepared for a tree has every text that the records of the tree refer to
(`covers_prepare`). Preparation goes through the records once and only ever adds texts, so what one
record needs is still there after all later ones.
-/

namespace PackageIndex

/-- If every step of a fold goes up in `R` and establishes `C` for its item, and `C` is kept on the
way up, then the fold goes up and establishes `C` for every item. -/
theorem foldl_establishes {σ α : Type} {step : σ → α → σ} {R : σ → σ → Prop} {C : σ → α → Prop}
    (hrefl : ∀ s, R s s) (htrans : ∀ s t u, R s t → R t u → R s u)
    (hstep : ∀ s a, R s (step s a)) (hkeep : ∀ s t a, R s t → C s a → C t a)
    (hnew : ∀ s a, C (step s a) a) (s : σ) (as : List α) :
    R s (as.foldl step s) ∧ ∀ a ∈ as, C (as.foldl step s) a := by
  induction as generalizing s with
  | nil => exact ⟨hrefl s, fun a ha => absurd ha List.not_mem_nil⟩
  | cons b as ih =>
    obtain ⟨hup, hall⟩ := ih (step s b)
    refine ⟨htrans _ _ _ (hstep s b) hup, fun a ha => ?_⟩
    rcases List.mem_cons.1 ha with rfl | ha
    · exact hkeep _ _ _ hup (hnew s a)
    · exact hall a ha

namespace Dictionaries

/-- The texts of each dictionary are in the other one, with the same indices. -/
structure Extends (d d' : Dictionaries) : Prop where
  eapi : d.eapi.entries <+: d'.eapi.entries
  license : d.license.entries <+: d'.license.entries
  slot : d.slot.entries <+: d'.slot.entries
  iuse : d.iuse.entries <+: d'.iuse.entries
  depend : d.depend.entries <+: d'.depend.entries

/-- The dictionaries have the texts that the record of an ebuild refers to. -/
structure CoversEbuild (dependencies : Bool) (d : Dictionaries) (e : Ebuild) : Prop where
  eapi : e.eapi ∈ d.eapi.entries
  slot : e.slot.name ∈ d.slot.entries
  subslot : e.slot.subText ∈ d.slot.entries
  iuse : ∀ w ∈ e.iuse, w ∈ d.iuse.entries
  depend : dependencies = true →
    ∀ f ∈ (e.depend.getD .none).fields, ∀ w ∈ Text.words f, w ∈ d.depend.entries

/-- The dictionaries have the texts that the record of a package refers to. -/
structure CoversPackage (dependencies : Bool) (d : Dictionaries) (p : Package) : Prop where
  license : p.license ∈ d.license.entries
  useFlags : ∀ w ∈ p.useFlags.toList, w ∈ d.iuse.entries
  ebuilds : ∀ e ∈ p.ebuilds, CoversEbuild dependencies d e

variable {dependencies : Bool} {d d' d'' : Dictionaries}

theorem Extends.refl (d : Dictionaries) : d.Extends d :=
  ⟨List.prefix_rfl, List.prefix_rfl, List.prefix_rfl, List.prefix_rfl, List.prefix_rfl⟩

theorem Extends.trans (h : d.Extends d') (h' : d'.Extends d'') : d.Extends d'' :=
  ⟨h.eapi.trans h'.eapi, h.license.trans h'.license, h.slot.trans h'.slot, h.iuse.trans h'.iuse,
    h.depend.trans h'.depend⟩

theorem CoversEbuild.extends {e : Ebuild} (hd : d.Extends d')
    (h : d.CoversEbuild dependencies e) : d'.CoversEbuild dependencies e where
  eapi := hd.eapi.subset h.eapi
  slot := hd.slot.subset h.slot
  subslot := hd.slot.subset h.subslot
  iuse w hw := hd.iuse.subset (h.iuse w hw)
  depend hdep f hf w hw := hd.depend.subset (h.depend hdep f hf w hw)

theorem CoversPackage.extends {p : Package} (hd : d.Extends d')
    (h : d.CoversPackage dependencies p) : d'.CoversPackage dependencies p where
  license := hd.license.subset h.license
  useFlags w hw := hd.iuse.subset (h.useFlags w hw)
  ebuilds e he := (h.ebuilds e he).extends hd

theorem insertWords_fold (d : Dictionary) (fields : List String) :
    d.entries <+: (fields.foldl Dictionary.insertWords d).entries ∧
      ∀ f ∈ fields, ∀ w ∈ Text.words f, w ∈ (fields.foldl Dictionary.insertWords d).entries := by
  rw [Dictionary.foldl_insertWords]
  refine ⟨Dictionary.entries_prefix_insertAll d _, fun f hf w hw => ?_⟩
  exact Dictionary.mem_insertAll.2 (.inr (List.mem_flatMap.2 ⟨f, hf, hw⟩))

theorem extends_addEbuild (d : Dictionaries) (e : Ebuild) :
    d.Extends (d.addEbuild dependencies e) where
  eapi := Dictionary.entries_prefix_insert _ _
  license := List.prefix_rfl
  slot := (Dictionary.entries_prefix_insert _ _).trans (Dictionary.entries_prefix_insert _ _)
  iuse := Dictionary.entries_prefix_insertAll _ _
  depend := by
    simp only [addEbuild]
    split
    · exact (insertWords_fold d.depend _).1
    · exact List.prefix_rfl

theorem coversEbuild_addEbuild (d : Dictionaries) (e : Ebuild) :
    (d.addEbuild dependencies e).CoversEbuild dependencies e where
  eapi := Dictionary.mem_insert.2 (.inl rfl)
  slot := Dictionary.mem_insert.2 (.inr (Dictionary.mem_insert.2 (.inl rfl)))
  subslot := Dictionary.mem_insert.2 (.inl rfl)
  iuse _ hw := Dictionary.mem_insertAll.2 (.inr hw)
  depend hdep := by
    simp only [addEbuild, if_pos hdep]
    exact (insertWords_fold d.depend _).2

/-- The ebuilds of a package are covered one after the other. -/
theorem addEbuilds (d : Dictionaries) (es : List Ebuild) :
    d.Extends (es.foldl (addEbuild dependencies) d) ∧
      ∀ e ∈ es, (es.foldl (addEbuild dependencies) d).CoversEbuild dependencies e :=
  foldl_establishes (R := Extends) (C := CoversEbuild dependencies) Extends.refl
    (fun _ _ _ => Extends.trans) extends_addEbuild (fun _ _ _ => CoversEbuild.extends)
    coversEbuild_addEbuild d es

theorem extends_addPackage (d : Dictionaries) (p : Package) :
    d.Extends (d.addPackage dependencies p) := by
  refine Extends.trans ?_ (addEbuilds _ p.ebuilds).1
  refine ⟨List.prefix_rfl, ?_, List.prefix_rfl, ?_, List.prefix_rfl⟩
  · exact Dictionary.entries_prefix_insert _ _
  · exact Dictionary.entries_prefix_insertAll _ _

theorem coversPackage_addPackage (d : Dictionaries) (p : Package) :
    (d.addPackage dependencies p).CoversPackage dependencies p where
  license := (addEbuilds _ p.ebuilds).1.license.subset (Dictionary.mem_insert.2 (.inl rfl))
  useFlags _ hw :=
    (addEbuilds _ p.ebuilds).1.iuse.subset (Dictionary.mem_insertAll.2 (.inr hw))
  ebuilds := (addEbuilds _ p.ebuilds).2

end Dictionaries

/-- A prepared header has the texts of every package of the tree. -/
theorem Header.covers_prepare (h : Header) {t : Tree} {p : Package} (hp : p ∈ t.packages) :
    (h.prepare t).dictionaries.CoversPackage h.storesDependencies p :=
  (foldl_establishes (R := Dictionaries.Extends)
    (C := Dictionaries.CoversPackage h.storesDependencies) Dictionaries.Extends.refl
    (fun _ _ _ => Dictionaries.Extends.trans) Dictionaries.extends_addPackage
    (fun _ _ _ => Dictionaries.CoversPackage.extends) Dictionaries.coversPackage_addPackage {}
    t.packages).2 p hp

end PackageIndex
